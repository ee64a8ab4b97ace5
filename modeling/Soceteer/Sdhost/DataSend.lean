import Soceteer.Sdhost.Card
import Soceteer.Sdhost.DataPath
import Soceteer.Sdhost.DmaTx

/-!
# Soceteer.Sdhost.DataSend — from the memory to the card

* `Supplying`: in a transfer to the card; `Supplying.draw`: the serial block finds the words of the memory in the
  FIFO.
* `memory_to_card`: a transfer that ends without an error has put the bytes of the memory on the lines.
* `Filling`, `send_begins`: how a transfer begins.
-/

namespace Soceteer.Sdhost

open Lib Clocked

variable {n a : ℕ}

/-- The words that the FIFO shows, from the word `A` of the memory on. -/
def wordsFrom (mem : BitVec a → BitVec 32) (A : BitVec a) (k : ℕ) : BitVec 32 := swap (mem (A + BitVec.ofNat a k))

theorem streamBit_wordsFrom (mem : BitVec a → BitVec 32) (A : BitVec a) (j : ℕ) :
    streamBit (wordsFrom mem A) j = (byteAt mem A (j / 8)).getMsbD (j % 8) := by
  have hword : j / 8 / 4 = j / 32 := Nat.div_div_eq_div_mul j 8 4
  have hplace : j % 32 = 8 * (j / 8 % 4) + j % 8 := by omega
  rw [streamBit, wordsFrom, byteAt, hword, hplace, swap_byte _ (by omega) (by omega)]

/-- In a transfer to the card: under way, or at the edge that finds the serial block busy. -/
structure Supplying (p : DataPath n a) : Prop where
  state : p.master.state = .dataTransfer ∨
    p.master.state = .startTxFifo ∧ p.busy = true ∧ p.bus.dma.fifo.ready = true ∧ p.serial.rd = false
  enTxFifo : p.master.enTxFifo = true
  enRxFifo : p.master.enRxFifo = false
  dRead : p.master.dRead = false
  intStatus : p.master.intStatus = 0#6

/-- A clock cycle in which a transfer to the card goes on, with a slave that answers the bursts in order, from a
memory. -/
structure SupplyStep (mem : BitVec a → BitVec 32) (p : DataPath n a) (c : CycleIn a) : Prop where
  reset : c.reset = false
  dataIntRst : c.dataIntRst = false
  answers : c.rvalid = true → p.bus.dma.cyc = true → (c.rdata, c.rlast) ∈ p.bus.owed.head?.map fun b =>
    (mem b.1, b.2)
  stays : (p.tick c).master.state ≠ .idle

instance (mem : BitVec a → BitVec 32) (p : DataPath n a) (c : CycleIn a) : Decidable (SupplyStep mem p c) :=
  decidable_of_iff (c.reset = false ∧ c.dataIntRst = false ∧
      (c.rvalid = true → p.bus.dma.cyc = true → (c.rdata, c.rlast) ∈ p.bus.owed.head?.map fun b =>
        (mem b.1, b.2)) ∧
        (p.tick c).master.state ≠ .idle)
    ⟨fun h => ⟨h.1, h.2.1, h.2.2.1, h.2.2.2⟩, fun h => ⟨h.reset, h.dataIntRst, h.answers, h.stays⟩⟩

variable {p : DataPath n a} {c : CycleIn a} {A : BitVec a} {mem : BitVec a → BitVec 32} {q : List (BitVec 32)}

theorem SupplyStep.txStep (h : Supplying p) (hc : SupplyStep mem p c) : TxStep mem p.bus (p.busIn c) :=
  ⟨hc.reset, h.enRxFifo, h.enTxFifo, hc.answers⟩

/-- A FIFO that is half full is not empty, and stays half full while nothing is taken out of it. -/
theorem Shows.ready_tick {f : Fifo n} {i : FifoIn} (h : Shows q f) (hclear : i.clear = false) (hre : i.re = false)
    (hready : f.ready = true) : (f.tick i).ready = true := by
  obtain ⟨q', horder, hshows⟩ := h.tick hclear
  have hgiven : f.given i = [] := by simp [Fifo.given, hre]
  have hlen := congrArg List.length horder
  rw [hgiven, List.nil_append, List.length_append] at hlen
  simp only [Fifo.ready, decide_eq_true_iff, h.dataLen] at hready
  simp only [Fifo.ready, decide_eq_true_iff, hshows.dataLen]
  omega

theorem Shows.ready_nonempty {f : Fifo n} (hn : 0 < n) (h : Shows q f) (hready : f.ready = true) :
    f.empty = false := by
  obtain ⟨m, rfl⟩ := Nat.exists_eq_add_one_of_ne_zero (Nat.ne_of_gt hn)
  have hpos : 0 < 2 ^ m := Nat.two_pow_pos m
  simp only [Fifo.ready, decide_eq_true_iff, h.dataLen, Nat.pow_succ] at hready
  rw [← Bool.not_eq_true, h.empty]
  rintro rfl
  simp at hready

/-- A cycle leaves the master as it is, or it is an enabled one that has found a word in the FIFO. -/
theorem Supplying.tick (hn : 0 < n) (h : Supplying p) (hinv : TxInv mem A q p.bus) (hc : SupplyStep mem p c) :
    Supplying (p.tick c) ∧ (c.clockPosedge = true → p.bus.dma.fifo.empty = false ∧
      (p.tick c).master.state = .dataTransfer ∧
      (p.master.state = .dataTransfer → (p.tick c).master.dWrite = false)) ∧
        (c.clockPosedge = false → (p.tick c).master = p.master) := by
  have hstays := hc.stays
  cases hpos : c.clockPosedge
  · have hmaster : (p.tick c).master = p.master := by simp [DataPath.tick, hc.reset, hpos]
    have hserial : (p.tick c).serial = p.serial := by simp [DataPath.tick, hc.reset, hpos]
    have hstate : (p.tick c).master.state = .dataTransfer ∨ (p.tick c).master.state = .startTxFifo ∧
        (p.tick c).busy = true ∧ (p.tick c).bus.dma.fifo.ready = true ∧ (p.tick c).serial.rd = false := by
      rw [hmaster]
      refine h.state.imp_right ?_
      rintro ⟨hs, hbusy, hready, hrd⟩
      refine ⟨hs, ?_, ?_, by rw [hserial, hrd]⟩
      · rw [DataPath.busy, hserial]
        exact hbusy
      · have hin := (hc.txStep h).fifoIn
        have hre : (p.bus.dma.fifoIn (p.busIn c)).re = false := by
          rw [hin]
          simp [DataPath.busIn, hrd]
        exact hinv.fifo.ready_tick (by rw [hin]) hre hready
    exact ⟨⟨hstate, by rw [hmaster]; exact h.enTxFifo, by rw [hmaster]; exact h.enRxFifo,
      by rw [hmaster]; exact h.dRead, by rw [hmaster]; exact h.intStatus⟩, by simp, fun _ => hmaster⟩
  · have hmaster : (p.tick c).master = p.master.tick (p.masterIn c) := by simp [DataPath.tick, hc.reset, hpos]
    have hrst : (p.masterIn c).intStatusRst = false := hc.dataIntRst
    rw [hmaster] at hstays
    rcases h.state with hs | ⟨hs, hbusy, hready, -⟩
    · rcases DataMaster.tick_transfer hs hrst with hup | ⟨hfifo, hend | ⟨hgo, htx, hrx, hread, hwrite, hstatus⟩⟩
      · exact absurd hup.1 hstays
      · exact absurd hend.2.2.2.1 hstays
      · refine ⟨⟨.inl (by rw [hmaster, hgo]), ?_, ?_, by rw [hmaster, hread], ?_⟩, fun _ =>
          ⟨hfifo.1 h.enTxFifo, ?_, fun _ => ?_⟩,
          by simp⟩
        · rw [hmaster, htx, h.enTxFifo]
        · rw [hmaster, hrx, h.enRxFifo]
        · rw [hmaster, hstatus, h.intStatus]
        · rw [hmaster, hgo]
        · rw [hmaster, hwrite]
    · have hnext : (p.tick c).master = { p.master with
          enRxFifo := false, enTxFifo := true, dWrite := true, state := .dataTransfer } := by
        rw [hmaster, DataMaster.tick, hrst, if_neg Bool.false_ne_true, DataMaster.next, hs]
        simp [DataPath.masterIn, hbusy, hready]
      refine ⟨⟨.inl
        (by rw [hnext]), by
        rw [hnext], by rw [hnext], by rw [hnext]; exact h.dRead, by rw [hnext]; exact h.intStatus⟩,
        fun _ => ⟨hinv.fifo.ready_nonempty hn hready, by rw [hnext], fun hd => ?_⟩, by simp⟩
      exact absurd (hs.symm.trans hd) (by simp)

/-- On an enabled edge the serial block finds the next word of the memory, and the FIFO gives it out when it is
asked to. -/
theorem Supplying.draw (hn : 0 < n) (h : Supplying p) (hinv : TxInv mem A q p.bus) (hc : SupplyStep mem p c) :
    ((p.tick c).serial, (p.tick c).bus.given.length) = (if c.clockPosedge then [p.serialIn c] else []).foldl
      (DataSerial.draw (wordsFrom mem A)) (p.serial, p.bus.given.length) := by
  have hedge := (h.tick hn hinv hc).2.1
  have hserial : (p.tick c).serial = if c.clockPosedge then p.serial.tick (p.serialIn c) else p.serial := by
    simp [DataPath.tick, hc.reset]
  have hin : p.bus.dma.fifoIn (p.busIn c) = ⟨false, p.bus.dma.cyc && c.rvalid, p.serial.rd &&
      c.clockPosedge, swap c.rdata⟩ :=
    (hc.txStep h).fifoIn
  have hgiven : (p.tick c).bus.given = p.bus.given ++
      if p.serial.rd && c.clockPosedge then [p.bus.dma.fifo.dout] else [] := by
    simp only [DataPath.tick, Bus.tick, hin, Fifo.given]
    cases hpos : c.clockPosedge
    · simp
    · simp [(hedge hpos).1]
  rw [hgiven, hserial]
  cases hpos : c.clockPosedge
  · simp
  · have hin : { p.serialIn c with dataIn := wordsFrom mem A p.bus.given.length } = p.serialIn c := by
      rw [wordsFrom, ← hinv.shown (hedge hpos).1]
      rfl
    simp only [if_true, List.foldl_cons, List.foldl_nil, DataSerial.draw, hin, Bool.and_true]
    cases p.serial.rd <;> simp

theorem Supplying.run {cs : List (CycleIn a)} (hn : 2 ≤ n ∧ n ≤ 10) (h : Supplying p) (hinv : TxInv mem A q p.bus)
    (hcs : Along DataPath.tick (SupplyStep mem) p cs) :
    let p' := cs.foldl DataPath.tick p
    let s := (p.serial, p.bus.given.length)
    Supplying p' ∧ (p'.serial, p'.bus.given.length) = (p.seen cs).foldl (DataSerial.draw (wordsFrom mem A)) s ∧
      p.shown cs = outputs (DataSerial.draw (wordsFrom mem A)) (·.1.lines) s (p.seen cs) := by
  induction cs generalizing p q with
  | nil => exact ⟨h, rfl, rfl⟩
  | cons c cs ih =>
    intro p' s
    have hdraw := h.draw (by omega) hinv hcs.1
    obtain ⟨q', hnext⟩ := hinv.tick hn (hcs.1.txStep h)
    obtain ⟨hend, hrun, hlines⟩ := ih (h.tick (by omega) hinv hcs.1).1 hnext hcs.2
    refine ⟨hend, ?_, ?_⟩
    · rw [DataPath.seen, List.foldl_append, ← hdraw]
      exact hrun
    · rw [DataPath.seen, DataPath.shown, outputs_append, ← hdraw, hlines]
      congr 1
      cases hpos : c.clockPosedge
      · rfl
      · have hsame : (p.tick c).serial = (DataSerial.draw (wordsFrom mem A) s (p.serialIn c)).1 := by
          rw [hpos] at hdraw
          exact congrArg Prod.fst hdraw
        simp [outputs, hsame]

/-! ## A transfer to the card -/

/-- At the start of the first block, with `nb` more to come. -/
structure SendReady (mem : BitVec a → BitVec 32) (A : BitVec a) (bus4 : Bool)
    (blksize : BitVec 12) (nb : BitVec 16)
    (al : BitVec 2) (p : DataPath n a) : Prop extends Supplying p where
  serial : WriteReady bus4 (dataCyclesOf bus4 blksize) nb al (8 * al.toNat) (p.serial, p.bus.given.length)
  bus : ∃ q, TxInv mem A q p.bus

/-- The serial block is asked to start at the first two edges at most. -/
theorem Supplying.start {cs : List (CycleIn a)} (hn : 2 ≤ n ∧ n ≤ 10) (h : Supplying p)
    (hinv : TxInv mem A q p.bus)
    (hcs : Along DataPath.tick (SupplyStep mem) p cs) :
    (p.master.state = .dataTransfer → p.master.dWrite = false → ∀ i ∈ p.seen cs, i.start = 0#2) ∧
      (p.master.state = .dataTransfer → ∀ i ∈ (p.seen cs).tail, i.start = 0#2) ∧
        ∀ i ∈ (p.seen cs).tail.tail, i.start = 0#2 := by
  induction cs generalizing p q with
  | nil => simp [DataPath.seen]
  | cons c cs ih =>
    obtain ⟨hnext, hedge, hsame⟩ := h.tick (by omega) hinv hcs.1
    obtain ⟨q', hinv'⟩ := hinv.tick hn (hcs.1.txStep h)
    obtain ⟨hall, hone, htwo⟩ := ih hnext hinv' hcs.2
    rw [DataPath.seen]
    cases hpos : c.clockPosedge
    · rw [← hsame hpos]
      exact ⟨hall, hone, htwo⟩
    · obtain ⟨-, hgo, hdown⟩ := hedge hpos
      refine ⟨fun hs hwrite i hi => ?_, fun hs => hall hgo (hdown hs), hone hgo⟩
      rcases List.mem_cons.1 hi with rfl | hi
      · simp [DataPath.serialIn, h.dRead, hwrite]
      · exact hall hgo (hdown hs) i hi

/-- Edges after a transfer change nothing, and drive no line. -/
theorem draw_idle (words : ℕ → BitVec 32) {is : List DataSerialIn} {s : DataSerial × ℕ} (hs : s.1.state = .idle)
    (hi : ∀ i ∈ is, i.start = 0#2) :
    ((is.foldl (DataSerial.draw words) s).1.state = .idle ∧
      (is.foldl (DataSerial.draw words) s).1.crcOk = s.1.crcOk) ∧
      outputs (DataSerial.draw words) (·.1.lines) s is = List.replicate is.length none := by
  induction is generalizing s with
  | nil => exact ⟨⟨hs, rfl⟩, rfl⟩
  | cons i is ih =>
    have hnext : (DataSerial.draw words s i).1.state = .idle ∧ (DataSerial.draw words s i).1.crcOk = s.1.crcOk ∧
        (DataSerial.draw words s i).1.lines = none := by
      simp [DataSerial.draw, DataSerial.tick, DataSerial.next, hs, hi i List.mem_cons_self, DataSerial.lines]
    obtain ⟨hs', hok, hline⟩ := hnext
    obtain ⟨hend, hlines⟩ := ih hs' fun j hj => hi j (List.mem_cons_of_mem i hj)
    exact ⟨⟨hend.1, hend.2.trans hok⟩, by rw [outputs, hline, hlines, List.length_cons, List.replicate_succ]⟩

/-- A transfer to the card that ends without an error: the card has accepted every block of it, and the lines have
carried the bytes of the memory from the address of the transfer on, in order, each block with its codes. -/
theorem memory_to_card {bus4 : Bool} {blksize : BitVec 12} {nb : BitVec 16} {al : BitVec 2} (hn : 2 ≤ n ∧ n ≤ 10)
    (hp : SendReady mem A bus4 blksize nb al p) {cs : List (CycleIn a)}
    (hcs : Along DataPath.tick (SupplyStep mem) p cs)
    (hc : EndStep (cs.foldl DataPath.tick p) c) {good : List Block} {last : Block} {rest : List DataSerialIn}
    (hseen : p.seen cs = (good ++ [last]).flatMap Block.edges ++ rest)
    (hgood : ∀ b ∈ good, b.Fits (dataCyclesOf bus4 blksize) blksize ∧ accepts b.bits)
    (hlast : last.Fits (dataCyclesOf bus4 blksize) blksize) (hlen : good.length ≤ nb.toNat)
    (hend : good.length = nb.toNat ∨ ¬ accepts last.bits)
    (hlate : NoneLate bus4 (blksize.toNat + 1) al.toNat (good.length + 1)) :
    let p' := cs.foldl DataPath.tick p
    let words := wordsFrom mem A
    (good.length = nb.toNat ∧ accepts last.bits) ∧ (p'.tick c).master.intStatus.getLsbD intDataCc = true ∧
      p.shown cs =
        transferLines bus4 words (dataCyclesOf bus4 blksize) (blksize.toNat + 1) (8 * al.toNat)
          (good ++ [last]) ++ List.replicate rest.length none ∧
        ∀ j, streamBit words j = (byteAt mem A (j / 8)).getMsbD (j % 8) := by
  intro p' words
  obtain ⟨q, hinv⟩ := hp.bus
  obtain ⟨hm, hrun, hshown⟩ := hp.toSupplying.run hn hinv hcs
  have hal := al.isLt
  obtain ⟨hlines, hidle, hok, -⟩ := writes_done words hp.serial hgood hlast hlen hend (by omega) hlate
  -- the edges behind the last block ask for nothing
  have hstart : ∀ i ∈ rest, i.start = 0#2 := by
    have htwo : 2 ≤ ((good ++ [last]).flatMap Block.edges).length := by
      have hsend := hlast.length
      simp [Block.edges]
      omega
    have htail := (hp.toSupplying.start hn hinv hcs).2.2
    rw [hseen] at htail
    obtain ⟨i₀, i₁, body, hbody⟩ : ∃ i₀ i₁ body, (good ++ [last]).flatMap Block.edges = i₀ :: i₁ :: body := by
      rcases hedges : (good ++ [last]).flatMap Block.edges with _ | ⟨i₀, _ | ⟨i₁, body⟩⟩
      · simp [hedges] at htwo
      · simp [hedges] at htwo
      · exact ⟨i₀, i₁, body, rfl⟩
    rw [hbody] at htail
    exact fun i hi => htail i (List.mem_append_right _ hi)
  obtain ⟨⟨hstill, hcrc⟩, hquiet⟩ := draw_idle words hidle hstart
  rw [hseen, List.foldl_append] at hrun
  rw [hseen, outputs_append, hlines, hquiet] at hshown
  have hserial : p'.serial.crcOk = _ := congrArg (·.1.crcOk) hrun
  have hstate : p'.master.state = .dataTransfer := by
    have hserial : p'.serial.state = .idle := (congrArg (·.1.state) hrun).trans hstill
    exact hm.state.resolve_right fun hbusy => by simp [DataPath.busy, p', hserial] at hbusy
  obtain ⟨-, hcrcOk, -, -, -, hcc⟩ := hc.complete hstate
  change p'.serial.crcOk = true at hcrcOk
  rw [hcrcOk, hcrc] at hserial
  have hacc := hok.1 hserial.symm
  exact ⟨⟨hend.resolve_right (not_not_intro hacc), hacc⟩, hcc, hshown, streamBit_wordsFrom mem A⟩

/-! ## The start of a transfer to the card -/

/-- The registers of a transfer, and a slave that answers the bursts in order. -/
structure FillStep (mem : BitVec a → BitVec 32) (A : BitVec a) (bus4 : Bool) (blksize : BitVec 12) (nb : BitVec 16)
    (al : BitVec 2) (p : DataPath n a) (c : CycleIn a) : Prop where
  reset : c.reset = false
  dataIntRst : c.dataIntRst = false
  blksize : c.blksize = blksize
  bus4bit : c.bus4bit = bus4
  blkcnt : c.blkcnt = nb
  word : c.dmaAddr.extractLsb' 2 a = A
  byte : c.dmaAddr.extractLsb' 0 2 = al
  answers : c.rvalid = true → p.bus.dma.cyc = true → (c.rdata, c.rlast) ∈ p.bus.owed.head?.map fun b =>
    (mem b.1, b.2)

instance (mem : BitVec a → BitVec 32) (A : BitVec a) (bus4 : Bool) (blksize : BitVec 12)
    (nb : BitVec 16) (al : BitVec 2)
    (p : DataPath n a) (c : CycleIn a) : Decidable (FillStep mem A bus4 blksize nb al p c) :=
  decidable_of_iff (c.reset = false ∧ c.dataIntRst = false ∧ c.blksize = blksize ∧
    c.bus4bit = bus4 ∧ c.blkcnt = nb ∧
      c.dmaAddr.extractLsb' 2 a = A ∧ c.dmaAddr.extractLsb' 0 2 = al ∧
        (c.rvalid = true → p.bus.dma.cyc = true →
          (c.rdata, c.rlast) ∈ p.bus.owed.head?.map fun b => (mem b.1, b.2)))
    ⟨fun ⟨h₁, h₂, h₃, h₄, h₅, h₆, h₇, h₈⟩ => ⟨h₁, h₂, h₃, h₄, h₅, h₆, h₇, h₈⟩,
      fun ⟨h₁, h₂, h₃, h₄, h₅, h₆, h₇, h₈⟩ => ⟨h₁, h₂, h₃, h₄, h₅, h₆, h₇, h₈⟩⟩

/-- The FIFO is being filled, and the serial block has not been started. -/
structure Filling (mem : BitVec a → BitVec 32) (A : BitVec a) (p : DataPath n a) : Prop where
  state : p.master.state = .startTxFifo
  enRxFifo : p.master.enRxFifo = false
  dRead : p.master.dRead = false
  intStatus : p.master.intStatus = 0#6
  serial : p.serial.state = .idle
  rd : p.serial.rd = false
  given : p.bus.given = []
  bus : p.master.enTxFifo = false ∧ BusStart A p.bus ∨ p.master.enTxFifo = true ∧ ∃ q, TxInv mem A q p.bus
  asked : p.master.dWrite = true → p.master.enTxFifo = true ∧ p.bus.dma.fifo.ready = true

section Begin

variable {bus4 : Bool} {blksize : BitVec 12} {nb : BitVec 16} {al : BitVec 2}

theorem Filling.tick_bus (hn : 2 ≤ n ∧ n ≤ 10) (h : Filling mem A p) (hc : FillStep mem A bus4 blksize nb al p c) :
    (p.tick c).bus.given = [] ∧
      (p.master.enTxFifo = false ∧ p.bus.dma.fifo.ready = false ∧ BusStart A (p.tick c).bus ∨
        p.master.enTxFifo = true ∧ (∃ q, TxInv mem A q (p.tick c).bus) ∧
          (p.bus.dma.fifo.ready = true → (p.tick c).bus.dma.fifo.ready = true)) := by
  have hre : (p.bus.dma.fifoIn (p.busIn c)).re = false := by simp [Dma.fifoIn, DataPath.busIn, h.enRxFifo, h.rd]
  refine ⟨by simp [DataPath.tick, Bus.tick, Fifo.given, hre, h.given], ?_⟩
  rcases h.bus with ⟨hoff, hbus⟩ | ⟨hon, q, hinv⟩
  · have hempty : p.bus.dma.fifo.empty = true := hbus.fifo.empty.2 rfl
    have hready : p.bus.dma.fifo.ready = false := by
      rw [← Bool.not_eq_true]
      intro hr
      have hne := hbus.fifo.ready_nonempty (by omega) hr
      exact absurd hempty (by simp [hne])
    rw [← hc.word]
    exact .inl ⟨hoff, hready, hbus.toBusIdle.tick_off (i := p.busIn c) hc.reset ⟨h.enRxFifo, hoff⟩⟩
  · have hstep : TxStep mem p.bus (p.busIn c) := ⟨hc.reset, h.enRxFifo, hon, hc.answers⟩
    have hclear : (p.bus.dma.fifoIn (p.busIn c)).clear = false := by rw [hstep.fifoIn]
    exact .inr ⟨hon, hinv.tick hn hstep, hinv.fifo.ready_tick hclear hre⟩

/-- A cycle between enabled edges. -/
theorem Filling.tick_between (hn : 2 ≤ n ∧ n ≤ 10) (h : Filling mem A p)
    (hc : FillStep mem A bus4 blksize nb al p c)
    (hpos : c.clockPosedge = false) : Filling mem A (p.tick c) := by
  obtain ⟨hgiven, hbus⟩ := h.tick_bus hn hc
  have hmaster : (p.tick c).master = p.master := by simp [DataPath.tick, hc.reset, hpos]
  have hserial : (p.tick c).serial = p.serial := by simp [DataPath.tick, hc.reset, hpos]
  refine ⟨by rw [hmaster, h.state], by rw [hmaster, h.enRxFifo], by rw [hmaster, h.dRead],
    by rw [hmaster, h.intStatus], by rw [hserial, h.serial], by rw [hserial, h.rd], hgiven, ?_, ?_⟩
  · rw [hmaster]
    exact hbus.imp (fun hb => ⟨hb.1, hb.2.2⟩) fun hb => ⟨hb.1, hb.2.1⟩
  · rw [hmaster]
    intro hw
    obtain ⟨hon, hready⟩ := h.asked hw
    rcases hbus with ⟨hoff, -⟩ | ⟨-, -, hstill⟩
    · exact absurd hon (by simp [hoff])
    · exact ⟨hon, hstill hready⟩

/-- An enabled edge: the FIFO is turned on, and the serial block is asked to start when it is half full. -/
theorem Filling.tick_edge (hn : 2 ≤ n ∧ n ≤ 10) (h : Filling mem A p) (hc : FillStep mem A bus4 blksize nb al p c)
    (hpos : c.clockPosedge = true) (hasked : p.master.dWrite = false) : Filling mem A (p.tick c) := by
  obtain ⟨hgiven, hbus⟩ := h.tick_bus hn hc
  have hbusy : p.busy = false := by simp [DataPath.busy, h.serial]
  have hrst : (p.masterIn c).intStatusRst = false := hc.dataIntRst
  have hmaster : (p.tick c).master = { p.master with
      enRxFifo := false, enTxFifo := true, dWrite := p.bus.dma.fifo.ready, state := .startTxFifo } := by
    have htick : (p.tick c).master = p.master.tick (p.masterIn c) := by simp [DataPath.tick, hc.reset, hpos]
    rw [htick, DataMaster.tick, hrst, if_neg Bool.false_ne_true, DataMaster.next, h.state]
    cases hready : p.bus.dma.fifo.ready
    · simp [DataPath.masterIn, hready, hasked]
    · simp [DataPath.masterIn, hready, hbusy]
  have hserial : (p.tick c).serial.state = .idle ∧ (p.tick c).serial.rd = false := by
    have hstart : (p.serialIn c).start = 0#2 := by simp [DataPath.serialIn, h.dRead, hasked]
    simp [DataPath.tick, hc.reset, hpos, DataSerial.tick, DataSerial.next, h.serial, hstart]
  refine ⟨by rw [hmaster], by rw [hmaster], by rw [hmaster]; exact h.dRead, by rw [hmaster]; exact h.intStatus,
    hserial.1,
    hserial.2, hgiven, .inr ⟨by rw [hmaster], ?_⟩, ?_⟩
  · rcases hbus with ⟨-, -, hstart⟩ | ⟨-, hinv, -⟩
    · exact ⟨[], hstart.tx⟩
    · exact hinv
  · rw [hmaster]
    intro hready
    rcases hbus with ⟨-, hnot, -⟩ | ⟨-, -, hstill⟩
    · exact absurd hready (by simp [hnot])
    · exact ⟨rfl, hstill hready⟩

/-- The edge that starts the serial block. -/
theorem Filling.tick_start (hn : 2 ≤ n ∧ n ≤ 10) (h : Filling mem A p) (hc : FillStep mem A bus4 blksize nb al p c)
    (hpos : c.clockPosedge = true) (hasked : p.master.dWrite = true) :
    SendReady mem A bus4 blksize nb al (p.tick c) ∧ (p.tick c).bus.dma.fifo.ready = true := by
  obtain ⟨hon, hready⟩ := h.asked hasked
  obtain ⟨hgiven, hbus⟩ := h.tick_bus hn hc
  obtain ⟨-, hinv, hstill⟩ := hbus.resolve_left fun hb => by simp [hon] at hb
  have hbusy : p.busy = false := by simp [DataPath.busy, h.serial]
  have hrst : (p.masterIn c).intStatusRst = false := hc.dataIntRst
  have hmaster : (p.tick c).master = { p.master with
      enRxFifo := false, enTxFifo := true, dWrite := true, state := .startTxFifo } := by
    have htick : (p.tick c).master = p.master.tick (p.masterIn c) := by simp [DataPath.tick, hc.reset, hpos]
    rw [htick, DataMaster.tick, hrst, if_neg Bool.false_ne_true, DataMaster.next, h.state]
    simp [DataPath.masterIn, hready, hbusy]
  have hstart : (p.serialIn c).start = 0b01#2 := by
    simp only [DataPath.serialIn, h.dRead, hasked]
    rfl
  have hdraw := (DataSerial.draw_start (fun _ => p.bus.dma.fifo.dout) h.serial h.rd hstart).1
  have hserial :
      DataSerial.draw (fun _ => p.bus.dma.fifo.dout) (p.serial, 0) (p.serialIn c) = ((p.tick c).serial, 0) := by
    have hin : { p.serialIn c with dataIn := p.bus.dma.fifo.dout } = p.serialIn c := rfl
    simp [DataSerial.draw, DataPath.tick, hc.reset, hpos, h.rd, hin]
  have hregs : (p.serialIn c).bus4bit = bus4 ∧ (p.serialIn c).blksize = blksize ∧ (p.serialIn c).blkcnt = nb ∧
      (p.serialIn c).byteAlignment = al := ⟨hc.bus4bit, hc.blksize, hc.blkcnt, hc.byte⟩
  rw [hserial, hregs.1, hregs.2.1, hregs.2.2.1, hregs.2.2.2] at hdraw
  have hbusy' : (p.tick c).busy = true := by
    simp [DataPath.busy, show (p.tick c).serial.state = .writeDat from hdraw.state]
  refine ⟨⟨⟨.inr ⟨by rw [hmaster], hbusy', hstill hready, hdraw.rd⟩, by rw [hmaster], by rw [hmaster], ?_, ?_⟩,
    ?_, hinv⟩,
    hstill hready⟩
  · rw [hmaster]
    exact h.dRead
  · rw [hmaster]
    exact h.intStatus
  · rw [hgiven]
    exact hdraw

theorem Filling.tick (hn : 2 ≤ n ∧ n ≤ 10) (h : Filling mem A p) (hc : FillStep mem A bus4 blksize nb al p c) :
    Filling mem A (p.tick c) ∨
      SendReady mem A bus4 blksize nb al (p.tick c) ∧ (p.tick c).bus.dma.fifo.ready = true := by
  cases hpos : c.clockPosedge
  · exact .inl (h.tick_between hn hc hpos)
  · cases hasked : p.master.dWrite
    · exact .inl (h.tick_edge hn hc hpos hasked)
    · exact .inr (h.tick_start hn hc hpos hasked)

theorem Filling.run (hn : 2 ≤ n ∧ n ≤ 10) {cs : List (CycleIn a)} (h : Filling mem A p)
    (hcs : Along DataPath.tick (fun p c => FillStep mem A bus4 blksize nb al p c ∧ p.busy = false) p cs) :
    let p' := cs.foldl DataPath.tick p
    Filling mem A p' ∨ SendReady mem A bus4 blksize nb al p' ∧ p'.bus.dma.fifo.ready = true := by
  refine Along.invariant
    (I := fun p => Filling mem A p ∨ SendReady mem A bus4 blksize nb al p ∧ p.bus.dma.fifo.ready = true)
    (fun p c hp hc => ?_) hcs (.inl h)
  rcases hp with hfill | hready
  · exact hfill.tick hn hc.1
  · exact absurd hc.2 (by simp [DataPath.busy, show p.serial.state = .writeDat from hready.1.serial.state])

/-- The enabled edge that sees `start_tx`, with everything at rest. -/
theorem filling_start (hm : p.master.state = .idle) (hstatus : p.master.intStatus = 0#6)
    (hoff : p.master.enRxFifo = false ∧ p.master.enTxFifo = false ∧ p.master.dRead = false ∧
      p.master.dWrite = false)
    (hs : p.serial.state = .idle) (hbus : BusIdle p.bus) (hc : FillStep mem A bus4 blksize nb al p c)
    (hpos : c.clockPosedge = true) (htx : c.startTx = true) : Filling mem A (p.tick c) := by
  have hnext := hbus.tick_off (i := p.busIn c) hc.reset ⟨hoff.1, hoff.2.1⟩
  have hA : (p.busIn c).dmaAddr = A := hc.word
  rw [hA] at hnext
  have hrst : (p.masterIn c).intStatusRst = false := hc.dataIntRst
  have hmaster : (p.tick c).master = { p.master with
      enTxFifo := false, enRxFifo := false, dWrite := false, dRead := false, watchdog := 0#28,
      watchdogEnable := c.timeout ≠ 0#28, state := .startTxFifo } := by
    have htick : (p.tick c).master = p.master.tick (p.masterIn c) := by simp [DataPath.tick, hc.reset, hpos]
    rw [htick, DataMaster.tick, hrst, if_neg Bool.false_ne_true, DataMaster.next, hm]
    simp [DataPath.masterIn, htx]
  have hserial : (p.tick c).serial.state = .idle ∧ (p.tick c).serial.rd = false := by
    have hstart : (p.serialIn c).start = 0#2 := by simp [DataPath.serialIn, hoff.2.2.1, hoff.2.2.2]
    simp [DataPath.tick, hc.reset, hpos, DataSerial.tick, DataSerial.next, hs, hstart]
  have hgiven : (p.tick c).bus.given = [] := hnext.fresh.2.1
  have hsplit : p.tick c = ⟨(p.tick c).master, (p.tick c).serial, (p.tick c).bus⟩ := rfl
  rw [hsplit, hmaster]
  exact ⟨rfl, rfl, rfl, hstatus, hserial.1, hserial.2, hgiven, .inl ⟨rfl, hnext⟩, fun hw => absurd hw (by simp)⟩

/-- A transfer to the card begins: from the enabled edge that sees `start_tx` until the serial block is busy, the
FIFO is being filled and gives nothing out; when it is busy, it is at the start of the first block, and the FIFO
holds the words of the memory from the address of the transfer on, half full at least. -/
theorem send_begins (hn : 2 ≤ n ∧ n ≤ 10) (hm : p.master.state = .idle) (hstatus : p.master.intStatus = 0#6)
    (hoff : p.master.enRxFifo = false ∧ p.master.enTxFifo = false ∧ p.master.dRead = false ∧
      p.master.dWrite = false)
    (hs : p.serial.state = .idle) (hbus : BusIdle p.bus) (hc : FillStep mem A bus4 blksize nb al p c)
    (hpos : c.clockPosedge = true) (htx : c.startTx = true) {cs : List (CycleIn a)}
    (hcs : Along DataPath.tick (fun p c => FillStep mem A bus4 blksize nb al p c ∧ p.busy = false) (p.tick c) cs) :
    let p' := (c :: cs).foldl DataPath.tick p
    (p'.busy = false → p'.master.state = .startTxFifo ∧ p'.bus.given = []) ∧
      (p'.busy = true → SendReady mem A bus4 blksize nb al p' ∧ p'.bus.dma.fifo.ready = true) := by
  intro p'
  have hstart := filling_start hm hstatus hoff hs hbus hc hpos htx
  rcases hstart.run hn hcs with hfill | hready
  · have hbusy : p'.busy = false := by simp [DataPath.busy, show p'.serial.state = .idle from hfill.serial]
    exact ⟨fun _ => ⟨hfill.state, hfill.given⟩, fun hb => absurd hb (by simp [hbusy])⟩
  · have hbusy : p'.busy = true := by
      simp [DataPath.busy, show p'.serial.state = .writeDat from hready.1.serial.state]
    exact ⟨fun hb => absurd hbusy (by simp [hb]), fun _ => hready⟩

end Begin

/-! Two blocks of four bytes on four lines, the words of `twoWords`. -/

/-- The cycles, with a slave that sends a word when it owes one. -/
def answered (mem : BitVec a → BitVec 32) : DataPath n a → List (CycleIn a) → List (CycleIn a)
  | _, [] => []
  | p, c :: cs =>
    let c' := match p.bus.owed with
      | [] => c
      | b :: _ => { c with rvalid := true, rdata := mem b.1, rlast := b.2 }
    c' :: answered mem (p.tick c') cs

def wordMem (k : BitVec 10) : BitVec 32 := twoWords k.toNat

def restPath : DataPath 2 10 := ⟨default, default, Bus.rest 2 10⟩

def fillFirst : CycleIn 10 := { wordCycle with startTx := true }

def fillCycles : List (CycleIn 10) := answered wordMem (restPath.tick fillFirst) (List.replicate 7 wordCycle)

def filledPath : DataPath 2 10 := (fillFirst :: fillCycles).foldl DataPath.tick restPath

theorem restPath_idle : BusIdle restPath.bus := ⟨rfl, rfl, rfl, rfl, rfl, rfl, rfl, rfl, rfl, rfl, rfl, rfl⟩

theorem fillFirst_step : FillStep wordMem 0#10 true 3#12 1#16 0#2 restPath fillFirst := by decide

theorem fillCycles_along :
    Along DataPath.tick (fun p c => FillStep wordMem 0#10 true 3#12 1#16 0#2 p c ∧ p.busy = false)
    (restPath.tick fillFirst) fillCycles := by decide

theorem send_begins_word :
    SendReady wordMem 0#10 true 3#12 1#16 0#2 filledPath ∧ filledPath.bus.dma.fifo.ready = true :=
  (send_begins (by omega) rfl rfl ⟨rfl, rfl, rfl, rfl⟩ rfl restPath_idle fillFirst_step rfl rfl fillCycles_along).2
    (by decide)

/-- The lines in the edges of a block: the card accepts it at once. -/
def wordLines : List (BitVec 4) :=
  List.replicate 29 0xf#4 ++ 0xe#4 :: ([0xe#4, 0xf#4, 0xe#4, 0xf#4] ++ List.replicate 12 0xf#4 ++ [0xf#4])

def blockCycles : List (CycleIn 10) :=
  answered wordMem filledPath ((wordLines ++ wordLines).map fun d => { wordCycle with datReg := d })

def blockOf (edges : List DataSerialIn) : Block where
  send := edges.take 29
  answer := edges.drop 29
  bits := fun k => [false, true, false, true][k]?.getD true

theorem blockOf_fits {edges : List DataSerialIn} (hlines : edges.map DataSerialIn.datReg = wordLines)
    (hsteady : ∀ i ∈ edges, i.start ≠ 0b11#2 ∧ i.blksize = 3#12) : (blockOf edges).Fits 8 3#12 := by
  have hlen : edges.length = 47 := by simpa [wordLines] using congrArg List.length hlines
  have hanswer : (edges.drop 29).map DataSerialIn.datReg = wordLines.drop 29 := by rw [List.map_drop, hlines]
  have hcut : (edges.drop 29).length = 16 + 2 := by simp [hlen]
  obtain ⟨first, token, last, hsplit, htoken⟩ := exists_ends hcut
  rw [hsplit, List.map_cons, List.map_append, List.map_singleton] at hanswer
  obtain ⟨hfirst, hrest⟩ := List.cons_eq_cons.1 hanswer
  obtain ⟨hbits, hlast⟩ := List.append_inj hrest (by simp [htoken])
  obtain ⟨hlast, -⟩ := List.cons_eq_cons.1 hlast
  refine ⟨by simp [blockOf, hlen], fun i hi => (hsteady i (List.mem_of_mem_take hi)).1,
    ⟨[], first, token, [], last, hsplit, List.forall_mem_nil _, by rw [hfirst]; rfl, htoken, fun k hk hk' => ?_,
      List.forall_mem_nil _, by rw [hlast]; rfl⟩, fun i hi => hsteady i (List.mem_of_mem_drop hi)⟩
  have hbit := List.getElem_of_eq hbits (by simpa using hk')
  rw [List.getElem_map] at hbit
  rw [hbit]
  interval_cases k <;> simp [blockOf]

/-- One of the two blocks. -/
def wordBlockAt (k : ℕ) : Block := blockOf (((filledPath.seen blockCycles).drop (47 * k)).take 47)

theorem wordBlockAt_fits : ∀ k < 2, (wordBlockAt k).Fits 8 3#12 := by
  have hlines :
      ∀ k < 2, (((filledPath.seen blockCycles).drop (47 * k)).take 47).map DataSerialIn.datReg = wordLines := by
    intro k hk
    interval_cases k <;> rfl
  have hsteady : ∀ i ∈ filledPath.seen blockCycles, i.start ≠ 0b11#2 ∧ i.blksize = 3#12 := by decide +kernel
  exact fun k hk => blockOf_fits (hlines k hk) fun i hi =>
    hsteady i (List.mem_of_mem_drop (List.mem_of_mem_take hi))

theorem memory_to_card_word :
    let p' := blockCycles.foldl DataPath.tick filledPath
    (p'.tick wordCycle).master.intStatus.getLsbD intDataCc = true ∧ filledPath.shown blockCycles
      = transferLines true (wordsFrom wordMem 0#10) 8 4 0 [wordBlockAt 0, wordBlockAt 1] := by
  intro p'
  have hready : SendReady wordMem 0#10 true 3#12 1#16 0#2 filledPath := by
    have hfirst := filling_start rfl rfl ⟨rfl, rfl, rfl, rfl⟩ rfl restPath_idle fillFirst_step rfl rfl
    have hrun : Filling wordMem 0#10 filledPath ∨ SendReady wordMem 0#10 true 3#12 1#16 0#2 filledPath ∧
        filledPath.bus.dma.fifo.ready = true := by
      rw [filledPath, List.foldl_cons]
      exact hfirst.run (by omega) fillCycles_along
    rcases hrun with hfill | hready
    · have hbusy : filledPath.serial.state ≠ .idle := by decide
      exact absurd hfill.serial hbusy
    · exact hready.1
  have hend : EndStep p' wordCycle := ⟨rfl, rfl, rfl, by decide +kernel, by decide +kernel⟩
  have hcycles : Along DataPath.tick (SupplyStep wordMem) filledPath blockCycles := by decide +kernel
  have hgood : ∀ b ∈ [wordBlockAt 0], b.Fits 8 3#12 ∧ accepts b.bits := by
    intro b hb
    rw [List.mem_singleton.1 hb]
    exact ⟨wordBlockAt_fits 0 (by omega), rfl, rfl, rfl, rfl⟩
  have hseen : filledPath.seen blockCycles = ([wordBlockAt 0] ++ [wordBlockAt 1]).flatMap Block.edges ++ [] := by
    have hlen : (filledPath.seen blockCycles).length = 47 + 47 := rfl
    have hedges : ∀ edges : List DataSerialIn, (blockOf edges).edges = edges := fun _ => List.take_append_drop ..
    have hrest : ((filledPath.seen blockCycles).drop 47).take 47 = (filledPath.seen blockCycles).drop 47 :=
      List.take_of_length_le (by rw [List.length_drop, hlen])
    change _ = (wordBlockAt 0).edges ++ ((wordBlockAt 1).edges ++ []) ++ []
    rw [wordBlockAt, wordBlockAt, hedges, hedges, Nat.mul_zero, List.drop_zero, Nat.mul_one,
      hrest, List.append_nil,
      List.append_nil, List.take_append_drop]
  have hlate : NoneLate true 4 0 2 := by
    intro _ k hk
    omega
  have h :=
    @memory_to_card 2 10 filledPath wordCycle 0#10 wordMem true 3#12 1#16 0#2 (by omega) hready blockCycles hcycles
    hend _ _ [] hseen hgood (wordBlockAt_fits 1 (by omega)) (Nat.le_refl 1) (.inl rfl) hlate
  have hlines := h.2.2.1
  rw [List.length_nil, List.replicate_zero, List.append_nil] at hlines
  exact ⟨h.2.1, hlines⟩

end Soceteer.Sdhost
