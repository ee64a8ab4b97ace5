import Soceteer.Sdhost.Card
import Soceteer.Sdhost.DataPath
import Soceteer.Sdhost.DmaRx

/-!
# Soceteer.Sdhost.DataFetch — from the card to the memory

* `Fetching`: in a transfer from the card; `Fetching.feed`: the FIFO gets what the serial block reads.
* `card_to_memory`: a transfer that ends without an error has put the bytes of its blocks into the memory.
* `Begun`, `fetch_begins`: how a transfer begins.
-/

namespace Soceteer.Sdhost

open Lib Clocked

variable {n a : ℕ}

/-- In a transfer from the card. -/
structure Fetching (p : DataPath n a) : Prop where
  state : p.master.state = .dataTransfer
  enRxFifo : p.master.enRxFifo = true
  enTxFifo : p.master.enTxFifo = false
  dWrite : p.master.dWrite = false
  intStatus : p.master.intStatus = 0#6

/-- A clock cycle in which a transfer from the card goes on, with a slave that accepts the address of a burst not
after its data. -/
structure FetchStep (p : DataPath n a) (c : CycleIn a) : Prop where
  reset : c.reset = false
  dataIntRst : c.dataIntRst = false
  inOrder : p.bus.dma.wvalid = true → p.bus.dma.wlast = true → c.wready = true →
    p.bus.dma.awvalid = true → c.awready = true
  stays : (p.tick c).master.state = .dataTransfer

instance (p : DataPath n a) (c : CycleIn a) : Decidable (FetchStep p c) :=
  decidable_of_iff (c.reset = false ∧ c.dataIntRst = false ∧
      (p.bus.dma.wvalid = true → p.bus.dma.wlast = true → c.wready = true → p.bus.dma.awvalid = true →
        c.awready = true) ∧
        (p.tick c).master.state = .dataTransfer)
    ⟨fun h => ⟨h.1, h.2.1, h.2.2.1, h.2.2.2⟩, fun h => ⟨h.reset, h.dataIntRst, h.inOrder, h.stays⟩⟩

variable {p : DataPath n a} {c : CycleIn a} {A : BitVec a}

theorem FetchStep.rxStep (h : Fetching p) (hc : FetchStep p c) : RxStep p.bus (p.busIn c) :=
  ⟨hc.reset, h.enRxFifo, h.enTxFifo, hc.inOrder⟩

/-- A cycle leaves the master as it is, or it is an enabled one that has found room in the FIFO. -/
theorem Fetching.tick (h : Fetching p) (hc : FetchStep p c) : Fetching (p.tick c) ∧
    (c.clockPosedge = true → p.bus.dma.fifo.full = false ∧ (p.tick c).master.dRead = false) ∧
      (c.clockPosedge = false → (p.tick c).master.dRead = p.master.dRead) := by
  have hstays := hc.stays
  cases hpos : c.clockPosedge
  · have hsame : (p.tick c).master = p.master := by simp [DataPath.tick, hc.reset, hpos]
    rw [hsame]
    exact ⟨⟨by rw [hsame]; exact h.state, by rw [hsame]; exact h.enRxFifo, by rw [hsame]; exact h.enTxFifo,
      by rw [hsame]; exact h.dWrite, by rw [hsame]; exact h.intStatus⟩, by simp, fun _ => rfl⟩
  · have hnext : (p.tick c).master = p.master.tick (p.masterIn c) := by simp [DataPath.tick, hc.reset, hpos]
    rw [hnext] at hstays
    obtain ⟨-, hfull, htx, hrx, hread, hwrite, hstatus⟩ :=
      DataMaster.stays (i := p.masterIn c) h.state hc.dataIntRst hstays
    rw [hnext]
    refine ⟨⟨by rw [hnext]; exact hstays, ?_, ?_, by rw [hnext]; exact hwrite, ?_⟩, fun _ =>
      ⟨hfull h.enRxFifo, hread⟩, by simp⟩
    · rw [hnext, hrx, h.enRxFifo]
    · rw [hnext, htx, h.enTxFifo]
    · rw [hnext, hstatus, h.intStatus]

/-- On an enabled edge the serial block moves, and the FIFO takes the word that it finds; on another one neither
does. -/
theorem Fetching.feed (h : Fetching p) (hc : FetchStep p c) :
    ((p.tick c).serial, (p.tick c).bus.taken)
      = (if c.clockPosedge then [p.serialIn c] else []).foldl DataSerial.feed (p.serial, p.bus.taken) := by
  have hfull := (h.tick hc).2.1
  have hin : p.bus.dma.fifoIn (p.busIn c)
      = ⟨false, p.serial.we && c.clockPosedge, c.wready && p.bus.dma.wvalid, p.serial.dataOut⟩ :=
        (hc.rxStep h).fifoIn
  have htaken : (p.tick c).bus.taken = p.bus.taken ++ if p.serial.we && c.clockPosedge then [p.serial.dataOut]
      else [] := by
    simp only [DataPath.tick, Bus.tick, hin, Fifo.taken]
    cases hpos : c.clockPosedge
    · simp
    · simp [(hfull hpos).1]
  have hserial : (p.tick c).serial = if c.clockPosedge then p.serial.tick (p.serialIn c) else p.serial := by
    simp [DataPath.tick, hc.reset]
  rw [htaken, hserial]
  cases c.clockPosedge
  · simp
  · cases hwe : p.serial.we <;> simp [DataSerial.feed, hwe]

theorem Fetching.run {cs : List (CycleIn a)} (h : Fetching p) (hcs : Along DataPath.tick FetchStep p cs) :
    Fetching (cs.foldl DataPath.tick p) ∧
      ((cs.foldl DataPath.tick p).serial, (cs.foldl DataPath.tick p).bus.taken)
        = (p.seen cs).foldl DataSerial.feed (p.serial, p.bus.taken) := by
  induction cs generalizing p with
  | nil => exact ⟨h, rfl⟩
  | cons c cs ih =>
    obtain ⟨hend, hrun⟩ := ih (h.tick hcs.1).1 hcs.2
    refine ⟨hend, ?_⟩
    rw [DataPath.seen, List.foldl_append, ← h.feed hcs.1]
    exact hrun

theorem Fetching.bus {cs : List (CycleIn a)} {q : List (BitVec 32)} (hn : 2 ≤ n ∧ n ≤ 10) (h : Fetching p)
    (hcs : Along DataPath.tick FetchStep p cs) (hinv : RxInv A q p.bus) :
      ∃ q, RxInv A q (cs.foldl DataPath.tick p).bus := by
  induction cs generalizing p q with
  | nil => exact ⟨q, hinv⟩
  | cons c cs ih =>
    obtain ⟨q', hnext⟩ := hinv.tick hn (hcs.1.rxStep h)
    exact ih (h.tick hcs.1).1 hcs.2 hnext

/-! ## A transfer from the card -/

/-- At the start of the first block, with `nb` more to come. -/
structure FetchReady (A : BitVec a) (bus4 : Bool) (blksize : BitVec 12) (nb : BitVec 16)
    (al : BitVec 2) (w : BitVec 32)
    (p : DataPath n a) : Prop extends Fetching p where
  serial : ReadWaiting bus4 (dataCyclesOf bus4 blksize) nb al ⟨[], w, 8 * al.toNat⟩ (p.serial, [])
  bus : BusStart A p.bus

/-- The serial block is asked to start at the first edge at most. -/
theorem Fetching.start {cs : List (CycleIn a)} (h : Fetching p) (hcs : Along DataPath.tick FetchStep p cs) :
    (p.master.dRead = false → ∀ i ∈ p.seen cs, i.start = 0#2) ∧ ∀ i ∈ (p.seen cs).tail, i.start = 0#2 := by
  induction cs generalizing p with
  | nil => simp [DataPath.seen]
  | cons c cs ih =>
    obtain ⟨hnext, hedge, hsame⟩ := h.tick hcs.1
    obtain ⟨hall, htail⟩ := ih hnext hcs.2
    rw [DataPath.seen]
    cases hpos : c.clockPosedge
    · rw [← hsame hpos]
      exact ⟨hall, htail⟩
    · have hrest := hall (hedge hpos).2
      refine ⟨fun hread i hi => ?_, hrest⟩
      rcases List.mem_cons.1 hi with rfl | hi
      · simp [DataPath.serialIn, hread, h.dWrite]
      · exact hrest i hi

/-- Edges after a transfer change nothing. -/
theorem DataSerial.feed_idle {is : List DataSerialIn} {s : DataSerial × List (BitVec 32)} (hs : s.1.state = .idle)
    (hwe : s.1.we = false) (hi : ∀ i ∈ is, i.start = 0#2) :
    (is.foldl DataSerial.feed s).1.crcOk = s.1.crcOk ∧ (is.foldl DataSerial.feed s).2 = s.2 := by
  induction is generalizing s with
  | nil => exact ⟨rfl, rfl⟩
  | cons i is ih =>
    have hstart := hi i List.mem_cons_self
    have hnext : (DataSerial.feed s i).1.state = .idle ∧ (DataSerial.feed s i).1.we = false ∧
        (DataSerial.feed s i).1.crcOk = s.1.crcOk ∧ (DataSerial.feed s i).2 = s.2 := by
      simp [DataSerial.feed, DataSerial.tick, DataSerial.next, hs, hwe, hstart]
    obtain ⟨hs', hwe', hcrc, hwords⟩ := hnext
    rw [List.foldl_cons, ← hcrc, ← hwords]
    exact ih hs' hwe' fun j hj => hi j (List.mem_cons_of_mem i hj)

/-- A transfer from the card that ends without an error: no block of it was spoilt, each burst has been answered,
and the bytes that the card has sent are in the memory, one after the other from the address of the transfer on. -/
theorem card_to_memory {bus4 : Bool} {blksize : BitVec 12} {nb : BitVec 16} {al : BitVec 2} {w : BitVec 32}
    (hn : 2 ≤ n ∧ n ≤ 10) (hp : FetchReady A bus4 blksize nb al w p) {cs : List (CycleIn a)}
    (hcs : Along DataPath.tick FetchStep p cs) (hc : EndStep (cs.foldl DataPath.tick p) c)
    {good : List Sent} {last : Sent}
    {rest : List DataSerialIn} (hseen : p.seen cs = (good ++ [last]).flatMap Sent.edges ++ rest)
    (hblocks : ∀ b ∈ good ++ [last], Carries bus4 blksize b.comes b.edges ∧
      Spoilt bus4 (dataCyclesOf bus4 blksize) b.sent b.comes)
    (hgood : ∀ b ∈ good, Whole bus4 b.sent b.comes) (hlen : good.length ≤ nb.toNat)
    (hend : good.length = nb.toNat ∨ ¬ Whole bus4 last.sent last.comes) (m : BitVec a → BitVec 32)
    (hfits : (8 * al.toNat + (sentBits bus4 blksize (good ++ [last])).length + 31) / 32 ≤ 2 ^ a) :
    let p' := cs.foldl DataPath.tick p
    let bits := sentBits bus4 blksize (good ++ [last])
    let first := 8 * al.toNat
    (good.length = nb.toNat ∧ Whole bus4 last.sent last.comes) ∧ p'.bus.acks = p'.bus.aws.length ∧
      (p'.tick c).master.intStatus.getLsbD intDataCc = true ∧
        ∀ j (hj : j < bits.length),
          (byteAt (stored m p'.bus.writes) A ((first + j) / 8)).getMsbD ((first + j) % 8) = bits[j] := by
  intro p' bits first
  obtain ⟨hm, hrun⟩ := hp.toFetching.run hcs
  obtain ⟨q, hinv⟩ := hp.toFetching.bus hn hcs hp.bus.rx
  -- the serial block, up to the end of the transfer and after it
  obtain ⟨htaken₀, -⟩ := hp.bus.fresh
  obtain ⟨hidle, hwe, hok, hwords⟩ := reads_sent hp.serial hblocks hgood hlen hend
  have hstart : ∀ i ∈ rest, i.start = 0#2 := by
    obtain ⟨⟨quiet, first, body, hsplit, -⟩, -⟩ := (hblocks last (by simp)).1
    have hne : (good ++ [last]).flatMap Sent.edges ≠ [] := by simp [hsplit]
    have htail := (hp.toFetching.start hcs).2
    rw [hseen, List.tail_append_of_ne_nil hne] at htail
    exact fun i hi => htail i (List.mem_append_right _ hi)
  obtain ⟨hcrc, hsame⟩ := DataSerial.feed_idle hidle hwe hstart
  rw [htaken₀, hseen, List.foldl_append] at hrun
  have hserial : p'.serial.crcOk = _ := congrArg (·.1.crcOk) hrun
  have htaken : p'.bus.taken = _ := congrArg Prod.snd hrun
  -- the edge that ends it
  obtain ⟨-, hcrcOk, hcyc, hcnt, hempty, hcc⟩ := hc.complete hm.state
  change p'.serial.crcOk = true at hcrcOk
  rw [hcrcOk, hcrc] at hserial
  obtain ⟨hfull, hflush⟩ := hwords hserial.symm
  -- the memory
  obtain ⟨hacks, hwrites⟩ := hinv.complete hcyc hcnt (hempty.resolve_left (by simp [hm.enTxFifo]))
  refine ⟨⟨hfull, hok.1 hserial.symm⟩, hacks, hcc, fun j hj => ?_⟩
  have hal := al.isLt
  obtain ⟨hnum, hbit⟩ := Packer.flush_foldl (show first < 32 by omega) w bits
  rw [← hflush, ← hsame, ← htaken] at hnum hbit
  have hin : (first + j) / 32 < (p'.bus.taken.map swap).length := by
    rw [List.length_map, hnum]
    omega
  have hword := stored_placed (A := A) m (p'.bus.taken.map swap) (by rw [List.length_map, hnum]; exact hfits) _ hin
  have hval := hbit j hj
  rw [List.getElem?_eq_getElem (by simpa using hin), Option.getD_some] at hval
  have hplace : 8 * ((first + j) / 8 % 4) + (first + j) % 8 = (first + j) % 32 := by omega
  rw [byteAt, hwrites, Nat.div_div_eq_div_mul, hword, List.getElem_map, byte_swap _ (by omega) (by omega),
    hplace, hval]

def wordStart : DataSerialIn := ⟨0#32, 0xf#4, 3#12, true, 1#16, 0b10#2, 0#2⟩

def wordPath : DataPath 2 10 where
  master := { (default : DataMaster) with state := .dataTransfer, enRxFifo := true }
  serial := (DataSerial.feed (default, []) wordStart).1
  bus := Bus.rest 2 10

/-- A block of two words. -/
def wordSent (k t : ℕ) : BitVec 4 := frame true twoWords (32 * k) 8 t

def wordCycles : List (CycleIn 10) :=
  (List.range 2).flatMap fun k =>
    { wordCycle with datReg := 0x0#4 } :: (List.range 26).map fun t => { wordCycle with datReg := wordSent k t }

def wordBlockSent (k : ℕ) : Sent := ⟨wordSent k, wordSent k, ((wordPath.seen wordCycles).drop (27 * k)).take 27⟩

theorem wordSent_carries {d : ℕ → BitVec 4} {edges : List DataSerialIn}
    (hdat : edges.map DataSerialIn.datReg = 0x0#4 :: (List.range 26).map d)
    (hsteady : ∀ i ∈ edges, i.start ≠ 0b11#2 ∧ i.blksize = 3#12) : Carries true 3#12 d edges := by
  obtain ⟨first, body, rfl, hfirst, hbody⟩ := List.map_eq_cons_iff.1 hdat
  have hlen : body.length = 26 := by simpa using congrArg List.length hbody
  refine ⟨⟨[], first, body, rfl, List.forall_mem_nil _, by rw [hfirst]; rfl, hlen, fun t ht => ?_⟩, hsteady⟩
  have hval := List.getElem_of_eq hbody (by simpa using ht)
  rwa [List.getElem_map, List.getElem_map, List.getElem_range] at hval

theorem card_to_memory_word :
    let p' := wordCycles.foldl DataPath.tick wordPath
    let bits := sentBits true 3#12 [wordBlockSent 0, wordBlockSent 1]
    (p'.tick wordCycle).master.intStatus.getLsbD intDataCc = true ∧ bits.length = 64 ∧
      ∀ j (hj : j < bits.length),
        (byteAt (stored (fun _ => 0#32) p'.bus.writes) 0#10 ((0 + j) / 8)).getMsbD ((0 + j) % 8) = bits[j] := by
  intro p' bits
  have hserial := @DataSerial.feed_start default wordStart rfl rfl rfl
  have hready : FetchReady 0#10 true 3#12 1#16 0#2 0#32 wordPath :=
    ⟨⟨rfl, rfl, rfl, rfl, rfl⟩, hserial, ⟨⟨rfl, rfl, rfl, rfl, rfl, rfl, rfl, rfl, rfl, rfl, rfl, rfl⟩,
      ⟨Ring.contents_eq_nil.2 rfl, by simp⟩, rfl⟩⟩
  have hend : EndStep p' wordCycle := ⟨rfl, rfl, rfl, by decide +kernel, by decide +kernel⟩
  have hcycles : Along DataPath.tick FetchStep wordPath wordCycles := by decide +kernel
  have hsteady : ∀ i ∈ wordPath.seen wordCycles, i.start ≠ 0b11#2 ∧ i.blksize = 3#12 := by decide +kernel
  have hblock : ∀ k < 2, Carries true 3#12 (wordBlockSent k).comes (wordBlockSent k).edges ∧
      Spoilt true 8 (wordBlockSent k).sent (wordBlockSent k).comes := by
    intro k hk
    refine ⟨wordSent_carries ?_ ?_, codesOk_frame _ _ _ _, fun _ => 0, fun _ => 0, fun _ => by simp,
      fun _ _ _ => rfl⟩
    · interval_cases k <;> rfl
    · exact fun i hi => hsteady i (List.mem_of_mem_drop (List.mem_of_mem_take hi))
  have hblocks : ∀ b ∈ [wordBlockSent 0] ++ [wordBlockSent 1], Carries true 3#12 b.comes b.edges ∧
      Spoilt true 8 b.sent b.comes := by
    intro b hb
    simp only [List.cons_append, List.nil_append, List.mem_cons, List.not_mem_nil, or_false] at hb
    obtain rfl | rfl := hb
    · exact hblock 0 (by omega)
    · exact hblock 1 (by omega)
  have hseen : wordPath.seen wordCycles = ([wordBlockSent 0] ++ [wordBlockSent 1]).flatMap Sent.edges ++ [] := by
    have hlen : (wordPath.seen wordCycles).length = 27 + 27 := rfl
    have hrest : ((wordPath.seen wordCycles).drop 27).take 27 = (wordPath.seen wordCycles).drop 27 :=
      List.take_of_length_le (by rw [List.length_drop, hlen])
    change _ = (wordPath.seen wordCycles).take 27 ++ (((wordPath.seen wordCycles).drop 27).take 27 ++ []) ++ []
    rw [hrest, List.append_nil, List.append_nil, List.take_append_drop]
  have hfits : (8 * (0#2).toNat + (sentBits true 3#12 ([wordBlockSent 0] ++ [wordBlockSent 1])).length + 31) / 32 ≤
      2 ^ 10 := by
    decide
  have h := @card_to_memory 2 10 wordPath wordCycle 0#10 true 3#12 1#16 0#2 0#32 (by omega) hready wordCycles
    hcycles hend [wordBlockSent 0] (wordBlockSent 1) [] hseen hblocks
    (fun b hb => by rw [List.mem_singleton.1 hb]; exact fun _ _ _ => rfl) (Nat.le_refl 1) (.inl rfl)
      (fun _ => 0#32) hfits
  exact ⟨h.2.2.1, rfl, h.2.2.2⟩

/-! ## The start of a transfer from the card -/

/-- The registers of a transfer, while the card lets the data lines idle. -/
structure Awaits (A : BitVec a) (bus4 : Bool) (blksize : BitVec 12) (nb : BitVec 16) (al : BitVec 2)
    (c : CycleIn a) : Prop where
  reset : c.reset = false
  dataIntRst : c.dataIntRst = false
  datReg : c.datReg.getLsbD 0 = true
  blksize : c.blksize = blksize
  bus4bit : c.bus4bit = bus4
  blkcnt : c.blkcnt = nb
  word : c.dmaAddr.extractLsb' 2 a = A
  byte : c.dmaAddr.extractLsb' 0 2 = al

/-- `k` enabled edges after the one that has seen `start_rx`. -/
structure Begun (A : BitVec a) (bus4 : Bool) (blksize : BitVec 12) (nb : BitVec 16) (al : BitVec 2) (k : ℕ)
    (p : DataPath n a) : Prop where
  state : p.master.state = if k < 3 then .startRxFifo else .dataTransfer
  enRxFifo : p.master.enRxFifo = decide (0 < k)
  enTxFifo : p.master.enTxFifo = false
  dRead : p.master.dRead = decide (0 < k)
  dWrite : p.master.dWrite = false
  intStatus : p.master.intStatus = 0#6
  we : p.serial.we = false
  serial : if k < 2 then p.serial.state = .idle
    else ∃ w, ReadWaiting bus4 (dataCyclesOf bus4 blksize) nb al ⟨[], w, 8 * al.toNat⟩ (p.serial, [])
  bus : BusStart A p.bus

section Begin

variable {bus4 : Bool} {blksize : BitVec 12} {nb : BitVec 16} {al : BitVec 2} {k : ℕ}

theorem Begun.tick_bus (hn : 2 ≤ n) (h : Begun A bus4 blksize nb al k p) (hc : Awaits A bus4 blksize nb al c) :
    BusStart A (p.tick c).bus := by
  by_cases hk : 0 < k
  · have hrx : p.master.enRxFifo = true := h.enRxFifo.trans (decide_eq_true hk)
    exact h.bus.tick_rx (i := p.busIn c) hn hc.reset hrx h.enTxFifo (by simp [DataPath.busIn, h.we])
  · have hoff : p.master.enRxFifo = false := h.enRxFifo.trans (decide_eq_false hk)
    rw [← hc.word]
    exact h.bus.toBusIdle.tick_off (i := p.busIn c) hc.reset ⟨hoff, h.enTxFifo⟩

/-- A cycle between enabled edges. -/
theorem Begun.tick_between (hn : 2 ≤ n) (h : Begun A bus4 blksize nb al k p) (hc : Awaits A bus4 blksize nb al c)
    (hpos : c.clockPosedge = false) : Begun A bus4 blksize nb al k (p.tick c) := by
  have hnext : p.tick c = ⟨p.master, p.serial, (p.tick c).bus⟩ := by simp [DataPath.tick, hc.reset, hpos]
  have hbus := h.tick_bus hn hc
  rw [hnext]
  exact ⟨h.state, h.enRxFifo, h.enTxFifo, h.dRead, h.dWrite, h.intStatus, h.we, h.serial, hbus⟩

/-- An enabled edge: the FIFO is turned on, the serial block is started, and it is seen to be busy. -/
theorem Begun.tick_edge (hn : 2 ≤ n) (hk : k < 3) (h : Begun A bus4 blksize nb al k p)
    (hc : Awaits A bus4 blksize nb al c)
    (hpos : c.clockPosedge = true) : Begun A bus4 blksize nb al (k + 1) (p.tick c) := by
  have hbus := h.tick_bus hn hc
  have hstate : p.master.state = .startRxFifo := h.state.trans (if_pos hk)
  have hmaster : (p.tick c).master = { p.master with
      enRxFifo := true, enTxFifo := false, dRead := true, state := if p.busy then .dataTransfer
        else .startRxFifo } := by
    have hrst : (p.masterIn c).intStatusRst = false := hc.dataIntRst
    have htick : (p.tick c).master = p.master.tick (p.masterIn c) := by simp [DataPath.tick, hc.reset, hpos]
    rw [htick, DataMaster.tick, hrst, if_neg Bool.false_ne_true, DataMaster.next, hstate]
    cases hbusy : p.busy <;> simp [DataPath.masterIn, hbusy]
  have hserial : (DataSerial.feed (p.serial, []) (p.serialIn c)) = ((p.tick c).serial, []) := by
    simp [DataSerial.feed, DataPath.tick, hc.reset, hpos, h.we]
  have hstart : (p.serialIn c).start = if 0 < k then 0b10#2 else 0#2 := by
    rw [DataPath.serialIn, h.dRead, h.dWrite]
    split_ifs with hpos
    · rw [decide_eq_true hpos]
      rfl
    · rw [decide_eq_false hpos]
      rfl
  have hready : (p.tick c).serial.we = false ∧ (p.busy = decide (k = 2)) ∧
    if k + 1 < 2 then (p.tick c).serial.state = .idle
      else ∃ w, ReadWaiting bus4 (dataCyclesOf bus4 blksize) nb al ⟨[], w, 8 * al.toNat⟩
        ((p.tick c).serial, []) := by
    have hs := h.serial
    interval_cases k
    · have hidle : p.serial.state = .idle := hs
      have hnext : (DataSerial.feed (p.serial, []) (p.serialIn c)).1.state = .idle ∧
          (DataSerial.feed (p.serial, []) (p.serialIn c)).1.we = false := by
        simp [DataSerial.feed, DataSerial.tick, DataSerial.next, hidle, hstart]
      rw [hserial] at hnext
      exact ⟨hnext.2, by simp [DataPath.busy, hidle], hnext.1⟩
    · have hidle : p.serial.state = .idle := hs
      have hwait := DataSerial.feed_start hidle h.we (hstart.trans (if_pos Nat.one_pos))
      rw [hserial] at hwait
      simp only [DataPath.serialIn, hc.bus4bit, hc.blksize, hc.blkcnt, hc.byte] at hwait
      exact ⟨hwait.we, by simp [DataPath.busy, hidle], ⟨_, hwait⟩⟩
    · obtain ⟨w, hwait⟩ :
        ∃ w, ReadWaiting bus4 (dataCyclesOf bus4 blksize) nb al ⟨[], w, 8 * al.toNat⟩ (p.serial, []) := hs
      have hnext := hwait.tick_quiet (i := p.serialIn c) hc.datReg (by rw [hstart]; decide)
      rw [hserial] at hnext
      have hbusy : p.busy = true := by simp [DataPath.busy, show p.serial.state = .readWait from hwait.state]
      exact ⟨hnext.we, hbusy, ⟨w, hnext⟩⟩
  have hnext : p.tick c = ⟨(p.tick c).master, (p.tick c).serial, (p.tick c).bus⟩ := rfl
  obtain ⟨hwe, hbusy, hready⟩ := hready
  rw [hnext, hmaster]
  refine ⟨?_, ?_, rfl, ?_, h.dWrite, h.intStatus, hwe, hready, hbus⟩
  · rw [hbusy]
    interval_cases k <;> rfl
  · rw [decide_eq_true (Nat.succ_pos k)]
  · rw [decide_eq_true (Nat.succ_pos k)]

theorem Begun.run (hn : 2 ≤ n) {cs : List (CycleIn a)} (h : Begun A bus4 blksize nb al k p)
    (hcs : ∀ c ∈ cs, Awaits A bus4 blksize nb al c) (hk : k + cs.countP CycleIn.clockPosedge ≤ 3) :
    Begun A bus4 blksize nb al (k + cs.countP CycleIn.clockPosedge) (cs.foldl DataPath.tick p) := by
  induction cs generalizing k p with
  | nil => exact h
  | cons c cs ih =>
    have hc := hcs c List.mem_cons_self
    have hrest : ∀ c ∈ cs, Awaits A bus4 blksize nb al c := fun d hd => hcs d (List.mem_cons_of_mem c hd)
    cases hpos : c.clockPosedge
    · rw [List.countP_cons_of_neg (by simp [hpos])] at hk ⊢
      exact ih (h.tick_between hn hc hpos) hrest hk
    · rw [List.countP_cons_of_pos hpos] at hk ⊢
      have hnext := ih (h.tick_edge hn (by omega) hc hpos) hrest (by omega)
      rwa [Nat.add_right_comm] at hnext

/-- The enabled edge that sees `start_rx`, with everything at rest. -/
theorem begun_start (hm : p.master.state = .idle) (hstatus : p.master.intStatus = 0#6)
    (hoff : p.master.enRxFifo = false ∧ p.master.enTxFifo = false ∧ p.master.dRead = false ∧
      p.master.dWrite = false)
    (hs : p.serial.state = .idle) (hbus : BusIdle p.bus) (hc : Awaits A bus4 blksize nb al c)
    (hpos : c.clockPosedge = true) (hrx : c.startRx = true) (htx : c.startTx = false) :
    Begun A bus4 blksize nb al 0 (p.tick c) := by
  have hnext := hbus.tick_off (i := p.busIn c) hc.reset ⟨hoff.1, hoff.2.1⟩
  have hA : (p.busIn c).dmaAddr = A := hc.word
  rw [hA] at hnext
  have hrst : (p.masterIn c).intStatusRst = false := hc.dataIntRst
  have hmaster : (p.tick c).master = { p.master with
      enTxFifo := false, enRxFifo := false, dWrite := false, dRead := false, watchdog := 0#28,
      watchdogEnable := c.timeout ≠ 0#28, state := .startRxFifo } := by
    have htick : (p.tick c).master = p.master.tick (p.masterIn c) := by simp [DataPath.tick, hc.reset, hpos]
    rw [htick, DataMaster.tick, hrst, if_neg Bool.false_ne_true, DataMaster.next, hm]
    simp [DataPath.masterIn, hrx, htx]
  have hserial : (p.tick c).serial.state = .idle ∧ (p.tick c).serial.we = false := by
    have hstart : (p.serialIn c).start = 0#2 := by simp [DataPath.serialIn, hoff.2.2.1, hoff.2.2.2]
    simp [DataPath.tick, hc.reset, hpos, DataSerial.tick, DataSerial.next, hs, hstart]
  have hsplit : p.tick c = ⟨(p.tick c).master, (p.tick c).serial, (p.tick c).bus⟩ := rfl
  rw [hsplit, hmaster]
  exact ⟨rfl, rfl, rfl, rfl, rfl, hstatus, hserial.2, hserial.1, hnext⟩

/-- A transfer from the card begins: four enabled edges after `start_rx` has gone up, whatever cycles lie between
them, the FIFO is on, the serial block waits for the first block, and the AXI master is at the address of the
transfer. -/
theorem fetch_begins (hn : 2 ≤ n) (hm : p.master.state = .idle) (hstatus : p.master.intStatus = 0#6)
    (hoff : p.master.enRxFifo = false ∧ p.master.enTxFifo = false ∧ p.master.dRead = false ∧
      p.master.dWrite = false)
    (hs : p.serial.state = .idle) (hbus : BusIdle p.bus) (hpos : c.clockPosedge = true) (hrx : c.startRx = true)
    (htx : c.startTx = false) {cs : List (CycleIn a)} (hcs : ∀ d ∈ c :: cs, Awaits A bus4 blksize nb al d)
    (hcount : cs.countP CycleIn.clockPosedge = 3) :
    ∃ w, FetchReady A bus4 blksize nb al w ((c :: cs).foldl DataPath.tick p) := by
  have hbegun := begun_start hm hstatus hoff hs hbus (hcs c List.mem_cons_self) hpos hrx htx
  have hready := hbegun.run hn (fun d hd => hcs d (List.mem_cons_of_mem c hd)) (by omega)
  rw [hcount] at hready
  obtain ⟨w, hw⟩ : ∃ w, ReadWaiting bus4 (dataCyclesOf bus4 blksize) nb al ⟨[], w, 8 * al.toNat⟩
    (((c :: cs).foldl DataPath.tick p).serial, []) := hready.serial
  exact ⟨w, ⟨hready.state, hready.enRxFifo, hready.enTxFifo, hready.dWrite, hready.intStatus⟩, hw, hready.bus⟩

/-- Everything at rest, and four cycles. -/
theorem fetch_begins_word : ∃ w, FetchReady 0#10 true 3#12 1#16 0#2 w
    (({ wordCycle with startRx := true } :: List.replicate 3 wordCycle).foldl DataPath.tick
      (⟨default, default, Bus.rest 2 10⟩ : DataPath 2 10)) := by
  have hcs : ∀ d ∈ { wordCycle with startRx := true } :: List.replicate 3 wordCycle,
      Awaits (a := 10) 0#10 true 3#12 1#16 0#2 d := by
    intro d hd
    rcases List.mem_cons.1 hd with rfl | hd
    · exact ⟨rfl, rfl, rfl, rfl, rfl, rfl, rfl, rfl⟩
    · rw [List.eq_of_mem_replicate hd]
      exact ⟨rfl, rfl, rfl, rfl, rfl, rfl, rfl, rfl⟩
  exact fetch_begins (Nat.le_refl 2) rfl rfl ⟨rfl, rfl, rfl, rfl⟩ rfl
    ⟨rfl, rfl, rfl, rfl, rfl, rfl, rfl, rfl, rfl, rfl, rfl, rfl⟩ rfl rfl rfl hcs rfl

end Begin

end Soceteer.Sdhost
