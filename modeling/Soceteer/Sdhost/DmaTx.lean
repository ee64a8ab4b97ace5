import Soceteer.Lib.Clocked
import Soceteer.Sdhost.Dma

/-!
# Soceteer.Sdhost.DmaTx — from the memory to the FIFO

* `TxStep`: a clock cycle of a transfer to the card, with a slave that answers the bursts in order, from a memory.
* `TxIdle`, `TxBusy`: between bursts, and in one; `TxInv`: what holds over a run, `TxInv.tick`.
* `tx_reads`: what the FIFO gets.
-/

namespace Soceteer.Sdhost

open Lib Clocked

variable {n a : ℕ} {A : BitVec a} {mem : BitVec a → BitVec 32} {s : Bus n a} {i : DmaIn a} {q : List (BitVec 32)}

/-- The beats that the slave owes: those of the bursts that it has accepted, without the words that it has sent. -/
def Bus.owed (s : Bus n a) : List (BitVec a × Bool) := (s.ars.flatMap beats).drop s.rs.length

/-- A clock cycle of a transfer to the card: a word that the slave sends is the one of the beat that it owes
first. -/
structure TxStep (mem : BitVec a → BitVec 32) (s : Bus n a) (i : DmaIn a) : Prop where
  reset : i.reset = false
  enRx : i.enRx = false
  enTx : i.enTx = true
  answers : i.rvalid = true → s.dma.cyc = true → (i.rdata, i.rlast) ∈ s.owed.head?.map fun b => (mem b.1, b.2)

/-- Between bursts. -/
structure TxIdle (A : BitVec a) (s : Bus n a) : Prop where
  cyc : s.dma.cyc = false
  arvalid : s.dma.arvalid = false
  course : (s.ars.flatMap beats).map (·.1) = (List.range s.rs.length).map fun k => A + BitVec.ofNat a k

/-- In a burst, behind those of `done`, with `c` words of it moved. -/
structure TxBusy (A : BitVec a) (done : List (BitVec (a + 2) × BitVec 8)) (c : ℕ) (s : Bus n a) : Prop where
  cyc : s.dma.cyc = true
  le : c ≤ s.dma.arlen.toNat
  accepted : s.ars = withMore done (!s.dma.arvalid) (s.dma.araddr, s.dma.arlen)
  waits : s.dma.arvalid = true → c = 0
  course : (done.flatMap beats).map (·.1) ++ ((beats (s.dma.araddr, s.dma.arlen)).take c).map (·.1)
    = (List.range s.rs.length).map fun k => A + BitVec.ofNat a k
  place : s.dma.adr = s.dma.araddr.extractLsb' 2 a + BitVec.ofNat a c
  paged : Paged (s.dma.araddr, s.dma.arlen)
  room : s.dma.arlen.toNat + 1 ≤ c + s.dma.fifo.freeLen.toNat

/-- What holds in a transfer to the card from `A`; `q` waits in the FIFO. -/
structure TxInv (mem : BitVec a → BitVec 32) (A : BitVec a) (q : List (BitVec 32)) (s : Bus n a) : Prop where
  fifo : Shows q s.dma.fifo
  order : s.taken = s.given ++ q
  words : s.taken = (List.range s.rs.length).map fun k => swap (mem (A + BitVec.ofNat a k))
  wvalid : s.dma.wvalid = false
  awvalid : s.dma.awvalid = false
  adr : s.dma.adr = A + BitVec.ofNat a s.rs.length
  paged : ∀ b ∈ s.ars, Paged b
  phase : TxIdle A s ∨ ∃ done c, TxBusy A done c s

instance (mem : BitVec a → BitVec 32) (s : Bus n a) (i : DmaIn a) : Decidable (TxStep mem s i) :=
  decidable_of_iff (i.reset = false ∧ i.enRx = false ∧ i.enTx = true ∧
      (i.rvalid = true → s.dma.cyc = true → (i.rdata, i.rlast) ∈ s.owed.head?.map fun b => (mem b.1, b.2)))
    ⟨fun h => ⟨h.1, h.2.1, h.2.2.1, h.2.2.2⟩, fun h => ⟨h.reset, h.enRx, h.enTx, h.answers⟩⟩

/-! ## A clock edge -/

theorem TxStep.rready (hi : TxStep mem s i) : s.dma.rready i = s.dma.cyc := by simp [Dma.rready, hi.enRx]

theorem TxStep.fifoIn (hi : TxStep mem s i) :
    s.dma.fifoIn i = ⟨false, s.dma.cyc && i.rvalid, i.txRe, swap i.rdata⟩ := by
  simp [Dma.fifoIn, hi.reset, hi.enRx, hi.enTx, hi.rready]

theorem TxStep.rs (hi : TxStep mem s i) : (s.tick i).rs = withMore s.rs (s.dma.cyc && i.rvalid) i.rdata := by
  simp only [Bus.tick, hi.rready]

/-- What the FIFO and the data channel do in a cycle, when there is room for a word that comes. -/
theorem TxInv.tick_words (h : TxInv mem A q s) (hi : TxStep mem s i)
    (hroom : (s.dma.cyc && i.rvalid) = true → s.dma.fifo.full = false ∧ i.rdata = mem s.dma.adr) :
    ∃ q', Shows q' (s.tick i).dma.fifo ∧ (s.tick i).taken = (s.tick i).given ++ q' ∧
      (s.tick i).taken = ((List.range (s.tick i).rs.length).map fun k => swap (mem (A + BitVec.ofNat a k))) ∧
        q'.length ≤ q.length + (if s.dma.cyc && i.rvalid then 1 else 0) := by
  have hclear : (s.dma.fifoIn i).clear = false := by rw [hi.fifoIn]
  obtain ⟨q', horder, hshows⟩ := h.fifo.tick hclear
  have htaken : s.dma.fifo.taken (s.dma.fifoIn i) = if s.dma.cyc && i.rvalid then [swap i.rdata] else [] := by
    rw [hi.fifoIn, Fifo.taken]
    cases hr : s.dma.cyc && i.rvalid
    · simp
    · simp [(hroom hr).1]
  refine ⟨q', hshows, ?_, ?_, ?_⟩
  · simp only [Bus.tick]
    rw [List.append_assoc, ← horder, ← List.append_assoc, ← h.order]
  · rw [hi.rs]
    simp only [Bus.tick]
    rw [htaken, h.words]
    cases hr : s.dma.cyc && i.rvalid
    · simp
    · simp [List.range_succ, (hroom hr).2, h.adr]
  · have hlen := congrArg List.length horder
    rw [List.length_append, List.length_append, htaken] at hlen
    split_ifs at hlen ⊢ <;> simp at hlen <;> omega

theorem TxInv.tick_adr (h : TxInv mem A q s) (hi : TxStep mem s i) :
    (s.tick i).dma.adr = A + BitVec.ofNat a (s.tick i).rs.length := by
  have hadr : (s.tick i).dma.adr = if s.dma.cyc && i.rvalid then s.dma.adr + 1#a else s.dma.adr := by
    simp [Bus.tick, Dma.tick, hi.reset, hi.rready, hi.enTx, h.wvalid]
  rw [hadr, h.adr, hi.rs]
  cases s.dma.cyc && i.rvalid
  · simp
  · simp [BitVec.ofNat_add, BitVec.add_assoc]

/-- A cycle between bursts: a new one is started, or not. -/
theorem TxIdle.tick (hn : 2 ≤ n ∧ n ≤ 10) (h : TxInv mem A q s) (hidle : TxIdle A s) (hi : TxStep mem s i) :
    ∃ q', TxInv mem A q' (s.tick i) := by
  have hno : (s.dma.cyc && i.rvalid) = false := by rw [hidle.cyc, Bool.false_and]
  obtain ⟨q', hshows, horder, hwords, hlen⟩ := h.tick_words hi fun hr => absurd hr (by simp [hno])
  rw [hno, if_neg Bool.false_ne_true, Nat.add_zero] at hlen
  have hadr := h.tick_adr hi
  have hars : (s.tick i).ars = s.ars := by simp [Bus.tick, hidle.arvalid]
  have hrs : (s.tick i).rs = s.rs := by rw [hi.rs, hno, withMore_false]
  have hpaged : ∀ b ∈ (s.tick i).ars, Paged b := hars ▸ h.paged
  by_cases hstb : s.dma.txStb i = true
  · have hpos : 0 < s.dma.fifo.freeLen.toNat := by
      have hthird : 2 ^ 2 ≤ 2 ^ n := Nat.pow_le_pow_right (by omega) hn.1
      have hfree : 2 ^ n / 3 ≤ s.dma.fifo.freeLen.toNat := by
        simp [Dma.txStb] at hstb
        exact hstb.2
      omega
    obtain ⟨hfits, hpage⟩ := burstLen_spec hn.2 s.dma.adr hpos
    set len := burstLen s.dma.adr s.dma.fifo.freeLen with hlen'
    have hburst : s.dma.burst i = { s.dma with
        cyc := true, wcnt := 0#8, araddr := s.dma.adr ++ 0#2, arlen := axiLen len, arvalid := true } := by
      simp [Dma.burst, hi.reset, hidle.cyc, hstb, hi.enRx, ← hlen']
    have haxi := axiLen_toNat len
    have hword := word_addr s.dma.adr
    have hsame : (s.tick i).dma.adr = s.dma.adr := by rw [hadr, hrs, h.adr]
    have hbusy : TxBusy A s.ars 0 (s.tick i) := by
      refine ⟨?_, Nat.zero_le _, ?_, fun _ => rfl, ?_, ?_, ?_, ?_⟩
      · simp only [Bus.tick, Dma.tick, hburst]
      · rw [hars]
        simp only [Bus.tick, Dma.tick, hburst]
        rfl
      · rw [List.take_zero, List.map_nil, List.append_nil, hrs]
        exact hidle.course
      · rw [hsame]
        simp only [Bus.tick, Dma.tick, hburst, hword.1, BitVec.add_zero]
      · simp only [Paged, Bus.tick, Dma.tick, hburst, hword.1, hword.2, haxi]
        exact ⟨trivial, by omega⟩
      · rw [hshows.freeLen]
        rw [h.fifo.freeLen] at hfits
        simp only [Bus.tick, Dma.tick, hburst, haxi]
        omega
    refine ⟨q', hshows, horder, hwords, ?_, ?_, hadr, hpaged, .inr ⟨_, 0, hbusy⟩⟩
    all_goals simp only [Bus.tick, Dma.tick, hburst, h.wvalid, h.awvalid]
  · have hburst : s.dma.burst i = s.dma := by
      simp [Dma.burst, hi.reset, hidle.cyc, hstb, Dma.rxStb, hi.enRx]
    have hsame : TxIdle A (s.tick i) := by
      refine ⟨?_, ?_, by rw [hars, hrs]; exact hidle.course⟩
      all_goals simp only [Bus.tick, Dma.tick, hburst]
      · exact hidle.cyc
      · exact hidle.arvalid
    refine ⟨q', hshows, horder, hwords, ?_, ?_, hadr, hpaged, .inl hsame⟩
    all_goals simp only [Bus.tick, Dma.tick, hburst, h.wvalid, h.awvalid]

section Busy

variable {done : List (BitVec (a + 2) × BitVec 8)} {c : ℕ}

theorem TxBusy.length (h : TxBusy A done c s) : s.rs.length = (done.flatMap beats).length + c := by
  have hlen := congrArg List.length h.course
  have hle := h.le
  rw [List.length_append, List.length_map, List.length_map, List.length_map, List.length_take, length_beats,
    List.length_range] at hlen
  dsimp only at hlen
  omega

/-- The slave owes the rest of the burst, once it has accepted it. -/
theorem TxBusy.owed (h : TxBusy A done c s) :
    s.owed = if s.dma.arvalid then [] else (beats (s.dma.araddr, s.dma.arlen)).drop c := by
  rw [Bus.owed, h.accepted, h.length]
  cases hval : s.dma.arvalid
  · rw [if_neg Bool.false_ne_true, ← List.drop_drop]
    simp
  · simp [h.waits hval]

/-- A word that the slave sends is the one that the burst is waiting for. -/
theorem TxBusy.answer (h : TxBusy A done c s) (hi : TxStep mem s i) (hr : i.rvalid = true) :
    s.dma.arvalid = false ∧ i.rdata = mem s.dma.adr ∧ i.rlast = decide (c = s.dma.arlen.toNat) := by
  have hle := h.le
  have hans := hi.answers hr h.cyc
  rw [h.owed] at hans
  cases hval : s.dma.arvalid
  · have hhead : ((beats (s.dma.araddr, s.dma.arlen)).drop c).head?
        = some (s.dma.adr, decide (c = s.dma.arlen.toNat)) := by
      rw [List.head?_drop, List.getElem?_eq_getElem (by rw [length_beats]; exact Nat.lt_succ_of_le hle), h.place]
      simp [beats]
    rw [hval, if_neg Bool.false_ne_true, hhead] at hans
    have hpair : (mem s.dma.adr, decide (c = s.dma.arlen.toNat)) = (i.rdata, i.rlast) := Option.some.inj hans
    exact ⟨rfl, (congrArg Prod.fst hpair).symm, (congrArg Prod.snd hpair).symm⟩
  · rw [hval, if_pos rfl] at hans
    exact absurd hans (by simp)

theorem TxBusy.not_full (h : TxInv mem A q s) (hbusy : TxBusy A done c s) : s.dma.fifo.full = false := by
  have hle := hbusy.le
  have hroom := hbusy.room
  rw [h.fifo.freeLen] at hroom
  rw [← Bool.not_eq_true, h.fifo.full]
  omega

theorem TxBusy.course_next (h : TxInv mem A q s) (hbusy : TxBusy A done c s) :
    (done.flatMap beats).map (·.1) ++ ((beats (s.dma.araddr, s.dma.arlen)).take (c + 1)).map (·.1)
      = (List.range (s.rs.length + 1)).map fun k => A + BitVec.ofNat a k := by
  have hadr := h.adr
  rw [hbusy.place] at hadr
  rw [take_beats hbusy.le, List.map_append, ← List.append_assoc, hbusy.course, List.map_singleton,
    hadr, List.range_succ,
    List.map_append, List.map_singleton]

/-- A cycle in a burst: a word is moved, or not, and the burst ends with its last one. -/
theorem TxBusy.tick (h : TxInv mem A q s) (hbusy : TxBusy A done c s) (hi : TxStep mem s i) :
    ∃ q', TxInv mem A q' (s.tick i) := by
  have hle := hbusy.le
  have hroom := hbusy.room
  rw [h.fifo.freeLen] at hroom
  obtain ⟨q', hshows, horder, hwords, hlen⟩ := h.tick_words hi fun hr =>
    ⟨hbusy.not_full h, (hbusy.answer hi (Bool.and_eq_true_iff.1 hr).2).2.1⟩
  rw [hbusy.cyc, Bool.true_and] at hlen
  have hadr := h.tick_adr hi
  have hars : (s.tick i).ars = withMore done (!(s.dma.arvalid && !i.arready)) (s.dma.araddr, s.dma.arlen) := by
    simp only [Bus.tick, hbusy.accepted]
    cases s.dma.arvalid <;> cases i.arready <;> rfl
  have hpaged : ∀ b ∈ (s.tick i).ars, Paged b := by
    intro b hb
    obtain hb | rfl : b ∈ s.ars ∨ b = (s.dma.araddr, s.dma.arlen) := by
      simp only [Bus.tick] at hb
      cases har : s.dma.arvalid && i.arready
      · exact .inl (by simpa [har] using hb)
      · simpa [har] using hb
    · exact h.paged b hb
    · exact hbusy.paged
  have hrs := hi.rs
  rw [hbusy.cyc, Bool.true_and] at hrs
  have hwait : i.rvalid = false ∨ i.rvalid = true := by cases i.rvalid <;> simp
  rcases hwait with hr | hr
  · -- no word comes
    rw [hr, withMore_false] at hrs
    have hburst : s.dma.burst i = { s.dma with awvalid := false, arvalid := s.dma.arvalid && !i.arready } := by
      simp [Dma.burst, hi.reset, hbusy.cyc, hr, h.wvalid, h.awvalid]
    have hsame : (s.tick i).dma.adr = s.dma.adr := by rw [hadr, hrs, h.adr]
    have hnext : TxBusy A done c (s.tick i) := by
      refine ⟨?_, ?_, ?_, ?_, ?_, ?_, ?_, ?_⟩
      · simp only [Bus.tick, Dma.tick, hburst, hbusy.cyc]
      · simpa only [Bus.tick, Dma.tick, hburst] using hle
      · rw [hars]
        simp only [Bus.tick, Dma.tick, hburst]
      · intro har
        simp only [Bus.tick, Dma.tick, hburst] at har
        exact hbusy.waits (Bool.and_eq_true_iff.1 har).1
      · rw [hrs]
        simpa only [Bus.tick, Dma.tick, hburst] using hbusy.course
      · rw [hsame]
        simpa only [Bus.tick, Dma.tick, hburst] using hbusy.place
      · simpa only [Bus.tick, Dma.tick, hburst] using hbusy.paged
      · rw [hshows.freeLen]
        rw [hr, if_neg Bool.false_ne_true] at hlen
        simp only [Bus.tick, Dma.tick, hburst]
        omega
    refine ⟨q', hshows, horder, hwords, ?_, ?_, hadr, hpaged, .inr ⟨done, c, hnext⟩⟩
    all_goals simp only [Bus.tick, Dma.tick, hburst, h.wvalid]
  · obtain ⟨hval, hdata, hlast⟩ := hbusy.answer hi hr
    rw [hr, withMore_true] at hrs
    have hcourse := hbusy.course_next h
    by_cases hend : c = s.dma.arlen.toNat
    · -- the last word of the burst
      rw [decide_eq_true hend] at hlast
      have hburst : s.dma.burst i = { s.dma with awvalid := false, arvalid := false, cyc := false } := by
        simp [Dma.burst, hi.reset, hbusy.cyc, hr, h.wvalid, h.awvalid, hval, hlast, hi.rready]
      have hnext : TxIdle A (s.tick i) := by
        refine ⟨?_, ?_, ?_⟩
        · simp only [Bus.tick, Dma.tick, hburst]
        · simp only [Bus.tick, Dma.tick, hburst]
        · rw [hars, hval, hrs, List.length_append, List.length_singleton, ← hcourse, hend, take_all_beats]
          simp
      refine ⟨q', hshows, horder, hwords, ?_, ?_, hadr, hpaged, .inl hnext⟩
      all_goals simp only [Bus.tick, Dma.tick, hburst, h.wvalid]
    · rw [decide_eq_false hend] at hlast
      have hburst : s.dma.burst i = { s.dma with awvalid := false, arvalid := false } := by
        simp [Dma.burst, hi.reset, hbusy.cyc, hr, h.wvalid, h.awvalid, hval, hlast]
      have hplace : (s.tick i).dma.adr = s.dma.araddr.extractLsb' 2 a + BitVec.ofNat a (c + 1) := by
        have hstep : (s.tick i).dma.adr = s.dma.adr + 1#a := by
          rw [hadr, hrs, h.adr, List.length_append, List.length_singleton, BitVec.ofNat_add, BitVec.add_assoc]
        rw [hstep, hbusy.place, BitVec.ofNat_add, BitVec.add_assoc]
      have hnext : TxBusy A done (c + 1) (s.tick i) := by
        refine ⟨?_, ?_, ?_, ?_, ?_, ?_, ?_, ?_⟩
        · simp only [Bus.tick, Dma.tick, hburst, hbusy.cyc]
        · simp only [Bus.tick, Dma.tick, hburst]
          omega
        · rw [hars, hval]
          simp only [Bus.tick, Dma.tick, hburst]
          rfl
        · intro har
          simp only [Bus.tick, Dma.tick, hburst] at har
          exact absurd har Bool.false_ne_true
        · rw [hrs, List.length_append, List.length_singleton]
          simpa only [Bus.tick, Dma.tick, hburst] using hcourse
        · rw [hplace]
          simp only [Bus.tick, Dma.tick, hburst]
        · simpa only [Bus.tick, Dma.tick, hburst] using hbusy.paged
        · rw [hshows.freeLen]
          rw [hr, if_pos rfl] at hlen
          simp only [Bus.tick, Dma.tick, hburst]
          omega
      refine ⟨q', hshows, horder, hwords, ?_, ?_, hadr, hpaged, .inr ⟨done, c + 1, hnext⟩⟩
      all_goals simp only [Bus.tick, Dma.tick, hburst, h.wvalid]

end Busy

/-! ## A transfer -/

theorem BusStart.tx (h : BusStart A s) : TxInv mem A [] s := by
  obtain ⟨htaken, hgiven, -, -, -, hars, hrs⟩ := h.fresh
  have hadr : s.dma.adr = A + BitVec.ofNat a s.rs.length := by simp [h.adr, hrs]
  have hidle : TxIdle A s := ⟨h.cyc, h.arvalid, by rw [hars, hrs]; rfl⟩
  exact ⟨h.fifo, by rw [htaken, hgiven]; rfl, by rw [htaken, hrs]; rfl, h.wvalid, h.awvalid,
    hadr, by simp [hars], .inl hidle⟩

theorem TxInv.tick (hn : 2 ≤ n ∧ n ≤ 10) (h : TxInv mem A q s) (hi : TxStep mem s i) :
    ∃ q', TxInv mem A q' (s.tick i) := by
  rcases h.phase with hidle | ⟨done, c, hbusy⟩
  · exact hidle.tick hn h hi
  · exact hbusy.tick h hi

/-- A word that the FIFO shows is the next one of the memory. -/
theorem TxInv.shown (h : TxInv mem A q s) (hne : s.dma.fifo.empty = false) :
    s.dma.fifo.dout = swap (mem (A + BitVec.ofNat a s.given.length)) := by
  obtain ⟨q', hq, -⟩ := h.fifo.rest hne
  have horder := h.order
  rw [h.words, hq] at horder
  have hlen := congrArg List.length horder
  rw [List.length_map, List.length_range, List.length_append, List.length_cons] at hlen
  have hget := congrArg (·[s.given.length]?) horder
  simp only [List.getElem?_append_right (Nat.le_refl _), Nat.sub_self, List.getElem?_cons_zero,
    List.getElem?_map] at hget
  rw [List.getElem?_range (by omega)] at hget
  exact (Option.some.inj hget).symm

/-- In a transfer to the card, at any time: bursts start at words and stay within 4 KB, the FIFO has taken in the
words of the memory from the address of the transfer on, in order, and it has not refused one; what it has given
out is the beginning of that, and what it shows is what comes next. Between bursts, no more has been asked for than
has come. -/
theorem tx_reads (hn : 2 ≤ n ∧ n ≤ 10) {s₀ : Bus n a} (h : BusStart A s₀) {is : List (DmaIn a)}
    (his : Along Bus.tick (TxStep mem) s₀ is) :
    let s := is.foldl Bus.tick s₀
    (∀ b ∈ s.ars, Paged b) ∧ (s.dma.cyc = true → s.dma.fifo.full = false) ∧
      s.taken = ((List.range s.rs.length).map fun k => swap (mem (A + BitVec.ofNat a k))) ∧
      s.given <+: s.taken ∧
      (s.dma.fifo.empty = false → s.dma.fifo.dout = swap (mem (A + BitVec.ofNat a s.given.length))) ∧
      (s.dma.cyc = false → (s.ars.flatMap beats).map (·.1) = (List.range s.rs.length).map fun k =>
        A + BitVec.ofNat a k) := by
  intro s
  obtain ⟨q, hinv⟩ : ∃ q, TxInv mem A q s :=
    Along.invariant (I := fun s => ∃ q, TxInv mem A q s) (fun _ _ ⟨_, hinv⟩ hi => hinv.tick hn hi) his ⟨[], h.tx⟩
  refine ⟨hinv.paged, fun hcyc => ?_, hinv.words, ⟨q, hinv.order.symm⟩, hinv.shown, fun hcyc => ?_⟩
  · rcases hinv.phase with hidle | ⟨done, c, hbusy⟩
    · exact absurd hcyc (by simp [hidle.cyc])
    · exact hbusy.not_full hinv
  · rcases hinv.phase with hidle | ⟨done, c, hbusy⟩
    · exact hidle.course
    · exact absurd hcyc (by simp [hbusy.cyc])

/-- A burst that a page boundary cuts to one word, and a slave that answers it. -/
theorem tx_reads_word :
    let s₀ : Bus 2 10 := { Bus.rest 2 10 with dma := { (Bus.rest 2 10).dma with adr := 0x3ff#10 } }
    let i : DmaIn 10 := ⟨false, false, false, true, false, 0#32, false, true, 0#10, false, false, false, 0#2,
      true, false, 0#32,
      false, 0#2⟩
    let s := [i, i, { i with rvalid := true, rdata := 0x3ff#32, rlast := true }].foldl Bus.tick s₀
    s.taken = [0xff030000#32] ∧ s.dma.fifo.dout = 0xff030000#32 := by
  intro s₀ i s
  have hstart : BusStart 0x3ff#10 s₀ :=
    ⟨⟨rfl, rfl, rfl, rfl, rfl, rfl, rfl, rfl, rfl, rfl, rfl, rfl⟩, ⟨Ring.contents_eq_nil.2 rfl, by simp⟩, rfl⟩
  have his : Along Bus.tick (TxStep fun k => k.setWidth 32) s₀
      [i, i, { i with rvalid := true, rdata := 0x3ff#32, rlast := true }] := by
    decide
  have h := tx_reads ⟨by omega, by omega⟩ hstart his
  exact ⟨h.2.2.1.trans (by decide), (h.2.2.2.2.1 (by decide)).trans (by decide)⟩

end Soceteer.Sdhost
