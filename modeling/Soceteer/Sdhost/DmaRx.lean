import Soceteer.Lib.Clocked
import Soceteer.Sdhost.Dma

/-!
# Soceteer.Sdhost.DmaRx — from the FIFO to the memory

* `RxStep`: a clock cycle of a transfer from the card, with a slave that accepts the address of a burst not after
  its data.
* `RxIdle`, `RxBusy`: between bursts, and in one; `RxInv`: what holds over a run, `RxInv.tick`.
* `rx_writes`: what the memory gets.
-/

namespace Soceteer.Sdhost

open Lib Clocked

variable {n a : ℕ} {A : BitVec a} {s : Bus n a} {i : DmaIn a} {q : List (BitVec 32)}

/-- A clock cycle of a transfer from the card. -/
structure RxStep (s : Bus n a) (i : DmaIn a) : Prop where
  reset : i.reset = false
  enRx : i.enRx = true
  enTx : i.enTx = false
  inOrder : s.dma.wvalid = true → s.dma.wlast = true → i.wready = true → s.dma.awvalid = true → i.awready = true

/-- Between bursts. -/
structure RxIdle (A : BitVec a) (s : Bus n a) : Prop where
  cyc : s.dma.cyc = false
  awvalid : s.dma.awvalid = false
  wvalid : s.dma.wvalid = false
  course : s.aws.flatMap beats = placed A (s.ws.map (·.2))

/-- In a burst, behind those of `done`, with `c` words of it moved. -/
structure RxBusy (A : BitVec a) (done : List (BitVec (a + 2) × BitVec 8)) (c : ℕ) (s : Bus n a) : Prop where
  cyc : s.dma.cyc = true
  wvalid : s.dma.wvalid = true
  le : c ≤ s.dma.awlen.toNat
  wcnt : s.dma.wcnt.toNat = c
  wlast : s.dma.wlast = decide (c = s.dma.awlen.toNat)
  accepted : s.aws = withMore done (!s.dma.awvalid) (s.dma.awaddr, s.dma.awlen)
  course : done.flatMap beats ++ (beats (s.dma.awaddr, s.dma.awlen)).take c = placed A (s.ws.map (·.2))
  place : s.dma.adr = s.dma.awaddr.extractLsb' 2 a + BitVec.ofNat a c
  paged : Paged (s.dma.awaddr, s.dma.awlen)
  words : s.dma.awlen.toNat + 1 ≤ c + s.dma.fifo.dataLen.toNat
  resp : s.dma.awvalid = true → s.dma.brespCnt ≠ 7#3

/-- What holds in a transfer from the card to `A`; `q` waits in the FIFO. -/
structure RxInv (A : BitVec a) (q : List (BitVec 32)) (s : Bus n a) : Prop where
  fifo : Shows q s.dma.fifo
  words : s.taken.map swap = s.ws.map (·.1) ++ q.map swap
  arvalid : s.dma.arvalid = false
  adr : s.dma.adr = A + BitVec.ofNat a s.ws.length
  resp : s.dma.brespCnt.toNat + s.acks = s.aws.length
  paged : ∀ b ∈ s.aws, Paged b
  phase : RxIdle A s ∨ ∃ done c, RxBusy A done c s

instance (s : Bus n a) (i : DmaIn a) : Decidable (RxStep s i) :=
  decidable_of_iff (i.reset = false ∧ i.enRx = true ∧ i.enTx = false ∧
      (s.dma.wvalid = true → s.dma.wlast = true → i.wready = true → s.dma.awvalid = true → i.awready = true))
    ⟨fun h => ⟨h.1, h.2.1, h.2.2.1, h.2.2.2⟩, fun h => ⟨h.reset, h.enRx, h.enTx, h.inOrder⟩⟩

/-! ## A clock edge -/

theorem RxStep.rready (hi : RxStep s i) : s.dma.rready i = false := by simp [Dma.rready, hi.enRx]

theorem RxStep.fifoIn (hi : RxStep s i) :
    s.dma.fifoIn i = ⟨false, i.rxWe, i.wready && s.dma.wvalid, i.rxData⟩ := by
  simp [Dma.fifoIn, hi.reset, hi.enRx]

theorem brespCnt_succ : ∀ c : BitVec 3, c ≠ 7#3 → (c + 1#3).toNat = c.toNat + 1 := by decide

theorem brespCnt_pred : ∀ c : BitVec 3, c ≠ 0#3 → (c - 1#3).toNat + 1 = c.toNat := by decide

/-- The responses that are due. -/
theorem Bus.tick_resp (hreset : i.reset = false) (h : s.dma.brespCnt.toNat + s.acks = s.aws.length)
    (hroom : s.dma.awvalid = true → s.dma.brespCnt ≠ 7#3) :
    (s.tick i).dma.brespCnt.toNat + (s.tick i).acks = (s.tick i).aws.length := by
  have hready : (i.bvalid && s.dma.bready) = true → s.dma.brespCnt ≠ 0#3 := by
    intro hb
    simpa [Dma.bready] using (Bool.and_eq_true_iff.1 hb).2
  simp only [Bus.tick, Dma.tick, hreset]
  cases haw : s.dma.awvalid && i.awready <;> cases hb : i.bvalid && s.dma.bready
  · simpa using h
  · have := brespCnt_pred _ (hready hb)
    simp
    omega
  · have := brespCnt_succ _ (hroom (Bool.and_eq_true_iff.1 haw).1)
    simp
    omega
  · simp
    omega

/-- What the FIFO and the data channel do in a cycle. -/
theorem RxInv.tick_words (h : RxInv A q s) (hi : RxStep s i)
    (hne : s.dma.wvalid = true → s.dma.fifo.empty = false) :
    ∃ q', Shows q' (s.tick i).dma.fifo ∧ (s.tick i).taken.map swap = (s.tick i).ws.map (·.1) ++ q'.map swap ∧
      q.length ≤ q'.length + (if s.dma.wvalid && i.wready then 1 else 0) := by
  have hclear : (s.dma.fifoIn i).clear = false := by rw [hi.fifoIn]
  obtain ⟨q', horder, hshows⟩ := h.fifo.tick hclear
  have hgiven : s.dma.fifo.given (s.dma.fifoIn i) = if s.dma.wvalid && i.wready then [s.dma.fifo.dout]
      else [] := by
    rw [hi.fifoIn, Fifo.given]
    cases hw : s.dma.wvalid
    · simp
    · simp [hne hw]
  rw [hgiven] at horder
  refine ⟨q', hshows, ?_, ?_⟩
  · simp only [Bus.tick, List.map_append]
    rw [h.words, List.append_assoc, ← List.map_append, horder]
    cases s.dma.wvalid && i.wready <;> simp [Dma.wdata]
  · have hlen := congrArg List.length horder
    rw [List.length_append, List.length_append] at hlen
    split_ifs at hlen ⊢ <;> simp at hlen <;> omega

theorem RxInv.tick_adr (h : RxInv A q s) (hi : RxStep s i) :
    (s.tick i).dma.adr = A + BitVec.ofNat a (s.tick i).ws.length := by
  have hadr : (s.tick i).dma.adr = if s.dma.wvalid && i.wready then s.dma.adr + 1#a else s.dma.adr := by
    simp [Bus.tick, Dma.tick, hi.reset, hi.rready, hi.enRx, and_comm]
  rw [hadr, h.adr]
  simp only [Bus.tick]
  cases s.dma.wvalid && i.wready
  · simp
  · simp [BitVec.ofNat_add, BitVec.add_assoc]

theorem Bus.tick_resp_ne (hreset : i.reset = false) (haw : (s.dma.awvalid && i.awready) = false)
    (h : s.dma.brespCnt ≠ 7#3) :
    (s.tick i).dma.brespCnt ≠ 7#3 := by
  have hpred : ∀ c : BitVec 3, c ≠ 0#3 → c - 1#3 ≠ 7#3 := by decide
  simp only [Bus.tick, Dma.tick, hreset, haw]
  cases hb : i.bvalid && s.dma.bready
  · simpa using h
  · simpa using hpred _ (by simpa [Dma.bready] using (Bool.and_eq_true_iff.1 hb).2)

/-- A cycle between bursts: a new one is started, or not. -/
theorem RxIdle.tick (hn : 2 ≤ n ∧ n ≤ 10) (h : RxInv A q s) (hidle : RxIdle A s) (hi : RxStep s i) :
    ∃ q', RxInv A q' (s.tick i) := by
  obtain ⟨q', hshows, hwords, hlen⟩ := h.tick_words hi fun hw => absurd hw (by simp [hidle.wvalid])
  have hresp := Bus.tick_resp hi.reset h.resp fun haw => absurd haw (by simp [hidle.awvalid])
  have hadr := h.tick_adr hi
  have haws : (s.tick i).aws = s.aws := by simp [Bus.tick, hidle.awvalid]
  have hws : (s.tick i).ws = s.ws := by simp [Bus.tick, hidle.wvalid]
  have hpaged : ∀ b ∈ (s.tick i).aws, Paged b := haws ▸ h.paged
  by_cases hstb : s.dma.rxStb i = true
  · have hroom : s.dma.brespCnt ≠ 7#3 := by
      simp [Dma.rxStb] at hstb
      exact hstb.1.2
    have hpos : 0 < s.dma.fifo.dataLen.toNat := by
      have hthird : 2 ^ 2 ≤ 2 ^ n := Nat.pow_le_pow_right (by omega) hn.1
      have hdata : 2 ^ n / 3 ≤ s.dma.fifo.dataLen.toNat ∨ s.dma.fifo.empty = false := by
        simp [Dma.rxStb] at hstb
        exact hstb.2.imp_right And.left
      rcases hdata with hdata | hdata
      · omega
      · obtain ⟨q₁, hq, -⟩ := h.fifo.rest hdata
        rw [h.fifo.dataLen, hq]
        exact Nat.succ_pos _
    obtain ⟨hfits, hpage⟩ := burstLen_spec hn.2 s.dma.adr hpos
    set len := burstLen s.dma.adr s.dma.fifo.dataLen with hlen'
    have hburst : s.dma.burst i = { s.dma with
        cyc := true, wcnt := 0#8, awaddr := s.dma.adr ++ 0#2, awlen := axiLen len, wlast := decide (len = 0#n),
        awvalid := true, wvalid := true } := by
      simp [Dma.burst, hi.reset, hidle.cyc, hstb, hi.enRx, ← hlen']
    have haxi := axiLen_toNat len
    have hword := word_addr s.dma.adr
    have hzero : len = 0#n ↔ 0 = (axiLen len).toNat := by
      rw [← BitVec.toNat_inj, BitVec.toNat_ofNat, Nat.zero_mod, haxi]
      omega
    have hsame : (s.tick i).dma.adr = s.dma.adr := by rw [hadr, hws, h.adr]
    have hbusy : RxBusy A s.aws 0 (s.tick i) := by
      refine ⟨?_, ?_, Nat.zero_le _, ?_, ?_, ?_, ?_, ?_, ?_, ?_, fun _ => ?_⟩
      · simp only [Bus.tick, Dma.tick, hburst]
      · simp only [Bus.tick, Dma.tick, hburst]
      · simp only [Bus.tick, Dma.tick, hburst]
        rfl
      · simp only [Bus.tick, Dma.tick, hburst, hzero]
      · rw [haws]
        simp only [Bus.tick, Dma.tick, hburst]
        rfl
      · rw [List.take_zero, List.append_nil, hws]
        exact hidle.course
      · rw [hsame]
        simp only [Bus.tick, Dma.tick, hburst, hword.1, BitVec.add_zero]
      · simp only [Paged, Bus.tick, Dma.tick, hburst, hword.1, hword.2, haxi]
        exact ⟨trivial, by omega⟩
      · rw [hshows.dataLen]
        rw [hidle.wvalid, Bool.false_and, if_neg Bool.false_ne_true, ← h.fifo.dataLen] at hlen
        simp only [Bus.tick, Dma.tick, hburst, haxi]
        omega
      · exact Bus.tick_resp_ne hi.reset (by rw [hidle.awvalid]; rfl) hroom
    refine ⟨q', hshows, hwords, ?_, hadr, hresp, hpaged, .inr ⟨_, 0, hbusy⟩⟩
    simp only [Bus.tick, Dma.tick, hburst]
    exact h.arvalid
  · have hburst : s.dma.burst i = s.dma := by
      simp [Dma.burst, hi.reset, hidle.cyc, hstb, Dma.txStb, hi.enTx]
    have hsame : RxIdle A (s.tick i) := by
      refine ⟨?_, ?_, ?_, by rw [haws, hws]; exact hidle.course⟩
      all_goals simp only [Bus.tick, Dma.tick, hburst]
      · exact hidle.cyc
      · exact hidle.awvalid
      · exact hidle.wvalid
    refine ⟨q', hshows, hwords, ?_, hadr, hresp, hpaged, .inl hsame⟩
    simp only [Bus.tick, Dma.tick, hburst]
    exact h.arvalid

theorem RxBusy.nonempty {done : List (BitVec (a + 2) × BitVec 8)} {c : ℕ} (h : RxInv A q s)
    (hbusy : RxBusy A done c s) :
    s.dma.fifo.empty = false := by
  have hle := hbusy.le
  have hwords := hbusy.words
  rw [h.fifo.dataLen] at hwords
  rw [← Bool.not_eq_true, h.fifo.empty]
  rintro rfl
  rw [List.length_nil] at hwords
  omega

/-- A word of a burst is the one that the next beat is about. -/
theorem RxBusy.course_next {done : List (BitVec (a + 2) × BitVec 8)} {c : ℕ} (h : RxInv A q s)
    (hbusy : RxBusy A done c s) :
    done.flatMap beats ++ (beats (s.dma.awaddr, s.dma.awlen)).take (c + 1)
      = placed A ((s.ws ++ [(s.dma.wdata, s.dma.wlast)]).map (·.2)) := by
  have hadr := h.adr
  rw [hbusy.place] at hadr
  rw [take_beats hbusy.le, ← List.append_assoc, hbusy.course, List.map_append, List.map_singleton,
    placed_concat, hadr,
    List.length_map, hbusy.wlast]

/-- A cycle in a burst: a word is moved, or not, and the burst ends with its last one. -/
theorem RxBusy.tick {done : List (BitVec (a + 2) × BitVec 8)} {c : ℕ} (h : RxInv A q s) (hbusy : RxBusy A done c s)
    (hi : RxStep s i) : ∃ q', RxInv A q' (s.tick i) := by
  obtain ⟨q', hshows, hwords, hlen⟩ := h.tick_words hi fun _ => hbusy.nonempty h
  have hroom := hbusy.resp
  have hresp := Bus.tick_resp hi.reset h.resp hroom
  have hadr := h.tick_adr hi
  have haws : (s.tick i).aws = withMore done (!(s.dma.awvalid && !i.awready)) (s.dma.awaddr, s.dma.awlen) := by
    simp only [Bus.tick, hbusy.accepted]
    cases s.dma.awvalid <;> cases i.awready <;> rfl
  have hpaged : ∀ b ∈ (s.tick i).aws, Paged b := by
    intro b hb
    obtain hb | rfl : b ∈ s.aws ∨ b = (s.dma.awaddr, s.dma.awlen) := by
      simp only [Bus.tick] at hb
      cases haw : s.dma.awvalid && i.awready
      · exact .inl (by simpa [haw] using hb)
      · simpa [haw] using hb
    · exact h.paged b hb
    · exact hbusy.paged
  have hresp_ne : (s.dma.awvalid && !i.awready) = true → (s.tick i).dma.brespCnt ≠ 7#3 := by
    intro haw
    obtain ⟨hval, hready⟩ := Bool.and_eq_true_iff.1 haw
    exact Bus.tick_resp_ne hi.reset (by simp_all) (hroom hval)
  have hwait : i.wready = false ∨ i.wready = true := by cases i.wready <;> simp
  rcases hwait with hw | hw
  · -- the slave takes no word
    have hburst : s.dma.burst i = { s.dma with
        awvalid := s.dma.awvalid && !i.awready, arvalid := s.dma.arvalid && !i.arready } := by
      simp [Dma.burst, hi.reset, hbusy.cyc, hw, hi.rready]
    have hws : (s.tick i).ws = s.ws := by simp [Bus.tick, hw]
    have hsame : (s.tick i).dma.adr = s.dma.adr := by rw [hadr, hws, h.adr]
    have hnext : RxBusy A done c (s.tick i) := by
      refine ⟨?_, ?_, ?_, ?_, ?_, ?_, ?_, ?_, ?_, ?_, ?_⟩
      · simp only [Bus.tick, Dma.tick, hburst, hbusy.cyc]
      · simp only [Bus.tick, Dma.tick, hburst, hbusy.wvalid]
      · simpa only [Bus.tick, Dma.tick, hburst] using hbusy.le
      · simpa only [Bus.tick, Dma.tick, hburst] using hbusy.wcnt
      · simpa only [Bus.tick, Dma.tick, hburst] using hbusy.wlast
      · rw [haws]
        simp only [Bus.tick, Dma.tick, hburst]
      · rw [hws]
        simpa only [Bus.tick, Dma.tick, hburst] using hbusy.course
      · rw [hsame]
        simpa only [Bus.tick, Dma.tick, hburst] using hbusy.place
      · simpa only [Bus.tick, Dma.tick, hburst] using hbusy.paged
      · have hle := hbusy.words
        rw [h.fifo.dataLen] at hle
        rw [hshows.dataLen]
        rw [hw, Bool.and_false, if_neg Bool.false_ne_true] at hlen
        simp only [Bus.tick, Dma.tick, hburst]
        omega
      · intro haw
        refine hresp_ne ?_
        simpa only [Bus.tick, Dma.tick, hburst] using haw
    refine ⟨q', hshows, hwords, ?_, hadr, hresp, hpaged, .inr ⟨done, c, hnext⟩⟩
    simp only [Bus.tick, Dma.tick, hburst, h.arvalid, Bool.false_and]
  · have hws : (s.tick i).ws = s.ws ++ [(s.dma.wdata, s.dma.wlast)] := by simp [Bus.tick, hw, hbusy.wvalid]
    have hcourse := hbusy.course_next h
    rw [← hws] at hcourse
    by_cases hlast : c = s.dma.awlen.toNat
    · -- the last word of the burst
      have hwlast : s.dma.wlast = true := by rw [hbusy.wlast, decide_eq_true hlast]
      have haw : (s.dma.awvalid && !i.awready) = false := by
        cases hval : s.dma.awvalid
        · rfl
        · rw [hi.inOrder hbusy.wvalid hwlast hw hval]
          rfl
      have hburst : s.dma.burst i = { s.dma with
          awvalid := false, arvalid := s.dma.arvalid && !i.arready, wvalid := false, cyc := false } := by
        simp [Dma.burst, hi.reset, hbusy.cyc, hw, hi.rready, hbusy.wvalid, hwlast, haw]
      have hnext : RxIdle A (s.tick i) := by
        refine ⟨?_, ?_, ?_, ?_⟩
        · simp only [Bus.tick, Dma.tick, hburst]
        · simp only [Bus.tick, Dma.tick, hburst]
        · simp only [Bus.tick, Dma.tick, hburst]
        · rw [haws, haw, ← hcourse, hlast, take_all_beats]
          simp
      refine ⟨q', hshows, hwords, ?_, hadr, hresp, hpaged, .inl hnext⟩
      simp only [Bus.tick, Dma.tick, hburst, h.arvalid, Bool.false_and]
    · have hwlast : s.dma.wlast = false := by rw [hbusy.wlast, decide_eq_false hlast]
      have hle := hbusy.le
      have hmax := s.dma.awlen.isLt
      have hwcnt : (s.dma.wcnt + 1#8).toNat = c + 1 := by
        rw [BitVec.toNat_add, hbusy.wcnt, BitVec.toNat_ofNat]
        omega
      have hburst : s.dma.burst i = { s.dma with
          awvalid := s.dma.awvalid && !i.awready, arvalid := s.dma.arvalid && !i.arready,
          wlast := decide (c + 1 = s.dma.awlen.toNat), wcnt := s.dma.wcnt + 1#8 } := by
        simp [Dma.burst, hi.reset, hbusy.cyc, hw, hi.rready, hbusy.wvalid, hwlast, hbusy.wcnt]
      have hplace : (s.tick i).dma.adr = s.dma.awaddr.extractLsb' 2 a + BitVec.ofNat a (c + 1) := by
        have hstep : (s.tick i).dma.adr = s.dma.adr + 1#a := by
          rw [hadr, hws, h.adr, List.length_append, List.length_singleton, BitVec.ofNat_add, BitVec.add_assoc]
        rw [hstep, hbusy.place, BitVec.ofNat_add, BitVec.add_assoc]
      have hnext : RxBusy A done (c + 1) (s.tick i) := by
        refine ⟨?_, ?_, ?_, ?_, ?_, ?_, ?_, ?_, ?_, ?_, ?_⟩
        · simp only [Bus.tick, Dma.tick, hburst, hbusy.cyc]
        · simp only [Bus.tick, Dma.tick, hburst, hbusy.wvalid]
        · simp only [Bus.tick, Dma.tick, hburst]
          omega
        · simpa only [Bus.tick, Dma.tick, hburst] using hwcnt
        · simp only [Bus.tick, Dma.tick, hburst]
        · rw [haws]
          simp only [Bus.tick, Dma.tick, hburst]
        · simpa only [Bus.tick, Dma.tick, hburst] using hcourse
        · rw [hplace]
          simp only [Bus.tick, Dma.tick, hburst]
        · simpa only [Bus.tick, Dma.tick, hburst] using hbusy.paged
        · have hle := hbusy.words
          rw [h.fifo.dataLen] at hle
          rw [hshows.dataLen]
          rw [hw, hbusy.wvalid, Bool.and_self, if_pos rfl] at hlen
          simp only [Bus.tick, Dma.tick, hburst]
          omega
        · intro haw
          refine hresp_ne ?_
          simpa only [Bus.tick, Dma.tick, hburst] using haw
      refine ⟨q', hshows, hwords, ?_, hadr, hresp, hpaged, .inr ⟨done, c + 1, hnext⟩⟩
      simp only [Bus.tick, Dma.tick, hburst, h.arvalid, Bool.false_and]

/-! ## A transfer -/

theorem BusStart.rx (h : BusStart A s) : RxInv A [] s := by
  obtain ⟨htaken, -, haws, hws, hacks, -⟩ := h.fresh
  have hadr : s.dma.adr = A + BitVec.ofNat a s.ws.length := by simp [h.adr, hws]
  have hresp : s.dma.brespCnt.toNat + s.acks = s.aws.length := by simp [h.brespCnt, hacks, haws]
  have hidle : RxIdle A s := ⟨h.cyc, h.awvalid, h.wvalid, by rw [haws, hws]; rfl⟩
  exact ⟨h.fifo, by rw [htaken, hws]; rfl, h.arvalid, hadr, hresp, by simp [haws], .inl hidle⟩

theorem RxInv.tick (hn : 2 ≤ n ∧ n ≤ 10) (h : RxInv A q s) (hi : RxStep s i) : ∃ q', RxInv A q' (s.tick i) := by
  rcases h.phase with hidle | ⟨done, c, hbusy⟩
  · exact hidle.tick hn h hi
  · exact hbusy.tick h hi

/-- What the slave is told to write: the words of the data channel, at the places of the beats. -/
def Bus.writes (s : Bus n a) : List (BitVec a × BitVec 32) :=
  ((s.aws.flatMap beats).map (·.1)).zip (s.ws.map (·.1))

theorem zip_placed {α β : Type} (A : BitVec a) {l : List α} {l' : List β} (h : l.length = l'.length) :
    ((placed A l).map (·.1)).zip l' = placed A l' := by
  refine List.ext_getElem (by simp [h]) fun k hk _ => ?_
  simp [placed]

/-- Between bursts, the beats of the accepted bursts are those of the data channel. -/
theorem RxInv.course (h : RxInv A q s) (hcyc : s.dma.cyc = false) :
    s.aws.flatMap beats = placed A (s.ws.map (·.2)) := by
  rcases h.phase with hidle | ⟨done, c, hbusy⟩
  · exact hidle.course
  · exact absurd hcyc (by simp [hbusy.cyc])

/-- When nothing is under way, and nothing waits. -/
theorem RxInv.complete (h : RxInv A q s) (hcyc : s.dma.cyc = false) (hcnt : s.dma.brespCnt = 0#3)
    (hempty : s.dma.fifo.empty = true) : s.acks = s.aws.length ∧ s.writes = placed A (s.taken.map swap) := by
  have hresp := h.resp
  have hwords := h.words
  rw [hcnt, BitVec.toNat_ofNat, Nat.zero_mod, Nat.zero_add] at hresp
  rw [h.fifo.empty.1 hempty, List.map_nil, List.append_nil] at hwords
  exact ⟨hresp, by rw [Bus.writes, h.course hcyc, hwords, zip_placed A (by simp)]⟩

/-- In a transfer from the card, at any time: bursts start at words and stay within 4 KB, the data channel has
carried the words of the FIFO in order, and it never offers one that is not there. Between bursts the beats of the
accepted bursts are those of the data channel, one place after the other. When the SD side may call the transfer
complete, every word is written, to its place, and every burst has been answered. -/
theorem rx_writes (hn : 2 ≤ n ∧ n ≤ 10) {s₀ : Bus n a} (h : BusStart A s₀) {is : List (DmaIn a)}
    (his : Along Bus.tick RxStep s₀ is) :
    let s := is.foldl Bus.tick s₀
    (∀ b ∈ s.aws, Paged b) ∧ s.ws.map (·.1) <+: s.taken.map swap ∧
      (s.dma.wvalid = true → s.dma.fifo.empty = false) ∧
      (s.dma.cyc = false → s.aws.flatMap beats = placed A (s.ws.map (·.2))) ∧
      (s.dma.cyc = false → s.dma.brespCnt = 0#3 → s.dma.fifo.empty = true →
        s.acks = s.aws.length ∧ s.writes = placed A (s.taken.map swap)) := by
  intro s
  obtain ⟨q, hinv⟩ : ∃ q, RxInv A q s :=
    Along.invariant (I := fun s => ∃ q, RxInv A q s) (fun _ _ ⟨_, hinv⟩ hi => hinv.tick hn hi) his ⟨[], h.rx⟩
  refine ⟨hinv.paged, ⟨_, hinv.words.symm⟩, fun hw => ?_, hinv.course, hinv.complete⟩
  rcases hinv.phase with hidle | ⟨done, c, hbusy⟩
  · exact absurd hw (by simp [hidle.wvalid])
  · exact hbusy.nonempty hinv

/-- The SD side brings one word and is done, and the slave takes all it is offered. -/
theorem rx_writes_word :
    let s₀ : Bus 2 10 := { Bus.rest 2 10 with dma := { (Bus.rest 2 10).dma with adr := 0x3ff#10 } }
    let i : DmaIn 10 := ⟨false, false, true, false, false, 0#32, false, false, 0#10, true, true, true, 0#2,
      true, false, 0#32,
      false, 0#2⟩
    let is := [{ i with rxWe := true, rxData := 0x11223344#32 }, i, i, i]
    let s := is.foldl Bus.tick s₀
    s.acks = s.aws.length ∧ s.writes = [(0x3ff#10, 0x44332211#32)] := by
  intro s₀ i is s
  have hstart : BusStart 0x3ff#10 s₀ :=
    ⟨⟨rfl, rfl, rfl, rfl, rfl, rfl, rfl, rfl, rfl, rfl, rfl, rfl⟩, ⟨Ring.contents_eq_nil.2 rfl, by simp⟩, rfl⟩
  have his : Along Bus.tick RxStep s₀ is := by decide
  have h := (rx_writes ⟨by omega, by omega⟩ hstart his).2.2.2.2 (by decide) (by decide) (by decide)
  exact ⟨h.1, h.2.trans (by decide)⟩

end Soceteer.Sdhost
