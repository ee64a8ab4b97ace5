import Soceteer.Sdhost.DataSerial

/-!
# Soceteer.Sdhost.DataRead — blocks from the card

* `unitBits`, `dataBits`: what the lines carry in one edge, and in the edges of a block, in the order of the bytes.
* `CodesOk`: each line in use carries the code of its data behind them.
* `Reading`, `Reading.tick`: in a block; its words so far, and its codes.
* `reads_block`: a block; `reads_blocks`: a transfer, and the words that the FIFO gets.
-/

namespace Soceteer.Sdhost

open Lib Crc Clocked

/-- The bits that the lines carry in one edge. -/
def unitBits (bus4 : Bool) (d : BitVec 4) : List Bool := (lanes bus4).map fun j : Fin 4 => d.getLsbD j

/-- How many bits an edge moves. -/
def unitLen (bus4 : Bool) : ℕ := if bus4 then 4 else 1

@[simp] theorem unitLen_true : unitLen true = 4 := rfl

@[simp] theorem unitLen_false : unitLen false = 1 := rfl

@[simp] theorem length_unitBits (bus4 : Bool) (d : BitVec 4) : (unitBits bus4 d).length = unitLen bus4 := by
  cases bus4 <;> simp [unitBits, lanes]

/-- The bits of `n` edges. -/
def dataBits (bus4 : Bool) (d : ℕ → BitVec 4) (n : ℕ) : List Bool :=
  (List.range n).flatMap fun k => unitBits bus4 (d k)

/-- The code of what a line carries in the first `n` edges. -/
def lineCrc (d : ℕ → BitVec 4) (j : Fin 4) (n : ℕ) : BitVec 16 :=
  crc poly16 0#16 ((List.range n).map fun k => (d k).getLsbD j)

/-- The first `n` bits of the codes are right. -/
def CodesOk (bus4 : Bool) (dc : ℕ) (d : ℕ → BitVec 4) (n : ℕ) : Prop :=
  ∀ k < n, ∀ j ∈ lanes bus4, (lineCrc d j dc).getMsbD k = (d (dc + k)).getLsbD j

instance (bus4 : Bool) (dc : ℕ) (d : ℕ → BitVec 4) (n : ℕ) : Decidable (CodesOk bus4 dc d n) :=
  inferInstanceAs (Decidable (∀ k < n, _))

/-- An edge, with the words that the FIFO has got: it takes one when it finds `we` up. -/
def DataSerial.feed (s : DataSerial × List (BitVec 32)) (i : DataSerialIn) : DataSerial × List (BitVec 32) :=
  (s.1.tick i, if s.1.we then s.2 ++ [s.1.dataOut] else s.2)

theorem lineCrc_succ (d : ℕ → BitVec 4) (j : Fin 4) (n : ℕ) :
    lineCrc d j (n + 1) = sdCrc16 (lineCrc d j n) ((d n).getLsbD j) := by
  rw [lineCrc, List.range_succ, List.map_append, crc_append, sdCrc16_eq_feed]
  rfl

theorem dataBits_succ (bus4 : Bool) (d : ℕ → BitVec 4) (n : ℕ) :
    dataBits bus4 d (n + 1) = dataBits bus4 d n ++ unitBits bus4 (d n) := by
  simp [dataBits, List.range_succ]

theorem CodesOk.succ {bus4 : Bool} {dc : ℕ} {d : ℕ → BitVec 4} {n : ℕ} :
    CodesOk bus4 dc d (n + 1) ↔ CodesOk bus4 dc d n ∧ ∀ j ∈ lanes bus4, (lineCrc d j dc).getMsbD n =
      (d (dc + n)).getLsbD j := by
  simp only [CodesOk, Nat.lt_succ_iff_lt_or_eq]
  constructor
  · exact fun h => ⟨fun k hk => h k (.inl hk), h n (.inr rfl)⟩
  · rintro ⟨h, hn⟩ k (hk | rfl)
    · exact h k hk
    · exact hn

/-! ## One unit into the word -/

theorem Packer.put_four (p : Packer 32) (b₃ b₂ b₁ b₀ : Bool) {m : ℕ} (hm : p.pos % 32 = 4 * m) :
    ([b₃, b₂, b₁, b₀].foldl Packer.put p).cur =
      setBit (setBit (setBit (setBit p.cur (31 - 4 * m) b₃) (31 - 4 * m - 1) b₂) (31 - 4 * m - 2) b₁)
        (31 - 4 * m - 3) b₀ ∧
    ([b₃, b₂, b₁, b₀].foldl Packer.put p).words =
      if m = 7 then p.words ++ [([b₃, b₂, b₁, b₀].foldl Packer.put p).cur] else p.words := by
  have hlt := Nat.mod_lt p.pos (show 0 < 32 by omega)
  have h1 : (p.pos + 1) % 32 = 4 * m + 1 := by omega
  have h2 : (p.pos + 1 + 1) % 32 = 4 * m + 2 := by omega
  have h3 : (p.pos + 1 + 1 + 1) % 32 = 4 * m + 3 := by omega
  have hw0 : 4 * m ≠ 31 := by omega
  have hw1 : 4 * m + 1 ≠ 31 := by omega
  have hw2 : 4 * m + 2 ≠ 31 := by omega
  have hw3 : 4 * m + 3 = 31 ↔ m = 7 := by omega
  simp [Packer.put, hm, h1, h2, h3, hw0, hw1, hw2, hw3, Nat.sub_sub]

/-- The word that an edge leaves, and whether it is full. -/
theorem put_unit {bus4 : Bool} {p : Packer 32} {idx : BitVec 5}
    (hidx : (if bus4 then 4 * (idx.toNat % 8) else idx.toNat) = p.pos % 32) (d : BitVec 4) :
    ((unitBits bus4 d).foldl Packer.put p).cur =
      (if bus4 then
        setBit
          (setBit (setBit (setBit p.cur (31 - 4 * (idx.toNat % 8)) (d.getLsbD 3)) (31 - 4 * (idx.toNat % 8) - 1)
          (d.getLsbD 2)) (31 - 4 * (idx.toNat % 8) - 2) (d.getLsbD 1)) (31 - 4 * (idx.toNat % 8) - 3) (d.getLsbD 0)
      else setBit p.cur (31 - idx.toNat) (d.getLsbD 0)) ∧
    ((unitBits bus4 d).foldl Packer.put p).words =
      (if (if bus4 then idx.toNat % 8 = 7 else idx.toNat = 31) then
        p.words ++ [((unitBits bus4 d).foldl Packer.put p).cur] else p.words) := by
  cases bus4
  · simp only [Bool.false_eq_true, if_false] at hidx ⊢
    simp [unitBits, lanes, Packer.put, ← hidx]
  · simp only [if_true] at hidx ⊢
    exact Packer.put_four p _ _ _ _ hidx.symm

/-- The next place in the word. -/
theorem index_succ {bus4 : Bool} {pos : ℕ} {idx : BitVec 5}
    (hidx : (if bus4 then 4 * (idx.toNat % 8) else idx.toNat) = pos % 32) :
    (if bus4 then 4 * ((idx + 1).toNat % 8) else (idx + 1).toNat) = (pos + unitLen bus4) % 32 := by
  have hnext : (idx + 1).toNat = (idx.toNat + 1) % 32 := by
    change (idx + 1#5).toNat = _
    rw [BitVec.toNat_add]
    rfl
  rw [hnext]
  cases bus4
  · rw [if_neg Bool.false_ne_true] at hidx ⊢
    rw [unitLen_false]
    omega
  · rw [if_pos rfl] at hidx ⊢
    rw [unitLen_true]
    omega

/-- The word is full when the next place is in the next one. -/
theorem full_iff {bus4 : Bool} {p : Packer 32} {idx : BitVec 5}
    (hidx : (if bus4 then 4 * (idx.toNat % 8) else idx.toNat) = p.pos % 32) (d : BitVec 4) :
    (if bus4 then idx.toNat % 8 = 7 else idx.toNat = 31) ↔
      ((unitBits bus4 d).foldl Packer.put p).pos % 32 = 0 := by
  rw [Packer.foldl_put_pos, length_unitBits]
  cases bus4
  · simp only [Bool.false_eq_true, if_false, unitLen_false] at hidx ⊢
    omega
  · simp only [if_true, unitLen_true] at hidx ⊢
    omega

/-! ## In a block -/

/-- The words that a block of `n` edges leaves. -/
def packed (bus4 : Bool) (d : ℕ → BitVec 4) (p : Packer 32) (n : ℕ) : Packer 32 :=
  (dataBits bus4 d n).foldl Packer.put p

/-- The last block of a transfer also gives out a word that it has not filled. -/
def givenOut (last : Prop) [Decidable last] (p : Packer 32) : List (BitVec 32) := if last then p.flush else p.words

theorem packed_succ (bus4 : Bool) (d : ℕ → BitVec 4) (p : Packer 32) (n : ℕ) :
    packed bus4 d p (n + 1) = (unitBits bus4 (d n)).foldl Packer.put (packed bus4 d p n) := by
  rw [packed, dataBits_succ, List.foldl_append, packed]

/-- After `t` edges of a block that started at the place of `p` and carries `d`; `dc` edges of it are data, and
`al'` is where the next one starts. -/
structure Reading (bus4 : Bool) (dc : ℕ) (nb : BitVec 16) (al al' : BitVec 2) (d : ℕ → BitVec 4)
    (p : Packer 32) (t : ℕ)
    (s : DataSerial × List (BitVec 32)) : Prop where
  state : s.1.state = .readDat
  bus4bitReg : s.1.bus4bitReg = bus4
  dataCycles : s.1.dataCycles = dc
  blkcntReg : s.1.blkcntReg = nb
  byteAlignmentReg : s.1.byteAlignmentReg = if t ≤ dc + 16 then al else al'
  transfCnt : s.1.transfCnt = t
  lastDin : s.1.lastDin = if t = 0 then 0#4 else d (t - 1)
  crcRst : s.1.crcRst = decide (t = dc + 17)
  crcEn : s.1.crcEn = decide (t ≤ dc)
  crcOut : ∀ j, s.1.crcOut j = lineCrc d j (min (t - 1) dc)
  crcBit : s.1.crcBit = BitVec.ofNat 4 (15 - (t - (dc + 1)))
  crcOk : 0 < t → s.1.crcOk = decide (CodesOk bus4 dc d (t - (dc + 1)))
  dataIndex : t ≤ dc →
    (if bus4 then 4 * (s.1.dataIndex.toNat % 8) else s.1.dataIndex.toNat) = (packed bus4 d p t).pos % 32
  dataOut : s.1.dataOut = (packed bus4 d p (min t dc)).cur
  we : dc < t → s.1.we = false
  words : s.2 ++ (if s.1.we then [s.1.dataOut] else []) =
    if t < dc then (packed bus4 d p t).words else givenOut (nb = 0#16) (packed bus4 d p dc)

section Reading

variable {bus4 : Bool} {dc : ℕ} {nb : BitVec 16} {al al' : BitVec 2} {d : ℕ → BitVec 4} {p : Packer 32}
  {t : ℕ}  {s : DataSerial × List (BitVec 32)} {i : DataSerialIn}

/-- The codes after one more edge: a unit goes into them one edge after it has been taken. -/
theorem Reading.crcOut_next (h : Reading bus4 dc nb al al' d p t s) (ht : t ≤ dc + 16) (j : Fin 4) :
    (if s.1.crcRst then 0#16 else if s.1.crcEn then sdCrc16 (s.1.crcOut j) (s.1.lastDin.getLsbD j)
      else s.1.crcOut j)
      = lineCrc d j (min t dc) := by
  have hrst : t ≠ dc + 17 := by omega
  rw [h.crcRst, decide_eq_false hrst, if_neg Bool.false_ne_true, h.crcEn, h.crcOut j, h.lastDin]
  by_cases hen : t ≤ dc
  · rw [decide_eq_true hen, if_pos rfl, Nat.min_eq_left hen]
    cases t with
    | zero => simp [lineCrc, sdCrc16_eq_feed, feed_zero]
    | succ n =>
      rw [if_neg (Nat.succ_ne_zero n), Nat.add_sub_cancel, Nat.min_eq_left (by omega)]
      exact (lineCrc_succ d j n).symm
  · rw [decide_eq_false hen, if_neg Bool.false_ne_true, Nat.min_eq_right (by omega), Nat.min_eq_right (by omega)]

/-- The words after one more edge. -/
theorem Reading.words_next (h : Reading bus4 dc nb al al' d p t s) :
    (DataSerial.feed s i).2 = if t < dc then (packed bus4 d p t).words
      else givenOut (nb = 0#16) (packed bus4 d p dc) := by
  rw [← h.words, DataSerial.feed]
  cases s.1.we <;> simp

theorem Reading.tick_data (h : Reading bus4 dc nb al al' d p t s) (ht : t < dc) (hd : i.datReg = d t)
    (hi : i.start ≠ 0b11#2) :
    Reading bus4 dc nb al al' d p (t + 1) (DataSerial.feed s i) := by
  have hcrc := h.crcOut_next (by omega)
  have hword := put_unit (h.dataIndex ht.le) (d t)
  have hidx := index_succ (h.dataIndex ht.le)
  have hfull := full_iff (h.dataIndex ht.le) (d t)
  rw [← packed_succ] at hword hfull
  have hpos : (packed bus4 d p (t + 1)).pos = (packed bus4 d p t).pos + unitLen bus4 := by
    rw [packed_succ, Packer.foldl_put_pos, length_unitBits]
  have hcur := h.dataOut
  rw [Nat.min_eq_left ht.le] at hcur
  have hnext : s.1.tick i = { s.1 with
      lastDin := d t, transfCnt := t + 1, dataOut := (packed bus4 d p (t + 1)).cur,
      we := (packed bus4 d p (t + 1)).pos % 32 = 0 ∨ t = dc - 1 ∧ nb = 0#16,
      dataIndex := s.1.dataIndex + 1, crcOk := true, crcOut := fun j => lineCrc d j (min t dc) } := by
    rw [DataSerial.tick]
    simp only [hcrc, if_neg hi, DataSerial.next, h.state, DataSerial.readDat, h.transfCnt, h.dataCycles, if_pos ht,
      h.blkcntReg, h.bus4bitReg, hd, hcur]
    cases bus4
    · simp only [Bool.false_eq_true, if_false] at hword hfull ⊢
      rw [hword.1]
      simp [BitVec.toNat_eq, ← hfull]
    · simp only [if_true] at hword hfull ⊢
      rw [hword.1]
      simp [← hfull]
  have hfst : (DataSerial.feed s i).1 = s.1.tick i := rfl
  rw [hnext] at hfst
  have hlt : ¬ dc < t + 1 := by omega
  refine ⟨?_, ?_, ?_, ?_, ?_, ?_, ?_, ?_, ?_, fun j => ?_, ?_, fun _ => ?_, fun _ => ?_, ?_, fun h =>
    absurd h hlt, ?_⟩
  all_goals simp only [hfst]
  · exact h.state
  · exact h.bus4bitReg
  · exact h.dataCycles
  · exact h.blkcntReg
  · rw [h.byteAlignmentReg, if_pos (by omega), if_pos (by omega)]
  · simp
  · rw [h.crcRst, decide_eq_decide]
    omega
  · rw [h.crcEn, decide_eq_decide]
    omega
  · rfl
  · rw [h.crcBit]
    congr 2
    omega
  · rw [Nat.sub_eq_zero_of_le (by omega)]
    simp [CodesOk]
  · rw [hpos]
    exact hidx
  · rw [Nat.min_eq_left (by omega)]
  · rw [h.words_next, if_pos ht]
    by_cases hlast : t + 1 < dc
    · have hne : t ≠ dc - 1 := by omega
      rw [if_pos hlast, hword.2, if_congr hfull rfl rfl]
      by_cases hz : (packed bus4 d p (t + 1)).pos % 32 = 0 <;> simp [hz, hne]
    · obtain rfl : dc = t + 1 := by omega
      rw [if_neg hlast, givenOut, Packer.flush, hword.2, if_congr hfull rfl rfl]
      by_cases hz : (packed bus4 d p (t + 1)).pos % 32 = 0 <;> by_cases hnb : nb = 0#16 <;> simp [hz, hnb]

/-- The edge behind the data. -/
theorem Reading.tick_gap (h : Reading bus4 dc nb al al' d p dc s) (hdc : 0 < dc) (hd : i.datReg = d dc)
    (hi : i.start ≠ 0b11#2) :
    Reading bus4 dc nb al al' d p (dc + 1) (DataSerial.feed s i) := by
  have hcrc := h.crcOut_next (by omega)
  have hnext : s.1.tick i = { s.1 with
      lastDin := d dc, transfCnt := dc + 1, crcEn := false, we := false, crcOut := fun j =>
        lineCrc d j (min dc dc) } := by
    rw [DataSerial.tick]
    simp only [hcrc, if_neg hi, DataSerial.next, h.state, DataSerial.readDat, h.transfCnt, h.dataCycles,
      if_neg (Nat.lt_irrefl dc), if_true, hd]
  have hfst : (DataSerial.feed s i).1 = s.1.tick i := rfl
  rw [hnext] at hfst
  refine ⟨?_, ?_, ?_, ?_, ?_, ?_, ?_, ?_, ?_, fun j => ?_, ?_, fun _ => ?_, fun h => absurd h (by omega),
    ?_, fun _ => ?_, ?_⟩
  all_goals simp only [hfst]
  · exact h.state
  · exact h.bus4bitReg
  · exact h.dataCycles
  · exact h.blkcntReg
  · rw [h.byteAlignmentReg, if_pos (by omega), if_pos (by omega)]
  · simp
  · rw [h.crcRst, decide_eq_decide]
    omega
  · symm
    rw [decide_eq_false_iff_not]
    omega
  · rfl
  · rw [h.crcBit]
    congr 2
    omega
  · rw [h.crcOk hdc]
    congr 2
    omega
  · rw [h.dataOut, Nat.min_self, Nat.min_eq_right (by omega)]
  · rw [h.words_next, if_neg (Nat.lt_irrefl dc), if_neg (show ¬ dc + 1 < dc by omega)]
    simp

/-- A bit of the codes. -/
theorem Reading.tick_code (h : Reading bus4 dc nb al al' d p t s) (hlo : dc < t) (ht : t ≤ dc + 16)
    (hd : i.datReg = d t)
    (hi : i.start ≠ 0b11#2) (hal' : al' = al + i.blksize.extractLsb' 0 2 + 1#2) :
    Reading bus4 dc nb al al' d p (t + 1) (DataSerial.feed s i) := by
  have hcrc := h.crcOut_next ht
  obtain ⟨k, rfl⟩ : ∃ k, t = dc + 1 + k := ⟨t - (dc + 1), by omega⟩
  have hk : k < 16 := by omega
  have hbit : s.1.crcBit = BitVec.ofNat 4 (15 - k) := by
    rw [h.crcBit]
    congr 2
    omega
  have hpos : s.1.crcBit.toNat = 16 - 1 - k := by
    rw [hbit, BitVec.toNat_ofNat]
    omega
  have hzero : s.1.crcBit = 0#4 ↔ k = 15 := by
    rw [← BitVec.toNat_inj, hpos]
    simp only [BitVec.toNat_ofNat]
    omega
  have hbad : (∃ j ∈ lanes bus4, (s.1.crcOut j).getLsbD s.1.crcBit.toNat ≠ s.1.lastDin.getLsbD j) ↔
      ¬ ∀ j ∈ lanes bus4, (lineCrc d j dc).getMsbD k = (d (dc + k)).getLsbD j := by
    have hlast : s.1.lastDin = d (dc + k) := by
      rw [h.lastDin, if_neg (by omega)]
      congr 1
      omega
    have hcode : ∀ j, (s.1.crcOut j).getLsbD s.1.crcBit.toNat = (lineCrc d j dc).getMsbD k := by
      intro j
      rw [hpos, getLsbD_rev hk, h.crcOut j, Nat.min_eq_right (by omega)]
    simp only [hlast, hcode]
    push Not
    rfl
  have hok : (if ∃ j ∈ lanes bus4, (s.1.crcOut j).getLsbD s.1.crcBit.toNat ≠ s.1.lastDin.getLsbD j then false
    else s.1.crcOk)
      = decide (CodesOk bus4 dc d (k + 1)) := by
    have hsub : dc + 1 + k - (dc + 1) = k := by omega
    rw [if_congr hbad rfl rfl, h.crcOk (by omega), hsub]
    by_cases hj : ∀ j ∈ lanes bus4, (lineCrc d j dc).getMsbD k = (d (dc + k)).getLsbD j
    · rw [if_neg (not_not_intro hj), decide_eq_decide, CodesOk.succ]
      exact ⟨fun h => ⟨h, hj⟩, And.left⟩
    · rw [if_pos hj, eq_comm, decide_eq_false_iff_not, CodesOk.succ]
      exact fun h => hj h.2
  have hdown : s.1.crcBit ≠ 0#4 → s.1.crcBit - 1#4 = BitVec.ofNat 4 (14 - k) := by
    intro hne
    have hall : ∀ k < 15, BitVec.ofNat 4 (15 - k) - 1#4 = BitVec.ofNat 4 (14 - k) := by decide
    rw [hbit]
    exact hall k (by have := hzero.not.1 hne; omega)
  have hnext : s.1.tick i = { s.1 with
      lastDin := d (dc + 1 + k), transfCnt := dc + 1 + k + 1, crcOk := decide (CodesOk bus4 dc d (k + 1)),
      byteAlignmentReg := if k = 15 then al' else al, crcRst := decide (k = 15),
      crcBit := BitVec.ofNat 4 (15 - (k + 1)), crcOut := fun j => lineCrc d j (min (dc + 1 + k) dc) } := by
    have hal := h.byteAlignmentReg
    rw [if_pos ht] at hal
    have hrst := h.crcRst
    have hne : dc + 1 + k ≠ dc + 17 := by omega
    rw [decide_eq_false hne] at hrst
    rw [DataSerial.tick]
    simp only [hcrc, if_neg hi, DataSerial.next, h.state, DataSerial.readDat, h.transfCnt, h.dataCycles,
      if_neg (show ¬ dc + 1 + k < dc by omega), if_neg (show ¬ dc + 1 + k = dc by omega), if_pos ht,
        h.bus4bitReg, hd, ← hok]
    by_cases hz : s.1.crcBit = 0#4
    · have hk15 := hzero.1 hz
      subst hk15
      simp only [if_pos hz, ↓reduceIte]
      split_ifs <;> simp [hz, hal, hal']
    · have hk15 := hzero.not.1 hz
      simp only [if_neg hz, if_neg hk15]
      split_ifs <;> simp [hk15, hal, hdown hz, hrst]
  have hfst : (DataSerial.feed s i).1 = s.1.tick i := rfl
  rw [hnext] at hfst
  refine ⟨?_, ?_, ?_, ?_, ?_, ?_, ?_, ?_, ?_, fun j => ?_, ?_, fun _ => ?_, fun h => absurd h (by omega),
    ?_, fun _ => ?_, ?_⟩
  all_goals simp only [hfst]
  · exact h.state
  · exact h.bus4bitReg
  · exact h.dataCycles
  · exact h.blkcntReg
  · split_ifs <;> first | rfl | omega
  · simp
  · rw [decide_eq_decide]
    omega
  · rw [h.crcEn, decide_eq_decide]
    omega
  · rfl
  · congr 2
    omega
  · congr 2
    omega
  · rw [h.dataOut, Nat.min_eq_right (by omega), Nat.min_eq_right (by omega)]
  · exact h.we hlo
  · rw [h.words_next, if_neg (show ¬ dc + 1 + k < dc by omega), if_neg (show ¬ dc + 1 + k + 1 < dc by omega),
      h.we hlo]
    simp

theorem Reading.tick (h : Reading bus4 dc nb al al' d p t s) (hdc : 0 < dc) (ht : t < dc + 17)
    (hd : i.datReg = d t)
    (hi : i.start ≠ 0b11#2) (hal' : al' = al + i.blksize.extractLsb' 0 2 + 1#2) :
    Reading bus4 dc nb al al' d p (t + 1) (DataSerial.feed s i) := by
  rcases Nat.lt_trichotomy t dc with hlt | rfl | hgt
  · exact h.tick_data hlt hd hi
  · exact h.tick_gap hdc hd hi
  · exact h.tick_code hgt (by omega) hd hi hal'

/-- Waiting for a block that starts at the place of `p`. -/
structure ReadWaiting (bus4 : Bool) (dc : ℕ) (nb : BitVec 16) (al : BitVec 2) (p : Packer 32)
    (s : DataSerial × List (BitVec 32)) : Prop where
  state : s.1.state = .readWait
  bus4bitReg : s.1.bus4bitReg = bus4
  dataCycles : s.1.dataCycles = dc
  blkcntReg : s.1.blkcntReg = nb
  byteAlignmentReg : s.1.byteAlignmentReg = al
  crcRst : s.1.crcRst = true
  we : s.1.we = false
  dataOut : s.1.dataOut = p.cur
  words : s.2 = p.words
  aligned : 8 * al.toNat = p.pos % 32

/-- After a transfer. -/
structure ReadDone (ok : Prop) (words : List (BitVec 32)) (s : DataSerial × List (BitVec 32)) : Prop where
  state : s.1.state = .idle
  crcOk : s.1.crcOk = true ↔ ok
  we : s.1.we = false
  words : s.2 = words

theorem ReadWaiting.tick_quiet (h : ReadWaiting bus4 dc nb al p s) (hd : i.datReg.getLsbD 0 = true)
    (hi : i.start ≠ 0b11#2) : ReadWaiting bus4 dc nb al p (DataSerial.feed s i) := by
  have hnext : (DataSerial.feed s i).1 = { s.1 with
      datOe := false, crcBit := 15#4, lastDin := 0#4, transfCnt := 0,
      dataIndex := indexOf s.1.bus4bitReg s.1.byteAlignmentReg, crcOut := fun _ => 0#16 } := by
    simp only [DataSerial.feed, DataSerial.tick, DataSerial.next, h.state, hd, if_neg hi, h.crcRst, if_true]
  have hwords : (DataSerial.feed s i).2 = s.2 := by simp [DataSerial.feed, h.we]
  rw [Prod.ext (y := (_, _)) hnext hwords]
  exact ⟨h.state, h.bus4bitReg, h.dataCycles, h.blkcntReg, h.byteAlignmentReg, h.crcRst, h.we, h.dataOut,
    h.words, h.aligned⟩

theorem ReadWaiting.tick_start (h : ReadWaiting bus4 dc nb al p s) (hdc : 0 < dc) (hd : i.datReg.getLsbD 0 = false)
    (hi : i.start ≠ 0b11#2) : Reading bus4 dc nb al al' d p 0 (DataSerial.feed s i) := by
  have hnext : (DataSerial.feed s i).1 = { s.1 with
      datOe := false, crcBit := 15#4, lastDin := 0#4, transfCnt := 0, dataIndex := indexOf bus4 al,
      crcRst := false, crcEn := true, state := .readDat, crcOut := fun _ => 0#16 } := by
    simp only [DataSerial.feed, DataSerial.tick, DataSerial.next, h.state, hd, if_neg hi, h.crcRst,
      if_true, h.bus4bitReg,
      h.byteAlignmentReg, Bool.false_eq_true, if_false]
  have hwords : (DataSerial.feed s i).2 = s.2 := by simp [DataSerial.feed, h.we]
  have hal := al.isLt
  refine ⟨?_, ?_, ?_, ?_, ?_, ?_, ?_, ?_, ?_, fun j => ?_, ?_, fun h => absurd h (by omega), fun _ => ?_, ?_,
    fun h => absurd h (by omega), ?_⟩
  all_goals simp only [hnext, hwords]
  · exact h.bus4bitReg
  · exact h.dataCycles
  · exact h.blkcntReg
  · rw [if_pos (by omega), h.byteAlignmentReg]
  · rfl
  · symm
    rw [decide_eq_false_iff_not]
    omega
  · simp
  · simp [lineCrc]
  · rw [Nat.zero_sub]
  · rw [packed, dataBits, List.range_zero, List.flatMap_nil, List.foldl_nil, ← h.aligned, indexOf]
    cases bus4 <;> simp only [Bool.false_eq_true, if_false, if_true, BitVec.toNat_ofNat] <;> omega
  · rw [Nat.zero_min, packed, dataBits, List.range_zero, List.flatMap_nil, List.foldl_nil, h.dataOut]
  · rw [h.we, if_pos hdc, packed, dataBits, List.range_zero, List.flatMap_nil, List.foldl_nil, h.words]
    simp

/-- The edge that decides what comes next. -/
theorem Reading.tick_end (h : Reading bus4 dc nb al al' d p (dc + 17) s) (hdc : 0 < dc) (hi : i.start ≠ 0b11#2)
    (haligned : 8 * al'.toNat = (packed bus4 d p dc).pos % 32) :
    if nb ≠ 0#16 ∧ CodesOk bus4 dc d 16 then
      ReadWaiting bus4 dc (nb - 1) al' (packed bus4 d p dc) (DataSerial.feed s i)
    else ReadDone (CodesOk bus4 dc d 16) (givenOut (nb = 0#16) (packed bus4 d p dc)) (DataSerial.feed s i) := by
  have hok : s.1.crcOk = true ↔ CodesOk bus4 dc d 16 := by
    rw [h.crcOk (by omega), show dc + 17 - (dc + 1) = 16 by omega, decide_eq_true_iff]
  have hwe := h.we (by omega)
  have hrst : s.1.crcRst = true := h.crcRst.trans (decide_eq_true rfl)
  have hal : s.1.byteAlignmentReg = al' := h.byteAlignmentReg.trans (if_neg (by omega))
  have hwords := h.words_next (i := i)
  have hcur := h.dataOut
  rw [if_neg (by omega)] at hwords
  rw [Nat.min_eq_right (by omega)] at hcur
  have hnext : (DataSerial.feed s i).1.state = (if nb ≠ 0#16 ∧ CodesOk bus4 dc d 16 then .readWait else .idle) ∧
      (DataSerial.feed s i).1.blkcntReg = (if nb ≠ 0#16 ∧ CodesOk bus4 dc d 16 then nb - 1 else nb) ∧
      (DataSerial.feed s i).1.bus4bitReg = bus4 ∧ (DataSerial.feed s i).1.dataCycles = dc ∧
      (DataSerial.feed s i).1.byteAlignmentReg = al' ∧ (DataSerial.feed s i).1.crcRst = true ∧
      (DataSerial.feed s i).1.we = false ∧ (DataSerial.feed s i).1.dataOut = (packed bus4 d p dc).cur ∧
      (DataSerial.feed s i).1.crcOk = s.1.crcOk := by
    simp only [DataSerial.feed, DataSerial.tick, DataSerial.next, h.state, DataSerial.readDat,
      h.transfCnt, h.dataCycles,
      if_neg hi, if_neg (show ¬ dc + 17 < dc by omega), if_neg (show ¬ dc + 17 = dc by omega),
      if_neg (show ¬ dc + 17 ≤ dc + 16 by omega), h.blkcntReg, hok]
    split_ifs <;> exact ⟨rfl, rfl, h.bus4bitReg, rfl, hal, hrst, hwe, hcur, rfl⟩
  obtain ⟨hstate, hblk, hbus, hdcs, hal, hrst, hwe, hout, hok'⟩ := hnext
  split_ifs at hstate hblk ⊢ with hmore
  · have hgiven : givenOut (nb = 0#16) (packed bus4 d p dc) = (packed bus4 d p dc).words := if_neg hmore.1
    exact ⟨hstate, hbus, hdcs, hblk, hal, hrst, hwe, hout, hwords.trans hgiven, haligned⟩
  · exact ⟨hstate, hok' ▸ hok, hwe, hwords⟩

end Reading

/-! ## Blocks and transfers -/

theorem length_dataBits (bus4 : Bool) (blksize : BitVec 12) (d : ℕ → BitVec 4) :
    (dataBits bus4 d (dataCyclesOf bus4 blksize)).length = 8 * (blksize.toNat + 1) := by
  have hunit : ∀ n, (dataBits bus4 d n).length = n * unitLen bus4 := by
    intro n
    simp [dataBits]
  rw [hunit, dataCyclesOf]
  cases bus4 <;> simp <;> omega

/-- The edges of a block that carries `d`: the lines idle for a while, a start bit, the data, the codes, and two
edges more. -/
structure Carries (bus4 : Bool) (blksize : BitVec 12) (d : ℕ → BitVec 4) (edges : List DataSerialIn) : Prop where
  split : ∃ quiet first body, edges = quiet ++ first :: body ∧ (∀ i ∈ quiet, i.datReg.getLsbD 0 = true) ∧
    first.datReg.getLsbD 0 = false ∧ body.length = dataCyclesOf bus4 blksize + 18 ∧
      ∀ t (ht : t < body.length), body[t].datReg = d t
  steady : ∀ i ∈ edges, i.start ≠ 0b11#2 ∧ i.blksize = blksize

section Transfer

variable {bus4 : Bool} {blksize : BitVec 12} {nb : BitVec 16} {al : BitVec 2} {d : ℕ → BitVec 4} {p : Packer 32}
  {s : DataSerial × List (BitVec 32)} {edges : List DataSerialIn}

theorem reads_block (hw : ReadWaiting bus4 (dataCyclesOf bus4 blksize) nb al p s)
    (hc : Carries bus4 blksize d edges) :
    let p' := (dataBits bus4 d (dataCyclesOf bus4 blksize)).foldl Packer.put p
    if nb ≠ 0#16 ∧ CodesOk bus4 (dataCyclesOf bus4 blksize) d 16 then
      ReadWaiting bus4 (dataCyclesOf bus4 blksize) (nb - 1) (al + blksize.extractLsb' 0 2 + 1#2) p'
        (edges.foldl DataSerial.feed s)
    else ReadDone (CodesOk bus4 (dataCyclesOf bus4 blksize) d 16) (givenOut (nb = 0#16) p')
      (edges.foldl DataSerial.feed s) := by
  intro p'
  set dc := dataCyclesOf bus4 blksize with hdc
  have hpos : 0 < dc := by
    rw [hdc, dataCyclesOf]
    split_ifs <;> omega
  obtain ⟨⟨quiet, first, body, rfl, hquiet, hfirst, hlen, hbody⟩, hsteady⟩ := hc
  have hwait : ∀ is : List DataSerialIn, ∀ s, ReadWaiting bus4 dc nb al p s →
      (∀ i ∈ is, i.datReg.getLsbD 0 = true ∧ i.start ≠ 0b11#2) →
        ReadWaiting bus4 dc nb al p (is.foldl DataSerial.feed s) := by
    intro is
    induction is with
    | nil => exact fun s hw _ => hw
    | cons i is ih =>
      intro s hw hi
      have hi₀ := hi i List.mem_cons_self
      exact ih _ (hw.tick_quiet hi₀.1 hi₀.2) fun j hj => hi j (List.mem_cons_of_mem i hj)
  have hw := hwait quiet s hw fun i hi => ⟨hquiet i hi, (hsteady i (by simp [hi])).1⟩
  have hstart : Reading bus4 dc nb al (al + blksize.extractLsb' 0 2 + 1#2) d p 0 _ :=
    hw.tick_start hpos hfirst (hsteady first (by simp)).1
  have hne : body ≠ [] := by
    rintro rfl
    simp at hlen
  have hsplit := List.dropLast_append_getLast hne
  have hdrop : body.dropLast.length = dc + 17 := by
    rw [List.length_dropLast, hlen]
    rfl
  have hall := foldl_phase
    (I := Reading bus4 dc nb al (al + blksize.extractLsb' 0 2 + 1#2) d p)
    (P := fun t i => i.datReg = d t ∧ i.start ≠ 0b11#2 ∧ i.blksize = blksize) (n := dc + 17)
    (fun t s i ht h hi => h.tick hpos ht hi.1 hi.2.1 (by rw [hi.2.2])) body.dropLast (k := 0)
      (by omega) hstart fun t ht => by
      have hin : t < body.length := by omega
      have hmem : body[t] ∈ quiet ++ first :: body := by simp
      rw [List.getElem_dropLast, Nat.zero_add]
      exact ⟨hbody t hin, hsteady _ hmem⟩
  rw [hdrop, Nat.zero_add] at hall
  have haligned : 8 * (al + blksize.extractLsb' 0 2 + 1#2).toNat = (packed bus4 d p dc).pos % 32 := by
    have hp := hw.aligned
    rw [packed, Packer.foldl_put_pos, hdc, length_dataBits]
    simp only [BitVec.toNat_add, BitVec.extractLsb'_toNat, BitVec.toNat_ofNat, Nat.shiftRight_zero]
    omega
  have hend := hall.tick_end hpos (hsteady (body.getLast hne) (by simp)).1 haligned
  rw [List.foldl_append, List.foldl_cons, ← hsplit, List.foldl_append, List.foldl_cons, List.foldl_nil]
  exact hend

/-- Blocks that are all right, not the last one of the transfer among them. -/
theorem reads_good {good : List ((ℕ → BitVec 4) × List DataSerialIn)}
    (hgood : ∀ b ∈ good, Carries bus4 blksize b.1 b.2 ∧ CodesOk bus4 (dataCyclesOf bus4 blksize) b.1 16)
    (hlen : good.length ≤ nb.toNat) (hw : ReadWaiting bus4 (dataCyclesOf bus4 blksize) nb al p s) :
    ∃ nb' al', nb'.toNat = nb.toNat - good.length ∧ ReadWaiting bus4 (dataCyclesOf bus4 blksize) nb' al'
      ((good.flatMap fun b => dataBits bus4 b.1 (dataCyclesOf bus4 blksize)).foldl Packer.put p)
      ((good.flatMap (·.2)).foldl DataSerial.feed s) := by
  induction good generalizing nb al p s with
  | nil => exact ⟨nb, al, rfl, hw⟩
  | cons b good ih =>
    obtain ⟨hc, hok⟩ := hgood b List.mem_cons_self
    rw [List.length_cons] at hlen
    have hnb : nb ≠ 0#16 := by
      rintro rfl
      simp at hlen
    have hdown : (nb - 1).toNat = nb.toNat - 1 := by
      have hpos : 1 ≤ nb.toNat := by omega
      exact BitVec.toNat_sub_of_le (BitVec.le_def.2 hpos)
    have hblock := reads_block hw hc
    simp only at hblock
    rw [if_pos ⟨hnb, hok⟩] at hblock
    obtain ⟨nb', al', hnb', hw'⟩ := ih (fun c hc => hgood c (List.mem_cons_of_mem b hc)) (by omega) hblock
    refine ⟨nb', al', by rw [hnb', hdown, List.length_cons]; omega, ?_⟩
    rw [List.flatMap_cons, List.foldl_append, List.flatMap_cons, List.foldl_append]
    exact hw'

/-- A transfer: its blocks up to the last one or to the first whose codes are wrong. -/
theorem reads_done (good : List ((ℕ → BitVec 4) × List DataSerialIn)) (last : (ℕ → BitVec 4) × List DataSerialIn)
    (hw : ReadWaiting bus4 (dataCyclesOf bus4 blksize) nb al p s)
    (hgood : ∀ b ∈ good, Carries bus4 blksize b.1 b.2 ∧ CodesOk bus4 (dataCyclesOf bus4 blksize) b.1 16)
    (hlast : Carries bus4 blksize last.1 last.2) (hlen : good.length ≤ nb.toNat)
    (hend : good.length = nb.toNat ∨ ¬ CodesOk bus4 (dataCyclesOf bus4 blksize) last.1 16) :
    ReadDone (CodesOk bus4 (dataCyclesOf bus4 blksize) last.1 16)
      (givenOut (good.length = nb.toNat)
        (((good ++ [last]).flatMap fun b => dataBits bus4 b.1 (dataCyclesOf bus4 blksize)).foldl Packer.put p))
      (((good ++ [last]).flatMap (·.2)).foldl DataSerial.feed s) := by
  obtain ⟨nb', al', hnb', hw⟩ := reads_good hgood hlen hw
  have hblock := reads_block hw hlast
  have hzero : nb' = 0#16 ↔ good.length = nb.toNat := by
    rw [← BitVec.toNat_inj, hnb']
    simp only [BitVec.toNat_ofNat]
    omega
  have hnot : ¬ (nb' ≠ 0#16 ∧ CodesOk bus4 (dataCyclesOf bus4 blksize) last.1 16) := by
    rw [Ne, hzero]
    tauto
  simp only [if_neg hnot, hzero, ← List.foldl_append] at hblock
  have hbits : good.flatMap (fun b => dataBits bus4 b.1 (dataCyclesOf bus4 blksize)) ++
      dataBits bus4 last.1 (dataCyclesOf bus4 blksize)
        = (good ++ [last]).flatMap fun b => dataBits bus4 b.1 (dataCyclesOf bus4 blksize) := by simp
  have hs' : (good.flatMap fun b => b.2) ++ last.2 = (good ++ [last]).flatMap (·.2) := by simp
  rwa [hbits, hs'] at hblock

end Transfer

/-- The edge that starts a transfer. -/
theorem DataSerial.feed_start {h : DataSerial} {i : DataSerialIn} (hs : h.state = .idle) (hwe : h.we = false)
    (hi : i.start = 0b10#2) : ReadWaiting i.bus4bit (dataCyclesOf i.bus4bit i.blksize) i.blkcnt i.byteAlignment
      ⟨[], h.dataOut, 8 * i.byteAlignment.toNat⟩ (DataSerial.feed (h, []) i) := by
  have hnext : (DataSerial.feed (h, []) i).1 = { h with
      datOe := false, datO := 0xf#4, transfCnt := 0, crcEn := false, crcRst := true, crcBit := 15#4,
      we := false, rd := false,
      dataIndex := 0#5, blkcntReg := i.blkcnt, byteAlignmentReg := i.byteAlignment,
      dataCycles := dataCyclesOf i.bus4bit i.blksize, bus4bitReg := i.bus4bit, state := .readWait,
      crcOut := (h.tick i).crcOut } := by
    simp [DataSerial.feed, DataSerial.tick, DataSerial.next, hs, hi]
  have hwords : (DataSerial.feed (h, []) i).2 = [] := by simp [DataSerial.feed, hwe]
  have hal := i.byteAlignment.isLt
  rw [Prod.ext (y := (_, _)) hnext hwords]
  exact ⟨rfl, rfl, rfl, rfl, rfl, rfl, rfl, rfl, rfl, by simp only; omega⟩

/-- A transfer: the FIFO gets the bytes of its blocks in order, the first one at the place in its word that the
address asks for, and a rest when the transfer is complete. -/
theorem reads_blocks {h : DataSerial} {i : DataSerialIn} (hs : h.state = .idle) (hwe : h.we = false)
    (hi : i.start = 0b10#2)
    {good : List ((ℕ → BitVec 4) × List DataSerialIn)} {last : (ℕ → BitVec 4) × List DataSerialIn}
    (hgood : ∀ b ∈ good, Carries i.bus4bit i.blksize b.1 b.2 ∧
      CodesOk i.bus4bit (dataCyclesOf i.bus4bit i.blksize) b.1 16)
    (hlast : Carries i.bus4bit i.blksize last.1 last.2) (hlen : good.length ≤ i.blkcnt.toNat)
    (hend : good.length = i.blkcnt.toNat ∨ ¬ CodesOk i.bus4bit (dataCyclesOf i.bus4bit i.blksize) last.1 16) :
    let bits := (good ++ [last]).flatMap fun b => dataBits i.bus4bit b.1 (dataCyclesOf i.bus4bit i.blksize)
    let first := 8 * i.byteAlignment.toNat
    let s' := ((good ++ [last]).flatMap (·.2)).foldl DataSerial.feed (DataSerial.feed (h, []) i)
    s'.1.state = .idle ∧ (s'.1.crcOk = true ↔ CodesOk i.bus4bit (dataCyclesOf i.bus4bit i.blksize) last.1 16) ∧
      s'.2.length = (if good.length = i.blkcnt.toNat then (first + bits.length + 31) / 32
        else (first + bits.length) / 32) ∧
      ∀ j (hj : j < bits.length) (w : BitVec 32), s'.2[(first + j) / 32]? = some w →
        w.getMsbD ((first + j) % 32) = bits[j] := by
  intro bits first s'
  have hdone := reads_done good last (DataSerial.feed_start hs hwe hi) hgood hlast hlen hend
  have hfirst : first < 32 := by
    have := i.byteAlignment.isLt
    omega
  refine ⟨hdone.state, hdone.crcOk, ?_⟩
  have hwords := hdone.words
  change s'.2 = _ at hwords
  by_cases hfull : good.length = i.blkcnt.toNat
  · obtain ⟨hlen, hbit⟩ := Packer.flush_foldl hfirst h.dataOut bits
    rw [givenOut, if_pos hfull] at hwords
    rw [if_pos hfull, hwords]
    refine ⟨hlen, fun j hj w hw => ?_⟩
    rw [← hbit j hj, hw, Option.getD_some]
  · have hpacked := Packer.packed_foldl hfirst h.dataOut bits
    rw [givenOut, if_neg hfull] at hwords
    rw [if_neg hfull, hwords]
    refine ⟨hpacked.length.trans (by rw [hpacked.pos]), fun j hj w hw => ?_⟩
    obtain ⟨hin, -⟩ := List.getElem?_eq_some_iff.1 hw
    rw [← hpacked.bit j hj, List.getElem?_append_left hin, hw, Option.getD_some]

/-- The nibbles of a block, and behind them its codes. -/
def coded (q : List (BitVec 4)) (t : ℕ) : BitVec 4 :=
  if t < q.length then q.getD t 0xf#4
  else quad fun j => (lineCrc (fun k => q.getD k 0xf#4) j q.length).getMsbD (t - q.length)

/-- Two blocks of four bytes on four lines. -/
def twoIn : DataSerialIn := ⟨0#32, 0x0#4, 3#12, true, 1#16, 0b10#2, 0#2⟩

/-- The edges of one of them. -/
def nibbleEdges (d : ℕ → BitVec 4) : List DataSerialIn :=
  { twoIn with start := 0#2 } :: (List.range 26).map fun t => { twoIn with start := 0#2, datReg := d t }

theorem nibbleEdges_carries (d : ℕ → BitVec 4) : Carries true 3#12 d (nibbleEdges d) := by
  refine ⟨⟨[], _, _, rfl, List.forall_mem_nil _, by decide, rfl, fun t ht => by simp⟩, fun j hj => ?_⟩
  simp only [nibbleEdges, List.mem_cons, List.mem_map, List.mem_range] at hj
  obtain rfl | ⟨t, -, rfl⟩ := hj <;> exact ⟨by simp, rfl⟩

theorem reads_blocks_word :
    let d := coded [0xd#4, 0xe#4, 0xa#4, 0xd#4, 0xb#4, 0xe#4, 0xe#4, 0xf#4]
    let d' := coded [0x1#4, 0x2#4, 0x3#4, 0x4#4, 0x5#4, 0x6#4, 0x7#4, 0x8#4]
    let s' := (([(d, nibbleEdges d)] ++ [(d', nibbleEdges d')]).flatMap Prod.snd).foldl DataSerial.feed
      (DataSerial.feed (default, []) twoIn)
    s'.1.state = .idle ∧ s'.1.crcOk = true ∧ s'.2.length = 2 := by
  intro d d' s'
  have hgood :
      ∀ b ∈ [(d, nibbleEdges d)], Carries true 3#12 b.1 b.2 ∧ CodesOk true (dataCyclesOf true 3#12) b.1 16 := by
    intro b hb
    rw [List.mem_singleton.1 hb]
    exact ⟨nibbleEdges_carries d, by decide⟩
  have h :=
    @reads_blocks default twoIn rfl rfl rfl _ (d', nibbleEdges d') hgood (nibbleEdges_carries d') (Nat.le_refl 1)
    (.inl rfl)
  exact ⟨h.1, h.2.1.2 (by decide), h.2.2.1.trans (by decide)⟩

/-- The codes of a block that comes in with other bits, in at most sixteen edges next to each other on each
line. -/
theorem codesOk_burst {bus4 : Bool} {dc : ℕ} {q d : ℕ → BitVec 4} (hq : CodesOk bus4 dc q 16) {a n : Fin 4 → ℕ}
    (hn : ∀ j, n j ≤ 16) (hend : ∀ j, a j + n j ≤ dc + 16)
    (hsame : ∀ j t, ¬ (a j ≤ t ∧ t < a j + n j) → (d t).getLsbD j = (q t).getLsbD j) :
    CodesOk bus4 dc d 16 ↔ ∀ j ∈ lanes bus4, ∀ t, (d t).getLsbD j = (q t).getLsbD j := by
  have hcode : ∀ f : ℕ → BitVec 4, CodesOk bus4 dc f 16 ↔ ∀ j ∈ lanes bus4,
      (List.range' (0 + dc) 16).map (fun t => (f t).getLsbD j)
        = bitsOf (crc poly16 0#16 ((List.range' 0 dc).map fun t => (f t).getLsbD j)) := by
    intro f
    have hline : ∀ j : Fin 4, (List.range' (0 + dc) 16).map (fun t => (f t).getLsbD j)
        = bitsOf (crc poly16 0#16 ((List.range' 0 dc).map fun t => (f t).getLsbD j)) ↔
          ∀ k < 16, (lineCrc f j dc).getMsbD k = (f (dc + k)).getLsbD j := by
      intro j
      rw [← List.range_eq_range', bitsOf, List.range'_eq_map_range, List.map_map, List.map_inj_left]
      simp only [List.mem_range, Function.comp_apply, Nat.zero_add]
      exact forall₂_congr fun k _ => eq_comm
    simp only [hline]
    exact ⟨fun h j hj k hk => h k hk j hj, fun h k hk j hj => h j hj k hk⟩
  rw [hcode] at hq ⊢
  exact forall₂_congr fun j hj => frame_window (by decide) (hq j hj) (hsame j) (hn j) (Nat.zero_le _)
    (by have := hend j; omega)

end Soceteer.Sdhost
