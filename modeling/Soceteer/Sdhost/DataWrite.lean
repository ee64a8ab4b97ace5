import Soceteer.Sdhost.DataRead

/-!
# Soceteer.Sdhost.DataWrite — blocks to the card

* `streamBit`, `frame`: the words of the FIFO as a stream of bits, and what a block of it looks like on the lines.
* `Writing`, `Writing.tick`: in a block; `writes_frame`: the block puts it on the lines.
* `writes_blocks`: a transfer, block for block with the card's answers.

A block whose first byte is the last one of a word is not among them when four lines are in use: `rd` comes up an
edge too late for the second unit of such a block.
-/

namespace Soceteer.Sdhost

open Lib Crc Clocked

/-- An edge with the FIFO in front: `words n` is what it shows, and it goes on to the next one when it finds `rd`
up. -/
def DataSerial.draw (words : ℕ → BitVec 32) (s : DataSerial × ℕ) (i : DataSerialIn) : DataSerial × ℕ :=
  (s.1.tick { i with dataIn := words s.2 }, if s.1.rd then s.2 + 1 else s.2)

/-- Bit `q` of the words. -/
def streamBit (words : ℕ → BitVec 32) (q : ℕ) : Bool := (words (q / 32)).getMsbD (q % 32)

/-- The lines with the bits of the words from `q` on. -/
def unitOf (bus4 : Bool) (words : ℕ → BitVec 32) (q : ℕ) : BitVec 4 :=
  if bus4 then quad fun j => streamBit words (q + (3 - j)) else single (streamBit words q)

/-- The lines with bit `k` of the codes. -/
def codeUnit (bus4 : Bool) (c : Fin 4 → BitVec 16) (k : ℕ) : BitVec 4 :=
  if bus4 then quad fun j => (c j).getMsbD k else single ((c 0).getMsbD k)

/-- A block on the lines: `dc` edges of data from bit `q` of the words on, and the codes. -/
def frame (bus4 : Bool) (words : ℕ → BitVec 32) (q dc t : ℕ) : BitVec 4 :=
  if t < dc then unitOf bus4 words (q + unitLen bus4 * t)
  else codeUnit bus4 (fun j => lineCrc (fun t => unitOf bus4 words (q + unitLen bus4 * t)) j dc) (t - dc)

theorem lineCrc_congr {d d' : ℕ → BitVec 4} {n : ℕ} (h : ∀ t < n, d t = d' t) (j : Fin 4) :
    lineCrc d j n = lineCrc d' j n := by
  rw [lineCrc, lineCrc]
  congr 1
  exact List.map_congr_left fun t ht => by rw [h t (List.mem_range.1 ht)]

theorem lineCrc_frame {bus4 : Bool} {words : ℕ → BitVec 32} {q dc n : ℕ} (hn : n ≤ dc) (j : Fin 4) :
    lineCrc (frame bus4 words q dc) j n = lineCrc (fun t => unitOf bus4 words (q + unitLen bus4 * t)) j n :=
  lineCrc_congr (fun t ht => if_pos (by omega)) j

/-- What is on the lines is a block with its codes. -/
theorem codesOk_frame (bus4 : Bool) (words : ℕ → BitVec 32) (q dc : ℕ) :
    CodesOk bus4 dc (frame bus4 words q dc) 16 := by
  intro k _ j hj
  rw [lineCrc_frame (Nat.le_refl dc), frame, if_neg (by omega), Nat.add_sub_cancel_left]
  cases bus4
  · obtain rfl : j = 0 := by simpa [lanes] using hj
    rw [codeUnit, if_neg Bool.false_ne_true]
    exact (getLsbD_single _).symm
  · rw [codeUnit, if_pos rfl, getLsbD_quad]

theorem unitBits_unitOf (bus4 : Bool) (words : ℕ → BitVec 32) (q : ℕ) :
    unitBits bus4 (unitOf bus4 words q) = (List.range (unitLen bus4)).map fun k => streamBit words (q + k) := by
  cases bus4
  · rw [unitBits, unitOf, if_neg Bool.false_ne_true, unitLen, if_neg Bool.false_ne_true, lanes,
      if_neg Bool.false_ne_true,
      List.map_singleton]
    exact congrArg (fun b => [b]) (getLsbD_single _)
  · rw [unitBits, unitOf, if_pos rfl, unitLen, if_pos rfl, lanes, if_pos rfl]
    simp only [getLsbD_quad]
    rfl

/-- It carries the bits of the words, in order. -/
theorem dataBits_frame (bus4 : Bool) (words : ℕ → BitVec 32) (q dc : ℕ) {n : ℕ} (hn : n ≤ dc) :
    dataBits bus4 (frame bus4 words q dc) n = (List.range (unitLen bus4 * n)).map fun k =>
      streamBit words (q + k) := by
  induction n with
  | zero => simp [dataBits]
  | succ n ih =>
    rw [dataBits_succ, ih (by omega), frame, if_pos (by omega)]
    rw [unitBits_unitOf, Nat.mul_succ, List.range_add, List.map_append, List.map_map]
    simp [Function.comp_def, Nat.add_assoc]

/-- What the block takes from a word. -/
theorem unitAt_eq {bus4 : Bool} {words : ℕ → BitVec 32} {q : ℕ} (hq : q % 32 + unitLen bus4 ≤ 32) :
    unitAt bus4 (words (q / 32)) (31 - q % 32) = unitOf bus4 words q := by
  have hfit : unitLen bus4 ≤ 4 := by cases bus4 <;> simp
  have hbit : ∀ k, k < unitLen bus4 → (words (q / 32)).getLsbD (31 - q % 32 - k) = streamBit words (q + k) := by
    intro k hk
    have hdiv : (q + k) / 32 = q / 32 := by omega
    have hmod : (q + k) % 32 = q % 32 + k := by omega
    rw [streamBit, hdiv, hmod, Nat.sub_sub]
    exact getLsbD_rev (by omega)
  cases bus4
  · rw [unitAt, unitOf, if_neg Bool.false_ne_true, if_neg Bool.false_ne_true]
    exact congrArg single (hbit 0 (by simp))
  · rw [unitAt, unitOf, if_pos rfl, if_pos rfl]
    congr 1
    funext j
    exact hbit (3 - j) (by simp; omega)

/-! ## In a block -/

/-- The registers that stay while a block is being sent. -/
structure WriteCtl (bus4 : Bool) (dc : ℕ) (nb : BitVec 16) (al : BitVec 2) (t : ℕ) (h : DataSerial) : Prop where
  state : h.state = .writeDat
  bus4bitReg : h.bus4bitReg = bus4
  dataCycles : h.dataCycles = dc
  blkcntReg : h.blkcntReg = nb
  byteAlignmentReg : h.byteAlignmentReg = al
  transfCnt : h.transfCnt = t

/-- `t` edges into a block that starts at bit `q` of the words, with its start bit and `t - 3` units on the
lines. -/
structure Writing (words : ℕ → BitVec 32) (bus4 : Bool) (dc : ℕ) (nb : BitVec 16) (al : BitVec 2) (q t : ℕ)
    (s : DataSerial × ℕ) : Prop extends WriteCtl bus4 dc nb al t s.1 where
  crcRst : s.1.crcRst = false
  crcEn : s.1.crcEn = decide (t ≤ dc + 1)
  crcBit : s.1.crcBit = 15#4
  crcOut : ∀ j, s.1.crcOut j = lineCrc (frame bus4 words q dc) j (t - 2)
  datOe : s.1.datOe = true
  lastDin : t ≤ dc + 1 → s.1.lastDin = frame bus4 words q dc (t - 2)
  datO : 3 ≤ t → s.1.datO = frame bus4 words q dc (t - 3)
  dataIndex : t ≤ dc + 1 →
    (if bus4 then 4 * (s.1.dataIndex.toNat % 8) else s.1.dataIndex.toNat) = (q + unitLen bus4 * (t - 1)) % 32
  rd : s.1.rd = decide (t ≤ dc + 1 ∧ (q + unitLen bus4 * (t - 1)) % 32 + unitLen bus4 = 32)
  place : s.2 = (q + unitLen bus4 * min (t - 1) dc) / 32

/-- Where blocks start and end: at a byte. -/
structure Placed (bus4 : Bool) (dc : ℕ) (al : BitVec 2) (q : ℕ) : Prop where
  pos : 2 ≤ dc
  start : q % 32 = 8 * al.toNat
  stop : (q + unitLen bus4 * dc) % 8 = 0
  late : bus4 = true → al ≠ 3#2

/-- An edge of the data phase. -/
theorem DataSerial.writeDat_data {h : DataSerial} {i : DataSerialIn} (hlo : 2 ≤ h.transfCnt)
    (hhi : h.transfCnt ≤ h.dataCycles + 1) : h.writeDat i = { h with
      transfCnt := h.transfCnt + 1
      lastDin := unitAt h.bus4bitReg i.dataIn
        (31 - if h.bus4bitReg then 4 * (h.dataIndex.toNat % 8) else h.dataIndex.toNat)
      rd := if h.bus4bitReg then h.dataIndex.toNat % 8 = 6 ∧ h.transfCnt ≤ h.dataCycles - 1 else h.dataIndex = 30#5
      dataIndex := h.dataIndex + 1
      datO := h.lastDin
      crcEn := h.crcEn && decide (h.transfCnt ≠ h.dataCycles + 1) } := by
  have h0 : h.transfCnt ≠ 0 := by omega
  have h1 : h.transfCnt ≠ 1 := by omega
  cases hbus : h.bus4bitReg <;> by_cases hlast : h.transfCnt = h.dataCycles + 1 <;>
    simp [DataSerial.writeDat, h0, h1, hbus, hlast] <;> omega

section Writing

variable {words : ℕ → BitVec 32} {bus4 : Bool} {dc : ℕ} {nb : BitVec 16} {al : BitVec 2} {q t : ℕ}
  {s : DataSerial × ℕ} {i : DataSerialIn}

/-- The first unit, and the start bit. -/
theorem WriteCtl.draw_start (h : WriteCtl bus4 dc nb al 1 s.1) (hp : Placed bus4 dc al q)
    (hrst : s.1.crcRst = true)
    (hbit : s.1.crcBit = 15#4) (hrd : s.1.rd = false) (hplace : s.2 = q / 32) (hi : i.start ≠ 0b11#2) :
    Writing words bus4 dc nb al q 2 (DataSerial.draw words s i) ∧
      (DataSerial.draw words s i).1.lines = some (if bus4 then 0x0#4 else 0xe#4) := by
  have hal := al.isLt
  have hunit : unitAt bus4 (words s.2) (31 - 8 * al.toNat) = frame bus4 words q dc 0 := by
    have hfit : q % 32 + unitLen bus4 ≤ 32 := by
      have := hp.start
      cases bus4 <;> simp <;> omega
    rw [frame, if_pos (by have := hp.pos; omega), hplace, ← hp.start, unitAt_eq hfit]
    rfl
  have hnext : DataSerial.draw words s i = ({ s.1 with
      rd := false, transfCnt := 2, crcRst := false, crcEn := true,
      lastDin := frame bus4 words q dc 0, datOe := true,
      datO := if bus4 then 0x0#4 else 0xe#4, dataIndex := indexOf bus4 al + 1, crcOut := fun _ => 0#16 },
        s.2) := by
    simp only [DataSerial.draw, DataSerial.tick, DataSerial.next, h.state, DataSerial.writeDat,
      h.transfCnt, if_neg hi, hrst,
      hrd, if_true, h.bus4bitReg, h.byteAlignmentReg, hunit]
    simp
  rw [hnext]
  refine ⟨⟨⟨h.state, h.bus4bitReg, h.dataCycles, h.blkcntReg, h.byteAlignmentReg, rfl⟩, rfl, ?_, hbit,
    fun _ => rfl, rfl,
    fun _ => rfl, fun h => absurd h (by omega), fun _ => ?_, ?_, ?_⟩, rfl⟩
  · exact (decide_eq_true (by have := hp.pos; omega)).symm
  · have hstart := hp.start
    have hnext : (indexOf bus4 al + 1).toNat = (indexOf bus4 al).toNat + 1 := by
      change (indexOf bus4 al + 1#5).toNat = _
      rw [BitVec.toNat_add, indexOf]
      cases bus4 <;> simp only [Bool.false_eq_true, if_false, if_true, BitVec.toNat_ofNat] <;> omega
    simp only
    rw [hnext, indexOf]
    cases bus4 <;> simp <;> omega
  · have hstart := hp.start
    symm
    rw [decide_eq_false_iff_not]
    rintro ⟨-, hlast⟩
    cases bus4
    · simp at hlast
      omega
    · have hne : al.toNat ≠ 3 := fun h => hp.late rfl (BitVec.eq_of_toNat_eq h)
      simp at hlast
      omega
  · have hstart := hp.start
    rw [Nat.min_eq_left (by have := hp.pos; omega), hplace]
    cases bus4 <;> simp <;> omega

/-- A unit on the lines. -/
theorem Writing.draw_data (h : Writing words bus4 dc nb al q t s) (hp : Placed bus4 dc al q) (hlo : 2 ≤ t)
    (ht : t ≤ dc + 1)
    (hi : i.start ≠ 0b11#2) : Writing words bus4 dc nb al q (t + 1) (DataSerial.draw words s i) ∧
      (DataSerial.draw words s i).1.lines = some (frame bus4 words q dc (t - 2)) := by
  obtain ⟨k, rfl⟩ : ∃ k, t = k + 2 := ⟨t - 2, by omega⟩
  simp only [Nat.add_sub_cancel] at *
  have hcrc : ∀ j, (if s.1.crcRst then 0#16 else if s.1.crcEn then sdCrc16 (s.1.crcOut j) (s.1.lastDin.getLsbD j)
      else s.1.crcOut j) = lineCrc (frame bus4 words q dc) j (k + 1) := by
    intro j
    rw [h.crcRst, if_neg Bool.false_ne_true, h.crcEn, decide_eq_true ht, if_pos rfl, h.crcOut, h.lastDin ht,
      Nat.add_sub_cancel, lineCrc_succ]
  -- `pos` is where the unit starts that this edge takes from the word
  set pos := q + unitLen bus4 * (k + 1) with hpos
  have hidx : (if bus4 then 4 * (s.1.dataIndex.toNat % 8) else s.1.dataIndex.toNat) = pos % 32 := h.dataIndex ht
  have hrdnow : s.1.rd = decide (k + 2 ≤ dc + 1 ∧ pos % 32 + unitLen bus4 = 32) := h.rd
  have hnow : s.2 = (q + unitLen bus4 * min (k + 1) dc) / 32 := h.place
  have hposnext : q + unitLen bus4 * (k + 2) = pos + unitLen bus4 := by rw [hpos, Nat.add_assoc, ← Nat.mul_succ]
  have hunit4 : unitLen bus4 = 4 ∨ unitLen bus4 = 1 := by cases bus4 <;> simp
  have halign : pos % unitLen bus4 = 0 := by
    have hstart := hp.start
    cases bus4 <;> simp [hpos] <;> omega
  have hlast : k + 1 = dc → pos % 8 = 0 := by
    rintro rfl
    exact hp.stop
  have hunit : k + 1 < dc → unitAt bus4 (words s.2) (31 - pos % 32) = frame bus4 words q dc (k + 1) := by
    intro hk
    have hfit : pos % 32 + unitLen bus4 ≤ 32 := by
      rcases hunit4 with hu | hu <;> rw [hu] at halign ⊢ <;> omega
    rw [hnow, frame, if_pos hk, Nat.min_eq_left hk.le]
    exact unitAt_eq hfit
  have hplace : (if s.1.rd then s.2 + 1 else s.2) = (q + unitLen bus4 * min (k + 2) dc) / 32 := by
    rw [hrdnow]
    simp only [decide_eq_true_eq]
    by_cases hk : k + 1 < dc
    · rw [Nat.min_eq_left hk.le, ← hpos] at hnow
      rw [Nat.min_eq_left hk, hposnext, hnow]
      split_ifs with hfull <;> rcases hunit4 with hu | hu <;> rw [hu] at hfull halign ⊢ <;> omega
    · have hdc : k + 1 = dc := by omega
      rw [Nat.min_eq_left hdc.le, ← hpos] at hnow
      have hno := hlast hdc
      rw [Nat.min_eq_right (by omega), ← hdc, ← hpos, hnow, if_neg]
      rintro ⟨-, hfull⟩
      rcases hunit4 with hu | hu <;> rw [hu] at hfull <;> omega
  have hrd :
    (if bus4 then decide (s.1.dataIndex.toNat % 8 = 6 ∧ k + 2 ≤ dc - 1) else decide (s.1.dataIndex = 30#5))
      = decide (k + 3 ≤ dc + 1 ∧ (q + unitLen bus4 * (k + 2)) % 32 + unitLen bus4 = 32) := by
    rw [hposnext]
    have hstop : k + 2 = dc → (pos + unitLen bus4) % 8 = 0 := by
      rintro rfl
      exact hposnext ▸ hp.stop
    cases bus4
    · rw [if_neg Bool.false_ne_true] at hidx ⊢
      rw [decide_eq_decide, ← BitVec.toNat_inj, hidx, unitLen_false]
      simp only [BitVec.toNat_ofNat]
      omega
    · rw [if_pos rfl] at hidx ⊢
      rw [unitLen_true] at hstop halign
      rw [decide_eq_decide, unitLen_true]
      omega
  have hnext : DataSerial.draw words s i = ({ s.1 with
      rd := decide (k + 3 ≤ dc + 1 ∧ (q + unitLen bus4 * (k + 2)) % 32 + unitLen bus4 = 32), transfCnt := k + 3,
      lastDin := unitAt bus4 (words s.2) (31 - pos % 32), dataIndex := s.1.dataIndex + 1,
      datO := frame bus4 words q dc k, crcEn := decide (k + 3 ≤ dc + 1),
      crcOut := fun j => lineCrc (frame bus4 words q dc) j (k + 1) },
        (q + unitLen bus4 * min (k + 2) dc) / 32) := by
    rw [DataSerial.draw, hplace, DataSerial.tick]
    have hdat :=
      DataSerial.writeDat_data (h := s.1) (i := { i with dataIn := words s.2 }) (by rw [h.transfCnt]; omega)
      (by rw [h.transfCnt, h.dataCycles]; exact ht)
    have hen : (s.1.crcEn && decide (k + 2 ≠ dc + 1)) = decide (k + 3 ≤ dc + 1) := by
      rw [h.crcEn, decide_eq_true ht, Bool.true_and, decide_eq_decide]
      omega
    simp only [h.bus4bitReg, hidx, h.transfCnt, h.dataCycles, h.lastDin ht, Nat.add_sub_cancel, hen, hrd] at hdat
    simp only [hcrc, if_neg hi, DataSerial.next, h.state, hdat]
    rw [h.bus4bitReg, h.dataCycles]
  rw [hnext]
  refine ⟨⟨⟨h.state, h.bus4bitReg, h.dataCycles, h.blkcntReg, h.byteAlignmentReg, rfl⟩, h.crcRst, rfl,
    h.crcBit, fun _ => rfl,
    h.datOe, fun hk => hunit (by omega), fun _ => rfl, fun hk => ?_, rfl, rfl⟩, ?_⟩
  · exact hposnext ▸ index_succ hidx
  · simp [DataSerial.lines, h.datOe]

/-- With `k` bits of the codes on the lines. -/
structure Coding (words : ℕ → BitVec 32) (bus4 : Bool) (dc : ℕ) (nb : BitVec 16) (al : BitVec 2) (q k : ℕ)
    (s : DataSerial × ℕ) : Prop extends WriteCtl bus4 dc nb al (dc + 2 + k) s.1 where
  crcRst : s.1.crcRst = false
  crcEn : s.1.crcEn = false
  crcBit : k < 16 → s.1.crcBit = BitVec.ofNat 4 (15 - k)
  crcOut : ∀ j, s.1.crcOut j = lineCrc (frame bus4 words q dc) j dc
  datOe : s.1.datOe = true
  high : bus4 = false → ∀ j : Fin 4, j ≠ 0 → s.1.datO.getLsbD j = true
  rd : s.1.rd = false
  place : s.2 = (q + unitLen bus4 * dc) / 32

theorem Writing.coding (h : Writing words bus4 dc nb al q (dc + 2) s) (hdc : 2 ≤ dc) :
    Coding words bus4 dc nb al q 0 s := by
  refine ⟨h.toWriteCtl, h.crcRst, h.crcEn.trans (decide_eq_false (by omega)), fun _ => h.crcBit, h.crcOut, h.datOe,
    fun hb j hj => ?_, h.rd.trans (decide_eq_false (by omega)), ?_⟩
  · subst hb
    rw [h.datO (by omega), show dc + 2 - 3 = dc - 1 by omega, frame, if_pos (by omega), unitOf,
      if_neg Bool.false_ne_true,
      single, getLsbD_quad, if_neg hj]
  · rw [h.place, Nat.min_eq_right (by omega)]

/-- A bit of the codes on the lines. -/
theorem Coding.draw {k : ℕ} (h : Coding words bus4 dc nb al q k s) (hk : k < 16) (hi : i.start ≠ 0b11#2) :
    Coding words bus4 dc nb al q (k + 1) (DataSerial.draw words s i) ∧
      (DataSerial.draw words s i).1.lines = some (frame bus4 words q dc (dc + k)) := by
  have hbit : ∀ j, (s.1.crcOut j).getLsbD s.1.crcBit.toNat = (lineCrc (frame bus4 words q dc) j dc).getMsbD k := by
    intro j
    have hpos : s.1.crcBit.toNat = 16 - 1 - k := by
      rw [h.crcBit hk, BitVec.toNat_ofNat]
      omega
    rw [hpos, getLsbD_rev hk, h.crcOut]
  have hframe : frame bus4 words q dc (dc + k) =
      codeUnit bus4 (fun j => lineCrc (frame bus4 words q dc) j dc) k := by
    simp only [lineCrc_frame (Nat.le_refl dc)]
    rw [frame, if_neg (by omega), Nat.add_sub_cancel_left]
  have hdat : (if bus4 then quad fun j => (s.1.crcOut j).getLsbD s.1.crcBit.toNat
      else quad fun j => if j = 0 then (s.1.crcOut 0).getLsbD s.1.crcBit.toNat else s.1.datO.getLsbD j)
        = frame bus4 words q dc (dc + k) := by
    simp only [hbit]
    rw [hframe, codeUnit]
    cases hb : bus4
    · rw [if_neg Bool.false_ne_true, if_neg Bool.false_ne_true, single]
      congr 1
      funext j
      split_ifs with hj
      · subst hb
        rfl
      · exact h.high hb j hj
    · rfl
  have hdown : k + 1 < 16 → s.1.crcBit - 1 = BitVec.ofNat 4 (15 - (k + 1)) := by
    intro hk
    have hall : ∀ k < 15, BitVec.ofNat 4 (15 - k) - 1 = BitVec.ofNat 4 (15 - (k + 1)) := by decide
    rw [h.crcBit (by omega)]
    exact hall k (by omega)
  have hnext : DataSerial.draw words s i = ({ s.1 with
      rd := false, transfCnt := dc + 2 + k + 1, crcEn := false, crcBit := s.1.crcBit - 1,
      datO := frame bus4 words q dc (dc + k) }, s.2) := by
    rw [DataSerial.draw, h.rd, if_neg Bool.false_ne_true, DataSerial.tick]
    simp only [if_neg hi, h.crcRst, h.crcEn, Bool.false_eq_true, if_false, DataSerial.next, h.state,
      DataSerial.writeDat,
      h.transfCnt, if_neg (show ¬ dc + 2 + k = 0 by omega), if_neg (show ¬ dc + 2 + k = 1 by omega), h.dataCycles,
      if_neg (show ¬ dc + 2 + k ≤ dc + 1 by omega), if_pos (show dc + 2 + k ≤ dc + 17 by omega),
        h.bus4bitReg, hdat]
  rw [hnext]
  refine ⟨⟨⟨h.state, h.bus4bitReg, h.dataCycles, h.blkcntReg, h.byteAlignmentReg, rfl⟩, h.crcRst,
    rfl, hdown, h.crcOut,
    h.datOe, fun hb j hj => ?_, rfl, h.place⟩, by simp [DataSerial.lines, h.datOe]⟩
  subst hb
  simp only
  rw [hframe, codeUnit, if_neg Bool.false_ne_true, single, getLsbD_quad, if_neg hj]

/-- The registers that stay while the card answers. -/
structure Answering (bus4 : Bool) (dc : ℕ) (nb : BitVec 16) (al : BitVec 2) (n : ℕ)
    (s : DataSerial × ℕ) : Prop where
  bus4bitReg : s.1.bus4bitReg = bus4
  dataCycles : s.1.dataCycles = dc
  blkcntReg : s.1.blkcntReg = nb
  byteAlignmentReg : s.1.byteAlignmentReg = al
  datOe : s.1.datOe = false
  rd : s.1.rd = false
  place : s.2 = n

/-- The end bit, and the lines released. -/
theorem Coding.draw_end (h : Coding words bus4 dc nb al q 16 s) {i₁ i₂ i₃ : DataSerialIn} (h₁ : i₁.start ≠ 0b11#2)
    (h₂ : i₂.start ≠ 0b11#2) (h₃ : i₃.start ≠ 0b11#2) :
    let s' := [i₁, i₂, i₃].foldl (DataSerial.draw words) s
    Answering bus4 dc nb al ((q + unitLen bus4 * dc) / 32) s' ∧ s'.1.state = .writeWait ∧
      outputs (DataSerial.draw words) (·.1.lines) s [i₁, i₂, i₃] = [some 0xf#4, none, none] := by
  have hstep : ∀ (h : DataSerial) (t : ℕ) (i : DataSerialIn), h.state = .writeDat → h.transfCnt = dc + 18 + t →
      h.dataCycles = dc → h.crcRst = false → h.crcEn = false → h.rd = false → i.start ≠ 0b11#2 → ∀ n,
      DataSerial.draw words (h, n) i =
        ((if t = 0 then { h with rd := false, transfCnt := dc + 18 + t + 1, datO := 0xf#4 }
        else if t = 1 then { h with rd := false, transfCnt := dc + 18 + t + 1, datOe := false }
        else { h with rd := false, transfCnt := dc + 18 + t + 1, state := .writeWait }), n) := by
    intro h t i hs ht hdc hrst hen hrd hi n
    rw [DataSerial.draw]
    simp only [hrd, Bool.false_eq_true, if_false, DataSerial.tick, if_neg hi, hrst, hen, DataSerial.next, hs,
      DataSerial.writeDat, ht, hdc, if_neg (show ¬ dc + 18 + t = 0 by omega),
        if_neg (show ¬ dc + 18 + t = 1 by omega),
      if_neg (show ¬ dc + 18 + t ≤ dc + 1 by omega), if_neg (show ¬ dc + 18 + t ≤ dc + 17 by omega)]
    have h18 : dc + 18 + t = dc + 18 ↔ t = 0 := by omega
    have h19 : dc + 18 + t = dc + 19 ↔ t = 1 := by omega
    simp only [h18, h19]
    split_ifs <;> simp
  obtain ⟨s, n⟩ := s
  have hfirst := hstep s 0 i₁ h.state h.transfCnt h.dataCycles h.crcRst h.crcEn h.rd h₁ n
  rw [if_pos rfl] at hfirst
  have hsecond :=
    hstep { s with rd := false, transfCnt := dc + 18 + 0 + 1, datO := 0xf#4 } 1 i₂ h.state rfl h.dataCycles
    h.crcRst h.crcEn rfl h₂ n
  rw [if_neg Nat.one_ne_zero, if_pos rfl] at hsecond
  have hthird :=
    hstep { s with rd := false, transfCnt := dc + 18 + 1 + 1, datO := 0xf#4, datOe := false } 2 i₃ h.state rfl
    h.dataCycles h.crcRst h.crcEn rfl h₃ n
  rw [if_neg (by omega), if_neg (by omega)] at hthird
  simp only [List.foldl_cons, List.foldl_nil, outputs, hfirst, hsecond, hthird]
  refine ⟨⟨h.bus4bitReg, h.dataCycles, h.blkcntReg, h.byteAlignmentReg, rfl, rfl, h.place⟩, trivial, ?_⟩
  simpa [DataSerial.lines] using h.datOe

end Writing

/-! ## The answer of the card -/

/-- The four bits behind the start bit of an answer that accepts a block. -/
def accepts (a : ℕ → Bool) : Prop := a 0 = false ∧ a 1 = true ∧ a 2 = false ∧ a 3 = true

instance (a : ℕ → Bool) : Decidable (accepts a) := inferInstanceAs (Decidable (_ ∧ _))

section Answer

variable (words : ℕ → BitVec 32) {bus4 : Bool} {dc n : ℕ} {nb : BitVec 16} {al : BitVec 2} {s : DataSerial × ℕ}
  {i : DataSerialIn} {a : ℕ → Bool}

/-- An edge on which only the registers of the answer move. -/
theorem Answering.draw (h : Answering bus4 dc nb al n s) (hs : s.1.state = .writeWait ∨ s.1.state = .writeDrt)
    (hi : i.start ≠ 0b11#2) : Answering bus4 dc nb al n (DataSerial.draw words s i) ∧
      (DataSerial.draw words s i).1.lines = none := by
  have hn : (if s.1.rd then s.2 + 1 else s.2) = s.2 := by rw [h.rd, if_neg Bool.false_ne_true]
  rcases hs with hs | hs
  · rw [DataSerial.draw, hn]
    simp only [DataSerial.tick, DataSerial.next, hs, if_neg hi]
    exact ⟨⟨h.bus4bitReg, h.dataCycles, h.blkcntReg, h.byteAlignmentReg, h.datOe, h.rd, h.place⟩,
      by simp [DataSerial.lines, h.datOe]⟩
  · rw [DataSerial.draw, hn]
    simp only [DataSerial.tick, DataSerial.next, hs, if_neg hi]
    split_ifs <;> exact ⟨⟨h.bus4bitReg, h.dataCycles, h.blkcntReg, h.byteAlignmentReg, h.datOe, h.rd, h.place⟩,
      by simp [DataSerial.lines, h.datOe]⟩

/-- In the answer, with `k` of its sixteen edges gone. -/
structure Token (bus4 : Bool) (dc : ℕ) (nb : BitVec 16) (al : BitVec 2) (n : ℕ) (a : ℕ → Bool) (k : ℕ)
    (s : DataSerial × ℕ) : Prop extends Answering bus4 dc nb al n s where
  state : s.1.state = if k < 16 then .writeDrt else .writeBusy
  drtBit : s.1.drtBit = BitVec.ofNat 4 k
  drtReg : ∀ j < 4, j < k → s.1.drtReg.getLsbD j = a j
  crcOk : k = 16 → (s.1.crcOk = true ↔ accepts a)

theorem Answering.draw_quiet (h : Answering bus4 dc nb al n s ∧ s.1.state = .writeWait)
    (hd : i.datReg.getLsbD 0 = true)
    (hi : i.start ≠ 0b11#2) :
    (Answering bus4 dc nb al n (DataSerial.draw words s i) ∧ (DataSerial.draw words s i).1.state = .writeWait) ∧
      (DataSerial.draw words s i).1.lines = none := by
  have hans := h.1.draw words (.inl h.2) hi
  refine ⟨⟨hans.1, ?_⟩, hans.2⟩
  simp only [DataSerial.draw, DataSerial.tick, DataSerial.next, h.2, hd, if_neg hi, if_true]

theorem Answering.draw_start (h : Answering bus4 dc nb al n s) (hs : s.1.state = .writeWait)
    (hd : i.datReg.getLsbD 0 = false) (hi : i.start ≠ 0b11#2) :
      Token bus4 dc nb al n a 0 (DataSerial.draw words s i) := by
  refine ⟨(h.draw words (.inl hs) hi).1, ?_, ?_, fun j _ hj => absurd hj (Nat.not_lt_zero j), fun h =>
    absurd h (by omega)⟩
  all_goals simp only [DataSerial.draw, DataSerial.tick, DataSerial.next, hs, hd, if_neg hi,
    Bool.false_eq_true, if_false]
  rfl

theorem drtReg_eq_iff {v : BitVec 4} (hv : ∀ j < 4, v.getLsbD j = a j) : v = 0b1010#4 ↔ accepts a := by
  have hall : ∀ v : BitVec 4, v = 0b1010#4 ↔
      v.getLsbD 0 = false ∧ v.getLsbD 1 = true ∧ v.getLsbD 2 = false ∧ v.getLsbD 3 = true := by decide
  rw [accepts, ← hv 0 (by omega), ← hv 1 (by omega), ← hv 2 (by omega), ← hv 3 (by omega)]
  exact hall v

theorem Token.draw {k : ℕ} (h : Token bus4 dc nb al n a k s) (hk : k < 16) (hd : k < 4 → i.datReg.getLsbD 0 = a k)
    (hi : i.start ≠ 0b11#2) : Token bus4 dc nb al n a (k + 1) (DataSerial.draw words s i) ∧
      (DataSerial.draw words s i).1.lines = none := by
  have hs : s.1.state = .writeDrt := h.state.trans (if_pos hk)
  have hans := h.toAnswering.draw words (.inr hs) hi
  have hle : s.1.drtBit ≤ 3#4 ↔ k < 4 := by
    rw [h.drtBit, BitVec.le_def]
    simp only [BitVec.toNat_ofNat]
    omega
  have hlast : s.1.drtBit = 15#4 ↔ k = 15 := by
    rw [h.drtBit, ← BitVec.toNat_inj]
    simp only [BitVec.toNat_ofNat]
    omega
  have hnat : s.1.drtBit.toNat = k := by
    rw [h.drtBit, BitVec.toNat_ofNat]
    omega
  have hcount : s.1.drtBit + 1 = BitVec.ofNat 4 (k + 1) := by
    rw [h.drtBit, BitVec.ofNat_add]
    rfl
  have hfst : (DataSerial.draw words s i).1 = s.1.tick { i with dataIn := words s.2 } := rfl
  have hreg : (DataSerial.draw words s i).1.state = (if k + 1 < 16 then .writeDrt else .writeBusy) ∧
      (DataSerial.draw words s i).1.drtBit = BitVec.ofNat 4 (k + 1) ∧
      (DataSerial.draw words s i).1.drtReg = (if k < 4 then setBit s.1.drtReg k (i.datReg.getLsbD 0)
        else s.1.drtReg) ∧
      (k = 15 → (DataSerial.draw words s i).1.crcOk = decide (s.1.drtReg = 0b1010#4)) := by
    rw [hfst]
    simp only [DataSerial.tick, DataSerial.next, hs, if_neg hi, hle, hlast, hnat, ← hcount]
    by_cases h4 : k < 4
    · simp [h4, show k + 1 < 16 by omega, show k ≠ 15 by omega]
    · by_cases h15 : k = 15
      · simp [h15]
      · simp [h4, h15, show k + 1 < 16 by omega, hs]
  obtain ⟨hstate, hbit, hreg, hok⟩ := hreg
  refine ⟨⟨hans.1, hstate, hbit, fun j hj hjk => ?_, fun h16 => ?_⟩, hans.2⟩
  · rw [hreg]
    by_cases h4 : k < 4
    · rw [if_pos h4, hd h4, getLsbD_setBit _ _ _ hj]
      split_ifs with hjk'
      · rw [hjk']
      · exact h.drtReg j hj (by omega)
    · rw [if_neg h4]
      exact h.drtReg j hj (by omega)
  · rw [hok (by omega), decide_eq_true_iff, drtReg_eq_iff fun j hj => h.drtReg j hj (by omega)]

/-- Before a block that starts at bit `q` of the words. -/
structure WriteReady (bus4 : Bool) (dc : ℕ) (nb : BitVec 16) (al : BitVec 2) (q : ℕ) (s : DataSerial × ℕ) : Prop
    extends WriteCtl bus4 dc nb al 0 s.1 where
  crcRst : s.1.crcRst = true
  datOe : s.1.datOe = false
  rd : s.1.rd = false
  place : s.2 = q / 32

theorem WriteReady.draw {q : ℕ} (h : WriteReady bus4 dc nb al q s) (hi : i.start ≠ 0b11#2) :
    WriteCtl bus4 dc nb al 1 (DataSerial.draw words s i).1 ∧ (DataSerial.draw words s i).1.crcRst = true ∧
      (DataSerial.draw words s i).1.crcBit = 15#4 ∧ (DataSerial.draw words s i).1.rd = false ∧
      (DataSerial.draw words s i).2 = q / 32 ∧ (DataSerial.draw words s i).1.lines = none := by
  have hn : (if s.1.rd then s.2 + 1 else s.2) = s.2 := by rw [h.rd, if_neg Bool.false_ne_true]
  have hnext : DataSerial.draw words s i = ({ s.1 with
      rd := false, transfCnt := 1, crcOk := false, crcBit := 15#4, crcOut := fun _ => 0#16 }, s.2) := by
    rw [DataSerial.draw, hn]
    simp only [DataSerial.tick, DataSerial.next, h.state, if_neg hi, DataSerial.writeDat, h.transfCnt,
      h.crcRst, if_true]
  rw [hnext]
  exact ⟨⟨h.state, h.bus4bitReg, h.dataCycles, h.blkcntReg, h.byteAlignmentReg, rfl⟩, h.crcRst, rfl, rfl, h.place,
    by simp [DataSerial.lines, h.datOe]⟩

/-- The end of an answer: the card is busy, or it has let go of the line. -/
theorem Token.draw_busy (h : Token bus4 dc nb al n a 16 s) (hd : i.datReg.getLsbD 0 = false)
    (hi : i.start ≠ 0b11#2) :
    Token bus4 dc nb al n a 16 (DataSerial.draw words s i) ∧ (DataSerial.draw words s i).1.lines = none := by
  have hs : s.1.state = .writeBusy := h.state
  have hnext : DataSerial.draw words s i = ({ s.1 with crcOut := (s.1.tick i).crcOut }, s.2) := by
    rw [DataSerial.draw, h.rd, if_neg Bool.false_ne_true]
    simp only [DataSerial.tick, DataSerial.next, hs, if_neg hi, hd, Bool.false_eq_true, if_false]
  rw [hnext]
  exact ⟨⟨⟨h.bus4bitReg, h.dataCycles, h.blkcntReg, h.byteAlignmentReg, h.datOe, h.rd, h.place⟩, hs,
    h.drtBit, h.drtReg,
    h.crcOk⟩, by simp [DataSerial.lines, h.datOe]⟩

theorem Token.draw_last {q : ℕ} (h : Token bus4 dc nb al (q / 32) a 16 s) (hd : i.datReg.getLsbD 0 = true)
    (hi : i.start ≠ 0b11#2) : (DataSerial.draw words s i).1.lines = none ∧
      if nb ≠ 0#16 ∧ accepts a then
        WriteReady bus4 dc (nb - 1) (al + i.blksize.extractLsb' 0 2 + 1#2) q (DataSerial.draw words s i)
      else (DataSerial.draw words s i).1.state = .idle ∧ ((DataSerial.draw words s i).1.crcOk = true ↔ accepts a) ∧
        (DataSerial.draw words s i).2 = q / 32 := by
  have hs : s.1.state = .writeBusy := h.state
  have hok := h.crcOk rfl
  have hnext : DataSerial.draw words s i = (if nb ≠ 0#16 ∧ accepts a then { s.1 with
      transfCnt := 0, blkcntReg := nb - 1, crcRst := true, state := .writeDat,
      byteAlignmentReg := al + i.blksize.extractLsb' 0 2 + 1#2, crcOut := (s.1.tick i).crcOut }
      else { s.1 with state := .idle, crcOut := (s.1.tick i).crcOut }, s.2) := by
    rw [DataSerial.draw, h.rd, if_neg Bool.false_ne_true]
    simp only [DataSerial.tick, DataSerial.next, hs, if_neg hi, hd, if_true, h.blkcntReg, hok, h.byteAlignmentReg]
    split_ifs <;> rfl
  rw [hnext]
  split_ifs
  · exact ⟨by simp [DataSerial.lines, h.datOe], ⟨rfl, h.bus4bitReg, h.dataCycles, rfl, rfl, rfl⟩, rfl,
      h.datOe, h.rd, h.place⟩
  · exact ⟨by simp [DataSerial.lines, h.datOe], rfl, hok, h.place⟩

end Answer

/-! ## Blocks and transfers -/

/-- The lines in the edges that send a block. -/
def blockLines (bus4 : Bool) (words : ℕ → BitVec 32) (q dc : ℕ) : List (Option (BitVec 4)) :=
  none :: some (if bus4 then 0x0#4 else 0xe#4) ::
    (((List.range (dc + 16)).map fun t => some (frame bus4 words q dc t)) ++ [some 0xf#4, none, none])

section Transfer

variable (words : ℕ → BitVec 32) {bus4 : Bool} {dc : ℕ} {nb : BitVec 16} {al : BitVec 2} {q : ℕ}
    {s : DataSerial × ℕ}

theorem writes_frame (h : WriteReady bus4 dc nb al q s) (hp : Placed bus4 dc al q) {edges : List DataSerialIn}
    (hlen : edges.length = dc + 21) (hi : ∀ i ∈ edges, i.start ≠ 0b11#2) :
    outputs (DataSerial.draw words) (·.1.lines) s edges = blockLines bus4 words q dc ∧
      Answering bus4 dc nb al ((q + unitLen bus4 * dc) / 32) (edges.foldl (DataSerial.draw words) s) ∧
      (edges.foldl (DataSerial.draw words) s).1.state = .writeWait := by
  obtain ⟨lead, rest, rfl, hlead, hrest⟩ := exists_parts (show edges.length = 2 + (dc + 19) by omega)
  obtain ⟨data, rest, rfl, hdata, hrest⟩ := exists_parts (show rest.length = dc + 19 by omega)
  obtain ⟨code, tail, rfl, hcode, htail⟩ := exists_parts (show rest.length = 16 + 3 by omega)
  obtain ⟨i₀, i₁, rfl⟩ := List.length_eq_two.1 hlead
  obtain ⟨i₂, i₃, i₄, rfl⟩ := List.length_eq_three.1 htail
  have hdc := hp.pos
  obtain ⟨hctl, hrst, hbit, hrd, hplace, hline₀⟩ := h.draw words (hi i₀ (by simp))
  obtain ⟨hstart, hline₁⟩ := hctl.draw_start hp hrst hbit hrd hplace (hi i₁ (by simp))
  set s₂ := DataSerial.draw words (DataSerial.draw words s i₀) i₁ with hs₂
  -- the data
  have hstep : ∀ t s (i : DataSerialIn), t < dc + 2 → (2 ≤ t ∧ Writing words bus4 dc nb al q t s) →
    i.start ≠ 0b11#2 →
      2 ≤ t + 1 ∧ Writing words bus4 dc nb al q (t + 1) (DataSerial.draw words s i) :=
    fun t s i ht h hi => ⟨by omega, (h.2.draw_data hp h.1 (by omega) hi).1⟩
  have hout : ∀ t s (i : DataSerialIn), t < dc + 2 → (2 ≤ t ∧ Writing words bus4 dc nb al q t s) →
    i.start ≠ 0b11#2 →
      (DataSerial.draw words s i).1.lines = some (frame bus4 words q dc (t - 2)) :=
    fun t s i ht h hi => (h.2.draw_data hp h.1 (by omega) hi).2
  have hin : ∀ (j : ℕ) (hj : j < data.length), data[j].start ≠ 0b11#2 := fun j hj => hi _ (by simp)
  have hrun := foldl_phase hstep data (k := 2) (by omega) ⟨Nat.le_refl 2, hstart⟩ hin
  have hbits : outputs (DataSerial.draw words) (·.1.lines) s₂ data
      = (List.range' 2 data.length).map fun t => some (frame bus4 words q dc (t - 2)) :=
    outputs_phase hstep hout (k := 2) (by omega) ⟨Nat.le_refl 2, hstart⟩ hin
  have hend : 2 + data.length = dc + 2 := by omega
  rw [hend] at hrun
  -- the codes
  have hstep' : ∀ k s (i : DataSerialIn), k < 16 → Coding words bus4 dc nb al q k s → i.start ≠ 0b11#2 →
      Coding words bus4 dc nb al q (k + 1) (DataSerial.draw words s i) := fun k s i hk h hi => (h.draw hk hi).1
  have hout' : ∀ k s (i : DataSerialIn), k < 16 → Coding words bus4 dc nb al q k s → i.start ≠ 0b11#2 →
      (DataSerial.draw words s i).1.lines = some (frame bus4 words q dc (dc + k)) :=
        fun k s i hk h hi => (h.draw hk hi).2
  have hin' : ∀ (j : ℕ) (hj : j < code.length), code[j].start ≠ 0b11#2 := fun j hj => hi _ (by simp)
  have hcoding := hrun.2.coding hdc
  have hcodes := foldl_phase hstep' code (k := 0) (by omega) hcoding hin'
  have hbits' : outputs (DataSerial.draw words) (·.1.lines) (data.foldl (DataSerial.draw words) s₂) code
      = (List.range' 0 code.length).map fun k => some (frame bus4 words q dc (dc + k)) :=
    outputs_phase hstep' hout' (k := 0) (by omega) hcoding hin'
  rw [Nat.zero_add, hcode] at hcodes
  rw [hcode] at hbits'
  obtain ⟨hans, hstate, hlines⟩ := hcodes.draw_end (hi i₂ (by simp)) (hi i₃ (by simp)) (hi i₄ (by simp))
  have hfold : ([i₀, i₁] ++ (data ++ (code ++ [i₂, i₃, i₄]))).foldl (DataSerial.draw words) s
      = [i₂, i₃, i₄].foldl (DataSerial.draw words)
        (code.foldl (DataSerial.draw words) (data.foldl (DataSerial.draw words) s₂)) := by
    simp only [List.foldl_append, hs₂]
    rfl
  rw [hfold]
  refine ⟨?_, hans, hstate⟩
  have hframe : (List.range' 2 dc).map (fun t => some (frame bus4 words q dc (t - 2))) ++
      (List.range' 0 16).map (fun k => some (frame bus4 words q dc (dc + k)))
        = (List.range (dc + 16)).map fun t => some (frame bus4 words q dc t) := by
    rw [List.range_add, List.map_append, List.map_map, ← List.range_eq_range',
      List.range'_eq_map_range, List.map_map]
    simp [Function.comp_def]
  have hlead : [i₀, i₁].foldl (DataSerial.draw words) s = s₂ := rfl
  rw [outputs_append, outputs_append, outputs_append, outputs, outputs, outputs, hline₀, hline₁,
    blockLines, ← hframe,
    hlead, hbits, hbits', hlines, hdata, List.append_assoc]
  rfl

/-- The edges in which the card answers with the bits `a`: the line idle, a start bit, the answer, busy, and the
line idle. -/
structure Answers (blksize : BitVec 12) (a : ℕ → Bool) (edges : List DataSerialIn) : Prop where
  split : ∃ quiet first token busy last, edges = quiet ++ first :: (token ++ (busy ++ [last])) ∧
    (∀ i ∈ quiet, i.datReg.getLsbD 0 = true) ∧ first.datReg.getLsbD 0 = false ∧ token.length = 16 ∧
      (∀ k < 4, ∀ hk : k < token.length, token[k].datReg.getLsbD 0 = a k) ∧
        (∀ i ∈ busy, i.datReg.getLsbD 0 = false) ∧ last.datReg.getLsbD 0 = true
  steady : ∀ i ∈ edges, i.start ≠ 0b11#2 ∧ i.blksize = blksize

/-- Edges that keep a property and drive no line. -/
theorem draw_silent {I : DataSerial × ℕ → Prop} {P : DataSerialIn → Prop}
    (hstep : ∀ s i, I s → P i → I (DataSerial.draw words s i) ∧ (DataSerial.draw words s i).1.lines = none)
    {is : List DataSerialIn} (hs : I s) (hi : ∀ i ∈ is, P i) :
    I (is.foldl (DataSerial.draw words) s) ∧
      outputs (DataSerial.draw words) (·.1.lines) s is = List.replicate is.length none := by
  induction is generalizing s with
  | nil => exact ⟨hs, rfl⟩
  | cons i is ih =>
    obtain ⟨hnext, hline⟩ := hstep s i hs (hi i List.mem_cons_self)
    obtain ⟨hend, hlines⟩ := ih hnext fun j hj => hi j (List.mem_cons_of_mem i hj)
    exact ⟨hend, by rw [outputs, hline, hlines, List.length_cons, List.replicate_succ]⟩

theorem writes_answer {blksize : BitVec 12} {a : ℕ → Bool} {edges : List DataSerialIn}
    (h : Answering bus4 dc nb al (q / 32) s) (hs : s.1.state = .writeWait) (ha : Answers blksize a edges) :
    outputs (DataSerial.draw words) (·.1.lines) s edges = List.replicate edges.length none ∧
      if nb ≠ 0#16 ∧ accepts a then
        WriteReady bus4 dc (nb - 1) (al + blksize.extractLsb' 0 2 + 1#2) q (edges.foldl (DataSerial.draw words) s)
      else (edges.foldl (DataSerial.draw words) s).1.state = .idle ∧
        ((edges.foldl (DataSerial.draw words) s).1.crcOk = true ↔ accepts a) ∧
          (edges.foldl (DataSerial.draw words) s).2 = q / 32 := by
  obtain ⟨⟨quiet, first, token, busy, last, rfl, hquiet, hfirst, hlen, htoken, hbusy, hlast⟩, hsteady⟩ := ha
  have hi : ∀ i, i ∈ quiet ∨ i = first ∨ i ∈ token ∨ i ∈ busy ∨ i = last → i.start ≠ 0b11#2 :=
    fun i hi => (hsteady i (by simp; tauto)).1
  -- the line is idle, and then the answer starts
  obtain ⟨⟨hwait, hs⟩, hlines₁⟩ := draw_silent words
    (I := fun s => Answering bus4 dc nb al (q / 32) s ∧ s.1.state = .writeWait)
    (P := fun i => i.datReg.getLsbD 0 = true ∧ i.start ≠ 0b11#2)
      (fun s i h hi => Answering.draw_quiet words h hi.1 hi.2)
    ⟨h, hs⟩ fun i hq => ⟨hquiet i hq, hi i (.inl hq)⟩
  set s₁ := quiet.foldl (DataSerial.draw words) s with hs₁
  have hline₂ := (hwait.draw words (.inl hs) (hi first (by simp))).2
  have htok := hwait.draw_start words (a := a) hs hfirst (hi first (by simp))
  set s₂ := DataSerial.draw words s₁ first with hs₂
  -- the answer
  have hstep : ∀ k s (i : DataSerialIn), k < 16 → Token bus4 dc nb al (q / 32) a k s →
      (k < 4 → i.datReg.getLsbD 0 = a k) ∧ i.start ≠ 0b11#2 →
        Token bus4 dc nb al (q / 32) a (k + 1) (DataSerial.draw words s i) :=
    fun k s i hk h hi => (h.draw words hk hi.1 hi.2).1
  have hout : ∀ k s (i : DataSerialIn), k < 16 → Token bus4 dc nb al (q / 32) a k s →
      (k < 4 → i.datReg.getLsbD 0 = a k) ∧ i.start ≠ 0b11#2 → (DataSerial.draw words s i).1.lines = none :=
    fun k s i hk h hi => (h.draw words hk hi.1 hi.2).2
  have hin : ∀ (j : ℕ) (hj : j < token.length), (0 + j < 4 → token[j].datReg.getLsbD 0 = a (0 + j)) ∧
      token[j].start ≠ 0b11#2 := by
    intro j hj
    rw [Nat.zero_add]
    exact ⟨fun h4 => htoken j h4 hj, hi _ (.inr (.inr (.inl (List.getElem_mem hj))))⟩
  have hrun := foldl_phase hstep token (k := 0) (by omega) htok hin
  have hlines₃ :
      outputs (DataSerial.draw words) (·.1.lines) s₂ token = (List.range' 0 token.length).map fun _ => none :=
    outputs_phase hstep hout (k := 0) (by omega) htok hin
  rw [Nat.zero_add, hlen] at hrun
  set s₃ := token.foldl (DataSerial.draw words) s₂ with hs₃
  -- the card is busy, and then done
  obtain ⟨hbusy', hlines₄⟩ := draw_silent words (I := Token bus4 dc nb al (q / 32) a 16)
    (P := fun i => i.datReg.getLsbD 0 = false ∧ i.start ≠ 0b11#2) (fun s i h hi => h.draw_busy words hi.1 hi.2)
    hrun fun i hb => ⟨hbusy i hb, hi i (by simp [hb])⟩
  obtain ⟨hline₅, hend⟩ := hbusy'.draw_last words hlast (hi last (by simp))
  rw [(hsteady last (by simp)).2] at hend
  have hfold : (quiet ++ first :: (token ++ (busy ++ [last]))).foldl (DataSerial.draw words) s
      = DataSerial.draw words (busy.foldl (DataSerial.draw words) s₃) last := by
    simp only [List.foldl_append, List.foldl_cons, List.foldl_nil, hs₁, hs₂, hs₃]
  rw [hfold]
  refine ⟨?_, hend⟩
  rw [outputs_append, hlines₁, outputs, hline₂, outputs_append, hlines₃, outputs_append, hlines₄,
    outputs, hline₅, outputs]
  refine List.eq_replicate_iff.2 ⟨by simp, fun b hb => ?_⟩
  simp at hb
  tauto

/-- The edges of a block: those that send it, those of the answer, and the bits of the answer. -/
structure Block where
  send : List DataSerialIn
  answer : List DataSerialIn
  bits : ℕ → Bool

/-- A block of `dc` edges of data, with its answer. -/
structure Block.Fits (b : Block) (dc : ℕ) (blksize : BitVec 12) : Prop where
  length : b.send.length = dc + 21
  steady : ∀ i ∈ b.send, i.start ≠ 0b11#2
  answers : Answers blksize b.bits b.answer

def Block.edges (b : Block) : List DataSerialIn := b.send ++ b.answer

/-- The lines in a transfer of `bytes` bytes a block, from bit `q` of the words on. -/
def transferLines (bus4 : Bool) (words : ℕ → BitVec 32) (dc bytes : ℕ) : ℕ → List Block → List (Option (BitVec 4))
  | _, [] => []
  | q, b :: bs => blockLines bus4 words q dc ++ List.replicate b.answer.length none ++
      transferLines bus4 words dc bytes (q + 8 * bytes) bs

/-- No block of a transfer starts at the last byte of a word when four lines are in use. -/
def NoneLate (bus4 : Bool) (bytes first n : ℕ) : Prop := bus4 = true → ∀ k < n, (first + k * bytes) % 4 ≠ 3

theorem unitLen_mul_dataCyclesOf (bus4 : Bool) (blksize : BitVec 12) :
    unitLen bus4 * dataCyclesOf bus4 blksize = 8 * (blksize.toNat + 1) := by
  rw [dataCyclesOf]
  cases bus4 <;> simp <;> omega

variable {blksize : BitVec 12}

theorem placed_of_aligned (hq : q % 32 = 8 * al.toNat) (hlate : bus4 = true → al.toNat % 4 ≠ 3) :
    Placed bus4 (dataCyclesOf bus4 blksize) al q := by
  refine ⟨?_, hq, ?_, fun hb => ?_⟩
  · rw [dataCyclesOf]
    split_ifs <;> omega
  · rw [unitLen_mul_dataCyclesOf]
    omega
  · rintro rfl
    exact hlate hb rfl

/-- A block and its answer. -/
theorem writes_block {b : Block} (h : WriteReady bus4 (dataCyclesOf bus4 blksize) nb al q s)
    (hq : q % 32 = 8 * al.toNat)
    (hlate : bus4 = true → al.toNat % 4 ≠ 3) (hb : b.Fits (dataCyclesOf bus4 blksize) blksize) :
    outputs (DataSerial.draw words) (·.1.lines) s b.edges
        = blockLines bus4 words q (dataCyclesOf bus4 blksize) ++ List.replicate b.answer.length none ∧
      if nb ≠ 0#16 ∧ accepts b.bits then
        WriteReady bus4 (dataCyclesOf bus4 blksize) (nb - 1) (al + blksize.extractLsb' 0 2 + 1#2)
          (q + 8 * (blksize.toNat + 1)) (b.edges.foldl (DataSerial.draw words) s)
      else (b.edges.foldl (DataSerial.draw words) s).1.state = .idle ∧
        ((b.edges.foldl (DataSerial.draw words) s).1.crcOk = true ↔ accepts b.bits) ∧
          (b.edges.foldl (DataSerial.draw words) s).2 = (q + 8 * (blksize.toNat + 1)) / 32 := by
  obtain ⟨hlines, hans, hs⟩ := writes_frame words h (placed_of_aligned hq hlate) hb.length hb.steady
  rw [unitLen_mul_dataCyclesOf] at hans
  obtain ⟨hlines', hend⟩ := writes_answer words hans hs hb.answers
  rw [Block.edges, outputs_append, hlines, hlines', List.foldl_append]
  exact ⟨rfl, hend⟩

/-- Blocks that are accepted, not the last one of the transfer among them. -/
theorem writes_good {good : List Block}
    (hgood : ∀ b ∈ good, b.Fits (dataCyclesOf bus4 blksize) blksize ∧ accepts b.bits)
    (hlen : good.length ≤ nb.toNat) (hq : q % 32 = 8 * al.toNat)
    (hlate : NoneLate bus4 (blksize.toNat + 1) al.toNat good.length)
    (h : WriteReady bus4 (dataCyclesOf bus4 blksize) nb al q s) :
    outputs (DataSerial.draw words) (·.1.lines) s (good.flatMap Block.edges)
        = transferLines bus4 words (dataCyclesOf bus4 blksize) (blksize.toNat + 1) q good ∧
      ∃ nb' al', nb'.toNat = nb.toNat - good.length ∧
        al'.toNat = (al.toNat + good.length * (blksize.toNat + 1)) % 4 ∧
        (q + 8 * (blksize.toNat + 1) * good.length) % 32 = 8 * al'.toNat ∧
          WriteReady bus4 (dataCyclesOf bus4 blksize) nb' al' (q + 8 * (blksize.toNat + 1) * good.length)
            ((good.flatMap Block.edges).foldl (DataSerial.draw words) s) := by
  induction good generalizing nb al q s with
  | nil => exact ⟨rfl, nb, al, rfl, by simp; omega, by simpa using hq, by simpa using h⟩
  | cons b good ih =>
    rw [List.length_cons] at hlen hlate
    set bytes := blksize.toNat + 1 with hbytes
    obtain ⟨hfits, hok⟩ := hgood b List.mem_cons_self
    have hnb : nb ≠ 0#16 := by
      rintro rfl
      simp at hlen
    have hdown : (nb - 1).toNat = nb.toNat - 1 := by
      have hpos : 1 ≤ nb.toNat := by omega
      exact BitVec.toNat_sub_of_le (BitVec.le_def.2 hpos)
    have hal : (al + blksize.extractLsb' 0 2 + 1#2).toNat = (al.toNat + bytes) % 4 := by
      simp only [BitVec.toNat_add, BitVec.extractLsb'_toNat, BitVec.toNat_ofNat, Nat.shiftRight_zero, hbytes]
      omega
    obtain ⟨hlines, hnext⟩ := writes_block words h hq
      (fun hb => by simpa using hlate hb 0 (Nat.succ_pos _)) hfits
    rw [if_pos ⟨hnb, hok⟩, ← hbytes] at hnext
    obtain ⟨hlines', nb', al', hnb', hal', hq', hready⟩ := ih (fun c hc => hgood c (List.mem_cons_of_mem b hc))
      (by omega) (by rw [hal]; omega) (fun hb k hk => by
        have hnot := hlate hb (k + 1) (by omega)
        rw [Nat.succ_mul] at hnot
        rw [hal]
        omega) hnext
    have hmul : 8 * bytes * (good.length + 1) = 8 * bytes * good.length + 8 * bytes := Nat.mul_succ ..
    have hmul' : (good.length + 1) * bytes = good.length * bytes + bytes := Nat.succ_mul ..
    have hplace : q + 8 * bytes * (good.length + 1) = q + 8 * bytes + 8 * bytes * good.length := by omega
    rw [List.flatMap_cons, outputs_append, hlines, hlines', List.foldl_append, List.length_cons, hplace]
    refine ⟨rfl, nb', al', by omega, ?_, hq', hready⟩
    rw [hal', hal, hmul']
    omega

/-- The edge that starts a transfer. -/
theorem DataSerial.draw_start {h : DataSerial} {i : DataSerialIn} (hs : h.state = .idle) (hrd : h.rd = false)
    (hi : i.start = 0b01#2) :
    WriteReady i.bus4bit (dataCyclesOf i.bus4bit i.blksize) i.blkcnt i.byteAlignment (8 * i.byteAlignment.toNat)
      (DataSerial.draw words (h, 0) i) ∧ (DataSerial.draw words (h, 0) i).1.lines = none := by
  have hal := i.byteAlignment.isLt
  have hnext : DataSerial.draw words (h, 0) i = ({ h with
      datOe := false, datO := 0xf#4, transfCnt := 0, crcEn := false, crcRst := true, crcBit := 15#4,
      we := false, rd := false,
      dataIndex := 0#5, blkcntReg := i.blkcnt, byteAlignmentReg := i.byteAlignment,
      dataCycles := dataCyclesOf i.bus4bit i.blksize, bus4bitReg := i.bus4bit, state := .writeDat,
      crcOut := (h.tick i).crcOut }, 0) := by
    rw [DataSerial.draw, hrd, if_neg Bool.false_ne_true]
    simp [DataSerial.tick, DataSerial.next, hs, hi]
  rw [hnext]
  exact ⟨⟨⟨rfl, rfl, rfl, rfl, rfl, rfl⟩, rfl, rfl, rfl, by simp only; omega⟩, rfl⟩

theorem transferLines_concat (bus4 : Bool) (words : ℕ → BitVec 32) (dc bytes q : ℕ) (bs : List Block) (b : Block) :
    transferLines bus4 words dc bytes q (bs ++ [b]) = transferLines bus4 words dc bytes q bs ++
      (blockLines bus4 words (q + 8 * bytes * bs.length) dc ++ List.replicate b.answer.length none) := by
  induction bs generalizing q with
  | nil => simp [transferLines]
  | cons b bs ih =>
    have hplace : q + 8 * bytes + 8 * bytes * bs.length = q + 8 * bytes * (bs.length + 1) := by
      rw [Nat.mul_succ]
      omega
    rw [List.cons_append, transferLines, transferLines, ih, List.length_cons, hplace]
    simp only [List.append_assoc]

/-- A transfer: its blocks up to the last one or to the first that the card does not accept. -/
theorem writes_done {good : List Block} {last : Block} (h : WriteReady bus4 (dataCyclesOf bus4 blksize) nb al q s)
    (hgood : ∀ b ∈ good, b.Fits (dataCyclesOf bus4 blksize) blksize ∧ accepts b.bits)
    (hlast : last.Fits (dataCyclesOf bus4 blksize) blksize) (hlen : good.length ≤ nb.toNat)
    (hend : good.length = nb.toNat ∨ ¬ accepts last.bits) (hq : q % 32 = 8 * al.toNat)
    (hlate : NoneLate bus4 (blksize.toNat + 1) al.toNat (good.length + 1)) :
    let edges := (good ++ [last]).flatMap Block.edges
    let s' := edges.foldl (DataSerial.draw words) s
    outputs (DataSerial.draw words) (·.1.lines) s edges
        = transferLines bus4 words (dataCyclesOf bus4 blksize) (blksize.toNat + 1) q (good ++ [last]) ∧
      s'.1.state = .idle ∧ (s'.1.crcOk = true ↔ accepts last.bits) ∧
        s'.2 = (q + 8 * (blksize.toNat + 1) * (good.length + 1)) / 32 := by
  intro edges s'
  have hal := al.isLt
  obtain ⟨hlines, nb', al', hnb', hal', hq', hw⟩ :=
    writes_good words hgood hlen hq (fun hb k hk => hlate hb k (by omega)) h
  have hlate' : bus4 = true → al'.toNat % 4 ≠ 3 := by
    intro hb
    have := hlate hb good.length (by omega)
    omega
  obtain ⟨hlines', hnext⟩ := writes_block words hw hq' hlate' hlast
  have hzero : nb' = 0#16 ↔ good.length = nb.toNat := by
    rw [← BitVec.toNat_inj, hnb']
    simp only [BitVec.toNat_ofNat]
    omega
  have hnot : ¬ (nb' ≠ 0#16 ∧ accepts last.bits) := by
    rw [Ne, hzero]
    tauto
  rw [if_neg hnot] at hnext
  have hsplit : edges = good.flatMap Block.edges ++ last.edges := by simp [edges]
  have hfold :
      s' = last.edges.foldl (DataSerial.draw words)
      ((good.flatMap Block.edges).foldl (DataSerial.draw words) s) := by
    simp only [s', hsplit, List.foldl_append]
  rw [hfold]
  refine ⟨?_, hnext.1, hnext.2.1, ?_⟩
  · rw [hsplit, outputs_append, transferLines_concat]
    exact congrArg₂ _ hlines hlines'
  · have hmul : 8 * (blksize.toNat + 1) * (good.length + 1) = _ :=
      Nat.mul_succ (8 * (blksize.toNat + 1)) good.length
    rw [hnext.2.2, hmul, Nat.add_assoc]

end Transfer

/-- A transfer: its blocks up to the last one or to the first that the card does not accept. The lines carry the
bits of the words in order, from the place on that the address asks for, and each block with its codes; the words
that are used up are taken from the FIFO. -/
theorem writes_blocks (words : ℕ → BitVec 32) {h : DataSerial} {i : DataSerialIn} (hs : h.state = .idle)
    (hrd : h.rd = false)
    (hi : i.start = 0b01#2) {good : List Block} {last : Block}
    (hgood : ∀ b ∈ good, b.Fits (dataCyclesOf i.bus4bit i.blksize) i.blksize ∧ accepts b.bits)
    (hlast : last.Fits (dataCyclesOf i.bus4bit i.blksize) i.blksize) (hlen : good.length ≤ i.blkcnt.toNat)
    (hend : good.length = i.blkcnt.toNat ∨ ¬ accepts last.bits)
    (hlate : NoneLate i.bus4bit (i.blksize.toNat + 1) i.byteAlignment.toNat (good.length + 1)) :
    let s₀ := DataSerial.draw words (h, 0) i
    let edges := (good ++ [last]).flatMap Block.edges
    let s' := edges.foldl (DataSerial.draw words) s₀
    outputs (DataSerial.draw words) (·.1.lines) s₀ edges =
        transferLines i.bus4bit words (dataCyclesOf i.bus4bit i.blksize) (i.blksize.toNat + 1)
          (8 * i.byteAlignment.toNat) (good ++ [last]) ∧
      s'.1.state = .idle ∧ (s'.1.crcOk = true ↔ accepts last.bits) ∧
        s'.2 = (i.byteAlignment.toNat + (i.blksize.toNat + 1) * (good.length + 1)) / 4 := by
  intro s₀ edges s'
  have hal := i.byteAlignment.isLt
  obtain ⟨hready, -⟩ := DataSerial.draw_start words hs hrd hi
  obtain ⟨hlines, hidle, hok, hused⟩ := writes_done words hready hgood hlast hlen hend (by omega) hlate
  have hmul := Nat.mul_assoc 8 (i.blksize.toNat + 1) (good.length + 1)
  exact ⟨hlines, hidle, hok, hused.trans (by omega)⟩

/-- The start of a transfer of two blocks of four bytes, on one line. -/
def wordIn : DataSerialIn := ⟨0#32, 0xf#4, 3#12, false, 1#16, 0b01#2, 0#2⟩

/-- One of them, with a card that accepts it at once. -/
def wordBlock : Block :=
  let quiet : DataSerialIn := { wordIn with start := 0#2 }
  let token := [false, true, false, true].map fun b => { quiet with datReg := single b }
  { send := List.replicate 53 quiet
    answer := [] ++ { quiet with datReg := single false } :: (token ++ List.replicate 12 quiet ++ ([] ++ [quiet]))
    bits := fun k => [false, true, false, true][k]?.getD true }

theorem wordBlock_fits : wordBlock.Fits 32 3#12 := by
  refine ⟨rfl, fun j hj => ?_, ⟨⟨[], _, _, [], _, rfl, List.forall_mem_nil _, getLsbD_single false, rfl, ?_,
    List.forall_mem_nil _, by decide⟩, fun j hj => ?_⟩⟩
  · rw [List.eq_of_mem_replicate hj]
    decide
  · intro k hk _
    interval_cases k <;> exact getLsbD_single _
  · simp [wordBlock] at hj
    rcases hj with rfl | rfl | rfl | rfl | rfl | rfl <;> exact ⟨by simp, rfl⟩

/-- Two words, and what comes behind them. -/
def twoWords (k : ℕ) : BitVec 32 := if k = 0 then 0xdeadbeef#32 else 0x12345678#32

theorem writes_blocks_word :
    let edges := ([wordBlock] ++ [wordBlock]).flatMap Block.edges
    let s₀ := DataSerial.draw twoWords (default, 0) wordIn
    outputs (DataSerial.draw twoWords) (·.1.lines) s₀ edges =
        transferLines false twoWords 32 4 0 [wordBlock, wordBlock] ∧
      (edges.foldl (DataSerial.draw twoWords) s₀).1.state = .idle ∧
        (edges.foldl (DataSerial.draw twoWords) s₀).1.crcOk = true ∧
          (edges.foldl (DataSerial.draw twoWords) s₀).2 = 2 := by
  intro edges s₀
  have hgood : ∀ b ∈ [wordBlock], b.Fits 32 3#12 ∧ accepts b.bits := by
    intro b hb
    rw [List.mem_singleton.1 hb]
    exact ⟨wordBlock_fits, rfl, rfl, rfl, rfl⟩
  have h :=
    @writes_blocks twoWords default wordIn rfl rfl rfl [wordBlock] wordBlock hgood wordBlock_fits (Nat.le_refl 1)
    (.inl rfl) (fun h => absurd h (by decide))
  exact ⟨h.1, h.2.1, h.2.2.1.2 ⟨rfl, rfl, rfl, rfl⟩, h.2.2.2.trans (by decide)⟩

end Soceteer.Sdhost
