import Mathlib.Algebra.Group.Nat.Defs
import Mathlib.Logic.Function.Iterate
import Mathlib.Data.List.Basic

/-!
# Soceteer.Lib.Crc — cyclic redundancy codes as shift registers

A register of `w` bits takes a message in bit by bit, the first bit first.

* `feed`, `crc`: one bit, and a message, through the register; `feed` is linear.
* `crc_eq_shifts`: a message of at most `w` bits goes in as its bits put onto the register, then shifted.
* `crc_burst`: two messages that differ within `w` bits next to each other leave different registers.
* `crc_append_eq_zero_iff`: a message with its own code behind it leaves zero, and no other code does.
* `frame_window`: when a disturbed frame still has its code.
-/

namespace Soceteer.Lib.Crc

variable {w : ℕ} (poly : BitVec w)

/-- One bit: shift, and add the polynomial when the bit that leaves the register differs from the one that
comes. -/
def feed (c : BitVec w) (b : Bool) : BitVec w := c <<< 1 ^^^ if c.msb ^^ b then poly else 0#w

/-- A message, from the register `c`. -/
def crc (c : BitVec w) (bits : List Bool) : BitVec w := bits.foldl (feed poly) c

@[simp] theorem crc_nil (c : BitVec w) : crc poly c [] = c := rfl

@[simp] theorem crc_cons (c : BitVec w) (b : Bool) (bits : List Bool) :
    crc poly c (b :: bits) = crc poly (feed poly c b) bits := rfl

theorem crc_append (c : BitVec w) (xs ys : List Bool) : crc poly c (xs ++ ys) = crc poly (crc poly c xs) ys :=
  List.foldl_append

/-! ## Linearity -/

theorem ite_xor_xor (p q : Bool) :
    (if p ^^ q then poly else 0#w) = (if p then poly else 0#w) ^^^ if q then poly else 0#w := by
  cases p <;> cases q <;> simp

theorem feed_xor (c d : BitVec w) (a b : Bool) :
    feed poly (c ^^^ d) (a ^^ b) = feed poly c a ^^^ feed poly d b := by
  have hmsb : ((c ^^^ d).msb ^^ (a ^^ b)) = ((c.msb ^^ a) ^^ (d.msb ^^ b)) := by
    rw [BitVec.msb_xor, Bool.xor_assoc, Bool.xor_assoc, Bool.xor_left_comm d.msb]
  rw [feed, hmsb, ite_xor_xor, BitVec.shiftLeft_xor_distrib]
  simp only [feed, BitVec.xor_assoc, BitVec.xor_comm (d <<< 1)]

theorem feed_zero : feed poly 0#w false = 0#w := by simp [feed]

/-! ## A short message -/

/-- A message at the top of the register, its first bit in the highest place. -/
def placed : List Bool → BitVec w
  | [] => 0#w
  | b :: bits => (if b then BitVec.twoPow w (w - 1) else 0#w) ^^^ placed bits >>> 1

theorem getMsbD_placed (bits : List Bool) (i : ℕ) :
    (placed bits : BitVec w).getMsbD i = (decide (i < w) && bits.getD i false) := by
  induction bits generalizing i with
  | nil => simp [placed]
  | cons b bits ih =>
    rw [placed, BitVec.getMsbD_xor, BitVec.getMsbD_ushiftRight, ih]
    by_cases hi : i < w
    · cases i with
      | zero =>
        have htop : w - (w - 1) - 1 = 0 := by omega
        cases b <;> simp [BitVec.getMsbD_twoPow, hi, htop, Nat.sub_lt hi]
      | succ i =>
        have htop : i + 1 ≠ w - (w - 1) - 1 := by omega
        cases b <;> simp [BitVec.getMsbD_twoPow, hi, htop, Nat.lt_of_succ_lt hi]
    · rw [BitVec.getMsbD_of_ge _ _ (by omega)]
      simp [hi]

theorem placed_inj {u v : List Bool} (hlen : u.length = v.length) (hw : u.length ≤ w)
    (h : (placed u : BitVec w) = placed v) : u = v := by
  refine List.ext_getElem hlen fun i hu hv => ?_
  have hbit := congrArg (BitVec.getMsbD · i) h
  simpa [getMsbD_placed, show i < w by omega, List.getD_eq_getElem?_getD, hu, hv] using hbit

/-- A register whose lowest bit is clear comes out of its own half. -/
theorem feed_half {x : BitVec w} (hx : x.getMsbD (w - 1) = false) : feed poly (x >>> 1) false = x := by
  refine BitVec.eq_of_getMsbD_eq fun i hi => ?_
  have htop : (x >>> 1).msb = false := by
    rw [BitVec.msb_eq_getMsbD_zero, BitVec.getMsbD_ushiftRight]
    simp
  rw [feed, htop, BitVec.getMsbD_xor, BitVec.getMsbD_shiftLeft, BitVec.getMsbD_ushiftRight]
  by_cases hlast : i + 1 < w
  · simp [hlast]
  · have hi : i = w - 1 := by omega
    simp [hi, hx]

/-- The bit that comes in acts on the register's top. -/
theorem feed_top (hw : 0 < w) (b : Bool) :
    feed poly (if b then BitVec.twoPow w (w - 1) else 0#w) false = feed poly 0#w b := by
  have hbit : (BitVec.twoPow w (w - 1)).msb = true := by
    rw [BitVec.msb_eq_getMsbD_zero, BitVec.getMsbD_twoPow]
    simp only [Bool.and_eq_true, decide_eq_true_eq]
    omega
  have hout : BitVec.twoPow w (w - 1) <<< 1 = 0#w := by
    refine BitVec.eq_of_getMsbD_eq fun i hi => ?_
    rw [BitVec.getMsbD_shiftLeft, BitVec.getMsbD_twoPow, BitVec.getMsbD_zero]
    simp only [Bool.and_eq_false_iff, decide_eq_false_iff_not]
    omega
  cases b <;> simp [feed, hbit, hout]

theorem crc_eq_shifts (c : BitVec w) : ∀ bits : List Bool, bits.length ≤ w →
    crc poly c bits = (fun c => feed poly c false)^[bits.length] (c ^^^ placed bits)
  | [], _ => by simp [placed]
  | b :: bits, h => by
    rw [List.length_cons] at h
    have hlow : (placed bits : BitVec w).getMsbD (w - 1) = false := by
      rw [getMsbD_placed]
      rw [List.getD_eq_getElem?_getD, List.getElem?_eq_none (by omega)]
      simp
    have hstep : feed poly (c ^^^ placed (b :: bits)) false = feed poly c b ^^^ placed bits := by
      calc feed poly (c ^^^ placed (b :: bits)) false
          = feed poly c false ^^^ (feed poly 0#w b ^^^ placed bits) := by
            have hsplit :=
              feed_xor poly (if b then BitVec.twoPow w (w - 1) else 0#w) (placed bits >>> 1) false false
            rw [feed_half poly hlow, feed_top poly (by omega)] at hsplit
            rw [← hsplit, placed]
            exact feed_xor poly c _ false false
        _ = feed poly c b ^^^ placed bits := by
            rw [← BitVec.xor_assoc, ← feed_xor, Bool.false_xor, BitVec.xor_zero]
    rw [crc_cons, crc_eq_shifts _ bits (by omega), List.length_cons, Function.iterate_succ_apply, hstep]

/-! ## What the code detects -/

section Detection

variable {poly} (hpoly : poly.getMsbD (w - 1) = true)
include hpoly

theorem feed_inj {c d : BitVec w} {b : Bool} (h : feed poly c b = feed poly d b) : c = d := by
  have hzero : feed poly (c ^^^ d) false = 0#w := by
    rw [← Bool.xor_self b, feed_xor, h, BitVec.xor_self]
  have hw : 0 < w := by
    by_contra hw
    rw [BitVec.getMsbD_of_ge _ _ (by omega)] at hpoly
    exact Bool.false_ne_true hpoly
  have hbit : ∀ i, (feed poly (c ^^^ d) false).getMsbD i = false := fun i => by rw [hzero, BitVec.getMsbD_zero]
  have hmsb : (c ^^^ d).msb = false := by
    have hlow := hbit (w - 1)
    rw [feed, BitVec.getMsbD_xor, BitVec.getMsbD_shiftLeft, BitVec.getMsbD_of_ge _ _ (by omega)] at hlow
    cases hm : (c ^^^ d).msb
    · rfl
    · simp [hm, hpoly] at hlow
  suffices hxor : c ^^^ d = 0#w from BitVec.xor_eq_zero_iff.1 hxor
  refine BitVec.eq_of_getMsbD_eq fun i hi => ?_
  rw [BitVec.getMsbD_zero]
  cases i with
  | zero => rw [← BitVec.msb_eq_getMsbD_zero, hmsb]
  | succ i => simpa [feed, hmsb] using hbit i

theorem crc_inj {c d : BitVec w} : ∀ bits : List Bool, crc poly c bits = crc poly d bits → c = d
  | [], h => h
  | _ :: bits, h => feed_inj hpoly (crc_inj bits h)

/-- Two messages that differ within `w` bits next to each other have different codes. -/
theorem crc_burst {c : BitVec w} {u v : List Bool} (hlen : u.length = v.length) (hw : u.length ≤ w)
    (pre post : List Bool)
    (h : crc poly c (pre ++ (u ++ post)) = crc poly c (pre ++ (v ++ post))) : u = v := by
  simp only [crc_append] at h
  have hmid := crc_inj hpoly post h
  rw [crc_eq_shifts poly _ u hw, crc_eq_shifts poly _ v (by omega), hlen] at hmid
  have hinj : Function.Injective fun c => feed poly c false := fun c d h => feed_inj hpoly h
  exact placed_inj hlen hw ((BitVec.xor_right_inj _).1 (hinj.iterate _ hmid))

end Detection

/-! ## A message with its own code -/

/-- The register's bits, the highest first. -/
def bitsOf (c : BitVec w) : List Bool := (List.range w).map c.getMsbD

@[simp] theorem length_bitsOf (c : BitVec w) : (bitsOf c).length = w := by simp [bitsOf]

theorem placed_bitsOf (c : BitVec w) : placed (bitsOf c) = c := by
  refine BitVec.eq_of_getMsbD_eq fun i hi => ?_
  simp [getMsbD_placed, bitsOf, hi]

theorem crc_append_eq_zero_iff (hpoly : poly.getMsbD (w - 1) = true) (c : BitVec w)
    (bits : List Bool) {r : List Bool}
    (hr : r.length = w) : crc poly c (bits ++ r) = 0#w ↔ r = bitsOf (crc poly c bits) := by
  have hinj : Function.Injective fun c => feed poly c false := fun c d h => feed_inj hpoly h
  have hfix : (fun c => feed poly c false)^[w] 0#w = 0#w := Function.iterate_fixed (feed_zero poly) w
  rw [crc_append, crc_eq_shifts poly _ r (by omega), hr]
  constructor
  · intro h
    have hsame := hinj.iterate w (h.trans hfix.symm)
    refine placed_inj (w := w) (hr.trans (length_bitsOf _).symm) (Nat.le_of_eq hr) ?_
    rw [placed_bitsOf, BitVec.xor_eq_zero_iff.1 hsame]
  · rintro rfl
    rw [placed_bitsOf, BitVec.xor_self]
    exact hfix

/-! ## Frames on a line -/

section Window

variable {poly} (hpoly : poly.getMsbD (w - 1) = true) {c : BitVec w} {f g : ℕ → Bool} {s n a m : ℕ}
include hpoly

/-- Bits `s` to `s + n` of two lines that differ within `w` places next to each other. -/
theorem crc_window (hsame : ∀ j, ¬ (a ≤ j ∧ j < a + m) → g j = f j) (hm : m ≤ w) (ha : s ≤ a)
    (hend : a + m ≤ s + n)
    (h : crc poly c ((List.range' s n).map g) = crc poly c ((List.range' s n).map f)) : ∀ j, g j = f j := by
  have hsplit : ∀ f : ℕ → Bool, (List.range' s n).map f =
      (List.range' s (a - s)).map f ++
        ((List.range' a m).map f ++ (List.range' (a + m) (s + n - (a + m))).map f) := by
    intro f
    have hlen : n = a - s + (m + (s + n - (a + m))) := by omega
    have hmid : s + 1 * (a - s) = a := by omega
    conv_lhs => rw [hlen, ← List.range'_append, ← List.range'_append, hmid, List.map_append,
      List.map_append, Nat.one_mul]
  have hout : ∀ lo len, (∀ j, lo ≤ j → j < lo + len → ¬ (a ≤ j ∧ j < a + m)) →
      (List.range' lo len).map g = (List.range' lo len).map f := by
    refine fun lo len hj => List.map_congr_left fun j hmem => hsame j ?_
    have hmem := List.mem_range'_1.1 hmem
    exact hj j hmem.1 hmem.2
  rw [hsplit, hsplit f, hout s _ (by omega), hout (a + m) _ (by omega)] at h
  have hmid := crc_burst hpoly (by simp) (by simpa using hm) _ _ h
  intro j
  by_cases hj : a ≤ j ∧ j < a + m
  · exact List.map_inj_left.1 hmid j (List.mem_range'_1.2 hj)
  · exact hsame j hj

/-- `n` bits from `s` on and the code behind them. -/
theorem crc_range_eq_zero_iff : crc poly c ((List.range' s (n + w)).map f) = 0#w ↔
    (List.range' (s + n) w).map f = bitsOf (crc poly c ((List.range' s n).map f)) := by
  rw [← List.range'_append, List.map_append, Nat.one_mul, crc_append_eq_zero_iff poly hpoly _ _ (by simp)]

/-- A frame with its code that comes in with other bits in at most `w` places next to each other still has its code
only if no bit is different. -/
theorem frame_window (hsent : (List.range' (s + n) w).map f = bitsOf (crc poly c ((List.range' s n).map f)))
    (hsame : ∀ j, ¬ (a ≤ j ∧ j < a + m) → g j = f j) (hm : m ≤ w) (ha : s ≤ a) (hend : a + m ≤ s + n + w) :
    (List.range' (s + n) w).map g = bitsOf (crc poly c ((List.range' s n).map g)) ↔ ∀ j, g j = f j := by
  refine ⟨fun hcame => ?_, fun h => funext h ▸ hsent⟩
  rw [← crc_range_eq_zero_iff hpoly] at hsent hcame
  exact crc_window hpoly hsame hm ha (by omega) (hcame.trans hsent.symm)

end Window

end Soceteer.Lib.Crc
