import Mathlib.Data.List.Count
import Soceteer.Stdio.Iso

/-!
# Soceteer.Stdio.Fields — numbers and strings in their fields

The engine pads a number between its sign and its digits and a string on the left or on the right, with counters
that it also uses for the characters.  This module compares its fields with the prescribed ones.

* `printnum_eq`, `printText_eq`: what is put, and when a counter leaves its type.
* `NumberFits`, `StringFits`: the conditions; `printnum_eq_iff`, `printSigned_eq_iff`, `codeText_eq_iff`: they are
  exact.
-/

namespace Soceteer.Stdio.Printf

open Lib Cint

/-! ## The conditions -/

/-- A number of `n` digits is padded as prescribed: with leading zeros up to the precision only if the engine pads
with zeros up to the same width; else a wider field only if it is right-justified, without a sign and of the right
pad character. -/
def PaddingFits (s : Spec) (f : Field) (neg : Bool) (num n : ℕ) : Prop :=
  ¬ (f.prec = some 0 ∧ num = 0) ∧
    if n < f.prec.getD 0 then s.padc = '0'.toUInt8 ∧ s.width = f.prec.getD 0
    else if n < s.width then
      neg = false ∧ f.left = false ∧ s.padc = if f.zero ∧ f.prec = none then '0'.toUInt8 else ' '.toUInt8
    else f.width ≤ neg.toNat + n

/-- A number: neither the width nor its absolute value leaves its type. -/
def NumberFits (s : Spec) (f : Field) (neg : Bool) (num n : ℕ) : Prop :=
  s.width ≠ -2 ^ 31 ∧ ¬ (neg = true ∧ num = 2 ^ 63) ∧ PaddingFits s f neg num n

/-- The counters of a string of `n` characters stay in an `int`. -/
def CountsFit (s : Spec) (n : ℕ) : Prop :=
  if 0 < s.width ∧ s.padc ≠ '-'.toUInt8 then n ≤ s.width ∨ 2 * n ≤ s.width + 2 ^ 31 else n ≤ s.width + 2 ^ 31

/-- The engine puts the characters `t` where `u` are prescribed, in the same field. -/
def TextFits (s : Spec) (f : Field) (t u : List UInt8) : Prop :=
  if t = u then f.width ≤ t.length ∨ s.width = f.width ∧ s.padc ≠ '0'.toUInt8
  else if u = [] then
    t = spaces t.length ∧ (t.length = f.width ∨ t.length ≤ f.width ∧ s.padc ≠ '0'.toUInt8 ∧ s.width = f.width)
  else
    s.width = f.width ∧
      (s.padc = '-'.toUInt8 ∧ u.length ≤ f.width ∧ u.tail = spaces u.tail.length ∨
        s.padc = ' '.toUInt8 ∧ u.length ≤ f.width ∧ u = spaces u.length ∨
        s.padc = '0'.toUInt8 ∧ u.length = f.width ∧ u = zeros u.length)

/-- A string: the character behind the text is still in the array. -/
def StringFits (s : Spec) (f : Field) (p u : List UInt8) : Prop :=
  ∃ t, narrowText p (limit s.prec) = some t ∧ t.length < p.length ∧ CountsFit s t.length ∧ TextFits s f t u

/-! ## Numbers -/

theorem digitChar_eq {d : ℕ} (hd : d < 16) : digitChar d = (Nat.digitChar d).toUInt8 := by
  have hall : ∀ d : Fin 16, digitChar d.val = (Nat.digitChar d.val).toUInt8 := by decide
  exact hall ⟨d, hd⟩

/-- The digits of a number that fits the array. -/
theorem digitLoop_eq {base size n : ℕ} (hbase : 1 < base) (hhex : base ≤ 16) (hn : n < base ^ (size + 1)) :
    (digitLoop (size + 1) base n).reverse.map digitChar = (Nat.toDigits base n).map Char.toUInt8 := by
  induction size generalizing n with
  | zero =>
    have hlt : n < base := by simpa using hn
    rw [digitLoop, if_pos hlt, Nat.mod_eq_of_lt hlt, Nat.toDigits_of_lt_base hlt]
    simp [digitChar_eq (show n < 16 by omega)]
  | succ size ih =>
    rw [digitLoop]
    split_ifs with hlt
    · rw [Nat.mod_eq_of_lt hlt, Nat.toDigits_of_lt_base hlt]
      simp [digitChar_eq (show n < 16 by omega)]
    · have hdiv : n / base < base ^ (size + 1) := by
        rw [Nat.div_lt_iff_lt_mul (by omega), ← pow_succ]
        exact hn
      have hmod : n % base < 16 := lt_of_lt_of_le (Nat.mod_lt _ (by omega)) hhex
      rw [Nat.toDigits_of_base_le hbase (not_lt.mp hlt), List.reverse_cons, List.map_append,
        ih hdiv, List.map_append]
      simp [digitChar_eq hmod]

/-- `printnum` -/
theorem printnum_eq {num base : ℕ} {width : ℤ} (padc : UInt8) (hbase : 1 < base) (hhex : base ≤ 16)
    (hnum : num < 2 ^ 64)
    (hwidth : -2 ^ 31 ≤ width ∧ width < 2 ^ 31) :
    printnum num base width padc =
      if width = -2 ^ 31 then none
      else some (List.replicate (width - (Nat.toDigits base num).length).toNat padc ++
        (Nat.toDigits base num).map Char.toUInt8) := by
  have hfit : num < base ^ (63 + 1) := lt_of_lt_of_le hnum (Nat.pow_le_pow_left hbase 64)
  have hdigits := digitLoop_eq hbase hhex hfit
  have hlen : (digitLoop 64 base num).length = (Nat.toDigits base num).length := by
    have := congrArg List.length hdigits
    simpa using this
  have hchars : (digitLoop 64 base num).reverse.map digitChar = (Nat.toDigits base num).map Char.toUInt8 := hdigits
  simp only [printnum]
  rw [hchars, hlen, int?_eq]
  split_ifs <;> first | rfl | omega

/-- The last digit of a number is a digit. -/
theorem toDigits_last {base : ℕ} (hbase : 1 < base) (hhex : base ≤ 16) (n : ℕ) :
    ∃ l c, (Nat.toDigits base n).map Char.toUInt8 = l ++ [c] ∧ c ≠ ' '.toUInt8 ∧ c ≠ '-'.toUInt8 := by
  have hchar : ∀ d : Fin 16,
      (Nat.digitChar d.val).toUInt8 ≠ ' '.toUInt8 ∧ (Nat.digitChar d.val).toUInt8 ≠ '-'.toUInt8 := by
    decide
  have hmod : n % base < 16 := lt_of_lt_of_le (Nat.mod_lt _ (by omega)) hhex
  rcases Nat.lt_or_ge n base with hlt | hge
  · rw [Nat.toDigits_of_lt_base hlt]
    exact ⟨[], _, rfl, hchar ⟨n, by omega⟩⟩
  · rw [Nat.toDigits_of_base_le hbase hge, List.map_append]
    exact ⟨_, _, rfl, hchar ⟨n % base, hmod⟩⟩

theorem replicate_eq_append {k a z : ℕ} {c : UInt8} :
    List.replicate k c = spaces a ++ zeros z ↔
      k = 0 ∧ a = 0 ∧ z = 0 ∨ c = ' '.toUInt8 ∧ k = a ∧ z = 0 ∨ c = '0'.toUInt8 ∧ a = 0 ∧ k = z := by
  have hne : ' '.toUInt8 ≠ '0'.toUInt8 := by decide
  rw [eq_comm, List.eq_replicate_iff]
  simp only [spaces, zeros, List.length_append, List.length_replicate, List.mem_append, List.mem_replicate]
  constructor
  · rintro ⟨hlen, hall⟩
    rcases Nat.eq_zero_or_pos a with rfl | ha
    · rcases Nat.eq_zero_or_pos z with rfl | hz
      · exact .inl ⟨by omega, rfl, rfl⟩
      · have hc := hall '0'.toUInt8 (.inr ⟨by omega, rfl⟩)
        exact .inr (.inr ⟨hc.symm, rfl, by omega⟩)
    · have hc := hall ' '.toUInt8 (.inl ⟨by omega, rfl⟩)
      have hz : z = 0 := by
        by_contra hz
        exact hne (hc.trans (hall '0'.toUInt8 (.inr ⟨hz, rfl⟩)).symm)
      exact .inr (.inl ⟨hc.symm, by omega, hz⟩)
  · rintro (⟨rfl, rfl, rfl⟩ | ⟨rfl, rfl, rfl⟩ | ⟨rfl, rfl, rfl⟩)
    · simp
    · simp
    · simp

/-- The padding of the engine, `k` characters between the sign and the digits, is that of a layout. -/
def Layout.Is (l : Layout) (neg : Bool) (k : ℕ) (c : UInt8) : Prop :=
  l.trail = 0 ∧ (k = 0 ∧ l.lead = 0 ∧ l.zeros = 0 ∨ c = ' '.toUInt8 ∧ neg = false ∧ k = l.lead ∧ l.zeros = 0 ∨
    c = '0'.toUInt8 ∧ l.lead = 0 ∧ k = l.zeros)

/-- The number is put as in a layout exactly if nothing stands behind the digits and the padding is that
layout's. -/
theorem layout_eq_iff {neg : Bool} {k : ℕ} {c : UInt8} {l : Layout} {digits : List UInt8}
    (hlast : ∃ l c, digits = l ++ [c] ∧ c ≠ ' '.toUInt8 ∧ c ≠ '-'.toUInt8) :
    sign neg ++ (List.replicate k c ++ digits) = spaces l.lead ++ sign neg ++ zeros l.zeros ++
      digits ++ spaces l.trail ↔
      l.Is neg k c := by
  obtain ⟨lead, z, trail⟩ := l
  rw [Layout.Is]
  have hminus : '-'.toUInt8 ≠ ' '.toUInt8 := by decide
  have htrail : sign neg ++ (List.replicate k c ++ digits) =
      spaces lead ++ sign neg ++ zeros z ++ digits ++ spaces trail → trail = 0 := by
    intro heq
    obtain ⟨l', c', rfl, hspace, -⟩ := hlast
    rcases Nat.eq_zero_or_pos trail with h0 | hpos
    · exact h0
    · obtain ⟨t, rfl⟩ : ∃ t, trail = t + 1 := ⟨trail - 1, by omega⟩
      have hends : (sign neg ++ (List.replicate k c ++ l')) ++ [c'] =
          (spaces lead ++ sign neg ++ zeros z ++ (l' ++ [c']) ++ spaces t) ++ [' '.toUInt8] := by
        simpa [spaces, List.replicate_succ'] using heq
      exact absurd (List.cons.inj (List.append_inj' hends rfl).2).1 hspace
  by_cases h0 : trail = 0
  swap
  · exact iff_of_false (fun heq => h0 (htrail heq)) fun h => h0 h.1
  subst h0
  rw [show spaces 0 = [] from rfl, List.append_nil, ← List.append_assoc, List.append_cancel_right_eq]
  cases neg with
  | false =>
    rw [show sign false = [] from rfl, List.nil_append, List.append_nil, replicate_eq_append]
    constructor
    · rintro (hnone | ⟨hc, hk, hz⟩ | hzero)
      · exact ⟨rfl, .inl hnone⟩
      · exact ⟨rfl, .inr (.inl ⟨hc, rfl, hk, hz⟩)⟩
      · exact ⟨rfl, .inr (.inr hzero)⟩
    · rintro ⟨-, hnone | ⟨hc, -, hk, hz⟩ | hzero⟩
      · exact .inl hnone
      · exact .inr (.inl ⟨hc, hk, hz⟩)
      · exact .inr (.inr hzero)
  | true =>
    rw [show sign true = ['-'.toUInt8] from rfl]
    cases lead with
    | zero =>
      rw [show spaces 0 = [] from rfl, List.nil_append, List.append_cancel_left_eq]
      have hpad := @replicate_eq_append k 0 z c
      rw [show spaces 0 ++ zeros z = zeros z from rfl] at hpad
      rw [hpad]
      constructor
      · rintro (⟨hk, -, hz⟩ | ⟨-, hk, hz⟩ | ⟨hc, -, hk⟩)
        · exact ⟨rfl, .inl ⟨hk, rfl, hz⟩⟩
        · exact ⟨rfl, .inl ⟨hk, rfl, hz⟩⟩
        · exact ⟨rfl, .inr (.inr ⟨hc, rfl, hk⟩)⟩
      · rintro ⟨-, ⟨hk, -, hz⟩ | ⟨-, hneg, -⟩ | ⟨hc, -, hk⟩⟩
        · exact .inl ⟨hk, rfl, hz⟩
        · exact absurd hneg (by decide)
        · exact .inr (.inr ⟨hc, rfl, hk⟩)
    | succ lead =>
      -- a space would stand where the engine has put the sign
      refine iff_of_false (fun heq => ?_) ?_
      · rw [show spaces (lead + 1) = ' '.toUInt8 :: spaces lead from rfl] at heq
        exact hminus (List.cons.inj heq).1
      · rintro ⟨-, ⟨-, hlead, -⟩ | ⟨-, hneg, -⟩ | ⟨-, hlead, -⟩⟩
        · exact absurd hlead (Nat.succ_ne_zero _)
        · exact absurd hneg (by decide)
        · exact absurd hlead (Nat.succ_ne_zero _)

/-- The width of the engine and that of the field: none and a left-justified field, or the same. -/
def SameWidth (s : Spec) (f : Field) : Prop :=
  s.width ≤ 0 ∧ (f.width = 0 ∨ f.left = true) ∨ 0 < f.width ∧ s.width = f.width

/-- The layouts of a number that has digits. -/
theorem layout_cases (f : Field) (neg : Bool) {n : ℕ} (hn : 0 < n) :
    (f.left = true ∧ f.layout neg n = ⟨0, f.prec.getD 0 - n, f.width - (neg.toNat + (f.prec.getD 0 - n) + n)⟩) ∨
    (f.left = false ∧ (f.zero = true ∧ f.prec = none) ∧ f.layout neg n = ⟨0, f.width - (neg.toNat + n), 0⟩) ∨
    (f.left = false ∧ ¬ (f.zero = true ∧ f.prec = none) ∧
      f.layout neg n = ⟨f.width - (neg.toNat + (f.prec.getD 0 - n) + n), f.prec.getD 0 - n, 0⟩) := by
  have hleast : f.prec.getD 1 - n = f.prec.getD 0 - n := by
    cases f.prec with
    | none =>
      rw [Option.getD_none, Option.getD_none]
      omega
    | some p => rfl
  unfold Field.layout
  rw [hleast]
  cases hleft : f.left with
  | true => exact .inl ⟨rfl, rfl⟩
  | false =>
    by_cases hzero : f.zero = true ∧ f.prec = none
    · refine .inr (.inl ⟨rfl, hzero, ?_⟩)
      simp [hzero]
    · refine .inr (.inr ⟨rfl, hzero, ?_⟩)
      simp [hzero]

/-- The condition is exact for the layout of a number that has digits. -/
theorem layout_is_iff {s : Spec} {f : Field} {neg : Bool} {num n : ℕ} (hn : 0 < n) (hw : SameWidth s f)
    (hnum : ¬ (f.prec = some 0 ∧ num = 0)) :
    (f.layout neg n).Is neg (s.width - n).toNat s.padc ↔ PaddingFits s f neg num n := by
  have hne : ' '.toUInt8 ≠ '0'.toUInt8 := by decide
  have hneg : neg.toNat = 0 ∧ neg = false ∨ neg.toNat = 1 ∧ neg ≠ false := by cases neg <;> simp
  rw [PaddingFits, and_iff_right hnum]
  unfold SameWidth at hw
  unfold Layout.Is
  obtain ⟨hleft, h⟩ | ⟨hleft, hzero, h⟩ | ⟨hleft, hzero, h⟩ := layout_cases f neg hn
  · -- spaces on the right: the engine never puts them, and it puts zeros only in the width of the precision
    rw [h]
    generalize f.prec.getD 0 = least
    grind
  · -- zeros up to the width: the engine does not count the sign
    rw [h, hzero.2, Option.getD_none]
    grind
  · -- spaces on the left, before the sign
    rw [h]
    generalize f.prec.getD 0 = least
    grind

/-- The number as the engine puts it, when nothing overflows. -/
def codeNumber (s : Spec) (neg : Bool) (num base : ℕ) : List UInt8 :=
  sign neg ++ (List.replicate (s.width - (Nat.toDigits base num).length).toNat s.padc ++
    (Nat.toDigits base num).map Char.toUInt8)

theorem codeNumber_eq_iff {s : Spec} {f : Field} {neg : Bool} {num base : ℕ} (hbase : 1 < base) (hhex : base ≤ 16)
    (hw : SameWidth s f) :
    codeNumber s neg num base = isoNumber f neg num base ↔
      PaddingFits s f neg num (Nat.toDigits base num).length := by
  have hlast := toDigits_last hbase hhex num
  by_cases hempty : f.prec = some 0 ∧ num = 0
  · -- no digit is prescribed
    refine iff_of_false (fun heq => ?_) fun h => h.1 hempty
    obtain ⟨l, c, hdigits, hspace, hminus⟩ := hlast
    have hzeros : (f.layout neg 0).zeros = 0 := by
      simp only [Field.layout, hempty.1, Option.getD_some]
      split_ifs <;> simp_all
    have hmem : c ∈ isoNumber f neg num base := by
      rw [← heq, codeNumber, hdigits]
      simp
    rw [isoNumber] at hmem
    simp only [if_pos hempty, List.length_nil, hzeros, show zeros 0 = [] from rfl,
      List.append_nil, List.mem_append,
      spaces, List.mem_replicate] at hmem
    cases neg with
    | false =>
      simp only [sign, Bool.false_eq_true, if_false, List.not_mem_nil, or_false] at hmem
      exact hspace (hmem.elim And.right And.right)
    | true =>
      simp only [sign, if_true, List.mem_singleton] at hmem
      rcases hmem with (hmem | hmem) | hmem
      · exact hspace hmem.2
      · exact hminus hmem
      · exact hspace hmem.2
  · simp only [codeNumber, isoNumber, if_neg hempty, List.length_map]
    rw [layout_eq_iff hlast, layout_is_iff Nat.length_toDigits_pos hw hempty]

/-- An unsigned number. -/
theorem printnum_eq_iff {s : Spec} {f : Field} {num base : ℕ} (hbase : 1 < base) (hhex : base ≤ 16)
    (hnum : num < 2 ^ 64)
    (hwidth : -2 ^ 31 ≤ s.width ∧ s.width < 2 ^ 31) (hw : SameWidth s f) :
    printnum num base s.width s.padc = some (isoNumber f false num base) ↔
      NumberFits s f false num (Nat.toDigits base num).length := by
  rw [printnum_eq s.padc hbase hhex hnum hwidth, NumberFits, ← codeNumber_eq_iff hbase hhex hw]
  by_cases hmin : s.width = -2 ^ 31
  · rw [if_pos hmin]
    exact iff_of_false (by simp) fun h => h.1 hmin
  · rw [if_neg hmin, Option.some_inj]
    exact ⟨fun h => ⟨hmin, by simp, h⟩, fun h => h.2.2⟩

/-- A signed number. -/
theorem printSigned_eq_iff {s : Spec} {f : Field} {v : ℤ} (hv : -2 ^ 63 ≤ v ∧ v < 2 ^ 63)
    (hwidth : -2 ^ 31 ≤ s.width ∧ s.width < 2 ^ 31) (hw : SameWidth s f) :
    printSigned s v = some (isoNumber f (v < 0) v.natAbs 10) ↔
      NumberFits s f (v < 0) v.natAbs (Nat.toDigits 10 v.natAbs).length := by
  rw [printSigned]
  split_ifs with hneg
  · rw [decide_eq_true hneg, NumberFits, ← codeNumber_eq_iff (by decide) (by decide) hw]
    have hfit : (⟨true, 64⟩ : Ty).fit (-v) = if v = -2 ^ 63 then none else some (-v) := by
      show (if -2 ^ 63 ≤ -v ∧ -v < 2 ^ 63 then some (-v) else none) = _
      split_ifs <;> first | rfl | omega
    have hmag : (-v).toNat = v.natAbs := by omega
    rw [hfit]
    by_cases hmin : v = -2 ^ 63
    · rw [if_pos hmin, Option.bind_none]
      exact iff_of_false (by simp) fun h => h.2.1 ⟨rfl, by omega⟩
    · rw [if_neg hmin, Option.bind_some, hmag, printnum_eq s.padc (by decide) (by decide) (by omega) hwidth]
      by_cases hlow : s.width = -2 ^ 31
      · rw [if_pos hlow]
        exact iff_of_false (by simp) fun h => h.1 hlow
      · rw [if_neg hlow, Option.map_some, Option.some_inj]
        exact ⟨fun h => ⟨hlow, by omega, h⟩, fun h => h.2.2⟩
  · have habs : v.toNat = v.natAbs := by omega
    rw [habs, decide_eq_false hneg]
    exact printnum_eq_iff (by decide) (by decide) (by omega) hwidth hw

/-! ## Strings -/

theorem strnlen_eq (p : List UInt8) (lim : Option ℕ) : strnlen p lim = (narrowText p lim).map List.length := by
  induction p generalizing lim with
  | nil => rcases lim with - | - | k <;> rfl
  | cons b bs ih =>
    rcases lim with - | - | k
    · simp only [strnlen, narrowText, ih]
      split_ifs <;> simp [Function.comp_def]
    · rfl
    · simp only [strnlen, narrowText, ih]
      split_ifs <;> simp [Function.comp_def]

/-- The string loop: the text, and the width less its characters. -/
theorem putLoop_eq (p : List UInt8) (prec width : ℤ) (hwidth : -2 ^ 31 ≤ width ∧ width < 2 ^ 31) :
    putLoop p prec width = (narrowText p (limit prec)).bind fun t =>
      if t.length < p.length ∧ -2 ^ 31 ≤ width - t.length then some (t, width - t.length) else none := by
  induction p generalizing prec width with
  | nil =>
    rw [putLoop]
    rcases limit prec with - | - | k <;> rfl
  | cons b bs ih =>
    rw [putLoop]
    by_cases hstop : b = 0 ∨ (0 ≤ prec ∧ prec - 1 < 0)
    · have htext : narrowText (b :: bs) (limit prec) = some [] := by
        rcases hstop with rfl | ⟨h0, h1⟩
        · rcases limit prec with - | - | k <;> rfl
        · rw [show prec = 0 by omega]
          rfl
      rw [if_pos hstop, htext, Option.bind_some, if_pos ⟨by simp, by simpa using hwidth.1⟩]
      simp
    · obtain ⟨hb, hprec⟩ := not_or.mp hstop
      have hnext : limit (if prec < 0 then prec else prec - 1) = (limit prec).map (· - 1) := by
        unfold limit
        by_cases hneg : prec < 0
        · simp [hneg]
        · rw [if_neg hneg, if_neg hneg, if_neg (by omega), Option.map_some]
          congr 1
          omega
      have htext : narrowText (b :: bs) (limit prec) =
          (narrowText bs (limit (if prec < 0 then prec else prec - 1))).map (b :: ·) := by
        rw [hnext]
        have hlim : limit prec ≠ some 0 := by
          unfold limit
          split_ifs
          · simp
          · simp
            omega
        rcases hcase : limit prec with - | - | k
        · simp [narrowText, hb]
        · exact absurd hcase hlim
        · simp [narrowText, hb]
      rw [if_neg hstop, htext]
      by_cases hmin : width = -2 ^ 31
      · -- the width cannot be counted down for the first character
        rw [int?_eq, if_neg (by omega), Option.bind_none]
        cases narrowText bs (limit (if prec < 0 then prec else prec - 1)) with
        | none => rfl
        | some t =>
          rw [Option.map_some, Option.bind_some, if_neg]
          rintro ⟨-, hle⟩
          rw [List.length_cons] at hle
          omega
      · rw [int?_eq_some.mpr ⟨rfl, by omega, by omega⟩, Option.bind_some, ih _ _ (by omega)]
        cases narrowText bs (limit (if prec < 0 then prec else prec - 1)) with
        | none => rfl
        | some t =>
          rw [Option.bind_some, Option.map_some, Option.bind_some, List.length_cons, List.length_cons]
          have hcount : width - 1 - t.length = width - (t.length + 1 : ℕ) := by
            push_cast
            omega
          rw [hcount]
          by_cases hok : t.length < bs.length ∧ -2 ^ 31 ≤ width - (t.length + 1 : ℕ)
          · rw [if_pos hok, if_pos ⟨by omega, hok.2⟩]
            rfl
          · rw [if_neg hok, if_neg fun h => hok ⟨by omega, h.2⟩]
            rfl

/-- The string as the engine puts it, when nothing overflows. -/
def codeText (s : Spec) (t : List UInt8) : List UInt8 :=
  if 0 < s.width ∧ s.padc ≠ '-'.toUInt8 then List.replicate (s.width - t.length).toNat s.padc ++ t
  else t ++ spaces (s.width - t.length).toNat

instance (s : Spec) (n : ℕ) : Decidable (CountsFit s n) :=
  inferInstanceAs (Decidable (if 0 < s.width ∧ s.padc ≠ '-'.toUInt8 then _ else _))

/-- The difference of `size_t` values, as an `int`. -/
theorem conv_sub {width : ℤ} {n : ℕ} (hwidth : width < 2 ^ 31) (hlow : -2 ^ 31 ≤ width - n) :
    int.conv (width - n) = width - n := by
  show (width - n).bmod (2 ^ 32) = width - n
  exact Int.bmod_eq_of_le (by omega) (by omega)

theorem conv_range (v : ℤ) : -2 ^ 31 ≤ int.conv v ∧ int.conv v < 2 ^ 31 := by
  have hle : -(((2 ^ 32 : ℕ) : ℤ) / 2) ≤ v.bmod (2 ^ 32) := Int.le_bmod (by decide)
  have hlt : v.bmod (2 ^ 32) < (((2 ^ 32 : ℕ) : ℤ) + 1) / 2 := Int.bmod_lt (by decide)
  show -2 ^ 31 ≤ v.bmod (2 ^ 32) ∧ v.bmod (2 ^ 32) < 2 ^ 31
  omega

theorem printText_eq {s : Spec} (p : List UInt8) (hwidth : -2 ^ 31 ≤ s.width ∧ s.width < 2 ^ 31) :
    printText s p = (narrowText p (limit s.prec)).bind fun t =>
      if t.length < p.length ∧ CountsFit s t.length then some (codeText s t) else none := by
  unfold printText padLeft CountsFit codeText
  by_cases hleft : 0 < s.width ∧ s.padc ≠ '-'.toUInt8
  · simp only [if_pos hleft, strnlen_eq]
    cases htext : narrowText p (limit s.prec) with
    | none => rfl
    | some t =>
      have hrange := conv_range (s.width - t.length)
      simp only [Option.map_some, Option.bind_some]
      rw [putLoop_eq p s.prec _ (by omega), htext, Option.bind_some]
      by_cases hok : t.length < p.length ∧ -2 ^ 31 ≤ min (int.conv (s.width - t.length)) 0 - t.length
      · -- a counter that does not overflow has not wrapped before
        have hlow : -2 ^ 31 ≤ s.width - t.length := by omega
        have hconv := conv_sub hwidth.2 hlow
        have hright : (min (int.conv (s.width - t.length)) 0 - t.length).toNat = 0 := by omega
        rw [if_pos hok, if_pos ⟨hok.1, by omega⟩, Option.map_some, hright, hconv]
        simp
      · rw [if_neg hok, if_neg]
        · rfl
        · rintro ⟨hlen, hcount⟩
          have hconv := conv_sub hwidth.2 (show -2 ^ 31 ≤ s.width - t.length by omega)
          exact hok ⟨hlen, by omega⟩
  · simp only [if_neg hleft, Option.bind_some, putLoop_eq p s.prec s.width hwidth]
    cases htext : narrowText p (limit s.prec) with
    | none => rfl
    | some t =>
      simp only [Option.bind_some, List.nil_append]
      by_cases hok : t.length < p.length ∧ -2 ^ 31 ≤ s.width - t.length
      · rw [if_pos hok, if_pos ⟨hok.1, by omega⟩]
        rfl
      · rw [if_neg hok, if_neg fun h => hok ⟨h.1, by omega⟩]
        rfl

/-! ## Padding of strings -/

/-- How the variables of a string conversion are related to its field: the engine pads not at all, or on the right,
or on the left with spaces, or on the left with zeros where zeros are never prescribed. -/
inductive Aligned (s : Spec) (f : Field) : Prop
  | none (hs : s.width ≤ 0) (hf : f.width = 0 ∨ f.left = true)
  | minus (hs : s.width = f.width) (hpos : 0 < f.width) (hpad : s.padc = '-'.toUInt8) (hleft : f.left = true)
  | space (hs : s.width = f.width) (hpos : 0 < f.width) (hpad : s.padc = ' '.toUInt8) (hleft : f.left = false)
  | zero (hs : s.width = f.width) (hpos : 0 < f.width) (hpad : s.padc = '0'.toUInt8)

section Aligned

variable {s : Spec} {f : Field} {t u : List UInt8}

theorem codeText_none (hs : s.width ≤ 0) : codeText s t = t := by
  rw [codeText, if_neg (by omega), show (s.width - t.length).toNat = 0 by omega]
  exact List.append_nil t

theorem codeText_minus (hs : s.width = f.width) (hpad : s.padc = '-'.toUInt8) :
    codeText s t = t ++ spaces (f.width - t.length) := by
  rw [codeText, if_neg fun h => h.2 hpad, hs, Int.toNat_sub]

theorem codeText_left (hs : s.width = f.width) (hpos : 0 < f.width) (hpad : s.padc ≠ '-'.toUInt8) :
    codeText s t = List.replicate (f.width - t.length) s.padc ++ t := by
  rw [codeText, if_pos ⟨by omega, hpad⟩, hs, Int.toNat_sub]

theorem isoText_left (hf : f.width = 0 ∨ f.left = true) : isoText f u = u ++ spaces (f.width - u.length) := by
  rw [isoText]
  split_ifs with hleft
  · rfl
  · rw [hf.resolve_right hleft, Nat.zero_sub]
    simp [spaces]

theorem isoText_right (hleft : f.left = false) : isoText f u = spaces (f.width - u.length) ++ u := by
  rw [isoText, hleft]
  rfl

theorem isoText_nil : isoText f [] = spaces f.width := by
  rw [isoText]
  split_ifs <;> simp

theorem isoText_full (h : f.width ≤ u.length) : isoText f u = u := by
  rw [isoText, Nat.sub_eq_zero_of_le h]
  simp [spaces]

/-- The prescribed field around a text is never shorter than the text. -/
theorem isoText_length : (isoText f u).length = max f.width u.length := by
  rw [isoText]
  split_ifs <;> simp only [List.length_append, spaces, List.length_replicate] <;> omega

/-- Zeros are never prescribed. -/
theorem count_isoText : (isoText f u).count '0'.toUInt8 = u.count '0'.toUInt8 := by
  have hspaces : ∀ n, (spaces n).count '0'.toUInt8 = 0 := by
    intro n
    rw [spaces, List.count_replicate]
    exact if_neg (by decide)
  rw [isoText]
  split_ifs <;> simp [List.count_append, hspaces]

/-- The text itself in its field. -/
theorem codeText_same_iff (h : Aligned s f) :
    codeText s t = isoText f t ↔ f.width ≤ t.length ∨ s.width = f.width ∧ s.padc ≠ '0'.toUInt8 := by
  cases h with
  | none hs hf =>
    rw [codeText_none hs, isoText_left hf, List.self_eq_append_right, spaces, List.replicate_eq_nil_iff]
    omega
  | minus hs hpos hpad hleft =>
    rw [codeText_minus hs hpad, isoText_left (.inr hleft)]
    exact iff_of_true rfl (.inr ⟨hs, by rw [hpad]; decide⟩)
  | space hs hpos hpad hleft =>
    rw [codeText_left hs hpos (by rw [hpad]; decide), isoText_right hleft, hpad]
    exact iff_of_true rfl (.inr ⟨hs, by decide⟩)
  | zero hs hpos hpad =>
    rw [codeText_left hs hpos (by rw [hpad]; decide), hpad]
    constructor
    · intro heq
      have hcount := congrArg (List.count '0'.toUInt8) heq
      rw [count_isoText, List.count_append, List.count_replicate_self] at hcount
      exact .inl (by omega)
    · rintro (hle | ⟨-, hne⟩)
      · rw [Nat.sub_eq_zero_of_le hle, isoText_full hle]
        rfl
      · exact absurd rfl hne

/-- A text where none is prescribed. -/
theorem codeText_nil_iff (h : Aligned s f) (ht : t ≠ []) :
    codeText s t = isoText f [] ↔
      t = spaces t.length ∧ (t.length = f.width ∨ t.length ≤ f.width ∧ s.padc ≠ '0'.toUInt8 ∧
        s.width = f.width) := by
  have hlen : 0 < t.length := List.length_pos_iff.mpr ht
  rw [isoText_nil]
  cases h with
  | none hs hf =>
    rw [codeText_none hs]
    constructor
    · intro heq
      have hl : t.length = f.width := by rw [heq, spaces, List.length_replicate]
      exact ⟨by rw [hl]; exact heq, .inl hl⟩
    · rintro ⟨htext, hl | ⟨hl, -, hw⟩⟩
      · rw [← hl]
        exact htext
      · omega
  | minus hs hpos hpad hleft =>
    have hne : s.padc ≠ '0'.toUInt8 := by rw [hpad]; decide
    rw [codeText_minus hs hpad, spaces, spaces, List.append_eq_replicate_iff, List.length_replicate]
    constructor
    · rintro ⟨hl, htext, -⟩
      exact ⟨htext, .inr ⟨by omega, hne, hs⟩⟩
    · rintro ⟨htext, hl⟩
      exact ⟨by omega, htext, rfl⟩
  | space hs hpos hpad hleft =>
    have hne : ' '.toUInt8 ≠ '0'.toUInt8 := by decide
    rw [codeText_left hs hpos (by rw [hpad]; decide), hpad, spaces, List.append_eq_replicate_iff,
      List.length_replicate]
    constructor
    · rintro ⟨hl, -, htext⟩
      exact ⟨htext, .inr ⟨by omega, hne, hs⟩⟩
    · rintro ⟨htext, hl⟩
      exact ⟨by omega, rfl, htext⟩
  | zero hs hpos hpad =>
    rw [codeText_left hs hpos (by rw [hpad]; decide), hpad, spaces, List.append_eq_replicate_iff,
      List.length_replicate]
    constructor
    · rintro ⟨hl, hzeros, htext⟩
      -- a zero in front of the text is not a space
      have hfull : f.width - t.length = 0 := by
        by_contra hpos
        have hmem : '0'.toUInt8 ∈ List.replicate (f.width - t.length) ' '.toUInt8 := by
          rw [← hzeros]
          exact List.mem_replicate.mpr ⟨hpos, rfl⟩
        exact absurd (List.eq_of_mem_replicate hmem) (by decide)
      exact ⟨htext, .inl (by omega)⟩
    · rintro ⟨htext, hl | ⟨-, hne, -⟩⟩
      · rw [hl, Nat.sub_self]
        exact ⟨by omega, rfl, by rw [← hl]; exact htext⟩
      · exact absurd rfl hne

section Head

variable {b c : UInt8} {v : List UInt8}

/-- A field around one character that is the prescribed one is as wide as the prescribed text. -/
theorem le_width_of_head (h : codeText s [b] = isoText f (b :: c :: v)) : v.length + 2 ≤ s.width := by
  have hlen := congrArg List.length h
  rw [isoText_length, List.length_cons, List.length_cons, codeText] at hlen
  split_ifs at hlen
  · simp only [List.length_append, List.length_replicate, List.length_cons, List.length_nil] at hlen
    omega
  · simp only [List.length_append, spaces, List.length_replicate, List.length_cons, List.length_nil] at hlen
    omega

theorem head_minus_iff (hs : s.width = f.width) (hpos : 0 < f.width) (hpad : s.padc = '-'.toUInt8)
    (hleft : f.left = true) :
    codeText s [b] = isoText f (b :: c :: v) ↔ v.length + 2 ≤ f.width ∧ c :: v = spaces (v.length + 1) := by
  have hcons : codeText s [b] = isoText f (b :: c :: v) ↔
      (c :: v) ++ spaces (f.width - (v.length + 2)) = spaces (f.width - 1) := by
    rw [codeText_minus hs hpad, isoText_left (.inr hleft), eq_comm]
    exact List.cons_inj_right b
  rw [hcons, spaces, spaces, List.append_eq_replicate_iff, List.length_replicate, List.length_cons]
  constructor
  · rintro ⟨hl, htext, -⟩
    exact ⟨by omega, htext⟩
  · rintro ⟨hle, htext⟩
    exact ⟨by omega, htext, rfl⟩

theorem head_space_iff (hs : s.width = f.width) (hpos : 0 < f.width) (hpad : s.padc = ' '.toUInt8)
    (hleft : f.left = false) :
    codeText s [b] = isoText f (b :: c :: v) ↔ v.length + 2 ≤ f.width ∧ b :: c :: v = spaces (v.length + 2) := by
  have hcode : codeText s [b] = spaces (f.width - 1) ++ [b] := by
    rw [codeText_left hs hpos (by rw [hpad]; decide), hpad]
    rfl
  have hiso : isoText f (b :: c :: v) = spaces (f.width - (v.length + 2)) ++ b :: c :: v := isoText_right hleft
  constructor
  · intro heq
    have hle := le_width_of_head heq
    have hsplit : spaces (f.width - 1) = spaces (f.width - (v.length + 2)) ++ spaces (v.length + 1) := by
      rw [spaces, spaces, spaces, List.replicate_append_replicate]
      congr 1
      omega
    rw [hcode, hiso, hsplit, List.append_assoc, List.append_cancel_left_eq] at heq
    have hb : b = ' '.toUInt8 := (List.cons.inj heq).1.symm
    refine ⟨by omega, ?_⟩
    rw [← heq, hb]
    exact (List.replicate_succ' ..).symm
  · rintro ⟨hle, htext⟩
    have hb : b = ' '.toUInt8 := (List.cons.inj htext).1
    rw [hcode, hiso, htext, hb, show [' '.toUInt8] = spaces 1 from rfl, spaces, spaces, spaces, spaces,
      List.replicate_append_replicate, List.replicate_append_replicate]
    congr 1
    omega

theorem head_zero_iff (hs : s.width = f.width) (hpos : 0 < f.width) (hpad : s.padc = '0'.toUInt8) :
    codeText s [b] = isoText f (b :: c :: v) ↔ v.length + 2 = f.width ∧ b :: c :: v = zeros (v.length + 2) := by
  have hcode : codeText s [b] = zeros (f.width - 1) ++ [b] := by
    rw [codeText_left hs hpos (by rw [hpad]; decide), hpad]
    rfl
  constructor
  · intro heq
    have hle := le_width_of_head heq
    rw [hcode] at heq
    -- all but one of the characters of the engine are zeros, and no zero is prescribed outside the text
    have hcount := congrArg (List.count '0'.toUInt8) heq
    have hrest : (c :: v).count '0'.toUInt8 ≤ v.length + 1 := List.count_le_length
    have hfirst : ([b] ++ c :: v).count '0'.toUInt8 = [b].count '0'.toUInt8 + (c :: v).count '0'.toUInt8 :=
      List.count_append
    rw [List.singleton_append] at hfirst
    rw [count_isoText, List.count_append, zeros, List.count_replicate_self, hfirst] at hcount
    have hw : f.width = v.length + 2 := by omega
    rw [isoText_full (by rw [hw]; exact le_rfl), hw] at heq
    have hb : b = '0'.toUInt8 := (List.cons.inj heq).1.symm
    refine ⟨hw.symm, ?_⟩
    rw [← heq, hb]
    exact (List.replicate_succ' ..).symm
  · rintro ⟨hw, htext⟩
    have hb : b = '0'.toUInt8 := (List.cons.inj htext).1
    rw [hcode, isoText_full (by rw [← hw]; exact le_rfl), htext, hb, ← hw]
    exact (List.replicate_succ' ..).symm

/-- The first character of a text where a longer one is prescribed. -/
theorem codeText_head_iff (h : Aligned s f) :
    codeText s [b] = isoText f (b :: c :: v) ↔
      s.width = f.width ∧
        (s.padc = '-'.toUInt8 ∧ v.length + 2 ≤ f.width ∧ c :: v = spaces (v.length + 1) ∨
          s.padc = ' '.toUInt8 ∧ v.length + 2 ≤ f.width ∧ b :: c :: v = spaces (v.length + 2) ∨
          s.padc = '0'.toUInt8 ∧ v.length + 2 = f.width ∧ b :: c :: v = zeros (v.length + 2)) := by
  have hspace : '-'.toUInt8 ≠ ' '.toUInt8 := by decide
  have hzero : '-'.toUInt8 ≠ '0'.toUInt8 := by decide
  have hblank : ' '.toUInt8 ≠ '0'.toUInt8 := by decide
  cases h with
  | none hs hf =>
    refine iff_of_false (fun heq => ?_) ?_
    · have := le_width_of_head heq
      omega
    · rintro ⟨hw, ⟨-, hle, -⟩ | ⟨-, hle, -⟩ | ⟨-, hle, -⟩⟩ <;> omega
  | minus hs hpos hpad hleft =>
    rw [head_minus_iff hs hpos hpad hleft]
    simp only [hs, hpad, hspace, hzero, true_and, false_and, or_false]
  | space hs hpos hpad hleft =>
    rw [head_space_iff hs hpos hpad hleft]
    simp only [hs, hpad, hspace.symm, hblank, true_and, false_and, or_false, false_or]
  | zero hs hpos hpad =>
    rw [head_zero_iff hs hpos hpad]
    simp only [hs, hpad, hzero.symm, hblank.symm, true_and, false_and, false_or]

end Head

/-- Strings of the engine and of ISO C: the same, none prescribed, or only the first character of the prescribed
one. -/
theorem codeText_eq_iff (h : Aligned s f) (htext : t = u ∨ u = [] ∨ t = u.take 1) :
    codeText s t = isoText f u ↔ TextFits s f t u := by
  rw [TextFits]
  split_ifs with hsame hempty
  · rw [← hsame]
    exact codeText_same_iff h
  · subst hempty
    exact codeText_nil_iff h hsame
  · obtain rfl : t = u.take 1 := (htext.resolve_left hsame).resolve_left hempty
    rcases u with - | ⟨b, - | ⟨c, v⟩⟩
    · exact absurd rfl hempty
    · exact absurd rfl hsame
    · exact codeText_head_iff h

end Aligned

end Soceteer.Stdio.Printf
