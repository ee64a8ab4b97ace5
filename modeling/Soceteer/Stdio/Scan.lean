import Mathlib.Tactic.FinCases
import Soceteer.Stdio.Iso

/-!
# Soceteer.Stdio.Scan — how the engine reads a format

The text of a conversion is run through the `switch` piece by piece: flags, width, precision, length modifier.

* `Directive.spec`: the variables at the end of it, which are not always those that were asked for.
* `scan_flags`, `scan_numeral`, `scan_width`, `scan_prec`, `scan_len`: one lemma per piece; `scan_directive` joins
  them.
* `loop_eq`: the bound on the rounds of the loop is enough.
* `vxprintf_text`: a format is put item by item.
-/

namespace Soceteer.Stdio.Printf

open Lib Cint

/-! ## What the engine has read -/

/-- `lflag` -/
def Len.lflag (x : Xlen) : Len → ℕ
  | int => 0
  | long => 1
  | longLong => 2
  | size => if x.bits = 64 then 2 else 1

/-- The pad character: the last flag wins, and a zero at the start of the precision is a flag. -/
def Directive.padc (d : Directive) : UInt8 :=
  match d.prec with
  | some (.digits (_ + 1) _) => '0'.toUInt8
  | _ => (d.flags.getLast?.map Flag.char).getD ' '.toUInt8

/-- The variables when the conversion is reached: a precision ends a negative width, and one of zeros only is
lost. -/
def Directive.spec (x : Xlen) (d : Directive) (g : Given) : Spec where
  padc := d.padc
  width := if d.prec = none then g.width.getD (-1) else max (g.width.getD 0) 0
  prec :=
    match d.prec with
    | some (.digits _ (some n)) => n.value
    | some .star => g.prec.getD (-1)
    | _ => -1
  lflag := d.len.lflag x

/-- A number of the format that the digit loop can hold: the character is added before `'0'` is taken off. -/
def Numeral.Fits (n : Numeral) : Prop := n.value + 48 < 2 ^ 31

def Width.Fits : Option Width → Prop
  | some (.numeral n) => n.Fits
  | _ => True

def Prec.Fits : Option Prec → Prop
  | some (.digits _ (some n)) => n.Fits
  | _ => True

instance (n : Numeral) : Decidable n.Fits := inferInstanceAs (Decidable (_ < _))

instance : (w : Option Width) → Decidable (Width.Fits w)
  | some (.numeral n) => inferInstanceAs (Decidable n.Fits)
  | some .star => .isTrue trivial
  | none => .isTrue trivial

instance : (p : Option Prec) → Decidable (Prec.Fits p)
  | some (.digits _ (some n)) => inferInstanceAs (Decidable n.Fits)
  | some (.digits _ none) => .isTrue trivial
  | some .star => .isTrue trivial
  | none => .isTrue trivial

/-- The conversion as the engine makes it. -/
def Directive.code (T : Target) (d : Directive) (args : List Arg) : Option (List UInt8 × List Arg) :=
  (d.given args).bind fun ga => convert T d.conv.char (d.spec T.xlen ga.1) ga.2

/-! ## Pieces -/

section Pieces

variable {T : Target} {s s' : Spec} {args args' : List Arg} {c : UInt8} {fmt rest : List UInt8}

theorem scan_again {number : Option ℤ} (h : dispatch T c s args = some (.again number s' args')) :
    scan T (c :: fmt) none s args = scan T fmt number s' args' := by
  rw [scan, h]

theorem dispatch_flag (f : Flag) :
    dispatch T f.char s args = some (.again none { s with padc := f.char } args) := by
  cases f <;> rfl

theorem scan_flags (flags : List Flag) (s : Spec) :
    scan T (flags.map Flag.char ++ rest) none s args =
      scan T rest none { s with padc := (flags.getLast?.map Flag.char).getD s.padc } args := by
  induction flags generalizing s with
  | nil => rfl
  | cons f flags ih =>
    rw [List.map_cons, List.cons_append, scan_again (dispatch_flag f), ih, List.getLast?_cons]
    cases flags.getLast? <;> rfl

theorem dispatch_lead (i : Fin 9) :
    dispatch T (Numeral.digit (i.val + 1)) s args = some (.again (some (i.val + 1 : ℕ)) s args) := by
  fin_cases i <;> rfl

theorem isDigit_digit (d : Fin 10) : isDigit (Numeral.digit d.val) = true := by
  revert d
  decide

theorem toNat_digit (d : Fin 10) : (Numeral.digit d.val).toNat = 48 + d.val := by
  revert d
  decide

/-- A digit is taken if the sum with its character stays in an `int`. -/
theorem addDigit_eq (v : ℕ) (d : Fin 10) :
    addDigit v (Numeral.digit d.val) =
      if v * 10 + d.val + 48 < 2 ^ 31 then some ((v * 10 + d.val : ℕ) : ℤ) else none := by
  have hd := d.isLt
  have hchar : ((48 + d.val : ℕ) : ℤ) = 48 + d.val := by push_cast; rfl
  have hzero : ('0'.toNat : ℤ) = 48 := rfl
  rw [addDigit, toNat_digit, hchar, hzero]
  split_ifs with hfit
  · rw [int?_eq_some.mpr ⟨rfl, by omega, by omega⟩, Option.bind_some, int?_eq_some.mpr ⟨rfl, by omega, by omega⟩,
      Option.bind_some]
    exact int?_eq_some.mpr ⟨by push_cast; omega, by omega, by omega⟩
  · rw [Option.bind_eq_none_iff]
    intro u hu
    obtain ⟨rfl, -, -⟩ := int?_eq_some.mp hu
    rw [int?_eq, if_neg (by omega)]
    rfl

/-- Behind the digits the number becomes the width or the precision. -/
theorem scan_number (hc : isDigit c = false) (v : ℤ) :
    scan T (c :: rest) (some v) s args = scan T (c :: rest) none (s.field v) args := by
  rw [scan, scan, if_neg (by simp [hc])]

theorem le_foldl_digits (ds : List (Fin 10)) (v : ℕ) : v ≤ ds.foldl (fun v d => v * 10 + d.val) v := by
  induction ds generalizing v with
  | nil => exact le_rfl
  | cons d ds ih => exact le_trans (by omega) (ih (v * 10 + d.val))

/-- The digit loop. -/
theorem scan_digits (hc : isDigit c = false) (ds : List (Fin 10)) (v : ℕ) (hv : v + 48 < 2 ^ 31) :
    scan T (ds.map (fun d => Numeral.digit d.val) ++ c :: rest) (some v) s args =
      if ds.foldl (fun v d => v * 10 + d.val) v + 48 < 2 ^ 31 then
        scan T (c :: rest) none (s.field (ds.foldl (fun v d => v * 10 + d.val) v : ℕ)) args
      else none := by
  induction ds generalizing v with
  | nil =>
    rw [List.foldl_nil, if_pos hv]
    exact scan_number hc v
  | cons d ds ih =>
    rw [List.map_cons, List.cons_append, scan, if_pos (isDigit_digit d), addDigit_eq, List.foldl_cons]
    split_ifs with hstep hall hall
    · rw [Option.bind_some, ih _ hstep, if_pos hall]
    · rw [Option.bind_some, ih _ hstep, if_neg hall]
    · have := le_foldl_digits ds (v * 10 + d.val)
      omega
    · rfl

theorem scan_numeral (hc : isDigit c = false) (n : Numeral) :
    scan T (n.chars ++ c :: rest) none s args =
      if n.Fits then scan T (c :: rest) none (s.field n.value) args else none := by
  have hlead := n.lead.isLt
  rw [Numeral.chars, List.cons_append, scan_again (dispatch_lead n.lead), scan_digits hc _ _ (by omega)]
  rfl

theorem field_of_neg (hs : s.width < 0) (v : ℤ) : s.field v = { s with width := v, prec := -1 } := if_pos hs

theorem field_of_nonneg (hs : 0 ≤ s.width) (v : ℤ) : s.field v = { s with prec := v } := if_neg (not_lt.mpr hs)

theorem scan_star : scan T ('*'.toUInt8 :: rest) none s args =
    (vaSigned 32 args).bind fun a => scan T rest none (s.field a.1) a.2 := by
  have hstar : dispatch T '*'.toUInt8 s args = (vaSigned 32 args).map fun a => .again none (s.field a.1) a.2 := rfl
  cases hva : vaSigned 32 args with
  | none =>
    rw [hva] at hstar
    rw [scan, hstar]
    rfl
  | some a =>
    rw [hva] at hstar
    exact scan_again hstar

/-- The variables behind a width. -/
def Spec.atWidth (s : Spec) : Option ℤ → Spec
  | none => s
  | some v => { s with width := v, prec := -1 }

theorem scan_width (hc : isDigit c = false) (hs : s.width < 0) (w : Option Width) :
    scan T ((w.map Width.chars).getD [] ++ c :: rest) none s args =
      if Width.Fits w then
        (Width.given w args).bind fun a => scan T (c :: rest) none (s.atWidth a.1) a.2
      else none := by
  match w with
  | none => rfl
  | some (.numeral n) =>
    refine (scan_numeral hc n).trans ?_
    rw [field_of_neg hs]
    rfl
  | some .star =>
    rw [if_pos (show Width.Fits (some .star) from trivial)]
    show scan T ('*'.toUInt8 :: c :: rest) none s args = _
    simp only [scan_star, field_of_neg hs]
    cases hva : vaSigned 32 args <;> simp [Width.given, hva, Spec.atWidth]

/-- The variables behind a precision. -/
def Spec.atPrec (s : Spec) (p : Option Prec) (v : Option ℤ) : Spec :=
  match p with
  | none => s
  | some (.digits z n) =>
    { s with
      padc := if z = 0 then s.padc else '0'.toUInt8, width := max s.width 0,
      prec := (n.map fun n => (n.value : ℤ)).getD s.prec }
  | some .star => { s with width := max s.width 0, prec := v.getD s.prec }

theorem scan_period : scan T ('.'.toUInt8 :: rest) none s args =
    scan T rest none { s with width := max s.width 0 } args := by
  have hdot : dispatch T '.'.toUInt8 s args =
      some (.again none { s with width := if s.width < 0 then 0 else s.width } args) := rfl
  rw [scan_again hdot]
  congr 2
  split_ifs with h
  · exact (max_eq_right h.le).symm
  · exact (max_eq_left (not_lt.mp h)).symm

theorem scan_zeros (z : ℕ) : scan T (List.replicate z '0'.toUInt8 ++ rest) none s args =
    scan T rest none { s with padc := if z = 0 then s.padc else '0'.toUInt8 } args := by
  have hmap : List.replicate z '0'.toUInt8 = (List.replicate z Flag.zero).map Flag.char := by
    rw [List.map_replicate]
    rfl
  rw [hmap, scan_flags, List.getLast?_replicate]
  cases z <;> rfl

theorem scan_prec (hc : isDigit c = false) (p : Option Prec) :
    scan T ((p.map fun p => '.'.toUInt8 :: p.chars).getD [] ++ c :: rest) none s args =
      if Prec.Fits p then (Prec.given p args).bind fun a => scan T (c :: rest) none (s.atPrec p a.1) a.2
        else none := by
  have hpos : 0 ≤ max s.width 0 := le_max_right _ _
  match p with
  | none => rfl
  | some (.digits z none) =>
    show scan T ('.'.toUInt8 :: ((List.replicate z '0'.toUInt8 ++ []) ++ c :: rest)) none s args = _
    rw [scan_period, List.append_nil, scan_zeros]
    rfl
  | some (.digits z (some n)) =>
    show scan T ('.'.toUInt8 :: ((List.replicate z '0'.toUInt8 ++ n.chars) ++ c :: rest)) none s args = _
    rw [scan_period, List.append_assoc, scan_zeros, scan_numeral hc, field_of_nonneg hpos]
    rfl
  | some .star =>
    rw [if_pos (show Prec.Fits (some .star) from trivial)]
    show scan T ('.'.toUInt8 :: '*'.toUInt8 :: c :: rest) none s args = _
    have hfield :
        ∀ v, Spec.field { s with width := max s.width 0 } v = { s with width := max s.width 0, prec := v } :=
      fun v => field_of_nonneg hpos v
    rw [scan_period, scan_star]
    simp only [hfield]
    cases hva : vaSigned 32 args <;> simp [Prec.given, hva, Spec.atPrec]

theorem scan_len (len : Len) (hs : s.lflag = 0) :
    scan T (len.chars ++ rest) none s args = scan T rest none { s with lflag := len.lflag T.xlen } args := by
  have hl : ∀ s : Spec, dispatch T 'l'.toUInt8 s args = some (.again none { s with lflag := s.lflag + 1 } args) :=
    fun _ => rfl
  cases len with
  | int =>
    show scan T rest none s args = scan T rest none { s with lflag := 0 } args
    rw [← hs]
  | long =>
    show scan T ('l'.toUInt8 :: rest) none s args = _
    rw [scan_again (hl s), hs]
    rfl
  | longLong =>
    show scan T ('l'.toUInt8 :: 'l'.toUInt8 :: rest) none s args = _
    rw [scan_again (hl s), scan_again (hl _), hs]
    rfl
  | size =>
    show scan T ('z'.toUInt8 :: rest) none s args = _
    exact scan_again rfl

theorem scan_conv (conv : Conv) : scan T (conv.char.toUInt8 :: rest) none s args =
    (convert T conv.char s args).map fun r => .done r.1 rest r.2 := by
  have hconv : dispatch T conv.char.toUInt8 s args = (convert T conv.char s args).map fun r => .done r.1 r.2 := by
    cases conv <;> rfl
  rw [scan, hconv]
  cases convert T conv.char s args <;> rfl

end Pieces

/-! ## Conversions and formats -/

/-- The variables behind the pieces of a conversion. -/
theorem spec_eq (x : Xlen) (d : Directive) (w v : Option ℤ) :
    { Spec.atPrec (Spec.atWidth { Spec.init with padc := (d.flags.getLast?.map Flag.char).getD ' '.toUInt8 } w)
        d.prec v with lflag := d.len.lflag x } = d.spec x ⟨w, v⟩ := by
  have hpad : ∀ z n, d.prec = some (.digits z n) → d.padc =
      if z = 0 then (d.flags.getLast?.map Flag.char).getD ' '.toUInt8 else '0'.toUInt8 := by
    intro z n hp
    rw [Directive.padc, hp]
    cases z <;> rfl
  unfold Directive.spec
  match hp : d.prec with
  | none =>
    have hpadc : d.padc = (d.flags.getLast?.map Flag.char).getD ' '.toUInt8 := by rw [Directive.padc, hp]
    rw [hpadc]
    cases w <;> rfl
  | some (.digits z none) =>
    rw [hpad z none hp]
    cases w <;> rfl
  | some (.digits z (some n)) =>
    rw [hpad z (some n) hp]
    cases w <;> rfl
  | some .star =>
    have hpadc : d.padc = (d.flags.getLast?.map Flag.char).getD ' '.toUInt8 := by rw [Directive.padc, hp]
    rw [hpadc]
    cases w <;> rfl

/-- No digit follows a number of the format. -/
theorem len_conv_cons (len : Len) (conv : Conv) (rest : List UInt8) :
    ∃ c tail, len.chars ++ conv.char.toUInt8 :: rest = c :: tail ∧ isDigit c = false := by
  cases len <;> cases conv <;> exact ⟨_, _, rfl, rfl⟩

theorem prec_cons (p : Option Prec) {c : UInt8} {tail : List UInt8} (hc : isDigit c = false) :
    ∃ c' tail', (p.map fun p => '.'.toUInt8 :: p.chars).getD [] ++ c :: tail = c' :: tail' ∧
      isDigit c' = false := by
  cases p with
  | none => exact ⟨c, tail, rfl, hc⟩
  | some p => exact ⟨_, _, rfl, rfl⟩

theorem Spec.lflag_atPrec (s : Spec) (w v : Option ℤ) (p : Option Prec) :
    ((s.atWidth w).atPrec p v).lflag = s.lflag := by
  match p with
  | none => cases w <;> rfl
  | some (.digits _ _) => cases w <;> rfl
  | some .star => cases w <;> rfl

/-- What follows the width. -/
theorem scan_tail (T : Target) (d : Directive) (s : Spec) (hs : s.lflag = 0) (w : Option ℤ) (args : List Arg)
    (rest : List UInt8) :
    scan T ((d.prec.map fun p => '.'.toUInt8 :: p.chars).getD [] ++
      (d.len.chars ++ d.conv.char.toUInt8 :: rest)) none
        (s.atWidth w) args =
      if Prec.Fits d.prec then
        (Prec.given d.prec args).bind fun a =>
          (convert T d.conv.char { (s.atWidth w).atPrec d.prec a.1 with lflag := d.len.lflag T.xlen }
            a.2).map fun r =>
            .done r.1 rest r.2
      else none := by
  obtain ⟨c, tail, hlen, hc⟩ := len_conv_cons d.len d.conv rest
  rw [hlen, scan_prec hc]
  refine if_congr Iff.rfl (congrArg _ (funext fun a => ?_)) rfl
  have hlflag : ((s.atWidth w).atPrec d.prec a.1).lflag = 0 := (s.lflag_atPrec w a.1 d.prec).trans hs
  rw [← hlen, scan_len d.len hlflag, scan_conv]

/-- A conversion is read as far as its numbers fit, and then made with the variables of `Directive.spec`. -/
theorem scan_directive (T : Target) (d : Directive) (args : List Arg) (rest : List UInt8) :
    scan T (d.chars ++ rest) none .init args =
      if Width.Fits d.width ∧ Prec.Fits d.prec then (d.code T args).map fun r => .done r.1 rest r.2 else none := by
  obtain ⟨c, tail, hlen, hc⟩ := len_conv_cons d.len d.conv rest
  obtain ⟨c', tail', hprec, hc'⟩ := @prec_cons d.prec c tail hc
  have htext : d.chars ++ rest = d.flags.map Flag.char ++ ((d.width.map Width.chars).getD [] ++ c' :: tail') := by
    rw [← hprec, ← hlen]
    simp [Directive.chars]
  rw [htext, scan_flags, scan_width hc' (show (-1 : ℤ) < 0 by decide), ← hprec, ← hlen]
  by_cases hw : Width.Fits d.width
  · rw [if_pos hw, if_congr (and_iff_right hw) rfl rfl, Directive.code, Directive.given]
    cases Width.given d.width args with
    | none => simp
    | some a =>
      rw [Option.bind_some, Option.bind_some, scan_tail T d _ rfl]
      refine if_congr Iff.rfl ?_ rfl
      cases Prec.given d.prec a.2 with
      | none => rfl
      | some b =>
        rw [Option.bind_some, Option.map_some, Option.bind_some]
        exact congrArg (fun s => (convert T d.conv.char s b.2).map _) (spec_eq T.xlen d a.1 b.1)
  · rw [if_neg hw, if_neg fun h => hw h.1]

/-! ## The loop -/

/-- A conversion that ends has taken a character. -/
theorem scan_length {T : Target} {fmt fmt' out : List UInt8} {number : Option ℤ} {s : Spec} {args args' : List Arg}
    (h : scan T fmt number s args = some (.done out fmt' args')) : fmt'.length < fmt.length := by
  induction fmt generalizing number s args with
  | nil => simp [scan] at h
  | cons c fmt ih =>
    -- what happens at the character `c`, outside the digit loop
    have hswitch : ∀ s, scan T (c :: fmt) none s args = some (.done out fmt' args') →
        fmt'.length < fmt.length + 1 := by
      intro s h
      rw [scan] at h
      split at h
      · exact absurd h (by simp)
      · exact Nat.lt_succ_of_lt (ih h)
      · obtain ⟨-, rfl, -⟩ := Outcome.done.inj (Option.some.inj h)
        exact Nat.lt_succ_self _
      · exact absurd h (by simp)
    cases number with
    | none => exact hswitch s h
    | some v =>
      cases hc : isDigit c with
      | false =>
        rw [scan_number hc] at h
        exact hswitch _ h
      | true =>
        rw [scan, if_pos hc] at h
        obtain ⟨u, -, hu⟩ := Option.bind_eq_some_iff.mp h
        exact Nat.lt_succ_of_lt (ih hu)

/-- More rounds than characters are enough. -/
theorem loop_eq (T : Target) {n m : ℕ} {fmt : List UInt8} (args : List Arg) (hn : fmt.length < n)
    (hm : fmt.length < m) :
    loop T n fmt args = loop T m fmt args := by
  induction n generalizing m fmt args with
  | zero => exact absurd hn (Nat.not_lt_zero _)
  | succ n ih =>
    obtain ⟨m, rfl⟩ : ∃ k, m = k + 1 := ⟨m - 1, by omega⟩
    cases fmt with
    | nil => rfl
    | cons c fmt =>
      simp only [List.length_cons, Nat.add_lt_add_iff_right] at hn hm
      simp only [loop]
      cases hscan : scan T fmt none .init args with
      | none => rw [ih args hn hm]
      | some o =>
        cases o with
        | done out fmt' args' =>
          have hlt := scan_length hscan
          simp only [ih args hn hm, ih args' (lt_trans hlt hn) (lt_trans hlt hm)]
        | literal args' => simp only [ih args hn hm, ih args' hn hm]

section Items

variable {T : Target} {fmt : List UInt8} {args : List Arg}

theorem vxprintf_char {c : UInt8} (hc : c ≠ 0 ∧ c ≠ '%'.toUInt8) :
    vxprintf T (c :: fmt) args = (vxprintf T fmt args).map fun r => (c :: r.1, r.2) := by
  rw [vxprintf, loop, if_neg hc.1, if_pos hc.2]
  rfl

theorem vxprintf_scan {out fmt' : List UInt8} {args' : List Arg}
    (h : scan T fmt none .init args = some (.done out fmt' args')) :
    vxprintf T ('%'.toUInt8 :: fmt) args = (vxprintf T fmt' args').map fun r => (out ++ r.1, r.2) := by
  rw [vxprintf, loop, if_neg (by decide), if_neg (by simp), h]
  have hlt := scan_length h
  show (loop T (fmt.length + 1) fmt' args').map _ = _
  rw [loop_eq T args' (show fmt'.length < fmt.length + 1 by omega) (Nat.lt_succ_self _)]
  rfl

theorem vxprintf_undefined (h : scan T fmt none .init args = none) :
    vxprintf T ('%'.toUInt8 :: fmt) args = none := by
  rw [vxprintf, loop, if_neg (by decide), if_neg (by simp), h]

end Items

/-- An item as the engine puts it. -/
def Item.code (T : Target) : Item → List Arg → Option (List UInt8 × List Arg)
  | char c _, args => some ([c], args)
  | percent, args => some (['%'.toUInt8], args)
  | conv d, args => if Width.Fits d.width ∧ Prec.Fits d.prec then d.code T args else none

theorem vxprintf_item (T : Target) (i : Item) (rest : List UInt8) (args : List Arg) :
    vxprintf T (i.chars ++ rest) args =
      (i.code T args).bind fun r => (vxprintf T rest r.2).map fun q => (r.1 ++ q.1, q.2) := by
  cases i with
  | char c hc => exact vxprintf_char hc
  | percent =>
    have hscan : scan T ('%'.toUInt8 :: rest) none .init args = some (.done ['%'.toUInt8] rest args) := rfl
    exact vxprintf_scan hscan
  | conv d =>
    show vxprintf T ('%'.toUInt8 :: (d.chars ++ rest)) args = _
    have hscan := scan_directive T d args rest
    by_cases hfit : Width.Fits d.width ∧ Prec.Fits d.prec
    · rw [if_pos hfit] at hscan
      rw [Item.code, if_pos hfit]
      cases hcode : d.code T args with
      | none =>
        rw [hcode] at hscan
        exact vxprintf_undefined hscan
      | some r =>
        rw [hcode] at hscan
        exact vxprintf_scan hscan
    · rw [if_neg hfit] at hscan
      rw [Item.code, if_neg hfit]
      exact vxprintf_undefined hscan

/-- **A format is put item by item.** -/
theorem vxprintf_text (T : Target) (items : List Item) (args : List Arg) :
    vxprintf T (text items) args = run (Item.code T) items args := by
  induction items generalizing args with
  | nil => rfl
  | cons i items ih =>
    show vxprintf T (i.chars ++ text items) args = _
    rw [vxprintf_item, run]
    simp only [ih]

end Soceteer.Stdio.Printf
