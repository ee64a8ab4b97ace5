import Mathlib.Algebra.Group.Int.Defs
import Mathlib.Algebra.Group.Nat.Defs
import Mathlib.Data.BitVec
import Mathlib.Data.Int.Notation
import Soceteer.Lib.Cint

/-!
# Soceteer.Stdio.Vxprintf — the formatted output engine

`__vxprintf` is one loop over the format.  Inside a conversion it runs over flags, digits and modifiers with a
`goto` back to the same `switch`; one variable takes both the width and the precision, and one pad character both
flags.

* `Arg`: what `va_arg` finds; `Spec`: the variables of a conversion.
* `printnum`, `printText`, `convert`: the conversions.  A value that C does not define (a signed overflow, a read
  behind an object, an argument of another type) is `none`.
* `dispatch`, `scan`: the `switch` and the jumps back to it; `vxprintf` is the loop around them.
-/

namespace Soceteer.Stdio.Printf

open Lib Cint

/-- The target, and the output of `%f`, which is left open. -/
structure Target where
  xlen : Xlen
  fixed : BitVec 64 → ℤ → ℤ → UInt8 → List UInt8

/-- An argument: a value of 32 or of 64 bits, or a pointer to the bytes of an object. -/
inductive Arg
  | word (v : BitVec 32)
  | dword (v : BitVec 64)
  | text (p : Option (List UInt8))
deriving DecidableEq

/-- The local variables of a conversion. -/
structure Spec where
  padc : UInt8
  width : ℤ
  prec : ℤ
  lflag : ℕ
deriving DecidableEq

def Spec.init : Spec := ⟨' '.toUInt8, -1, -1, 0⟩

/-- `process_precision`: the number read last is the width, or the precision if there is a width. -/
def Spec.field (s : Spec) (v : ℤ) : Spec :=
  if s.width < 0 then { s with width := v, prec := -1 } else { s with prec := v }

/-! ## Numbers -/

/-- `va_arg` with an unsigned type of the given size. -/
def vaUnsigned (bits : ℕ) : List Arg → Option (ℕ × List Arg)
  | .word v :: args => if bits = 32 then some (v.toNat, args) else none
  | .dword v :: args => if bits = 64 then some (v.toNat, args) else none
  | _ => none

/-- `va_arg` with a signed type of the given size. -/
def vaSigned (bits : ℕ) : List Arg → Option (ℤ × List Arg)
  | .word v :: args => if bits = 32 then some (v.toInt, args) else none
  | .dword v :: args => if bits = 64 then some (v.toInt, args) else none
  | _ => none

/-- Bits of the type that `lflag` stands for. -/
def argBits (x : Xlen) (lflag : ℕ) : ℕ := if 2 ≤ lflag then 64 else if lflag ≠ 0 then x.bits else 32

def getuint (x : Xlen) (lflag : ℕ) (args : List Arg) : Option (ℕ × List Arg) := vaUnsigned (argBits x lflag) args

def getint (x : Xlen) (lflag : ℕ) (args : List Arg) : Option (ℤ × List Arg) := vaSigned (argBits x lflag) args

/-- The digits of `num`, least significant first, in an array of the given size. -/
def digitLoop : ℕ → ℕ → ℕ → List ℕ
  | 0, _, _ => []
  | size + 1, base, num => num % base :: if num < base then [] else digitLoop size base (num / base)

def digitChar (d : ℕ) : UInt8 := UInt8.ofNat (d + if d ≥ 10 then 'a'.toNat - 10 else '0'.toNat)

/-- The loop condition `width-- > pos` is evaluated at least once. -/
def printnum (num base : ℕ) (width : ℤ) (padc : UInt8) : Option (List UInt8) :=
  let digits := digitLoop 64 base num
  (int? (width - 1)).map fun _ =>
    List.replicate (width - digits.length).toNat padc ++ digits.reverse.map digitChar

/-- `case 'd'` -/
def printSigned (s : Spec) (v : ℤ) : Option (List UInt8) :=
  if v < 0 then
    ((⟨true, 64⟩ : Ty).fit (-v)).bind fun num => (printnum num.toNat 10 s.width s.padc).map ('-'.toUInt8 :: ·)
  else printnum v.toNat 10 s.width s.padc

/-! ## Strings -/

/-- `strnlen` of an object; without a limit it stops at a zero byte only. -/
def strnlen : List UInt8 → Option ℕ → Option ℕ
  | _, some 0 => some 0
  | [], _ => none
  | b :: bs, limit => if b = 0 then some 0 else (strnlen bs (limit.map (· - 1))).map (· + 1)

/-- The loop that puts the characters of a string; it looks at a character before it counts down the precision. -/
def putLoop : List UInt8 → ℤ → ℤ → Option (List UInt8 × ℤ)
  | [], _, _ => none
  | b :: bs, prec, width =>
    if b = 0 ∨ (0 ≤ prec ∧ prec - 1 < 0) then some ([], width)
    else
      (int? (width - 1)).bind fun width =>
        (putLoop bs (if prec < 0 then prec else prec - 1) width).map fun r => (b :: r.1, r.2)

/-- A negative precision is a huge `size_t`. -/
def limit (prec : ℤ) : Option ℕ := if prec < 0 then none else some prec.toNat

/-- The padding on the left, and the width that is left; the difference is one of `size_t` and becomes an `int`
again. -/
def padLeft (s : Spec) (p : List UInt8) : Option (List UInt8 × ℤ) :=
  if 0 < s.width ∧ s.padc ≠ '-'.toUInt8 then
    (strnlen p (limit s.prec)).map fun (n : ℕ) =>
      let width := int.conv (s.width - (n : ℤ))
      (List.replicate width.toNat s.padc, min width 0)
  else some ([], s.width)

/-- `case 's'` -/
def printText (s : Spec) (p : List UInt8) : Option (List UInt8) :=
  (padLeft s p).bind fun left =>
    (putLoop p s.prec left.2).map fun r => left.1 ++ r.1 ++ List.replicate r.2.toNat ' '.toUInt8

/-- `"(null)"` -/
def null : List UInt8 := "(null)".toList.map Char.toUInt8 ++ [0]

/-! ## The switch -/

/-- How the `switch` goes on: back to itself, in the digit loop if there is a number, or out of it.  What `*` has
taken of the arguments is gone, also when the specifier is not recognized. -/
inductive Next
  | again (number : Option ℤ) (s : Spec) (args : List Arg)
  | done (out : List UInt8) (args : List Arg)
  | literal (args : List Arg)

/-- A conversion of an unsigned number. -/
def printUnsigned (T : Target) (base : ℕ) (s : Spec) (args : List Arg) : Option (List UInt8 × List Arg) :=
  (getuint T.xlen s.lflag args).bind fun a => (printnum a.1 base s.width s.padc).map fun out => (out, a.2)

/-- The conversions that take an argument. -/
def convert (T : Target) (c : Char) (s : Spec) (args : List Arg) : Option (List UInt8 × List Arg) :=
  match c, args with
  | 'c', .word v :: args => some ([UInt8.ofBitVec (v.setWidth 8)], args)
  | 's', .text p :: args => (printText s (p.getD null)).map fun out => (out, args)
  | 'd', args => (getint T.xlen s.lflag args).bind fun a => (printSigned s a.1).map fun out => (out, a.2)
  | 'f', .dword v :: args => some (T.fixed v s.width s.prec s.padc, args)
  | 'u', args => printUnsigned T 10 s args
  | 'o', args => printUnsigned T 8 s args
  | 'p', args =>
    (printUnsigned T 16 { s with lflag := 1 } args).map fun r => ('0'.toUInt8 :: 'x'.toUInt8 :: r.1, r.2)
  | 'x', args => printUnsigned T 16 s args
  | _, _ => none

/-- One pass through the `switch`. -/
def dispatch (T : Target) (c : UInt8) (s : Spec) (args : List Arg) : Option Next :=
  match Char.ofUInt8 c with
  | '-' => some (.again none { s with padc := '-'.toUInt8 } args)
  | '0' => some (.again none { s with padc := '0'.toUInt8 } args)
  | '1' | '2' | '3' | '4' | '5' | '6' | '7' | '8' | '9' => some (.again (some (c.toNat - '0'.toNat : ℤ)) s args)
  | '*' => (vaSigned 32 args).map fun a => .again none (s.field a.1) a.2
  | '.' => some (.again none { s with width := if s.width < 0 then 0 else s.width } args)
  | '#' => some (.again none s args)
  | 'z' => some (.again none { s with lflag := if T.xlen.bits = 64 then 2 else 1 } args)
  | 'l' => some (.again none { s with lflag := s.lflag + 1 } args)
  | '%' => some (.done ['%'.toUInt8] args)
  | 'c' | 's' | 'd' | 'f' | 'u' | 'o' | 'p' | 'x' =>
    (convert T (Char.ofUInt8 c) s args).map fun r => .done r.1 r.2
  | _ => some (.literal args)

/-- `prec = (prec * 10) + c - '0'` -/
def addDigit (prec : ℤ) (c : UInt8) : Option ℤ :=
  (int? (prec * 10)).bind fun v => (int? (v + c.toNat)).bind fun v => int? (v - '0'.toNat)

def isDigit (c : UInt8) : Bool := '0'.toUInt8 ≤ c && c ≤ '9'.toUInt8

/-- How a conversion ends: with the rest of the format and of the arguments, or as a literal percent sign, with the
rest of the arguments. -/
inductive Outcome
  | done (out fmt : List UInt8) (args : List Arg)
  | literal (args : List Arg)
deriving DecidableEq

/-- From the percent sign on; `number` is the one that the digit loop has read so far.  The end of the list is the
terminating zero. -/
def scan (T : Target) : List UInt8 → Option ℤ → Spec → List Arg → Option Outcome
  | [], _, _, args => some (.literal args)
  | c :: fmt, some v, s, args =>
    if isDigit c then (addDigit v c).bind fun v => scan T fmt (some v) s args
    else
      match dispatch T c (s.field v) args with
      | none => none
      | some (.again number s args) => scan T fmt number s args
      | some (.done out args) => some (.done out fmt args)
      | some (.literal args) => some (.literal args)
  | c :: fmt, none, s, args =>
    match dispatch T c s args with
    | none => none
    | some (.again number s args) => scan T fmt number s args
    | some (.done out args) => some (.done out fmt args)
    | some (.literal args) => some (.literal args)

/-- The loop, with a bound on its rounds: what was put, and the arguments that are left. -/
def loop (T : Target) : ℕ → List UInt8 → List Arg → Option (List UInt8 × List Arg)
  | 0, _, _ => none
  | _ + 1, [], args => some ([], args)
  | n + 1, c :: fmt, args =>
    if c = 0 then some ([], args)
    else if c ≠ '%'.toUInt8 then (loop T n fmt args).map fun r => (c :: r.1, r.2)
    else
      match scan T fmt none .init args with
      | none => none
      | some (.done out fmt args) => (loop T n fmt args).map fun r => (out ++ r.1, r.2)
      | some (.literal args) => (loop T n fmt args).map fun r => ('%'.toUInt8 :: r.1, r.2)

/-- `__vxprintf`: each round takes at least one character of the format. -/
def vxprintf (T : Target) (fmt : List UInt8) (args : List Arg) : Option (List UInt8 × List Arg) :=
  loop T (fmt.length + 1) fmt args

end Soceteer.Stdio.Printf
