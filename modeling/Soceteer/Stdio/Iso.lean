import Soceteer.Stdio.Vxprintf

/-!
# Soceteer.Stdio.Iso — formats, and what ISO C prescribes for them

* `Item`, `Directive`: a format of ordinary characters, `%%` and conversions; `Item.chars` is its text.
* `Directive.iso`: the characters that ISO C prescribes, and the arguments that are left.  It is `none` where ISO C
  prescribes nothing: for an argument of another type, for a flag, a precision or a length modifier that has no
  meaning for the conversion, for an array that ends too early.
* `run`: a format item by item.
-/

namespace Soceteer.Stdio.Printf

open Lib

/-! ## Formats -/

inductive Flag
  | minus
  | zero
deriving DecidableEq

def Flag.char : Flag → UInt8
  | minus => '-'.toUInt8
  | zero => '0'.toUInt8

/-- A number without leading zeros; its first digit is `lead + 1`. -/
structure Numeral where
  lead : Fin 9
  rest : List (Fin 10)
deriving DecidableEq

namespace Numeral

def value (n : Numeral) : ℕ := n.rest.foldl (fun v d => v * 10 + d.val) (n.lead.val + 1)

def digit (d : ℕ) : UInt8 := UInt8.ofNat ('0'.toNat + d)

def chars (n : Numeral) : List UInt8 := digit (n.lead.val + 1) :: n.rest.map fun d => digit d.val

end Numeral

inductive Width
  | numeral (n : Numeral)
  | star
deriving DecidableEq

def Width.chars : Width → List UInt8
  | numeral n => n.chars
  | star => ['*'.toUInt8]

/-- What follows the period: digits, with the leading zeros apart, or a star. -/
inductive Prec
  | digits (zeros : ℕ) (n : Option Numeral)
  | star
deriving DecidableEq

def Prec.chars : Prec → List UInt8
  | digits zeros n => List.replicate zeros '0'.toUInt8 ++ (n.map Numeral.chars).getD []
  | star => ['*'.toUInt8]

/-- The length modifiers: none, `l`, `ll` and `z`. -/
inductive Len
  | int
  | long
  | longLong
  | size
deriving DecidableEq

def Len.chars : Len → List UInt8
  | int => []
  | long => ['l'.toUInt8]
  | longLong => ['l'.toUInt8, 'l'.toUInt8]
  | size => ['z'.toUInt8]

inductive Conv
  | d
  | u
  | o
  | x
  | c
  | s
deriving DecidableEq

def Conv.char : Conv → Char
  | d => 'd'
  | u => 'u'
  | o => 'o'
  | x => 'x'
  | c => 'c'
  | s => 's'

structure Directive where
  flags : List Flag
  width : Option Width
  prec : Option Prec
  len : Len
  conv : Conv
deriving DecidableEq

/-- The text of a conversion behind its percent sign. -/
def Directive.chars (d : Directive) : List UInt8 :=
  d.flags.map Flag.char ++ ((d.width.map Width.chars).getD [] ++
    ((d.prec.map fun p => '.'.toUInt8 :: p.chars).getD [] ++ (d.len.chars ++ [d.conv.char.toUInt8])))

inductive Item
  | char (c : UInt8) (ordinary : c ≠ 0 ∧ c ≠ '%'.toUInt8)
  | percent
  | conv (d : Directive)

def Item.chars : Item → List UInt8
  | char c _ => [c]
  | percent => ['%'.toUInt8, '%'.toUInt8]
  | conv d => '%'.toUInt8 :: d.chars

/-- The text of a format. -/
def text (items : List Item) : List UInt8 := items.flatMap Item.chars

/-! ## Fields -/

/-- The width and the precision as given, in the format or as arguments. -/
structure Given where
  width : Option ℤ
  prec : Option ℤ

def Width.given : Option Width → List Arg → Option (Option ℤ × List Arg)
  | none, args => some (none, args)
  | some (.numeral n), args => some (some n.value, args)
  | some .star, args => (vaSigned 32 args).map fun a => (some a.1, a.2)

def Prec.given : Option Prec → List Arg → Option (Option ℤ × List Arg)
  | none, args => some (none, args)
  | some (.digits _ n), args => some (some ((n.map Numeral.value).getD 0), args)
  | some .star, args => (vaSigned 32 args).map fun a => (some a.1, a.2)

def Directive.given (d : Directive) (args : List Arg) : Option (Given × List Arg) :=
  (Width.given d.width args).bind fun w => (Prec.given d.prec w.2).map fun p => (⟨w.1, p.1⟩, p.2)

/-- A negative width is a `-` flag and a positive width, a negative precision is none. -/
structure Field where
  left : Bool
  zero : Bool
  width : ℕ
  prec : Option ℕ
deriving DecidableEq

def Directive.field (d : Directive) (g : Given) : Field where
  left := .minus ∈ d.flags ∨ g.width.getD 0 < 0
  zero := .zero ∈ d.flags
  width := (g.width.getD 0).natAbs
  prec := g.prec.bind fun p => if p < 0 then none else some p.toNat

def spaces (n : ℕ) : List UInt8 := List.replicate n ' '.toUInt8

def zeros (n : ℕ) : List UInt8 := List.replicate n '0'.toUInt8

/-- Spaces before the sign, zeros behind it, spaces behind the digits. -/
structure Layout where
  lead : ℕ
  zeros : ℕ
  trail : ℕ
deriving DecidableEq

/-- The layout of a number of `n` digits; the precision is the least number of digits, the width counts the
sign. -/
def Field.layout (f : Field) (neg : Bool) (n : ℕ) : Layout :=
  let least := f.prec.getD 1 - n
  let total := neg.toNat + least + n
  if f.left then ⟨0, least, f.width - total⟩
  else if f.zero ∧ f.prec = none then ⟨0, least + (f.width - total), 0⟩
  else ⟨f.width - total, least, 0⟩

def sign (neg : Bool) : List UInt8 := if neg then ['-'.toUInt8] else []

/-- A number; zero with the precision zero has no digits. -/
def isoNumber (f : Field) (neg : Bool) (num base : ℕ) : List UInt8 :=
  let digits := if f.prec = some 0 ∧ num = 0 then [] else (Nat.toDigits base num).map Char.toUInt8
  let l := f.layout neg digits.length
  spaces l.lead ++ sign neg ++ zeros l.zeros ++ digits ++ spaces l.trail

/-- A string or a character. -/
def isoText (f : Field) (t : List UInt8) : List UInt8 :=
  if f.left then t ++ spaces (f.width - t.length) else spaces (f.width - t.length) ++ t

/-- The characters of an array up to a zero or to the precision. -/
def narrowText : List UInt8 → Option ℕ → Option (List UInt8)
  | _, some 0 => some []
  | [], _ => none
  | b :: bs, prec => if b = 0 then some [] else (narrowText bs (prec.map (· - 1))).map (b :: ·)

/-- The same for an array of `wchar_t`, in the locale of a program that never sets one: a wide character below 256
is one byte, any other one is an encoding error. -/
def wideText : List UInt8 → Option ℕ → Option (List UInt8)
  | _, some 0 => some []
  | b :: b₁ :: b₂ :: b₃ :: bs, prec =>
    if b₁ = 0 ∧ b₂ = 0 ∧ b₃ = 0 then
      if b = 0 then some [] else (wideText bs (prec.map (· - 1))).map (b :: ·)
    else none
  | _, _ => none

/-! ## Conversions -/

/-- Bits of an integer argument. -/
def Len.bits (x : Xlen) : Len → ℕ
  | int => 32
  | long => x.bits
  | longLong => 64
  | size => x.bits

/-- A conversion of an unsigned number. -/
def isoUnsigned (x : Xlen) (d : Directive) (f : Field) (base : ℕ) (args : List Arg) :
    Option (List UInt8 × List Arg) :=
  (vaUnsigned (d.len.bits x) args).map fun a => (isoNumber f false a.1 base, a.2)

/-- Neither the flag `0` nor `ll` and `z` have a meaning for `c` and `s`. -/
def Directive.Textual (d : Directive) : Prop := .zero ∉ d.flags ∧ (d.len = .int ∨ d.len = .long)

instance (d : Directive) : Decidable d.Textual := inferInstanceAs (Decidable (_ ∧ _))

/-- `c`, and `lc` for a wide character of one byte; a precision has no meaning. -/
def isoChar (d : Directive) (f : Field) : List Arg → Option (List UInt8 × List Arg)
  | .word v :: args =>
    if d.Textual ∧ d.prec = none ∧ (d.len = .long → v.toNat < 256) then
      some (isoText f [UInt8.ofBitVec (v.setWidth 8)], args)
    else none
  | _ => none

/-- `s` and `ls` -/
def isoString (d : Directive) (f : Field) : List Arg → Option (List UInt8 × List Arg)
  | .text (some p) :: args =>
    if d.Textual then
      (if d.len = .long then wideText p f.prec else narrowText p f.prec).map fun t => (isoText f t, args)
    else none
  | _ => none

def Directive.iso (x : Xlen) (d : Directive) (args : List Arg) : Option (List UInt8 × List Arg) :=
  (d.given args).bind fun ga =>
    let f := d.field ga.1
    match d.conv with
    | .d => (vaSigned (d.len.bits x) ga.2).map fun a => (isoNumber f (a.1 < 0) a.1.natAbs 10, a.2)
    | .u => isoUnsigned x d f 10 ga.2
    | .o => isoUnsigned x d f 8 ga.2
    | .x => isoUnsigned x d f 16 ga.2
    | .c => isoChar d f ga.2
    | .s => isoString d f ga.2

def Item.iso (x : Xlen) : Item → List Arg → Option (List UInt8 × List Arg)
  | char c _, args => some ([c], args)
  | percent, args => some (['%'.toUInt8], args)
  | conv d, args => d.iso x args

/-- A format, one item after the other. -/
def run (f : Item → List Arg → Option (List UInt8 × List Arg)) :
    List Item → List Arg → Option (List UInt8 × List Arg)
  | [], args => some ([], args)
  | i :: items, args => (f i args).bind fun r => (run f items r.2).map fun q => (r.1 ++ q.1, q.2)

/-- What ISO C prescribes for a format. -/
def iso (x : Xlen) (items : List Item) (args : List Arg) : Option (List UInt8 × List Arg) :=
  run (Item.iso x) items args

end Soceteer.Stdio.Printf
