import Mathlib.Data.List.Basic
import Soceteer.Lib.Jvm

/-!
# Soceteer.Lib.Text — JVM strings and their conversion to integers

Text is a list of characters.

* `linesIterator`, `trim`, `splitSpaces`, `splitAt`: the string operations, with Java's rule on empty pieces.
* `numeral?`: a signed decimal numeral, digits as `Character.digit` reads them.
* `bigInt`, `parseInt`, `parseLong`: `new BigInteger(s)`, `Integer.parseInt(s)` and `Long.parseLong(s)` with what
  they throw.
-/

namespace Soceteer.Jvm

/-- `linesIterator` with the current line in reverse. -/
def linesFrom (cur : List Char) : List Char → List (List Char)
  | [] => if cur.isEmpty then [] else [cur.reverse]
  | '\r' :: '\n' :: cs => cur.reverse :: linesFrom [] cs
  | c :: cs => if c = '\r' ∨ c = '\n' then cur.reverse :: linesFrom [] cs else linesFrom (c :: cur) cs

/-- `linesIterator`: a line ends at LF, CR or CR LF, or with the text. -/
def linesIterator (cs : List Char) : List (List Char) := linesFrom [] cs

/-- `trim`: both ends without the characters up to the blank. -/
def trim (cs : List Char) : List Char :=
  ((cs.dropWhile (· ≤ ' ')).reverse.dropWhile (· ≤ ' ')).reverse

/-- `split` drops empty pieces at the end. -/
def dropTrailingEmpty (pieces : List (List Char)) : List (List Char) :=
  (pieces.reverse.dropWhile List.isEmpty).reverse

/-- The regular expression class `\s`. -/
def isSpace (c : Char) : Bool := c = ' ' || c = '\t' || c = '\n' || c = '\x0b' || c = '\x0c' || c = '\r'

/-- `split("\\s+")`. -/
def splitSpaces (cs : List Char) : List (List Char) :=
  if cs.any isSpace then
    match cs.splitOnP isSpace with
    | [] => []
    -- an empty piece before the first run stays, those within a run are not pieces
    | p :: ps => dropTrailingEmpty (p :: ps.filter (!·.isEmpty))
  else [cs]

/-- `split` at one character. -/
def splitAt (sep : Char) (cs : List Char) : List (List Char) :=
  if cs.any (· = sep) then dropTrailingEmpty (cs.splitOnP (· = sep)) else [cs]

/-- The zeros of the decimal digits that are single UTF-16 units. -/
def digitZeros : List ℕ :=
  [0x0030, 0x0660, 0x06F0, 0x07C0, 0x0966, 0x09E6, 0x0A66, 0x0AE6, 0x0B66, 0x0BE6, 0x0C66, 0x0CE6, 0x0D66, 0x0DE6,
    0x0E50, 0x0ED0, 0x0F20, 0x1040, 0x1090, 0x17E0, 0x1810, 0x1946, 0x19D0, 0x1A80, 0x1A90, 0x1B50, 0x1BB0, 0x1C40,
    0x1C50, 0xA620, 0xA8D0, 0xA900, 0xA9D0, 0xA9F0, 0xAA50, 0xABF0, 0xFF10]

/-- `Character.digit(c, 10)`. -/
def digit? (c : Char) : Option ℕ :=
  (digitZeros.find? fun z => z ≤ c.toNat && c.toNat ≤ z + 9).map (c.toNat - ·)

/-- A nonempty sequence of digits. -/
def magnitude? (cs : List Char) : Option ℕ :=
  if cs.isEmpty then none else cs.foldlM (fun acc c => (digit? c).map (acc * 10 + ·)) 0

/-- A decimal numeral with at most one sign, in front. -/
def numeral? : List Char → Option ℤ
  | '-' :: cs => (magnitude? cs).map fun n => -(n : ℤ)
  | '+' :: cs => (magnitude? cs).map Int.ofNat
  | cs => (magnitude? cs).map Int.ofNat

/-- What the conversions and `Int` division throw. -/
inductive RuntimeException
  | numberFormat (input : List Char)
  | arithmetic (message : String)
deriving DecidableEq

/-- The numeral of a `BigInteger`, which has at most `2 ^ 31 - 1` bits. -/
def bigNumeral? (cs : List Char) : Option ℤ := (numeral? cs).filter fun x => bitLength x ≤ 2147483647

/-- `new BigInteger(s)`. -/
def bigInt (cs : List Char) : Except RuntimeException ℤ :=
  match numeral? cs with
  | none => .error (.numberFormat cs)
  | some x => if bitLength x ≤ 2147483647 then .ok x
      else .error (.arithmetic "BigInteger would overflow supported range")

/-- The numeral of an `Int`. -/
def intNumeral? (cs : List Char) : Option ℤ := (numeral? cs).filter fun x => -2147483648 ≤ x ∧ x ≤ 2147483647

/-- `Integer.parseInt(s)`. -/
def parseInt (cs : List Char) : Except RuntimeException ℤ :=
  match intNumeral? cs with
  | none => .error (.numberFormat cs)
  | some x => .ok x

/-- `java.lang.Long.parseLong(s)`. -/
def parseLong (cs : List Char) : Except RuntimeException Int64 :=
  match (numeral? cs).filter fun x => -9223372036854775808 ≤ x ∧ x ≤ 9223372036854775807 with
  | none => .error (.numberFormat cs)
  | some x => .ok (Int64.ofInt x)

/-- `x % y` on `Int`. -/
def rem32 (x y : ℤ) : Except RuntimeException ℤ :=
  if y = 0 then .error (.arithmetic "/ by zero") else .ok (x.tmod y)

theorem bigInt_ok_iff {cs : List Char} {x : ℤ} : bigInt cs = .ok x ↔ bigNumeral? cs = some x := by
  unfold bigInt bigNumeral?
  cases numeral? cs with
  | none => simp
  | some y => by_cases h : bitLength y ≤ 2147483647 <;> simp [h, Option.filter]

theorem parseInt_ok_iff {cs : List Char} {x : ℤ} : parseInt cs = .ok x ↔ intNumeral? cs = some x := by
  unfold parseInt
  cases intNumeral? cs <;> simp

theorem intNumeral?_bounds {cs : List Char} {x : ℤ} (h : intNumeral? cs = some x) :
    -2147483648 ≤ x ∧ x ≤ 2147483647 := by
  obtain ⟨-, hx⟩ := Option.filter_eq_some_iff.mp h
  simpa using hx

end Soceteer.Jvm
