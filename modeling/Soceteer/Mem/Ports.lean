import Mathlib.Data.List.Sort
import Mathlib.Tactic.Linarith
import Soceteer.Lib.Text
import Soceteer.Mem.Geometry

/-!
# Soceteer.Mem.Ports — DDR4 ports, their parts and their capacities

* `Bytes`: byte counts, a `Long` each; sums wrap (`sum_toInt`).
* `DDR4PortParams`: one DDR4 port of a board, with the part and the capacity that the launcher resolves onto it.
* `capacityOf`, `vivadoPartName`: the capacity and the catalogue name of a memory part, read off its name.
* `limitToMaxCap`: the ports cut down to a total capacity, largest first.
* `FillsEvenly`: when all ports that are kept have the largest capacity (`fillsEvenly_of_limitGo`,
  `limitGo_of_fillsEvenly`).
-/

namespace Soceteer.Mem

open Jvm

/-! ## Byte counts -/

/-- `SOCTBytes.Bytes`. -/
structure Bytes where
  value : Int64
deriving DecidableEq

namespace Bytes

instance : LE Bytes := ⟨fun a b => a.value ≤ b.value⟩

instance : LT Bytes := ⟨fun a b => a.value < b.value⟩

instance : DecidableLE Bytes := fun a b => inferInstanceAs (Decidable (a.value ≤ b.value))

instance : DecidableLT Bytes := fun a b => inferInstanceAs (Decidable (a.value < b.value))

instance : Add Bytes := ⟨fun a b => ⟨a.value + b.value⟩⟩

instance : Sub Bytes := ⟨fun a b => ⟨a.value - b.value⟩⟩

/-- The number of bytes. -/
def toInt (b : Bytes) : ℤ := b.value.toInt

/-- `Seq.sum` with the `Integral` of byte counts. -/
def sum (bs : List Bytes) : Bytes := bs.foldl (· + ·) ⟨0⟩

theorem toInt_inj {a b : Bytes} : a.toInt = b.toInt ↔ a = b := by
  rw [toInt, toInt, Int64.toInt_inj, Bytes.mk.injEq]

theorem le_iff {a b : Bytes} : a ≤ b ↔ a.toInt ≤ b.toInt := Int64.le_iff_toInt_le

theorem le_toInt (b : Bytes) : -2 ^ 63 ≤ b.toInt := b.value.le_toInt

theorem toInt_lt (b : Bytes) : b.toInt < 2 ^ 63 := b.value.toInt_lt

@[simp] theorem zero_toInt : toInt ⟨0⟩ = 0 := Int64.toInt_zero

theorem sub_toInt (a b : Bytes) : (a - b).toInt = (a.toInt - b.toInt).bmod (2 ^ 64) := Int64.toInt_sub ..

theorem sum_toInt (bs : List Bytes) : (sum bs).toInt = (bs.map toInt).sum.bmod (2 ^ 64) := by
  have hfold : ∀ (bs : List Bytes) (acc : Bytes),
      (bs.foldl (· + ·) acc).toInt = (acc.toInt + (bs.map toInt).sum).bmod (2 ^ 64) := by
    intro bs
    induction bs with
    | nil =>
      intro acc
      have hlo := acc.le_toInt
      have hhi := acc.toInt_lt
      rw [List.map_nil, List.sum_nil, add_zero, Int.bmod_eq_of_le (by omega) (by omega)]
      rfl
    | cons b bs ih =>
      intro acc
      have hadd : (acc + b).toInt = (acc.toInt + b.toInt).bmod (2 ^ 64) := Int64.toInt_add ..
      rw [List.foldl_cons, ih, hadd, Int.bmod_add_bmod, List.map_cons, List.sum_cons, add_assoc]
  rw [sum, hfold, zero_toInt, zero_add]

/-- The sum is exact iff it is a `Long`. -/
theorem sum_toInt_eq_iff {bs : List Bytes} :
    (sum bs).toInt = (bs.map toInt).sum ↔ -2 ^ 63 ≤ (bs.map toInt).sum ∧ (bs.map toInt).sum < 2 ^ 63 := by
  constructor
  · intro h
    rw [← h]
    exact ⟨le_toInt _, toInt_lt _⟩
  · intro h
    rw [sum_toInt, Int.bmod_eq_of_le (by omega) (by omega)]

end Bytes

def MiB : Int64 := (1 : Int64) <<< 20

def GiB : Int64 := (1 : Int64) <<< 30

/-- `SOCTUtils.MAX_MEM_SIZE_32_BIT`. -/
def MAX_MEM_SIZE_32_BIT : Bytes := ⟨2 * GiB⟩

theorem MAX_MEM_SIZE_32_BIT_toInt : MAX_MEM_SIZE_32_BIT.toInt = 2147483648 := by decide

/-! ## Exceptions and the locale -/

/-- What the functions below throw. -/
inductive Failure
  | vivadoDesign (e : VivadoDesignException)
  | runtime (e : RuntimeException)
  | noSuchElement (message : String)
deriving DecidableEq

/-- What the default locale of the JVM decides: `toUpperCase`, and the formatted `Double` of `Bytes.toString`. -/
structure Locale where
  toUpperCase : List Char → List Char
  humanReadable : Bytes → String

/-! ## Ports -/

/-- A pin of a DDR4 interface. -/
structure DDR4Pin where
  signal : String
  index : Option ℤ
  loc : String
  ioStandard : Option String := none
  drive : Option ℤ := none
deriving DecidableEq

/-- `DDR4PortParams`: every port of a board is an object of its own, so an update in place is the updated value. -/
structure DDR4PortParams where
  portName : String
  defaultMemoryPart : Option (List Char) := none
  capOpt : Option Bytes := none
  memoryPartOpt : Option (List Char) := none
  ddr4TimePeriodPs : Option ℤ := none
  ddr4InputClockPeriodPs : Option ℤ := none
  ddr4PinMap : Option (List DDR4Pin) := none
  customInterface : Bool := false
deriving DecidableEq

namespace DDR4PortParams

variable (port : DDR4PortParams)

def getCap : Except Failure Bytes :=
  match port.capOpt with
  | some cap => .ok cap
  | none => .error (.vivadoDesign ⟨"DDR4 port " ++ port.portName ++ " capacity is not defined"⟩)

def withCap (cap : Bytes) : DDR4PortParams := { port with capOpt := some cap }

def withMemoryPart (part : List Char) : DDR4PortParams := { port with memoryPartOpt := some part }

def supportsCustomInterface : Bool :=
  port.ddr4PinMap.isSome && port.ddr4TimePeriodPs.isSome && port.ddr4InputClockPeriodPs.isSome

def withCustomInterface : Except Failure DDR4PortParams :=
  if !port.supportsCustomInterface then
    .error (.vivadoDesign ⟨"DDR4 port " ++ port.portName ++
      " cannot use a custom interface: the board definition " ++
      "must declare ddr4PinMap, ddr4TimePeriodPs and ddr4InputClockPeriodPs."⟩)
  else .ok { port with customInterface := true }

variable {port}

@[simp] theorem withCap_capOpt (cap : Bytes) : (port.withCap cap).capOpt = some cap := rfl

theorem getCap_ok_iff {cap : Bytes} : port.getCap = .ok cap ↔ port.capOpt = some cap := by
  unfold getCap
  cases port.capOpt <;> simp

end DDR4PortParams

theorem mapM_getCap_ok_iff {mems : List DDR4PortParams} {caps : List Bytes} :
    mems.mapM DDR4PortParams.getCap = .ok caps ↔ mems.map (·.capOpt) = caps.map some := by
  induction mems generalizing caps with
  | nil => cases caps <;> simp [pure, Except.pure]
  | cons mem mems ih =>
    rw [List.mapM_cons, bind_ok_iff]
    constructor
    · rintro ⟨cap, hcap, hbind⟩
      obtain ⟨rest, hrest, htail⟩ := bind_ok_iff.mp hbind
      cases htail
      rw [List.map_cons, List.map_cons, DDR4PortParams.getCap_ok_iff.mp hcap, ih.mp hrest]
    · intro h
      cases caps with
      | nil => simp at h
      | cons cap caps =>
        rw [List.map_cons, List.map_cons, List.cons.injEq] at h
        exact ⟨cap, DDR4PortParams.getCap_ok_iff.mpr h.1, bind_ok_iff.mpr ⟨caps, ih.mpr h.2, rfl⟩⟩

/-! ## Memory parts -/

/-- `.` in a regular expression: no line terminator. -/
def isDot (c : Char) : Bool := c ≠ '\n' && c ≠ '\r' && c ≠ '\u0085' && c ≠ '\u2028' && c ≠ '\u2029'

/-- The rest of `cs` after `text`, in any case of the ASCII letters (`(?i)`). -/
def afterText (text : String) (cs : List Char) : Option (List Char) :=
  if (cs.take text.length).map Char.toUpper = text.toList then some (cs.drop text.length) else none

/-- `(?:64|72).*` -/
def isWidth (cs : List Char) : Bool := (cs.take 2 = ['6', '4'] || cs.take 2 = ['7', '2']) && (cs.drop 2).all isDot

/-- The groups of `MicronATF`, of which one is not null. -/
inductive Depth
  | gLoc (digits : List Char)
  | mLoc (digits : List Char)

/-- `(?:(\d+)G|(\d{3}))(?:64|72).*`, the first alternative that leads to a match. -/
def matchDepth (cs : List Char) : Option Depth :=
  let digits := cs.takeWhile Char.isDigit
  -- `\d+` takes all digits: a letter follows
  let viaG := (afterText "G" (cs.dropWhile Char.isDigit)).filter isWidth
  if digits ≠ [] ∧ viaG.isSome then some (.gLoc digits)
  else if 3 ≤ digits.length ∧ isWidth (cs.drop 3) then some (.mLoc (cs.take 3))
  else none

/-- `MicronATF`, `(?i)MTA\d+ATF(?:(\d+)G|(\d{3}))(?:64|72).*` on the whole text. -/
def micronATF (cs : List Char) : Option Depth := do
  let cs ← afterText "MTA" cs
  if cs.takeWhile Char.isDigit = [] then none
  else matchDepth (← afterText "ATF" (cs.dropWhile Char.isDigit))

/-- `SpeedGrade`, `(\d[A-Z]\d).*` on the whole text. -/
def speedGrade : List Char → Option (List Char)
  | a :: b :: c :: cs => if a.isDigit ∧ b.isUpper ∧ c.isDigit ∧ cs.all isDot then some [a, b, c] else none
  | _ => none

/-- The registered base parts. -/
def registry : List (String × Bytes) :=
  [("MTA4ATF25664HZ", ⟨2 * GiB⟩), ("MTA4ATF51264HZ", ⟨4 * GiB⟩), ("MTA8ATF1G64HZ", ⟨8 * GiB⟩),
    ("MTA8ATF2G64HZ", ⟨16 * GiB⟩)]

/-- `registry.keys.toSeq.sorted`. -/
def knownParts : List String := ["MTA4ATF25664HZ", "MTA4ATF51264HZ", "MTA8ATF1G64HZ", "MTA8ATF2G64HZ"]

section Parts

variable (locale : Locale)

def basePart (part : List Char) : List Char := (locale.toUpperCase (trim part)).takeWhile (· ≠ '-')

def vivadoPartName (part : List Char) : List Char :=
  let trimmed := locale.toUpperCase (trim part)
  -- `split("-", 2)` has two pieces iff there is a dash
  match trimmed.dropWhile (· ≠ '-') with
  | [] => trimmed
  | _ :: suffix =>
    match speedGrade suffix with
    | some grade => trimmed.takeWhile (· ≠ '-') ++ '-' :: grade
    | none => trimmed

def capacityOf (part : List Char) : Except Failure (Option Bytes) :=
  match registry.lookup (String.ofList (basePart locale part)) with
  | some cap => .ok (some cap)
  | none =>
    match micronATF (basePart locale part) with
    | some (.gLoc digits) => ((parseLong digits).mapError .runtime).map fun n => some ⟨n * 8 * GiB⟩
    | some (.mLoc digits) => ((parseLong digits).mapError .runtime).map fun n => some ⟨n * 8 * MiB⟩
    | none => .ok none

end Parts

/-! ## The 32-bit limit -/

/-- The ports with their capacities, the keys of `sortBy`. -/
def keyed (mems : List DDR4PortParams) : Except Failure (List (DDR4PortParams × Bytes)) :=
  mems.mapM fun mem => mem.getCap.map fun cap => (mem, cap)

/-- The `flatMap` over the sorted ports, threading `remaining`. -/
def limitGo : Bytes → List (DDR4PortParams × Bytes) → List DDR4PortParams
  | _, [] => []
  | remaining, (mem, cap) :: mems =>
    if remaining ≤ ⟨0⟩ then limitGo remaining mems
    else
      let capped := if cap ≤ remaining then cap else remaining
      mem.withCap capped :: limitGo (remaining - capped) mems

/-- `sortBy(_.getCap.value)(Ordering.Long.reverse)`: descending, ports of one capacity stay in order. -/
def sortByCap (mems : List (DDR4PortParams × Bytes)) : List (DDR4PortParams × Bytes) :=
  mems.insertionSort fun a b => b.2 ≤ a.2

def limitToMaxCap (locale : Locale) (mems : List DDR4PortParams) (maxSize : Bytes) :
    Except Failure (List DDR4PortParams) :=
  if maxSize < ⟨0⟩ then
    .error (.vivadoDesign ⟨"maxSize must be non-negative, got " ++ locale.humanReadable maxSize⟩)
  else if maxSize = ⟨0⟩ then .ok []
  else (keyed mems).map fun ports => limitGo maxSize (sortByCap ports)

/-- Ports of capacity `c` alone use up `r` bytes, `n` of them: they are all the ports there are, or the rest of
the budget is zero after them (or, with a negative `c`, no longer a `Long`). -/
def FillsEvenly (r : ℤ) (caps : List ℤ) (c : ℤ) (n : ℕ) : Prop :=
  ((∀ x ∈ caps, x = c) ∧ n = caps.length ∧ n * c ≤ r) ∨ n ≤ caps.count c ∧ (n * c = r ∨ 2 ^ 63 ≤ r - n * c)

theorem FillsEvenly.perm {r c : ℤ} {caps caps' : List ℤ} {n : ℕ} (h : FillsEvenly r caps c n)
    (hperm : caps.Perm caps') : FillsEvenly r caps' c n := by
  rw [FillsEvenly, ← hperm.length_eq, ← hperm.count_eq]
  exact h.imp_left fun ⟨hall, hrest⟩ => ⟨fun x hx => hall x (hperm.mem_iff.mpr hx), hrest⟩

/-- One port more of the capacity that fills the budget. -/
theorem fillsEvenly_cons {r c : ℤ} {caps : List ℤ} {n : ℕ} :
    FillsEvenly r (c :: caps) c (n + 1) ↔ FillsEvenly (r - c) caps c n := by
  have hmul : ((n + 1 : ℕ) : ℤ) * c = n * c + c := by
    push_cast
    ring
  unfold FillsEvenly
  rw [hmul, List.count_cons_self, List.forall_mem_cons, List.length_cons, Nat.add_le_add_iff_right]
  refine or_congr (and_congr ⟨fun h => h.2, fun h => ⟨rfl, h⟩⟩ (and_congr ?_ ?_)) (and_congr_right fun _ => ?_)
  · omega
  · constructor <;> intro h <;> linarith
  · refine or_congr ?_ ?_
    · constructor <;> intro h <;> linarith
    · constructor <;> intro h <;> linarith

section Limit

variable {r c : Bytes} {mems : List (DDR4PortParams × Bytes)}

/-- The capacities that the sort goes by. -/
def keys (mems : List (DDR4PortParams × Bytes)) : List ℤ := mems.map (·.2.toInt)

theorem limitGo_nonpos (hr : r.toInt ≤ 0) : limitGo r mems = [] := by
  have hle : r ≤ ⟨0⟩ := Bytes.le_iff.mpr hr
  induction mems with
  | nil => rfl
  | cons _ mems ih => rw [limitGo, if_pos hle, ih]

theorem limitGo_cons (hr : 0 < r.toInt) (mem : DDR4PortParams) (cap : Bytes) :
    limitGo r ((mem, cap) :: mems) =
      mem.withCap (if cap ≤ r then cap else r) :: limitGo (r - if cap ≤ r then cap else r) mems := by
  rw [limitGo, if_neg (fun h => absurd (Bytes.le_iff.mp h) (by rw [Bytes.zero_toInt]; omega))]

/-- The rest of a positive budget after a port within it: exact, or wrapped to a negative number. -/
theorem sub_toInt_cases (hr : 0 < r.toInt) (hc : c.toInt ≤ r.toInt) :
    ((r - c).toInt = r.toInt - c.toInt ∧ r.toInt - c.toInt < 2 ^ 63) ∨
      (r - c).toInt < 0 ∧ 2 ^ 63 ≤ r.toInt - c.toInt := by
  have hrlt := r.toInt_lt
  have hcle := c.le_toInt
  rcases lt_or_ge (r.toInt - c.toInt) (2 ^ 63) with h | h
  · refine .inl ⟨?_, h⟩
    rw [Bytes.sub_toInt, Int.bmod_eq_of_le (by omega) (by omega)]
  · refine .inr ⟨?_, h⟩
    rw [Bytes.sub_toInt, Int.bmod_def]
    omega

/-- If all kept ports have the largest capacity, they fill the budget evenly. -/
theorem fillsEvenly_of_limitGo {n : ℕ} (hr : 0 ≤ r.toInt) (hle : ∀ p ∈ mems, p.2.toInt ≤ c.toInt)
    (h : (limitGo r mems).map (·.capOpt) = List.replicate n (some c)) :
    FillsEvenly r.toInt (keys mems) c.toInt n := by
  induction mems generalizing r n with
  | nil =>
    obtain rfl : n = 0 := by simpa [limitGo] using (congrArg List.length h).symm
    exact .inl (by simpa [keys] using hr)
  | cons p mems ih =>
    obtain ⟨mem, cap⟩ := p
    have hcap : cap.toInt ≤ c.toInt := hle _ List.mem_cons_self
    have htail : ∀ p ∈ mems, p.2.toInt ≤ c.toInt := fun p hp => hle p (List.mem_cons_of_mem _ hp)
    rcases hr.eq_or_lt with h0 | hpos
    · rw [limitGo_nonpos (by omega)] at h
      obtain rfl : n = 0 := by simpa using (congrArg List.length h).symm
      exact .inr ⟨Nat.zero_le _, .inl (by simpa using h0)⟩
    · rw [limitGo_cons hpos, List.map_cons] at h
      cases n with
      | zero => simp at h
      | succ n =>
        rw [List.replicate_succ, List.cons.injEq, DDR4PortParams.withCap_capOpt, Option.some.injEq] at h
        obtain ⟨hhead, hrest⟩ := h
        rw [hhead] at hrest
        -- a port that is cut would be cut to less than its capacity, which is at most `c`
        have hfits : cap ≤ r := by
          by_contra hgt
          rw [if_neg hgt] at hhead
          rw [Bytes.le_iff, hhead] at hgt
          exact hgt hcap
        rw [if_pos hfits] at hhead
        subst hhead
        have hr' := Bytes.le_iff.mp hfits
        refine fillsEvenly_cons.mpr ?_
        rcases sub_toInt_cases hpos hr' with ⟨hsub, -⟩ | ⟨hneg, hwrap⟩
        · rw [← hsub]
          exact ih (by omega) htail hrest
        · rw [limitGo_nonpos hneg.le] at hrest
          obtain rfl : n = 0 := by simpa using (congrArg List.length hrest).symm
          exact .inr ⟨Nat.zero_le _, .inr (by simpa using hwrap)⟩

/-- If ports of the largest capacity fill the budget evenly, no others are kept. -/
theorem limitGo_of_fillsEvenly {n : ℕ} (hr : 0 ≤ r.toInt)
    (hsorted : mems.Pairwise fun a b => b.2 ≤ a.2) (hle : ∀ p ∈ mems, p.2.toInt ≤ c.toInt)
    (h : FillsEvenly r.toInt (keys mems) c.toInt n) :
    ∃ m ≤ n, (limitGo r mems).map (·.capOpt) = List.replicate m (some c) := by
  induction mems generalizing r n with
  | nil => exact ⟨0, Nat.zero_le n, rfl⟩
  | cons p mems ih =>
    obtain ⟨mem, cap⟩ := p
    rcases hr.eq_or_lt with h0 | hpos
    · exact ⟨0, Nat.zero_le n, by rw [limitGo_nonpos (by omega)]; rfl⟩
    have htail : ∀ p ∈ mems, p.2.toInt ≤ c.toInt := fun p hp => hle p (List.mem_cons_of_mem _ hp)
    -- the head has the largest capacity: `n` is not zero, and the list is sorted
    have hn : n ≠ 0 := by
      rintro rfl
      rcases h with ⟨-, hlen, -⟩ | ⟨-, hrem | hrem⟩
      · simp [keys] at hlen
      · simp at hrem
        omega
      · have := r.toInt_lt
        simp at hrem
        omega
    obtain ⟨n, rfl⟩ := Nat.exists_eq_succ_of_ne_zero hn
    have hhead : cap = c := by
      rcases h with ⟨hall, -⟩ | ⟨hcount, -⟩
      · exact Bytes.toInt_inj.mp (hall _ List.mem_cons_self)
      · have hmem : c.toInt ∈ keys ((mem, cap) :: mems) := List.count_pos_iff.mp (by omega)
        obtain ⟨q, hq, hqc⟩ := List.mem_map.mp hmem
        have hcle : cap.toInt ≤ c.toInt := hle _ List.mem_cons_self
        rcases List.mem_cons.mp hq with rfl | hq
        · exact Bytes.toInt_inj.mp hqc
        · have hqle : q.2.toInt ≤ cap.toInt := Bytes.le_iff.mp ((List.pairwise_cons.mp hsorted).1 q hq)
          exact Bytes.toInt_inj.mp (by omega)
    subst hhead
    have hfill : FillsEvenly (r.toInt - cap.toInt) (keys mems) cap.toInt n := fillsEvenly_cons.mp h
    have hrlt := r.toInt_lt
    have hfits : cap.toInt ≤ r.toInt := by
      by_contra hgt
      have hmul : (0 : ℤ) ≤ n * cap.toInt := mul_nonneg (by omega) (by omega)
      rcases hfill with ⟨-, -, hle⟩ | ⟨-, hrem | hrem⟩
      · linarith
      · linarith
      · linarith
    rw [limitGo_cons hpos, if_pos (Bytes.le_iff.mpr hfits), List.map_cons, DDR4PortParams.withCap_capOpt]
    rcases sub_toInt_cases hpos hfits with ⟨hsub, -⟩ | ⟨hneg, -⟩
    · rw [← hsub] at hfill
      obtain ⟨m, hm, heq⟩ := ih (by omega) (List.pairwise_cons.mp hsorted).2 htail hfill
      exact ⟨m + 1, by omega, by rw [heq, List.replicate_succ]⟩
    · exact ⟨1, by omega, by rw [limitGo_nonpos hneg.le]; rfl⟩

end Limit

end Soceteer.Mem
