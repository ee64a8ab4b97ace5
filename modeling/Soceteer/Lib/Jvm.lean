import Mathlib.Data.List.Dedup
import Mathlib.Data.List.Forall2
import Mathlib.Data.Int.Basic
import Mathlib.Tactic.IntervalCases

/-!
# Soceteer.Lib.Jvm — JVM integers and collection operations

The parts of the Java and Scala standard libraries that generators written in Scala lean on.

* `toInt32`, `shl32`: conversion to and left shift of a 32-bit `Int` (two's complement, the shift distance is
  taken modulo 32).
* `distinct`: `Seq.distinct`, the first occurrence of every element in order.
* `grouped n`: `Seq.grouped`, blocks of `n` elements; on a range they are ranges (`grouped_range`).
* `mapM_ok`, `mapM_error`: a traversal in `Except` succeeds element by element, or fails at the first that fails.
-/

namespace Soceteer.Jvm

/-- `BigInt.toInt`, and every `Int` operation after its exact result: the low 32 bits, signed. -/
def toInt32 (x : ℤ) : ℤ := x.bmod 4294967296

/-- `1 << n` on `Int`. -/
def shl32 (n : ℕ) : ℤ := toInt32 (2 ^ (n % 32))

theorem toInt32_def (x : ℤ) :
    toInt32 x = if x % 4294967296 < 2147483648 then x % 4294967296 else x % 4294967296 - 4294967296 := by
  rw [toInt32, Int.bmod_def]
  rfl

theorem toInt32_eq_self {x : ℤ} (h0 : 0 ≤ x) (h1 : x < 2 ^ 31) : toInt32 x = x := by
  rw [toInt32_def]
  omega

theorem toInt32_inj {x y : ℤ} (hx : 0 ≤ x) (hy : 0 ≤ y) (hx' : x < 2 ^ 32) (hy' : y < 2 ^ 32)
    (h : toInt32 x = toInt32 y) : x = y := by
  rw [toInt32_def, toInt32_def] at h
  omega

/-- `1 << n` never exceeds `2 ^ 30`: at distance 31 it is the most negative `Int`. -/
theorem shl32_le (n : ℕ) : shl32 n ≤ 2 ^ 30 := by
  have hlt : n % 32 < 32 := Nat.mod_lt _ (by omega)
  unfold shl32
  generalize n % 32 = r at hlt
  interval_cases r <;> decide

/-- `BigInteger.bitLength`: bits of the two's complement representation without the sign. -/
def bitLength (x : ℤ) : ℕ :=
  let y := if x < 0 then (-x - 1).toNat else x.toNat
  if y = 0 then 0 else y.log2 + 1

variable {α β ε : Type}

/-- `Seq.distinct`. -/
def distinct [DecidableEq α] (xs : List α) : List α := xs.reverse.dedup.reverse

@[simp] theorem mem_distinct [DecidableEq α] {xs : List α} {a : α} : a ∈ distinct xs ↔ a ∈ xs := by
  simp [distinct]

theorem nodup_distinct [DecidableEq α] (xs : List α) : (distinct xs).Nodup :=
  List.nodup_reverse.mpr (List.nodup_dedup _)

/-- One distinct element: all elements are equal to it. -/
theorem eq_of_distinct_length_one [DecidableEq α] {xs : List α} (h : (distinct xs).length = 1) {a b : α}
    (ha : a ∈ xs) (hb : b ∈ xs) : a = b := by
  obtain ⟨c, hc⟩ := List.length_eq_one_iff.mp h
  rw [← mem_distinct, hc, List.mem_singleton] at ha hb
  rw [ha, hb]

theorem distinct_eq_singleton [DecidableEq α] {xs : List α} {c : α} (hne : xs ≠ []) (h : ∀ a ∈ xs, a = c) :
    distinct xs = [c] := by
  have hall : ∀ a ∈ distinct xs, a = c := fun a ha => h a (mem_distinct.mp ha)
  have hnodup := nodup_distinct xs
  match hd : distinct xs with
  | [] =>
    obtain ⟨a, ha⟩ := List.exists_mem_of_ne_nil xs hne
    rw [← mem_distinct, hd] at ha
    exact nomatch ha
  | [a] => rw [hall a (hd ▸ List.mem_singleton_self a)]
  | a :: b :: l =>
    rw [hd] at hall hnodup
    have heq : a = b := (hall a List.mem_cons_self).trans (hall b (List.mem_cons_of_mem _ List.mem_cons_self)).symm
    exact absurd (heq ▸ List.mem_cons_self) (List.nodup_cons.mp hnodup).1

/-- As many distinct elements as elements: no repetition. -/
theorem nodup_of_distinct_length [DecidableEq α] {xs : List α} (h : (distinct xs).length = xs.length) :
    xs.Nodup := by
  have hd : xs.reverse.dedup = xs.reverse :=
    (List.dedup_sublist _).eq_of_length (by simpa [distinct] using h)
  exact List.nodup_reverse.mp (List.dedup_eq_self.mp hd)

/-- `Seq.grouped n`, at most `fuel` blocks. -/
def groupedAux (n : ℕ) : ℕ → List α → List (List α)
  | 0, _ => []
  | fuel + 1, xs => if xs.isEmpty then [] else xs.take n :: groupedAux n fuel (xs.drop n)

/-- `Seq.grouped n`: the list cut into blocks of `n`, the last one possibly shorter. -/
def grouped (n : ℕ) (xs : List α) : List (List α) := groupedAux n xs.length xs

theorem groupedAux_range' {n : ℕ} (hn : 0 < n) : ∀ (fuel start len : ℕ), len ≤ fuel →
    groupedAux n fuel (List.range' start len) =
      (List.range ((len + n - 1) / n)).map fun i => List.range' (start + n * i) (min n (len - n * i))
  | 0, start, len, h => by
    obtain rfl : len = 0 := by omega
    rw [Nat.div_eq_of_lt (by omega)]
    rfl
  | fuel + 1, start, len, h => by
    rw [groupedAux]
    rcases Nat.eq_zero_or_pos len with rfl | hpos
    · rw [Nat.div_eq_of_lt (by omega)]
      simp
    · have hcount : (len + n - 1) / n = (len - n + n - 1) / n + 1 := by
        rcases Nat.lt_or_ge len n with hlt | hge
        · rw [Nat.div_eq_of_lt (show len - n + n - 1 < n by omega),
            show len + n - 1 = len - 1 + n by omega, Nat.add_div_right _ hn, Nat.div_eq_of_lt (by omega)]
        · rw [show len + n - 1 = len - n + n - 1 + n by omega, Nat.add_div_right _ hn]
      have htake : (List.range' start len).take n = List.range' start (min n len) := by
        rcases Nat.le_total len n with hle | hge
        · rw [List.take_range'_of_length_le hle, Nat.min_eq_right hle]
        · rw [List.take_range'_of_length_ge hge, Nat.min_eq_left hge]
      rw [if_neg (by simp; omega), htake, List.drop_range', Nat.mul_one,
        groupedAux_range' hn fuel (start + n) (len - n) (by omega), hcount, List.range_succ_eq_map, List.map_cons,
        List.map_map]
      refine congrArg₂ List.cons (by simp) (List.map_congr_left fun i _ => ?_)
      simp only [Function.comp, Nat.succ_eq_add_one, Nat.mul_add, Nat.mul_one]
      congr 1 <;> omega

theorem grouped_range {n : ℕ} (hn : 0 < n) (len : ℕ) :
    grouped n (List.range len) =
      (List.range ((len + n - 1) / n)).map fun i => List.range' (n * i) (min n (len - n * i)) := by
  rw [grouped, List.length_range, List.range_eq_range', groupedAux_range' hn len 0 len le_rfl]
  simp

theorem mapM_ok {f : α → Except ε β} : ∀ {xs : List α} {ys : List β},
    xs.mapM f = .ok ys → List.Forall₂ (fun x y => f x = .ok y) xs ys
  | [], ys, h => by
    rw [List.mapM_nil] at h
    cases h
    exact .nil
  | x :: xs, ys, h => by
    rw [List.mapM_cons] at h
    cases hx : f x with
    | error e => rw [hx] at h; cases h
    | ok y =>
      cases hxs : xs.mapM f with
      | error e => rw [hx, hxs] at h; cases h
      | ok ys' =>
        rw [hx, hxs] at h
        cases h
        exact .cons hx (mapM_ok hxs)

theorem exists_of_mapM_ok {f : α → Except ε β} {xs : List α} {ys : List β} (h : xs.mapM f = .ok ys) :
    (∀ x ∈ xs, ∃ y ∈ ys, f x = .ok y) ∧ ∀ y ∈ ys, ∃ x ∈ xs, f x = .ok y := by
  have hall := mapM_ok h
  clear h
  induction hall with
  | nil => simp
  | cons hxy _ ih => exact ⟨by simpa using ⟨Or.inl hxy, fun x hx => Or.inr (ih.1 x hx)⟩,
      by simpa using ⟨Or.inl hxy, fun y hy => Or.inr (ih.2 y hy)⟩⟩

/-- Two views of the elements of a traversal that agree element by element. -/
theorem map_eq_of_mapM_ok {γ : Type} {f : α → Except ε β} {g : β → γ} {k : α → γ} {xs : List α} {ys : List β}
    (h : xs.mapM f = .ok ys) (hf : ∀ x y, f x = .ok y → g y = k x) : ys.map g = xs.map k := by
  have hall := mapM_ok h
  clear h
  induction hall with
  | nil => rfl
  | cons hxy _ ih => rw [List.map_cons, List.map_cons, ih, hf _ _ hxy]

/-- A traversal fails with the error of the first element that fails. -/
theorem mapM_error {f : α → Except ε β} : ∀ {xs : List α} {e : ε}, xs.mapM f = .error e →
    ∃ pre x post, xs = pre ++ x :: post ∧ (∀ y ∈ pre, ∃ b, f y = .ok b) ∧ f x = .error e
  | [], e, h => by
    rw [List.mapM_nil] at h
    cases h
  | x :: xs, e, h => by
    rw [List.mapM_cons] at h
    cases hx : f x with
    | error e' =>
      rw [hx] at h
      cases h
      exact ⟨[], x, xs, rfl, by simp, hx⟩
    | ok y =>
      cases hxs : xs.mapM f with
      | error e' =>
        rw [hx, hxs] at h
        cases h
        obtain ⟨pre, x', post, hsplit, hpre, hx'⟩ := mapM_error hxs
        refine ⟨x :: pre, x', post, by rw [hsplit]; rfl, fun y' hy' => ?_, hx'⟩
        rcases List.mem_cons.mp hy' with rfl | hy'
        · exact ⟨y, hx⟩
        · exact hpre y' hy'
      | ok ys => rw [hx, hxs] at h; cases h

theorem mapM_of_first_error {f : α → Except ε β} {x : α} (post : List α) {e : ε} (hx : f x = .error e) :
    ∀ {pre : List α}, (∀ y ∈ pre, ∃ b, f y = .ok b) → (pre ++ x :: post).mapM f = .error e
  | [], _ => by
    rw [List.nil_append, List.mapM_cons, hx]
    rfl
  | y :: pre, h => by
    obtain ⟨b, hb⟩ := h y (List.mem_cons_self ..)
    rw [List.cons_append, List.mapM_cons, hb,
      mapM_of_first_error post hx fun y' hy' => h y' (List.mem_cons_of_mem _ hy')]
    rfl

theorem bind_ok_iff {x : Except ε α} {f : α → Except ε β} {b : β} :
    (x >>= f) = .ok b ↔ ∃ a, x = .ok a ∧ f a = .ok b := by
  cases x <;> simp [bind, Except.bind]

theorem map_ok_iff {x : Except ε α} {f : α → β} {b : β} : x.map f = .ok b ↔ ∃ a, x = .ok a ∧ f a = b := by
  cases x <;> simp [Except.map]

theorem bind_error_iff {x : Except ε α} {f : α → Except ε β} {e : ε} :
    (x >>= f) = .error e ↔ x = .error e ∨ ∃ a, x = .ok a ∧ f a = .error e := by
  cases x <;> simp [bind, Except.bind]

end Soceteer.Jvm
