import Mathlib.Data.List.Basic

/-!
# Soceteer.Lib.Clocked — registers that move on a clock

A block of registers is a state and what an edge of the clock makes of it; its outputs are read after the edge.

* `outputs`: what a block shows after each of a list of edges.
* `foldl_phase`, `outputs_phase`: a block that counts, where the invariant and the output depend on the count.
* `Along`: edges that each meet a condition where they come; `Along.invariant`.
-/

namespace Soceteer.Lib.Clocked

variable {σ ι ω : Type}

/-- What a block shows after each edge. -/
def outputs (tick : σ → ι → σ) (out : σ → ω) : σ → List ι → List ω
  | _, [] => []
  | s, i :: is => out (tick s i) :: outputs tick out (tick s i) is

variable {tick : σ → ι → σ} {out : σ → ω} {s : σ}

theorem outputs_append : ∀ (s : σ) (is js : List ι),
    outputs tick out s (is ++ js) = outputs tick out s is ++ outputs tick out (is.foldl tick s) js
  | _, [], _ => rfl
  | s, i :: is, js => congrArg (out (tick s i) :: ·) (outputs_append (tick s i) is js)

/-- A list with its first and last entry set apart. -/
theorem exists_ends {is : List ι} {n : ℕ} (h : is.length = n + 2) :
    ∃ i body i', is = i :: (body ++ [i']) ∧ body.length = n := by
  obtain ⟨i, is, rfl⟩ := List.exists_cons_of_length_eq_add_one h
  have hne : is ≠ [] := by
    rintro rfl
    simp at h
  refine ⟨i, is.dropLast, is.getLast hne, by rw [List.dropLast_append_getLast], ?_⟩
  simp at h ⊢
  omega

/-- A list cut in two. -/
theorem exists_parts {is : List ι} {m n : ℕ} (h : is.length = m + n) :
    ∃ as bs, is = as ++ bs ∧ as.length = m ∧ bs.length = n :=
  ⟨is.take m, is.drop m, (List.take_append_drop m is).symm, by simp; omega, by simp; omega⟩

/-! ## Counting blocks -/

section Phase

variable {I : ℕ → σ → Prop} {P : ℕ → ι → Prop} {f : ℕ → ω} {n : ℕ}

theorem tail_inputs {i : ι} {is : List ι} {k : ℕ}
    (hP : ∀ j (hj : j < (i :: is).length), P (k + j) (i :: is)[j]) (j : ℕ)
    (hj : j < is.length) : P (k + 1 + j) is[j] := by
  have h := hP (j + 1) (Nat.succ_lt_succ hj)
  rw [List.getElem_cons_succ] at h
  rwa [Nat.succ_add_eq_add_succ]

theorem foldl_phase (hstep : ∀ c s i, c < n → I c s → P c i → I (c + 1) (tick s i)) (is : List ι) :
    ∀ {k : ℕ} {s : σ}, k + is.length ≤ n → I k s → (∀ j (hj : j < is.length), P (k + j) is[j]) →
      I (k + is.length) (is.foldl tick s) := by
  induction is with
  | nil =>
    intro k s _ hI _
    exact hI
  | cons i is ih =>
    intro k s hk hI hP
    rw [List.length_cons] at hk
    have hnext := hstep k s i (by omega) hI (hP 0 (by simp))
    rw [List.length_cons, ← Nat.succ_add_eq_add_succ]
    exact ih (by omega) hnext (tail_inputs hP)

theorem outputs_phase (hstep : ∀ c s i, c < n → I c s → P c i → I (c + 1) (tick s i))
    (hout : ∀ c s i, c < n → I c s → P c i → out (tick s i) = f c) {is : List ι} :
    ∀ {k : ℕ} {s : σ}, k + is.length ≤ n → I k s → (∀ j (hj : j < is.length), P (k + j) is[j]) →
      outputs tick out s is = (List.range' k is.length).map f := by
  induction is with
  | nil =>
    intro k s _ _ _
    rfl
  | cons i is ih =>
    intro k s hk hI hP
    rw [List.length_cons] at hk
    have hfirst := hP 0 (by simp)
    rw [outputs, List.length_cons, List.range'_succ, List.map_cons, hout k s i (by omega) hI hfirst,
      ih (by omega) (hstep k s i (by omega) hI hfirst) (tail_inputs hP)]

end Phase

/-! ## Conditions on the edges -/

/-- Each edge meets `C` in the state that it finds. -/
def Along (tick : σ → ι → σ) (C : σ → ι → Prop) : σ → List ι → Prop
  | _, [] => True
  | s, i :: is => C s i ∧ Along tick C (tick s i) is

instance (tick : σ → ι → σ) (C : σ → ι → Prop) [∀ s i, Decidable (C s i)] : ∀ s is, Decidable (Along tick C s is)
  | _, [] => .isTrue trivial
  | s, i :: is =>
    have := instDecidableAlong tick C (tick s i) is
    inferInstanceAs (Decidable (C s i ∧ Along tick C (tick s i) is))

theorem Along.invariant {C : σ → ι → Prop} {I : σ → Prop} (hstep : ∀ s i, I s → C s i → I (tick s i))
    {is : List ι} {s : σ}
    (hC : Along tick C s is) (hs : I s) : I (is.foldl tick s) := by
  induction is generalizing s with
  | nil => exact hs
  | cons i is ih => exact ih hC.2 (hstep s i hs hC.1)

end Soceteer.Lib.Clocked
