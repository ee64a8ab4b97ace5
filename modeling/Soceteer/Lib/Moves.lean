import Mathlib.Data.List.Pairwise
import Mathlib.Logic.Function.Basic

/-!
# Soceteer.Lib.Moves — workers that share a memory

* `Move`: a cell is given a value, or the value of another cell; `moved`: the memory after some moves.
* `moved_of_mem`, `moved_of_not_mem`: moves that do not read what they write.
* `moved_region`: moves within regions; a region depends on its own moves only.
* `Independent`: the moves of different workers do not meet; `Independent.next`: whichever worker goes on, what is
  left to do leads to the same memory.
-/

namespace Soceteer.Lib

variable {L V : Type}

/-- The cell `dst` is given a value, or the value of another cell. -/
structure Move (L V : Type) where
  dst : L
  src : V ⊕ L

namespace Move

/-- What is moved. -/
def value (a : Move L V) (m : L → V) : V := a.src.elim id m

variable [DecidableEq L]

def apply (a : Move L V) (m : L → V) : L → V := Function.update m a.dst (a.value m)

/-- Neither writes what the other reads or writes. -/
structure Apart (a b : Move L V) : Prop where
  dst : a.dst ≠ b.dst
  left : a.src ≠ .inr b.dst
  right : b.src ≠ .inr a.dst

omit [DecidableEq L] in
theorem Apart.symm {a b : Move L V} (h : Apart a b) : Apart b a := ⟨h.dst.symm, h.right, h.left⟩

theorem value_apply {a b : Move L V} {m : L → V} (h : a.src ≠ .inr b.dst) : a.value (b.apply m) = a.value m := by
  rw [value, value]
  cases hsrc : a.src with
  | inl v => rfl
  | inr l =>
    have hne : l ≠ b.dst := by
      rintro rfl
      exact h hsrc
    exact Function.update_of_ne hne _ m

theorem Apart.apply_comm {a b : Move L V} (h : Apart a b) (m : L → V) :
    a.apply (b.apply m) = b.apply (a.apply m) := by
  rw [apply, value_apply h.left, apply, apply, value_apply h.right, apply, Function.update_comm h.dst]

end Move

variable [DecidableEq L]

/-- The memory after the moves. -/
def moved (ms : List (Move L V)) (m : L → V) : L → V := ms.foldl (fun m a => a.apply m) m

section Moved

variable {ms : List (Move L V)} {m : L → V} {l : L}

@[simp] theorem moved_nil (m : L → V) : moved [] m = m := rfl

theorem moved_cons (a : Move L V) (ms : List (Move L V)) (m : L → V) :
    moved (a :: ms) m = moved ms (a.apply m) := rfl

theorem moved_append (ms ms' : List (Move L V)) (m : L → V) : moved (ms ++ ms') m = moved ms' (moved ms m) :=
  List.foldl_append

theorem moved_of_not_mem (h : l ∉ ms.map Move.dst) : moved ms m l = m l := by
  induction ms generalizing m with
  | nil => rfl
  | cons a ms ih =>
    rw [List.map_cons, List.mem_cons, not_or] at h
    rw [moved_cons, ih h.2]
    exact Function.update_of_ne h.1 _ m

/-- Where nothing is read that is written, a cell gets the value that is moved there. -/
theorem moved_of_mem {v : V} (hsrc : ∀ a ∈ ms, ∀ l, a.src = .inr l → l ∉ ms.map Move.dst)
    (hval : ∀ a ∈ ms, a.dst = l → a.value m = v) (h : l ∈ ms.map Move.dst) : moved ms m l = v := by
  induction ms generalizing m with
  | nil => exact absurd h List.not_mem_nil
  | cons a ms ih =>
    rw [moved_cons]
    by_cases hl : l ∈ ms.map Move.dst
    · refine ih (fun b hb l hbl hmem => ?_) (fun b hb hdst => ?_) hl
      · exact hsrc b (List.mem_cons_of_mem a hb) l hbl (List.mem_cons_of_mem _ hmem)
      · have hread : b.src ≠ .inr a.dst :=
          fun hb' => hsrc b (List.mem_cons_of_mem a hb) a.dst hb' List.mem_cons_self
        rw [Move.value_apply hread]
        exact hval b (List.mem_cons_of_mem a hb) hdst
    · obtain rfl : l = a.dst := (List.mem_cons.mp h).resolve_right hl
      rw [moved_of_not_mem hl, Move.apply, Function.update_self]
      exact hval a List.mem_cons_self rfl

/-- Moves that stay within regions: what is in a region afterwards depends on the moves in it. -/
theorem moved_region {ι : Type} [DecidableEq ι] {region : L → ι} {r : ι}
    (h : ∀ a ∈ ms, ∀ l, a.src = .inr l → region l = region a.dst) {m m' : L → V}
    (hm : ∀ l, region l = r → m l = m' l)
    (hl : region l = r) : moved ms m l = moved (ms.filter fun a => region a.dst = r) m' l := by
  induction ms generalizing m m' with
  | nil => exact hm l hl
  | cons a ms ih =>
    have hrest : ∀ b ∈ ms, ∀ l, b.src = .inr l → region l = region b.dst :=
      fun b hb => h b (List.mem_cons_of_mem a hb)
    rw [moved_cons, List.filter_cons]
    by_cases ha : region a.dst = r
    · rw [if_pos (decide_eq_true ha), moved_cons]
      refine ih hrest fun l hl => ?_
      have hval : a.value m = a.value m' := by
        rw [Move.value, Move.value]
        cases hsrc : a.src with
        | inl v => rfl
        | inr l' => exact hm l' ((h a List.mem_cons_self l' hsrc).trans ha)
      rw [Move.apply, Move.apply, hval, Function.update_apply, Function.update_apply, hm l hl]
    · rw [if_neg (by simpa using ha)]
      refine ih hrest fun l hl => ?_
      have hne : l ≠ a.dst := by
        rintro rfl
        exact ha hl
      rw [Move.apply, Function.update_of_ne hne]
      exact hm l hl

theorem moved_comm {a : Move L V} (h : ∀ b ∈ ms, a.Apart b) (m : L → V) :
    moved ms (a.apply m) = a.apply (moved ms m) := by
  induction ms generalizing m with
  | nil => rfl
  | cons b ms ih =>
    rw [moved_cons, moved_cons, (h b List.mem_cons_self).symm.apply_comm]
    exact ih (fun c hc => h c (List.mem_cons_of_mem b hc)) _

end Moved

/-! ## Workers -/

/-- What the workers have left to do does not meet. -/
def Independent (todo : List (List (Move L V))) : Prop :=
  todo.Pairwise fun xs ys => ∀ a ∈ xs, ∀ b ∈ ys, a.Apart b

/-- **Any worker may go on.**  The rest of the moves leads to the same memory. -/
theorem Independent.next {todo : List (List (Move L V))} {i : ℕ} {a : Move L V} {rest : List (Move L V)}
    (h : Independent todo) (hi : todo[i]? = some (a :: rest)) (m : L → V) :
    Independent (todo.set i rest) ∧ moved (todo.set i rest).flatten (a.apply m) = moved todo.flatten m := by
  induction todo generalizing i m with
  | nil => simp at hi
  | cons xs todo ih =>
    obtain ⟨hhead, htail⟩ := List.pairwise_cons.mp h
    cases i with
    | zero =>
      rw [List.getElem?_cons_zero, Option.some.injEq] at hi
      subst hi
      rw [List.set_cons_zero]
      refine ⟨List.pairwise_cons.mpr ⟨fun ys hys b hb => hhead ys hys b (List.mem_cons_of_mem a hb), htail⟩, rfl⟩
    | succ i =>
      rw [List.getElem?_cons_succ] at hi
      have hmem : a :: rest ∈ todo := List.mem_of_getElem? hi
      obtain ⟨hind, hsame⟩ := ih htail hi (moved xs m)
      rw [List.set_cons_succ]
      refine ⟨List.pairwise_cons.mpr ⟨fun ys hys b hb c hc => ?_, hind⟩, ?_⟩
      · rcases List.mem_or_eq_of_mem_set hys with hys | rfl
        · exact hhead ys hys b hb c hc
        · exact hhead (a :: ys) hmem b hb c (List.mem_cons_of_mem a hc)
      · have hcomm : moved xs (a.apply m) = a.apply (moved xs m) :=
          moved_comm (fun b hb => (hhead (a :: rest) hmem b hb a List.mem_cons_self).symm) m
        rw [List.flatten_cons, List.flatten_cons, moved_append, moved_append, hcomm, hsame]

end Soceteer.Lib
