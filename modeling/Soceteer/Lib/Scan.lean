import Mathlib.Data.Set.Lattice
import Mathlib.Order.Lattice

/-!
# Soceteer.Lib.Scan — searches that keep the best candidate so far

A search runs through candidates and keeps the one of least error, the earlier one on a tie.  `Scans err S f` says
that the piece of search `f` looks at exactly the candidates in `S`; it composes along the program text.

* `Best.keep`: one candidate.
* `Scans.skip`, `Scans.keep`, `Scans.foldl`: rules for no candidate, one candidate and a loop.
* `Ordered`: the scan runs in a given order and keeps the first of equally good candidates.
* `enc_foldl`: a loop that follows another step by step.
* `Scans.exists_iff`: an error below a bound is found if and only if a candidate has one.
-/

namespace Soceteer.Scan

variable {α β ι : Type} [LinearOrder β]

/-- The best candidate so far with its error. -/
structure Best (α β : Type) where
  err : β
  out : α
deriving DecidableEq

/-- Keep `x` if it is strictly better. -/
def Best.keep (err : α → β) (x : α) (b : Best α β) : Best α β := if err x < b.err then ⟨err x, x⟩ else b

/-- `f` scans the candidates in `S`: its result is none of them beaten, and one of them or what it started with. -/
structure Scans (err : α → β) (S : Set α) (f : Best α β → Best α β) : Prop where
  le_start : ∀ b, (f b).err ≤ b.err
  le_of_mem : ∀ b, ∀ x ∈ S, (f b).err ≤ err x
  out : ∀ b, f b = b ∨ (f b).out ∈ S ∧ (f b).err = err (f b).out

/-- Two loops in step: `enc` carries each turn of the first to the turn of the second. -/
theorem enc_foldl {γ γ' κ : Type} (enc : γ → γ') (e : ι → κ) {f : γ → κ → γ} {g : γ' → ι → γ'} :
    ∀ {l : List ι} (b : γ),
    (∀ b, ∀ i ∈ l, enc (f b (e i)) = g (enc b) i) → enc ((l.map e).foldl f b) = l.foldl g (enc b)
  | [], _, _ => rfl
  | i :: l, b, h => by
    simp only [List.map_cons, List.foldl_cons]
    rw [← h b i (List.mem_cons_self ..)]
    exact enc_foldl enc e _ fun b j hj => h b j (List.mem_cons_of_mem _ hj)

namespace Scans

variable {err : α → β} {S T : Set α} {f g : Best α β → Best α β}

theorem skip : Scans err ∅ (fun b => b) :=
  ⟨fun _ => le_rfl, fun _ _ hx => absurd hx (Set.notMem_empty _), fun _ => Or.inl rfl⟩

theorem keep (x : α) : Scans err {x} (Best.keep err x) := by
  refine ⟨fun b => ?_, fun b y hy => ?_, fun b => ?_⟩
  · unfold Best.keep
    split_ifs with h
    · exact le_of_lt h
    · exact le_rfl
  · rw [Set.mem_singleton_iff.mp hy]
    unfold Best.keep
    split_ifs with h
    · exact le_rfl
    · exact not_lt.mp h
  · unfold Best.keep
    split_ifs
    · exact Or.inr ⟨rfl, rfl⟩
    · exact Or.inl rfl

theorem comp (hf : Scans err S f) (hg : Scans err T g) : Scans err (S ∪ T) (fun b => g (f b)) := by
  refine ⟨fun b => (hg.le_start _).trans (hf.le_start b), fun b x hx => ?_, fun b => ?_⟩
  · rcases hx with hx | hx
    · exact (hg.le_start _).trans (hf.le_of_mem b x hx)
    · exact hg.le_of_mem _ x hx
  · rcases hg.out (f b) with h | ⟨hmem, herr⟩
    · rw [h]
      exact (hf.out b).imp id fun ⟨hmem, herr⟩ => ⟨Or.inl hmem, herr⟩
    · exact Or.inr ⟨Or.inr hmem, herr⟩

theorem congr (hf : Scans err S f) (h : S = T) : Scans err T f := h ▸ hf

/-- A loop over candidate sets. -/
theorem foldl {step : Best α β → ι → Best α β} {S : ι → Set α} : ∀ {l : List ι},
    (∀ i ∈ l, Scans err (S i) (fun b => step b i)) → Scans err {x | ∃ i ∈ l, x ∈ S i} (fun b => l.foldl step b)
  | [], _ => skip.congr (by simp)
  | i :: l, h => by
    have hi := h i (List.mem_cons_self ..)
    have hl := foldl fun j hj => h j (List.mem_cons_of_mem _ hj)
    exact (hi.comp hl).congr (by ext x; simp)

/-- A property of errors that smaller errors inherit and the start does not have. -/
theorem exists_iff (hf : Scans err S f) {p : β → Prop} (hp : ∀ a b, a ≤ b → p b → p a) {b : Best α β}
    (hb : ¬ p b.err) : p (f b).err ↔ ∃ x ∈ S, p (err x) := by
  constructor
  · intro h
    rcases hf.out b with hfb | ⟨hmem, herr⟩
    · rw [hfb] at h
      exact absurd h hb
    · exact ⟨_, hmem, herr ▸ h⟩
  · rintro ⟨x, hx, hpx⟩
    exact hp _ _ (hf.le_of_mem b x hx) hpx

/-- A result that differs from the start in such a property is a best candidate. -/
theorem mem_of (hf : Scans err S f) {p : β → Prop} {b : Best α β} (hb : ¬ p b.err) (h : p (f b).err) :
    (f b).out ∈ S ∧ (f b).err = err (f b).out := by
  rcases hf.out b with hfb | hmem
  · rw [hfb] at h
    exact absurd h hb
  · exact hmem

end Scans

/-- `f` scans the candidates in `S` in the order `r`: of equally good ones it keeps the first, and what it started
with before all of them. -/
structure Ordered (r : α → α → Prop) (err : α → β) (S : Set α) (f : Best α β → Best α β) : Prop extends
    Scans err S f where
  stable : ∀ b, (f b).err = b.err → f b = b
  first : ∀ b, ∀ x ∈ S, (f b).err = err x → f b = b ∨ (f b).out = x ∨ r (f b).out x

namespace Ordered

variable {r : α → α → Prop} {err : α → β} {S T : Set α} {f g : Best α β → Best α β}

theorem skip : Ordered r err ∅ (fun b => b) := ⟨Scans.skip, fun _ _ => rfl, fun _ _ _ _ => Or.inl rfl⟩

theorem keep (x : α) : Ordered r err {x} (Best.keep err x) := by
  refine ⟨Scans.keep x, fun b h => ?_, fun b y hy _ => ?_⟩
  · unfold Best.keep at h ⊢
    split_ifs at h ⊢ with hlt
    · exact absurd h (ne_of_lt hlt)
    · rfl
  · unfold Best.keep
    split_ifs
    · exact Or.inr (Or.inl (Set.mem_singleton_iff.mp hy).symm)
    · exact Or.inl rfl

theorem congr (hf : Ordered r err S f) (h : S = T) : Ordered r err T f := h ▸ hf

theorem comp (hf : Ordered r err S f) (hg : Ordered r err T g) (hST : ∀ x ∈ S, ∀ y ∈ T, r x y) :
    Ordered r err (S ∪ T) (fun b => g (f b)) := by
  refine ⟨hf.toScans.comp hg.toScans, fun b h => ?_, fun b x hx h => ?_⟩
  · have hle := hg.le_start (f b)
    have hle' := hf.le_start b
    have hfb := hf.stable b (le_antisymm hle' (h ▸ hle))
    rw [hfb] at h ⊢
    exact hg.stable b h
  · rcases hx with hx | hx
    · -- a tie with a candidate of the first part: the second part changes nothing
      have hle := hg.le_start (f b)
      have hle' := hf.le_of_mem b x hx
      have hgf := hg.stable (f b) (le_antisymm hle (h.symm ▸ hle'))
      rw [hgf] at h ⊢
      exact hf.first b x hx h
    · rcases hg.first (f b) x hx h with hgf | hgf
      · rw [hgf]
        rcases hf.out b with hfb | ⟨hmem, -⟩
        · exact Or.inl hfb
        · exact Or.inr (Or.inr (hST _ hmem x hx))
      · exact Or.inr hgf

/-- A loop whose turns come in order. -/
theorem foldl {step : Best α β → ι → Best α β} {S : ι → Set α} : ∀ {l : List ι},
    (∀ i ∈ l, Ordered r err (S i) (fun b => step b i)) → l.Pairwise (fun i j => ∀ x ∈ S i, ∀ y ∈ S j, r x y) →
      Ordered r err {x | ∃ i ∈ l, x ∈ S i} (fun b => l.foldl step b)
  | [], _, _ => skip.congr (by simp)
  | i :: l, h, hr => by
    obtain ⟨hri, hrl⟩ := List.pairwise_cons.mp hr
    have hi := h i (List.mem_cons_self ..)
    have hl := foldl (fun j hj => h j (List.mem_cons_of_mem _ hj)) hrl
    refine (hi.comp hl fun x hx y hy => ?_).congr (by ext x; simp)
    obtain ⟨j, hj, hyj⟩ := hy
    exact hri j hj x hx y hyj

end Ordered

end Soceteer.Scan
