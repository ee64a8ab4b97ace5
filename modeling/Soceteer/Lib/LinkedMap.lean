import Mathlib.Algebra.GroupWithZero.Nat
import Mathlib.Data.List.Nodup
import Mathlib.Data.List.Perm.Basic
import Mathlib.Logic.Function.Basic
import Mathlib.Logic.Function.Iterate
import Mathlib.Tactic.SplitIfs

/-!
# Soceteer.Lib.LinkedMap — maps that keep the order of their keys

A map whose entries are in the order in which their keys came in, and multimaps that keep a list for each key.

* `LinkedMap`: the entries, no two of one key.
* `get`, `put`, `remove`: a key that is there keeps its place.
* `Holds m f`: `m` has the list `f k` for each `k`, and no entry where it is empty.
* `pairs`: the keys with their elements, in order; `pairs_perm` compares them with a list that `m` indexes.
-/

namespace Soceteer.Lib

structure LinkedMap (α β : Type) where
  entries : List (α × β)
  nodup : (entries.map Prod.fst).Nodup

namespace LinkedMap

variable {α β γ : Type} [DecidableEq α] {m : LinkedMap α β} {k k' : α} {v : β}

def empty : LinkedMap α β := ⟨[], List.nodup_nil⟩

def keys (m : LinkedMap α β) : List α := m.entries.map Prod.fst

def get (m : LinkedMap α β) (k : α) : Option β := (m.entries.find? fun e => e.1 = k).map Prod.snd

def remove (m : LinkedMap α β) (k : α) : LinkedMap α β where
  entries := m.entries.filter fun e => e.1 ≠ k
  nodup := m.nodup.sublist (List.filter_sublist.map Prod.fst)

/-- The entries with the value of `k` replaced. -/
def replaced (m : LinkedMap α β) (k : α) (v : β) : List (α × β) :=
  m.entries.map fun e => if e.1 = k then (k, v) else e

theorem keys_replaced (m : LinkedMap α β) (k : α) (v : β) : (m.replaced k v).map Prod.fst = m.keys := by
  rw [replaced, keys, List.map_map]
  refine List.map_congr_left fun e _ => ?_
  simp only [Function.comp_apply]
  split_ifs with h
  · exact h.symm
  · rfl

def put (m : LinkedMap α β) (k : α) (v : β) : LinkedMap α β :=
  if h : k ∈ m.keys then ⟨m.replaced k v, (m.keys_replaced k v).symm ▸ m.nodup⟩
  else ⟨m.entries ++ [(k, v)], by
    rw [List.map_append]
    exact List.nodup_append.mpr ⟨m.nodup, List.nodup_singleton k, fun a ha b hb heq => by
      obtain rfl := List.mem_singleton.mp hb
      exact h (heq ▸ ha)⟩⟩

theorem entries_put_of_mem (h : k ∈ m.keys) : (m.put k v).entries = m.replaced k v := by rw [put, dif_pos h]

theorem entries_put_of_not_mem (h : k ∉ m.keys) : (m.put k v).entries = m.entries ++ [(k, v)] := by
  rw [put, dif_neg h]

/-! ## Lookups -/

theorem get_eq_some_iff : m.get k = some v ↔ (k, v) ∈ m.entries := by
  rw [get, Option.map_eq_some_iff]
  constructor
  · rintro ⟨e, hfind, rfl⟩
    have hk := List.find?_some hfind
    rw [decide_eq_true_eq] at hk
    exact hk ▸ List.mem_of_find?_eq_some hfind
  · intro hmem
    have hsome : (m.entries.find? fun e => e.1 = k).isSome = true :=
      List.find?_isSome.mpr ⟨(k, v), hmem, decide_eq_true rfl⟩
    obtain ⟨e, hfind⟩ := Option.isSome_iff_exists.mp hsome
    have hk := List.find?_some hfind
    rw [decide_eq_true_eq] at hk
    have heq := List.inj_on_of_nodup_map m.nodup (List.mem_of_find?_eq_some hfind) hmem hk
    exact ⟨e, hfind, congrArg Prod.snd heq⟩

theorem get_eq_none_iff : m.get k = none ↔ k ∉ m.keys := by
  rw [Option.eq_none_iff_forall_ne_some, keys, List.mem_map]
  constructor
  · rintro h ⟨e, he, rfl⟩
    exact h e.2 (get_eq_some_iff.mpr he)
  · intro h v hv
    exact h ⟨(k, v), get_eq_some_iff.mp hv, rfl⟩

theorem get_remove : (m.remove k).get k' = if k' = k then none else m.get k' := by
  ext v
  rw [get_eq_some_iff, remove, List.mem_filter, ← get_eq_some_iff]
  split_ifs with h <;> simp [h]

theorem get_put : (m.put k v).get k' = if k' = k then some v else m.get k' := by
  ext u
  rw [get_eq_some_iff]
  by_cases hmem : k ∈ m.keys
  · rw [entries_put_of_mem hmem, replaced, List.mem_map]
    split_ifs with h
    · constructor
      · rintro ⟨e, -, he⟩
        split_ifs at he with hk
        · exact congrArg some (Prod.mk.inj he).2
        · exact absurd (congrArg Prod.fst he) (h ▸ hk)
      · intro hu
        obtain ⟨e, he, hk⟩ := List.mem_map.mp hmem
        exact ⟨e, he, by rw [if_pos hk, h, Option.some.inj hu]⟩
    · rw [get_eq_some_iff]
      constructor
      · rintro ⟨e, he, heq⟩
        split_ifs at heq with hk
        · exact absurd (Prod.mk.inj heq).1.symm h
        · exact heq ▸ he
      · intro hu
        exact ⟨(k', u), hu, if_neg h⟩
  · rw [entries_put_of_not_mem hmem, List.mem_append, List.mem_singleton, Prod.mk.injEq]
    split_ifs with h
    · have hnot : (k', u) ∉ m.entries := fun hin => hmem (h ▸ List.mem_map_of_mem hin)
      rw [Option.some.injEq]
      exact ⟨fun hu => (hu.resolve_left hnot).2.symm, fun hu => Or.inr ⟨h, hu.symm⟩⟩
    · rw [get_eq_some_iff]
      exact ⟨fun hu => hu.resolve_right fun hk => h hk.1, Or.inl⟩

/-! ## Lists for keys -/

/-- The elements of a key. -/
def listOf (m : LinkedMap α (List γ)) (k : α) : List γ := (m.get k).getD []

/-- The map has the list `f k` for each `k`, and no entry where it is empty. -/
structure Holds (m : LinkedMap α (List γ)) (f : α → List γ) : Prop where
  list_eq : ∀ k, m.listOf k = f k
  ne_nil : ∀ k l, m.get k = some l → l ≠ []

/-- The list of a key, or no entry if it has come to be empty. -/
def shrink (m : LinkedMap α (List γ)) (k : α) (l : List γ) : LinkedMap α (List γ) :=
  if l.isEmpty then m.remove k else m.put k l

section Holds

variable {m : LinkedMap α (List γ)} {f : α → List γ} {l : List γ}

theorem holds_empty : Holds (empty : LinkedMap α (List γ)) fun _ => [] := ⟨fun _ => rfl, nofun⟩

theorem Holds.put (h : Holds m f) (hl : l ≠ []) : Holds (m.put k l) (Function.update f k l) := by
  constructor
  · intro k'
    rw [listOf, get_put, Function.update_apply]
    split_ifs with hk
    · rfl
    · exact h.list_eq k'
  · intro k' l' hget
    rw [get_put] at hget
    split_ifs at hget with hk
    · exact Option.some.inj hget ▸ hl
    · exact h.ne_nil k' l' hget

theorem Holds.remove (h : Holds m f) : Holds (m.remove k) (Function.update f k []) := by
  constructor
  · intro k'
    rw [listOf, get_remove, Function.update_apply]
    split_ifs with hk
    · rfl
    · exact h.list_eq k'
  · intro k' l' hget
    rw [get_remove] at hget
    split_ifs at hget with hk
    exact h.ne_nil k' l' hget

theorem Holds.shrink (h : Holds m f) : Holds (m.shrink k l) (Function.update f k l) := by
  rw [LinkedMap.shrink]
  split_ifs with hl
  · rw [List.isEmpty_iff.mp hl]
    exact h.remove
  · exact h.put fun hnil => hl (List.isEmpty_iff.mpr hnil)

theorem Holds.get_none (h : Holds m f) (hget : m.get k = none) : f k = [] := by
  rw [← h.list_eq, listOf, hget]
  rfl

theorem Holds.get_some (h : Holds m f) (hget : m.get k = some l) : f k = l := by
  rw [← h.list_eq, listOf, hget]
  rfl

theorem Holds.mem_keys_iff (h : Holds m f) : k ∈ m.keys ↔ f k ≠ [] := by
  cases hget : m.get k with
  | none => exact iff_of_false (get_eq_none_iff.mp hget) (not_not.mpr (h.get_none hget))
  | some l =>
    refine iff_of_true ?_ (h.get_some hget ▸ h.ne_nil k l hget)
    by_contra hk
    rw [get_eq_none_iff.mpr hk] at hget
    exact nomatch hget

end Holds

/-! ## All elements -/

/-- The keys with their elements. -/
def pairs (m : LinkedMap α (List γ)) : List (α × γ) := m.entries.flatMap fun e => e.2.map fun c => (e.1, c)

section Pairs

variable {m : LinkedMap α (List γ)} {f : α → List γ} {l : List γ}

omit [DecidableEq α] in
theorem length_pairs (m : LinkedMap α (List γ)) : m.pairs.length = (m.entries.map fun e => e.2.length).sum := by
  rw [pairs, List.length_flatMap]
  simp only [List.length_map]

theorem mem_pairs_iff {e : α × γ} : e ∈ m.pairs ↔ ∃ l, m.get e.1 = some l ∧ e.2 ∈ l := by
  rw [pairs, List.mem_flatMap]
  constructor
  · rintro ⟨⟨k, l⟩, hmem, hin⟩
    obtain ⟨c, hc, rfl⟩ := List.mem_map.mp hin
    exact ⟨l, get_eq_some_iff.mpr hmem, hc⟩
  · rintro ⟨l, hget, hin⟩
    exact ⟨(e.1, l), get_eq_some_iff.mp hget, List.mem_map.mpr ⟨e.2, hin, rfl⟩⟩

theorem flatMap_filter_ne (k : α) : ∀ es : List (α × List γ),
    ((es.filter fun e => e.1 ≠ k).flatMap fun e => e.2.map fun c => (e.1, c)) =
      (es.flatMap fun e => e.2.map fun c => (e.1, c)).filter fun e => e.1 ≠ k
  | [] => rfl
  | e :: es => by
    rw [List.flatMap_cons, List.filter_append, ← flatMap_filter_ne k es, List.filter_map]
    by_cases hk : e.1 = k
    · simp [hk, Function.comp_def]
    · simp [hk, Function.comp_def]

theorem pairs_remove : (m.remove k).pairs = m.pairs.filter fun e => e.1 ≠ k := flatMap_filter_ne k m.entries

/-- Elements that are taken out of the list of a key are taken out of the pairs, and the others stay in their
order. -/
theorem pairs_shrink {p : γ → Bool} (hget : m.get k = some l) :
    (m.shrink k (l.filter p)).pairs = m.pairs.filter fun e => e.1 ≠ k ∨ p e.2 = true := by
  rw [shrink]
  split_ifs with hl
  · rw [pairs_remove]
    refine List.filter_congr fun e he => ?_
    obtain ⟨l', hget', hin⟩ := mem_pairs_iff.mp he
    have hnone := List.filter_eq_nil_iff.mp (List.isEmpty_iff.mp hl)
    by_cases hk : e.1 = k
    · rw [hk, hget] at hget'
      have hp := hnone e.2 (Option.some.inj hget' ▸ hin)
      simp [hk, hp]
    · simp [hk]
  · have hmem : k ∈ m.keys := by
      by_contra hk
      rw [get_eq_none_iff.mpr hk] at hget
      exact nomatch hget
    rw [pairs, entries_put_of_mem hmem, replaced, List.flatMap_map, pairs, List.filter_flatMap]
    refine List.flatMap_congr fun e he => ?_
    rw [List.filter_map]
    by_cases hk : e.1 = k
    · have heq : e.2 = l := Option.some.inj ((get_eq_some_iff.mpr (hk ▸ he)).symm.trans hget)
      simp [hk, heq, Function.comp_def]
    · simp [hk, Function.comp_def]

/-- The groups of a list, for keys that are all different. -/
theorem flatMap_filter_perm (E : List (α × γ)) : ∀ {ks : List α}, ks.Nodup →
    (ks.flatMap fun k => E.filter fun e => e.1 = k).Perm (E.filter fun e => e.1 ∈ ks)
  | [], _ => by simp
  | k :: ks, hks => by
    obtain ⟨hnot, hks⟩ := List.nodup_cons.mp hks
    have hsplit := List.filter_append_perm (fun e => e.1 = k) (E.filter fun e => e.1 ∈ k :: ks)
    have hin : (E.filter fun e => e.1 ∈ k :: ks).filter (fun e => e.1 = k) = E.filter fun e => e.1 = k := by
      rw [List.filter_filter]
      refine List.filter_congr fun e _ => ?_
      by_cases hk : e.1 = k <;> simp [hk]
    have hout :
        (E.filter fun e => e.1 ∈ k :: ks).filter (fun e => !decide (e.1 = k)) = E.filter fun e => e.1 ∈ ks := by
      rw [List.filter_filter]
      refine List.filter_congr fun e _ => ?_
      by_cases hk : e.1 = k
      · simp [hk, hnot]
      · simp [hk]
    rw [hin, hout] at hsplit
    rw [List.flatMap_cons]
    exact ((flatMap_filter_perm E hks).append_left _).trans hsplit

/-- A map that groups a list by key has the same pairs. -/
theorem Holds.pairs_perm (h : Holds m f) {E : List (α × γ)}
    (hE : ∀ k, f k = (E.filter fun e => e.1 = k).map Prod.snd) :
    m.pairs.Perm E := by
  have hgroups : m.pairs = m.keys.flatMap fun k => E.filter fun e => e.1 = k := by
    rw [pairs, keys, List.flatMap_map]
    refine List.flatMap_congr fun e he => ?_
    have hlist : f e.1 = e.2 := h.get_some (get_eq_some_iff.mpr he)
    rw [← hlist, hE, List.map_map]
    refine (List.map_congr_left fun x hx => ?_).trans (List.map_id _)
    have hk : x.1 = e.1 := of_decide_eq_true (List.mem_filter.mp hx).2
    rw [Function.comp_apply, ← hk]
    rfl
  have hall : (E.filter fun e => e.1 ∈ m.keys) = E := by
    refine List.filter_eq_self.mpr fun e he => ?_
    rw [decide_eq_true_eq, h.mem_keys_iff, hE]
    exact List.ne_nil_of_mem (List.mem_map_of_mem (List.mem_filter.mpr ⟨he, decide_eq_true rfl⟩))
  rw [hgroups]
  exact (flatMap_filter_perm E m.nodup).trans (List.Perm.of_eq hall)

end Pairs

end LinkedMap

end Soceteer.Lib
