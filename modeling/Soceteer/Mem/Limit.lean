import Mathlib.Algebra.Order.BigOperators.Group.List
import Mathlib.Data.List.Sort
import Soceteer.Mem.Ports

/-!
# Soceteer.Mem.Limit — `limitToMaxCap` on the port objects

`withCap` updates a port in place, so what becomes of the ports that are cut and of those that are dropped is a
statement about the objects. Here `limitToMaxCap` runs on references to them; every port of a list is an object of
its own.

* `limitLoop`, `limitInPlace`: the source, over references and the objects they name.
* `Truncated`: the kept references and the objects afterwards, against a budget; `limitLoop_truncated`.
* `sortRefs_stable`: the sort is by descending capacity, ports of one capacity in their order.
* `limitToMaxCap_truncates`: the whole function; `limitInPlace_eq`: it agrees with `limitToMaxCap` on values.
-/

namespace Soceteer.Mem

open Jvm

/-! ## The source -/

/-- The objects, by reference. -/
abbrev Objects := ℕ → DDR4PortParams

def keyedRefs (heap : Objects) (mems : List ℕ) : Except Failure (List (ℕ × Bytes)) :=
  mems.mapM fun mem => (heap mem).getCap.map fun cap => (mem, cap)

/-- `sortBy(_.getCap.value)(Ordering.Long.reverse)` -/
def sortRefs (mems : List (ℕ × Bytes)) : List (ℕ × Bytes) := mems.insertionSort fun a b => b.2 ≤ a.2

/-- The `flatMap` over the sorted ports, with `remaining` and the objects it updates. -/
def limitLoop : Objects → Bytes → List ℕ → Except Failure (List ℕ × Objects)
  | heap, _, [] => .ok ([], heap)
  | heap, remaining, mem :: mems =>
    if remaining ≤ ⟨0⟩ then limitLoop heap remaining mems
    else do
      let cap ← (heap mem).getCap
      let capped := if cap ≤ remaining then cap else remaining
      let rest ← limitLoop (Function.update heap mem ((heap mem).withCap capped)) (remaining - capped) mems
      .ok (mem :: rest.1, rest.2)

/-- `limitToMaxCap` -/
def limitInPlace (locale : Locale) (heap : Objects) (mems : List ℕ) (maxSize : Bytes) :
    Except Failure (List ℕ × Objects) :=
  if maxSize < ⟨0⟩ then
    .error (.vivadoDesign ⟨"maxSize must be non-negative, got " ++ locale.humanReadable maxSize⟩)
  else if maxSize = ⟨0⟩ then .ok ([], heap)
  else (keyedRefs heap mems).bind fun ports => limitLoop heap maxSize ((sortRefs ports).map Prod.fst)

/-- The ports of a list, each an object of its own. -/
def objects (ports : List DDR4PortParams) : Objects := fun i => ports.getD i { portName := "" }

/-! ## The loop -/

/-- The capacity recorded in an object. -/
def capOf (heap : Objects) (mem : ℕ) : ℤ := ((heap mem).capOpt.map Bytes.toInt).getD 0

/-- The ports `mems`, in this order, cut down to `budget`: `kept` are the references that are left. -/
structure Truncated (heap heap' : Objects) (budget : ℤ) (mems kept : List ℕ) : Prop where
  first : kept <+: mems
  whole : ∀ mem ∈ kept.dropLast, heap' mem = heap mem
  last : ∀ mem, kept.getLast? = some mem → ∃ c, heap' mem = (heap mem).withCap c ∧ capOf heap' mem ≤ capOf heap mem
  total : (kept.map (capOf heap')).sum = min budget (mems.map (capOf heap)).sum
  dropped : ∀ before mem after, mems = before ++ mem :: after → mem ∉ kept →
    kept <+: before ∧ (kept.map (capOf heap')).sum = budget
  frame : ∀ mem, mem ∉ kept → heap' mem = heap mem

/-- A capacity that is there and not negative. -/
def HasCap (heap : Objects) (mem : ℕ) : Prop := ∃ c : Bytes, (heap mem).capOpt = some c ∧ 0 ≤ c.toInt

section Loop

variable {heap heap' : Objects} {mems kept : List ℕ} {remaining : Bytes}

theorem HasCap.capOf_eq {mem : ℕ} {c : Bytes} (h : (heap mem).capOpt = some c) : capOf heap mem = c.toInt := by
  rw [capOf, h]
  rfl

theorem HasCap.nonneg {mem : ℕ} (h : HasCap heap mem) : 0 ≤ capOf heap mem := by
  obtain ⟨c, hc, hpos⟩ := h
  rwa [HasCap.capOf_eq hc]

theorem sum_capOf_nonneg (h : ∀ mem ∈ mems, HasCap heap mem) : 0 ≤ (mems.map (capOf heap)).sum := by
  refine List.sum_nonneg fun x hx => ?_
  obtain ⟨mem, hmem, rfl⟩ := List.mem_map.mp hx
  exact (h mem hmem).nonneg

/-- Nothing is kept of an empty budget. -/
theorem limitLoop_nonpos (h : remaining.toInt ≤ 0) : limitLoop heap remaining mems = .ok ([], heap) := by
  have hle : remaining ≤ ⟨0⟩ := Bytes.le_iff.mpr h
  induction mems with
  | nil => rfl
  | cons mem mems ih => rw [limitLoop, if_pos hle, ih]

theorem Truncated.nothing (hcap : ∀ mem ∈ mems, HasCap heap mem) : Truncated heap heap 0 mems [] where
  first := List.nil_prefix
  whole := fun mem hmem => absurd hmem List.not_mem_nil
  last := fun mem h => absurd h (by simp)
  total := by rw [List.map_nil, List.sum_nil, min_eq_left (sum_capOf_nonneg hcap)]
  dropped := fun before mem after _ _ => ⟨List.nil_prefix, rfl⟩
  frame := fun mem _ => rfl

/-- Setting the recorded capacity again changes nothing. -/
theorem update_withCap_self {mem : ℕ} {c : Bytes} (h : (heap mem).capOpt = some c) :
    Function.update heap mem ((heap mem).withCap c) = heap := by
  have hsame : (heap mem).withCap c = heap mem := by
    rw [DDR4PortParams.withCap, ← h]
  rw [hsame, Function.update_eq_self]

/-- One port more in front, which fits. -/
theorem Truncated.cons {mem : ℕ} {c : Bytes} {budget : ℤ} (hcap : (heap mem).capOpt = some c)
    (hfresh : mem ∉ mems) (h : Truncated heap heap' (budget - c.toInt) mems kept) :
    Truncated heap heap' budget (mem :: mems) (mem :: kept) := by
  have hsame : heap' mem = heap mem := h.frame mem fun hmem => hfresh (h.first.subset hmem)
  have hval : capOf heap' mem = c.toInt := by rw [capOf, hsame, hcap]; rfl
  refine ⟨List.cons_prefix_cons.mpr ⟨rfl, h.first⟩, ?_, ?_, ?_, ?_, ?_⟩
  · intro mem' hmem'
    cases kept with
    | nil => exact absurd hmem' List.not_mem_nil
    | cons k kept =>
      rcases List.mem_cons.mp hmem' with rfl | htail
      · exact hsame
      · exact h.whole mem' htail
  · intro mem' hlast
    cases kept with
    | nil =>
      obtain rfl : mem = mem' := by simpa using hlast
      refine ⟨c, ?_, ?_⟩
      · rw [hsame, DDR4PortParams.withCap, ← hcap]
      · rw [hval, HasCap.capOf_eq hcap]
    | cons k kept =>
      rw [List.getLast?_cons_cons] at hlast
      exact h.last mem' hlast
  · rw [List.map_cons, List.sum_cons, List.map_cons, List.sum_cons, h.total, hval, HasCap.capOf_eq hcap]
    omega
  · intro before mem' after hsplit hout
    cases before with
    | nil =>
      rw [List.nil_append, List.cons.injEq] at hsplit
      exact absurd (hsplit.1 ▸ List.mem_cons_self) hout
    | cons b before =>
      rw [List.cons_append, List.cons.injEq] at hsplit
      obtain ⟨rfl, hsplit⟩ := hsplit
      obtain ⟨hfirst, hsum⟩ := h.dropped before mem' after hsplit fun hmem => hout (List.mem_cons_of_mem _ hmem)
      refine ⟨List.cons_prefix_cons.mpr ⟨rfl, hfirst⟩, ?_⟩
      rw [List.map_cons, List.sum_cons, hsum, hval]
      omega
  · intro mem' hout
    exact h.frame mem' fun hmem => hout (List.mem_cons_of_mem _ hmem)

/-- A port that does not fit is cut to what remains, and it is the last one. -/
theorem Truncated.cut {mem : ℕ} {c : Bytes} (hcap : (heap mem).capOpt = some c) (hlt : remaining.toInt < c.toInt)
    (hpos : ∀ mem ∈ mems, HasCap heap mem) :
    Truncated heap (Function.update heap mem ((heap mem).withCap remaining)) remaining.toInt
      (mem :: mems) [mem] := by
  have hval : capOf (Function.update heap mem ((heap mem).withCap remaining)) mem = remaining.toInt := by
    rw [capOf, Function.update_self]
    rfl
  have hsum := sum_capOf_nonneg hpos
  refine ⟨⟨mems, rfl⟩, ?_, ?_, ?_, ?_, ?_⟩
  · intro mem' hmem'
    exact absurd hmem' List.not_mem_nil
  · intro mem' hlast
    obtain rfl : mem = mem' := by simpa using hlast
    refine ⟨remaining, Function.update_self .., ?_⟩
    rw [hval, HasCap.capOf_eq hcap]
    exact hlt.le
  · rw [List.map_singleton, List.sum_singleton, List.map_cons, List.sum_cons, hval, HasCap.capOf_eq hcap]
    omega
  · intro before mem' after hsplit hout
    cases before with
    | nil =>
      rw [List.nil_append, List.cons.injEq] at hsplit
      exact absurd (hsplit.1 ▸ List.mem_cons_self) hout
    | cons b before =>
      rw [List.cons_append, List.cons.injEq] at hsplit
      obtain ⟨rfl, -⟩ := hsplit
      refine ⟨⟨before, rfl⟩, ?_⟩
      rw [List.map_singleton, List.sum_singleton, hval]
  · intro mem' hout
    rw [List.mem_singleton] at hout
    exact Function.update_of_ne hout _ _

/-- The loop keeps a prefix of the ports, by induction over them; all but the last port kept fit. -/
theorem limitLoop_truncated (hnd : mems.Nodup) (hcap : ∀ mem ∈ mems, HasCap heap mem) (hr : 0 ≤ remaining.toInt) :
    ∃ kept heap', limitLoop heap remaining mems = .ok (kept, heap') ∧
      Truncated heap heap' remaining.toInt mems kept := by
  induction mems generalizing remaining with
  | nil =>
    refine ⟨[], heap, rfl, List.prefix_rfl, ?_, ?_, ?_, ?_, fun mem _ => rfl⟩
    · exact fun mem hmem => absurd hmem List.not_mem_nil
    · exact fun mem h => absurd h (by simp)
    · rw [List.map_nil, List.sum_nil, min_eq_right hr]
    · exact fun before mem after h => absurd h (by simp)
  | cons mem mems ih =>
    obtain ⟨hfresh, hnd⟩ := List.nodup_cons.mp hnd
    rcases hr.eq_or_lt with hzero | hpos
    · refine ⟨[], heap, limitLoop_nonpos hzero.ge, ?_⟩
      rw [← hzero]
      exact Truncated.nothing hcap
    · obtain ⟨c, hc, hcpos⟩ := hcap mem List.mem_cons_self
      have hrest : ∀ mem' ∈ mems, HasCap heap mem' := fun mem' hmem' => hcap mem' (List.mem_cons_of_mem _ hmem')
      have hgo : ¬ remaining ≤ ⟨0⟩ := fun h => absurd (Bytes.le_iff.mp h) (by rw [Bytes.zero_toInt]; omega)
      rw [limitLoop, if_neg hgo, DDR4PortParams.getCap_ok_iff.mpr hc]
      by_cases hfits : c ≤ remaining
      · have hle := Bytes.le_iff.mp hfits
        have hsub : (remaining - c).toInt = remaining.toInt - c.toInt := by
          have := remaining.toInt_lt
          rw [Bytes.sub_toInt, Int.bmod_eq_of_le (by omega) (by omega)]
        have hnonneg : 0 ≤ (remaining - c).toInt := by omega
        obtain ⟨kept, heap', hloop, htr⟩ := ih hnd hrest hnonneg
        rw [hsub] at htr
        refine ⟨mem :: kept, heap', ?_, htr.cons hc hfresh⟩
        show (limitLoop _ _ mems).bind _ = _
        rw [if_pos hfits, update_withCap_self hc, hloop]
        rfl
      · have hlt : remaining.toInt < c.toInt := Int.not_le.mp fun h => hfits (Bytes.le_iff.mpr h)
        have hempty : (remaining - remaining).toInt ≤ 0 := by
          rw [Bytes.sub_toInt, sub_self]
          decide
        refine ⟨[mem], Function.update heap mem ((heap mem).withCap remaining), ?_, Truncated.cut hc hlt hrest⟩
        show (limitLoop _ _ mems).bind _ = _
        rw [if_neg hfits, limitLoop_nonpos hempty]
        rfl

end Loop

/-! ## The sort -/

section Sorting

/-- Descending capacity, and the order of the list among equals. -/
def Stable (a b : ℕ × Bytes) : Prop := b.2.toInt < a.2.toInt ∨ a.2.toInt = b.2.toInt ∧ a.1 < b.1

/-- The sort of a list in ascending order of references is stable: no two elements compare otherwise when the
earlier one is the smaller reference. -/
theorem sortRefs_stable {l : List (ℕ × Bytes)} (h : l.Pairwise fun a b => a.1 < b.1) :
    (sortRefs l).Pairwise Stable := by
  induction l with
  | nil => exact List.Pairwise.nil
  | cons a l ih =>
    obtain ⟨hhead, htail⟩ := List.pairwise_cons.mp h
    have hsorted := ih htail
    have hmem : ∀ b ∈ sortRefs l, a.1 < b.1 := fun b hb => hhead b ((List.perm_insertionSort _ l).mem_iff.mp hb)
    show (List.orderedInsert _ a (sortRefs l)).Pairwise Stable
    -- `a` goes in front of the first element that is not larger
    generalize sortRefs l = s at hsorted hmem
    induction s with
    | nil => exact List.pairwise_singleton _ _
    | cons b s ihs =>
      obtain ⟨hb, hs⟩ := List.pairwise_cons.mp hsorted
      have hab := hmem b List.mem_cons_self
      rw [List.orderedInsert_cons]
      split
      · next hle =>
        rw [Bytes.le_iff] at hle
        refine List.pairwise_cons.mpr ⟨fun x hx => ?_, hsorted⟩
        have hax := hmem x hx
        rcases List.mem_cons.mp hx with rfl | hx
        · rcases hle.lt_or_eq with hlt | heq
          · exact .inl hlt
          · exact .inr ⟨heq.symm, hax⟩
        · have hxa : x.2.toInt ≤ a.2.toInt := by
            rcases hb x hx with hlt | ⟨heq, -⟩
            · exact (hlt.trans_le hle).le
            · exact heq.ge.trans hle
          rcases hxa.lt_or_eq with hlt | heq
          · exact .inl hlt
          · exact .inr ⟨heq.symm, hax⟩
      · next hgt =>
        rw [Bytes.le_iff, Int.not_le] at hgt
        refine List.pairwise_cons.mpr ⟨fun x hx => ?_, ihs hs fun x hx => hmem x (List.mem_cons_of_mem _ hx)⟩
        rcases List.mem_cons.mp ((List.perm_orderedInsert _ a s).mem_iff.mp hx) with rfl | hx
        · exact .inl hgt
        · exact hb x hx

theorem keyedRefs_ok {heap : Objects} {mems : List ℕ} (h : ∀ mem ∈ mems, HasCap heap mem) :
    ∃ ports, keyedRefs heap mems = .ok ports ∧ ports.map Prod.fst = mems ∧
      ∀ p ∈ ports, p.2.toInt = capOf heap p.1 := by
  induction mems with
  | nil => exact ⟨[], rfl, rfl, fun p hp => absurd hp List.not_mem_nil⟩
  | cons mem mems ih =>
    obtain ⟨ports, hports, hfst, hcaps⟩ := ih fun mem' hmem' => h mem' (List.mem_cons_of_mem _ hmem')
    obtain ⟨c, hc, -⟩ := h mem List.mem_cons_self
    refine ⟨(mem, c) :: ports, ?_, by rw [List.map_cons, hfst], ?_⟩
    · unfold keyedRefs at hports ⊢
      rw [List.mapM_cons, DDR4PortParams.getCap_ok_iff.mpr hc, hports]
      rfl
    · intro p hp
      rcases List.mem_cons.mp hp with rfl | hp
      · exact (HasCap.capOf_eq hc).symm
      · exact hcaps p hp

end Sorting

/-- **The capacities are cut down exactly**: the ports are taken in stable order of descending capacity until the
budget is used up, only the last port taken is cut, and the objects of all others are left as they were. -/
theorem limitToMaxCap_truncates (locale : Locale) (ports : List DDR4PortParams) (maxSize : Bytes)
    (hcap : ∀ port ∈ ports, ∃ c : Bytes, port.capOpt = some c ∧ 0 ≤ c.toInt) (hmax : 0 ≤ maxSize.toInt) :
    ∃ order kept heap', limitInPlace locale (objects ports) (List.range ports.length) maxSize = .ok (kept, heap') ∧
      order.Perm (List.range ports.length) ∧
      (order.Pairwise fun i j => capOf (objects ports) j < capOf (objects ports) i ∨
        capOf (objects ports) i = capOf (objects ports) j ∧ i < j) ∧
      Truncated (objects ports) heap' maxSize.toInt order kept := by
  have hall : ∀ i ∈ List.range ports.length, HasCap (objects ports) i := by
    intro i hi
    rw [List.mem_range] at hi
    have hobj : objects ports i = ports[i] := by rw [objects, List.getD_eq_getElem _ _ hi]
    obtain ⟨c, hc, hpos⟩ := hcap _ (List.getElem_mem hi)
    exact ⟨c, by rw [hobj, hc], hpos⟩
  obtain ⟨keyed, hkeyed, hfst, hcaps⟩ := keyedRefs_ok hall
  have hperm : ((sortRefs keyed).map Prod.fst).Perm (List.range ports.length) := by
    rw [← hfst]
    exact (List.perm_insertionSort _ keyed).map _
  have hasc : keyed.Pairwise fun a b => a.1 < b.1 := by
    rw [← List.pairwise_map (f := Prod.fst) (R := (· < ·)), hfst]
    exact List.pairwise_lt_range
  have hstable :
    ((sortRefs keyed).map Prod.fst).Pairwise fun i j => capOf (objects ports) j < capOf (objects ports) i ∨
      capOf (objects ports) i = capOf (objects ports) j ∧ i < j := by
    rw [List.pairwise_map]
    refine (sortRefs_stable hasc).imp_of_mem fun {a b} ha hb h => ?_
    rw [← hcaps a ((List.perm_insertionSort _ keyed).mem_iff.mp ha),
      ← hcaps b ((List.perm_insertionSort _ keyed).mem_iff.mp hb)]
    exact h
  have hall' : ∀ i ∈ (sortRefs keyed).map Prod.fst, HasCap (objects ports) i :=
    fun i hi => hall i (hperm.mem_iff.mp hi)
  have hneg : ¬ maxSize < ⟨0⟩ := fun h => absurd (Int64.lt_iff_toInt_lt.mp h) (by
    have hz : Int64.toInt 0 = 0 := Int64.toInt_zero
    rw [hz]
    exact Int.not_lt.mpr hmax)
  by_cases hzero : maxSize = ⟨0⟩
  · refine ⟨_, [], objects ports, ?_, hperm, hstable, ?_⟩
    · rw [limitInPlace, if_neg hneg, if_pos hzero]
    · rw [hzero, Bytes.zero_toInt]
      exact Truncated.nothing hall'
  · have hnd : ((sortRefs keyed).map Prod.fst).Nodup := hperm.nodup_iff.mpr List.nodup_range
    obtain ⟨kept, heap', hloop, htr⟩ := limitLoop_truncated hnd hall' hmax
    refine ⟨_, kept, heap', ?_, hperm, hstable, htr⟩
    rw [limitInPlace, if_neg hneg, if_neg hzero, hkeyed]
    exact hloop

/-- Two ports of 4 GiB and one of 8 GiB under a limit of 10 GiB. -/
theorem limitToMaxCap_truncates_ten_gib : ∃ kept heap',
    limitInPlace ⟨id, fun _ => ""⟩
        (objects [{ portName := "a", capOpt := some ⟨4 * GiB⟩ }, { portName := "b", capOpt := some ⟨8 * GiB⟩ },
          { portName := "c", capOpt := some ⟨4 * GiB⟩ }]) (List.range 3) ⟨10 * GiB⟩ = .ok (kept, heap') ∧
      (kept.map (capOf heap')).sum = 10 * 2 ^ 30 := by
  have hpos : 0 ≤ Bytes.toInt ⟨4 * GiB⟩ ∧ 0 ≤ Bytes.toInt ⟨8 * GiB⟩ ∧ 0 ≤ Bytes.toInt ⟨10 * GiB⟩ := by decide
  obtain ⟨order, kept, heap', hrun, hperm, -, htr⟩ := limitToMaxCap_truncates ⟨id, fun _ => ""⟩
    [{ portName := "a", capOpt := some ⟨4 * GiB⟩ }, { portName := "b", capOpt := some ⟨8 * GiB⟩ },
      { portName := "c", capOpt := some ⟨4 * GiB⟩ }] ⟨10 * GiB⟩ (by
    intro port hport
    simp only [List.mem_cons, List.not_mem_nil, or_false] at hport
    rcases hport with rfl | rfl | rfl
    · exact ⟨_, rfl, hpos.1⟩
    · exact ⟨_, rfl, hpos.2.1⟩
    · exact ⟨_, rfl, hpos.1⟩) hpos.2.2
  refine ⟨kept, heap', hrun, ?_⟩
  rw [htr.total, (hperm.map _).sum_eq]
  decide

/-! ## Values -/

section Values

variable {heap : Objects}

/-- The ports that the loop keeps, as values. -/
theorem limitLoop_values {l : List (ℕ × Bytes)} (hnd : (l.map Prod.fst).Nodup)
    (hcap : ∀ p ∈ l, (heap p.1).capOpt = some p.2) (remaining : Bytes) :
    ∃ kept heap', limitLoop heap remaining (l.map Prod.fst) = .ok (kept, heap') ∧
      kept.map heap' = limitGo remaining (l.map fun p => (heap p.1, p.2)) ∧
      (∀ mem ∈ kept, mem ∈ l.map Prod.fst) ∧ ∀ mem ∉ l.map Prod.fst, heap' mem = heap mem := by
  induction l generalizing heap remaining with
  | nil => exact ⟨[], heap, rfl, rfl, fun mem h => h, fun mem _ => rfl⟩
  | cons p l ih =>
    obtain ⟨hfresh, hnd⟩ := List.nodup_cons.mp hnd
    have htail : ∀ q ∈ l, (heap q.1).capOpt = some q.2 := fun q hq => hcap q (List.mem_cons_of_mem _ hq)
    by_cases hstop : remaining ≤ ⟨0⟩
    · have hnone : remaining.toInt ≤ 0 := Bytes.le_iff.mp hstop
      refine ⟨[], heap, limitLoop_nonpos hnone, (limitGo_nonpos hnone).symm, ?_, fun mem _ => rfl⟩
      exact fun mem h => absurd h List.not_mem_nil
    · have hne : ∀ q ∈ l, q.1 ≠ p.1 := fun q hq heq => hfresh (heq ▸ List.mem_map_of_mem hq)
      set capped := if p.2 ≤ remaining then p.2 else remaining with hcapped
      set heap₁ := Function.update heap p.1 ((heap p.1).withCap capped) with hheap₁
      have hcap₁ : ∀ q ∈ l, (heap₁ q.1).capOpt = some q.2 := by
        intro q hq
        rw [hheap₁, Function.update_of_ne (hne q hq)]
        exact htail q hq
      obtain ⟨kept, heap', hloop, hvals, hsub, hframe⟩ := ih hnd hcap₁ (remaining - capped)
      have hsame : (l.map fun q => (heap₁ q.1, q.2)) = l.map fun q => (heap q.1, q.2) := by
        refine List.map_congr_left fun q hq => ?_
        rw [hheap₁, Function.update_of_ne (hne q hq)]
      refine ⟨p.1 :: kept, heap', ?_, ?_, ?_, ?_⟩
      · rw [List.map_cons, limitLoop, if_neg hstop, DDR4PortParams.getCap_ok_iff.mpr (hcap p List.mem_cons_self)]
        show (limitLoop heap₁ (remaining - capped) _).bind _ = _
        rw [hloop]
        rfl
      · have hhead : heap' p.1 = (heap p.1).withCap capped := by
          rw [hframe p.1 hfresh, hheap₁, Function.update_self]
        rw [List.map_cons, List.map_cons, limitGo, if_neg hstop, hhead, hvals, hsame]
      · intro mem hmem
        rw [List.map_cons]
        rcases List.mem_cons.mp hmem with rfl | hmem
        · exact List.mem_cons_self
        · exact List.mem_cons_of_mem _ (hsub mem hmem)
      · intro mem hmem
        rw [List.map_cons, List.mem_cons, not_or] at hmem
        rw [hframe mem hmem.2, hheap₁, Function.update_of_ne hmem.1]

theorem keyed_map {refs : List (ℕ × Bytes)} (h : ∀ p ∈ refs, (heap p.1).capOpt = some p.2) :
    keyed (refs.map fun p => heap p.1) = .ok (refs.map fun p => (heap p.1, p.2)) := by
  unfold keyed
  induction refs with
  | nil => rfl
  | cons p refs ih =>
    rw [List.map_cons, List.mapM_cons, ih fun q hq => h q (List.mem_cons_of_mem _ hq),
      DDR4PortParams.getCap_ok_iff.mpr (h p List.mem_cons_self)]
    rfl

/-- On ports that are all different objects the result is that of `limitToMaxCap` on values. -/
theorem limitInPlace_eq (locale : Locale) (ports : List DDR4PortParams) (maxSize : Bytes)
    (hcap : ∀ i ∈ List.range ports.length, HasCap (objects ports) i) :
    (limitInPlace locale (objects ports) (List.range ports.length) maxSize).map (fun r => r.1.map r.2) =
      limitToMaxCap locale ports maxSize := by
  have hvals : ports = (List.range ports.length).map (objects ports) := by
    refine List.ext_getElem (by simp) fun i hi _ => ?_
    rw [List.getElem_map, List.getElem_range, objects, List.getD_eq_getElem _ _ hi]
  obtain ⟨refs, hrefs, hfst, hcaps⟩ := keyedRefs_ok hcap
  have hrec : ∀ p ∈ refs, (objects ports p.1).capOpt = some p.2 := by
    intro p hp
    obtain ⟨c, hc, -⟩ := hcap p.1 (hfst ▸ List.mem_map_of_mem hp)
    have hsame : p.2.toInt = c.toInt := (hcaps p hp).trans (HasCap.capOf_eq hc)
    rw [hc, Bytes.toInt_inj.mp hsame]
  have hkeyed : keyed ports = .ok (refs.map fun p => (objects ports p.1, p.2)) := by
    have hmap : (refs.map fun p => objects ports p.1) = ports := by
      have hcomp : (refs.map fun p => objects ports p.1) = (refs.map Prod.fst).map (objects ports) := by
        rw [List.map_map]
        rfl
      rw [hcomp, hfst]
      exact hvals.symm
    rw [← keyed_map hrec, hmap]
  have hsort : sortByCap (refs.map fun p => (objects ports p.1, p.2)) =
      (sortRefs refs).map fun p => (objects ports p.1, p.2) :=
    (List.map_insertionSort (fun a b : ℕ × Bytes => b.2 ≤ a.2) (fun a b : DDR4PortParams × Bytes => b.2 ≤ a.2)
      (fun p => (objects ports p.1, p.2)) refs fun a _ b _ => Iff.rfl).symm
  rw [limitInPlace, limitToMaxCap]
  split
  · rfl
  · split
    · rfl
    · have hmem : ∀ p ∈ sortRefs refs, p ∈ refs := fun p hp => (List.perm_insertionSort _ refs).mem_iff.mp hp
      have hnd : ((sortRefs refs).map Prod.fst).Nodup := by
        refine ((List.perm_insertionSort _ refs).map Prod.fst).nodup_iff.mpr ?_
        rw [hfst]
        exact List.nodup_range
      have hcaps : ∀ p ∈ sortRefs refs, (objects ports p.1).capOpt = some p.2 := fun p hp => hrec p (hmem p hp)
      obtain ⟨kept, heap', hloop, hkept, -, -⟩ := limitLoop_values hnd hcaps maxSize
      rw [hrefs, hkeyed]
      show (limitLoop _ _ _).map _ = Except.ok (limitGo maxSize (sortByCap _))
      rw [hloop, hsort, ← hkept]
      rfl

end Values

end Soceteer.Mem
