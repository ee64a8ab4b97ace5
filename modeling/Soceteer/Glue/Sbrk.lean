import Soceteer.Glue.Dtb
import Mathlib.Algebra.Group.Nat.Defs
import Mathlib.Data.Set.BooleanAlgebra
import Mathlib.Data.Set.Disjoint
import Mathlib.Order.CompletePartialOrder
import Mathlib.Order.Interval.Set.Basic
import Mathlib.Tactic.SplitIfs

/-!
# Soceteer.Glue.Sbrk — `_sbrk` and the heap below and above the stacks

`_sbrk` (`posix/sbrk.c`) moves one break through two regions: `[_end, __stack_start)`, and, once the device tree is
parsed, `[stacks_end, soct_ram_end())`.

* `Image`, `Statics`: what is linked and described in the tree, and the static variables.
* `soctRamEnd`, `stacksEnd`, `soctHeapRemaining`, `sbrk`: the functions.
* `Arena.serve`: which block a request gets, over natural numbers; `sbrk_serve` says that `sbrk` gives that block.
* `Inv`: where the break is, in every state of a run.
* `heap_safe`: the blocks of a run are disjoint and in their regions, calls fail only for want of room, and
  `soct_heap_remaining` is not less than what a call can get.
-/

namespace Soceteer.Glue

/-! ## The functions -/

/-- The linker's symbols and the device tree. -/
structure Image (w : ℕ) where
  target : Target
  tree : Option DtbNode
  _end : BitVec w
  stackStart : BitVec w
  stackSize : BitVec w

/-- The static variables: `curbrk`, `s_dtb_ready`, `cached` of `soct_ram_end`, and whether `errno` is `ENOMEM`. -/
structure Statics (w : ℕ) where
  curbrk : BitVec w
  ready : Bool
  cached : BitVec w
  enomem : Bool

variable {w : ℕ} (E : Image w)

/-- The root of the tree; there is none before it is parsed. -/
def root (g : Statics w) : Option DtbNode := if g.ready then E.tree else none

/-- `UINTPTR_MAX` where an address of 64 bits is too large. -/
def clip (w : ℕ) (x : BitVec 64) : BitVec w := if 2 ^ w - 1 < x.toNat then BitVec.allOnes w else x.setWidth w

/-- The end of the range with `_end` in it. -/
def ramEndIn (ranges : List (BitVec 64 × BitVec 64)) : BitVec w :=
  match ranges.find? fun r => r.1 ≤ E._end.setWidth 64 ∧ E._end.setWidth 64 < r.1 + r.2 with
  | none => 0
  | some r => clip w (r.1 + r.2)

def soctRamEnd : StateM (Statics w) (BitVec w) := do
  let g ← get
  if g.cached ≠ 0 ∨ ¬ g.ready then return g.cached
  match dtbFind (root E g) [] with
  | none => return 0
  | some node =>
    let ramEnd := ramEndIn E (memoryRanges E.target node)
    set { g with cached := ramEnd }
    return ramEnd

/-- The first address above the stacks. -/
def stacksEnd (g : Statics w) : BitVec w :=
  let harts := nHarts (root E g)
  let harts := if harts < 1 then 1 else harts
  E.stackStart + BitVec.ofInt w harts * E.stackSize

def soctHeapRemaining : StateM (Statics w) (BitVec w) := do
  let ramEnd ← soctRamEnd E
  let g ← get
  if g.curbrk ≤ E.stackStart then
    let rem := E.stackStart - g.curbrk
    if ramEnd ≠ 0 then
      let extStart := stacksEnd E g
      if extStart < ramEnd then return rem + (ramEnd - extStart)
    return rem
  return if g.curbrk < ramEnd then ramEnd - g.curbrk else 0

/-- `errno = ENOMEM; return (void *) (-1);` -/
def noMem : StateM (Statics w) (Option (BitVec w)) := do
  modify fun g => { g with enomem := true }
  return none

/-- The check of the extended region, and the new break. -/
def extend (oldbrk newbrk : BitVec w) : StateM (Statics w) (Option (BitVec w)) := do
  if E.stackStart < oldbrk then
    let ramEnd ← soctRamEnd E
    if ramEnd = 0 ∨ newbrk < oldbrk ∨ ramEnd < newbrk ∨ newbrk < stacksEnd E (← get) then return ← noMem
  modify fun g => { g with curbrk := newbrk }
  return some oldbrk

def sbrk (incr : BitVec w) : StateM (Statics w) (Option (BitVec w)) := do
  let oldbrk := (← get).curbrk
  let newbrk := oldbrk + incr
  if incr.toInt < 0 then return ← noMem
  if newbrk < oldbrk then return ← noMem
  if oldbrk ≤ E.stackStart ∧ E.stackStart < newbrk then
    if (← soctRamEnd E) = 0 then return ← noMem
    let oldbrk := stacksEnd E (← get)
    extend E oldbrk (oldbrk + incr)
  else extend E oldbrk newbrk

/-! ## What they compute -/

namespace Image

/-- `soct_ram_end` of the tree, zero if it is not known. -/
def ramEnd : BitVec w :=
  match E.tree with
  | none => 0
  | some node => ramEndIn E (memoryRanges E.target node)

/-- `stacks_end` of the tree. -/
def stacksEnd : BitVec w := Glue.stacksEnd E { curbrk := E._end, ready := true, cached := 0, enomem := false }

end Image

/-- What `soct_ram_end` returns. -/
def known (g : Statics w) : BitVec w := if g.ready then E.ramEnd else 0

/-- The value kept is the one that would be found. -/
def Cached (g : Statics w) : Prop := g.cached = 0 ∨ g.cached = known E g

variable {E} {g : Statics w} {incr oldbrk newbrk : BitVec w}

theorem soctRamEnd_run (h : Cached E g) : soctRamEnd E g = (known E g, { g with cached := known E g }) := by
  have hrun : soctRamEnd E g = if g.cached ≠ 0 ∨ ¬ g.ready then (g.cached, g) else
      match root E g with
      | none => (0, g)
      | some node => (ramEndIn E (memoryRanges E.target node),
          { g with cached := ramEndIn E (memoryRanges E.target node) }) := by
    rw [soctRamEnd]
    simp only [bind, StateT.bind, get, getThe, MonadStateOf.get, StateT.get, pure, dtbFind]
    split_ifs
    · rfl
    · cases root E g <;> rfl
  have hsame : g.cached = known E g → { g with cached := known E g } = g := fun heq => by rw [← heq]
  rw [hrun]
  split_ifs with hc
  · have heq : g.cached = known E g := by
      rcases h with hz | heq
      · rw [hz, known, if_neg (hc.resolve_left (not_not.mpr hz))]
      · exact heq
    rw [hsame heq, heq]
  · obtain ⟨hz, hr⟩ := not_or.mp hc
    rw [not_not] at hz hr
    rw [root, known, if_pos hr, if_pos hr, Image.ramEnd]
    split
    · next hnone => exact Prod.ext rfl (hz ▸ rfl)
    · rfl

/-- `extend` down to its tests. -/
theorem extend_run (h : Cached E g) : extend E oldbrk newbrk g =
    if E.stackStart < oldbrk then
      if known E g = 0 ∨ newbrk < oldbrk ∨ known E g < newbrk ∨ newbrk < stacksEnd E g then
        (none, { g with cached := known E g, enomem := true })
      else (some oldbrk, { g with cached := known E g, curbrk := newbrk })
    else (some oldbrk, { g with curbrk := newbrk }) := by
  have hstacks : stacksEnd E { g with cached := known E g } = stacksEnd E g := rfl
  rw [extend]
  split_ifs with hlt hbad
  · simp only [bind, StateT.bind, soctRamEnd_run h, get, getThe, MonadStateOf.get, StateT.get, pure,
      hstacks, if_pos hbad]
    rfl
  · simp only [bind, StateT.bind, soctRamEnd_run h, get, getThe, MonadStateOf.get, StateT.get, pure,
      hstacks, if_neg hbad]
    rfl
  · rfl

/-- `sbrk` down to its tests. -/
theorem sbrk_run (h : Cached E g) : sbrk E incr g =
    if incr.toInt < 0 ∨ g.curbrk + incr < g.curbrk then (none, { g with enomem := true })
    else if g.curbrk ≤ E.stackStart ∧ E.stackStart < g.curbrk + incr then
      if known E g = 0 then (none, { g with cached := known E g, enomem := true })
      else extend E (stacksEnd E g) (stacksEnd E g + incr) { g with cached := known E g }
    else extend E g.curbrk (g.curbrk + incr) g := by
  rw [sbrk]
  simp only [bind, StateT.bind, get, getThe, MonadStateOf.get, StateT.get, pure]
  by_cases hneg : incr.toInt < 0
  · rw [if_pos hneg, if_pos (Or.inl hneg)]
    rfl
  by_cases hwrap : g.curbrk + incr < g.curbrk
  · rw [if_neg hneg, if_pos hwrap, if_pos (Or.inr hwrap)]
    rfl
  rw [if_neg hneg, if_neg hwrap, if_neg (not_or.mpr ⟨hneg, hwrap⟩)]
  split_ifs with hjump hz
  · simp only [StateT.bind, soctRamEnd_run h]
    change (if known E g = 0 then noMem else _) _ = _
    rw [if_pos hz]
    rfl
  · simp only [StateT.bind, soctRamEnd_run h]
    change (if known E g = 0 then noMem else _) _ = _
    rw [if_neg hz]
    rfl
  · rfl

/-! ## Blocks -/

/-- The addresses below the stacks, and those from `resume` on up to `top`, if it is known. -/
structure Arena where
  split : ℕ
  resume : ℕ
  top : Option ℕ

/-- The block that a request gets: at the break, if it is below the stacks and there is room, or else above
them. -/
def Arena.serve (A : Arena) (brk : ℕ) (incr : ℤ) : Option ℕ :=
  if incr < 0 then none
  else if brk ≤ A.split ∧ incr ≤ (A.split : ℤ) - brk then some brk
  else match A.top with
    | none => none
    | some top => if incr ≤ (top : ℤ) - max brk A.resume then some (max brk A.resume) else none

def arena (E : Image w) (g : Statics w) : Arena where
  split := E.stackStart.toNat
  resume := E.stacksEnd.toNat
  top := if known E g = 0 then none else some (known E g).toNat

/-- The layout of an image. -/
structure Laid (E : Image w) : Prop where
  end_le : E._end ≤ E.stackStart
  start_lt : E.stackStart < E.stacksEnd

/-- The break is in the initial region, or between the stacks and the end of the RAM. -/
structure Inv (E : Image w) (g : Statics w) : Prop where
  cached : Cached E g
  place : E._end ≤ g.curbrk ∧ g.curbrk ≤ E.stackStart ∨
    known E g ≠ 0 ∧ E.stacksEnd ≤ g.curbrk ∧ g.curbrk ≤ known E g

/-- What a call does, over natural numbers. -/
structure Serves (E : Image w) (g : Statics w) (incr : BitVec w) (r : Option (BitVec w) × Statics w) : Prop where
  ret : r.1.map BitVec.toNat = (arena E g).serve g.curbrk.toNat incr.toInt
  brk : r.2.curbrk.toNat = ((arena E g).serve g.curbrk.toNat incr.toInt).elim g.curbrk.toNat (· + incr.toNat)
  ready : r.2.ready = g.ready
  cached : Cached E r.2

theorem add_lt_iff {x y : BitVec w} : x + y < x ↔ 2 ^ w ≤ x.toNat + y.toNat := by
  have hx := x.isLt
  have hy := y.isLt
  rw [BitVec.lt_def, BitVec.toNat_add]
  rcases Nat.lt_or_ge (x.toNat + y.toNat) (2 ^ w) with hlt | hge
  · rw [Nat.mod_eq_of_lt hlt]
    omega
  · rw [Nat.mod_eq_sub_mod hge, Nat.mod_eq_of_lt (by omega)]
    omega

theorem toNat_add_of_not_lt {x y : BitVec w} (h : ¬ x + y < x) : (x + y).toNat = x.toNat + y.toNat := by
  rw [add_lt_iff] at h
  exact BitVec.toNat_add_of_lt (by omega)

theorem toInt_of_nonneg (h : ¬ incr.toInt < 0) : incr.toInt = incr.toNat := by
  have hlt := incr.isLt
  rw [BitVec.toInt_eq_toNat_cond] at h ⊢
  split_ifs at h ⊢ <;> omega

/-- The stacks end where the tree says, if the end of the RAM is known. -/
theorem stacksEnd_of_known (h : known E g ≠ 0) : stacksEnd E g = E.stacksEnd := by
  have hr : g.ready = true := by
    by_contra hr
    exact h (if_neg hr)
  rw [Image.stacksEnd, stacksEnd, stacksEnd, root, root, hr]

theorem Arena.serve_natCast (A : Arena) (brk n : ℕ) : A.serve brk n =
    if brk + n ≤ A.split then some brk
    else match A.top with
      | none => none
      | some top => if max brk A.resume + n ≤ top then some (max brk A.resume) else none := by
  have hlow : (brk ≤ A.split ∧ (n : ℤ) ≤ (A.split : ℤ) - brk) ↔ brk + n ≤ A.split := by omega
  have hhigh : ∀ top : ℕ, (n : ℤ) ≤ (top : ℤ) - max brk A.resume ↔ max brk A.resume + n ≤ top := by
    intro top
    omega
  rw [serve, if_neg (by omega)]
  simp only [hlow, hhigh]

theorem serves_none {g' : Statics w} (hnone : (arena E g).serve g.curbrk.toNat incr.toInt = none)
    (hbrk : g'.curbrk = g.curbrk) (hready : g'.ready = g.ready) (hcached : Cached E g') :
      Serves E g incr (none, g') where
  ret := hnone.symm
  brk := by rw [hnone, hbrk]; rfl
  ready := hready
  cached := hcached

theorem serves_some {p : BitVec w} {g' : Statics w}
    (hsome : (arena E g).serve g.curbrk.toNat incr.toInt = some p.toNat)
    (hbrk : g'.curbrk.toNat = p.toNat + incr.toNat)
    (hready : g'.ready = g.ready) (hcached : Cached E g') : Serves E g incr (some p, g') where
  ret := hsome.symm
  brk := by rw [hsome, hbrk]; rfl
  ready := hready
  cached := hcached

/-- What the arena of a state serves. -/
theorem serve_arena (brk n : ℕ) : (arena E g).serve brk n =
    if brk + n ≤ E.stackStart.toNat then some brk
    else if known E g ≠ 0 ∧ max brk E.stacksEnd.toNat + n ≤ (known E g).toNat then some (max brk E.stacksEnd.toNat)
    else none := by
  rw [Arena.serve_natCast]
  change (if brk + n ≤ E.stackStart.toNat then some brk else _) = _
  congr 1
  change (match if known E g = 0 then none else some (known E g).toNat with | none => none | some top => _) = _
  by_cases hz : known E g = 0
  · rw [if_pos hz, if_neg fun h => h.1 hz]
  · rw [if_neg hz]
    simp only [ne_eq, hz, not_false_eq_true, true_and]
    rfl

/-- The check of the extended region gives what the arena does. -/
theorem extend_serve (hE : Laid E) {g' : Statics w} (hcached : Cached E g') (hready : g'.ready = g.ready)
    (hbrk : g'.curbrk = g.curbrk) (hneg : ¬ incr.toInt < 0)
    (habove : E.stackStart.toNat < g.curbrk.toNat + incr.toNat)
    (hold : oldbrk.toNat = max g.curbrk.toNat E.stacksEnd.toNat) :
    Serves E g incr (extend E oldbrk (oldbrk + incr) g') := by
  have hknown : known E g' = known E g := by rw [known, known, hready]
  have hstart := BitVec.lt_def.mp hE.start_lt
  rw [extend_run hcached, if_pos (BitVec.lt_def.mpr (by omega)), hknown]
  split_ifs with hbad
  · refine serves_none ?_ hbrk hready (Or.inr hknown.symm)
    rw [toInt_of_nonneg hneg, serve_arena, if_neg (by omega), if_neg]
    rintro ⟨hz, hfit⟩
    have hlt := (known E g).isLt
    have hadd : (oldbrk + incr).toNat = oldbrk.toNat + incr.toNat :=
      toNat_add_of_not_lt fun hwrap => by rw [add_lt_iff] at hwrap; omega
    rw [stacksEnd_of_known (hknown ▸ hz), BitVec.lt_def, BitVec.lt_def, BitVec.lt_def, hadd] at hbad
    rcases hbad with h | h | h | h
    · exact hz h
    all_goals omega
  · obtain ⟨hz, hbad⟩ := not_or.mp hbad
    obtain ⟨hwrap, hbad⟩ := not_or.mp hbad
    have htop := (not_or.mp hbad).1
    have hadd := toNat_add_of_not_lt hwrap
    rw [BitVec.lt_def, hadd] at htop
    refine serves_some ?_ hadd hready (Or.inr hknown.symm)
    rw [toInt_of_nonneg hneg, serve_arena, if_neg (by omega), if_pos ⟨hz, by omega⟩, hold]

/-- **A call of `sbrk`** gives the block that the arena serves. -/
theorem sbrk_serve (hE : Laid E) (hi : Inv E g) (incr : BitVec w) : Serves E g incr (sbrk E incr g) := by
  have hend := BitVec.le_def.mp hE.end_le
  have hstart := BitVec.lt_def.mp hE.start_lt
  have hlt := (known E g).isLt
  have hlt' := E.stackStart.isLt
  rw [sbrk_run hi.cached]
  by_cases hneg : incr.toInt < 0
  · rw [if_pos (Or.inl hneg)]
    exact serves_none (if_pos hneg) rfl rfl hi.cached
  by_cases hwrap : g.curbrk + incr < g.curbrk
  · rw [if_pos (Or.inr hwrap)]
    refine serves_none ?_ rfl rfl hi.cached
    rw [add_lt_iff] at hwrap
    rw [toInt_of_nonneg hneg, serve_arena, if_neg (by omega), if_neg fun h => by omega]
  have hadd := toNat_add_of_not_lt hwrap
  rw [if_neg (not_or.mpr ⟨hneg, hwrap⟩)]
  split_ifs with hjump hz <;> rw [BitVec.le_def, BitVec.lt_def, hadd] at hjump
  · refine serves_none ?_ rfl rfl (Or.inr rfl)
    rw [toInt_of_nonneg hneg, serve_arena, if_neg (by omega), if_neg fun h => h.1 hz]
  · refine extend_serve hE (Or.inr rfl) rfl rfl hneg hjump.2 ?_
    rw [stacksEnd_of_known hz]
    omega
  · rcases hi.place with ⟨-, hle⟩ | ⟨hz, hge, -⟩
    · rw [BitVec.le_def] at hle
      rw [extend_run hi.cached, if_neg (by rw [BitVec.lt_def]; omega)]
      refine serves_some ?_ hadd rfl hi.cached
      rw [toInt_of_nonneg hneg, serve_arena, if_pos (by omega)]
    · rw [BitVec.le_def] at hge
      exact extend_serve hE hi.cached rfl rfl hneg (by omega) (by omega)

/-! ## Runs -/

inductive Event (w : ℕ)
  | sbrk (incr : BitVec w)
  | dtbReady

/-- A call in a run, with the states before and after it. -/
structure Call (w : ℕ) where
  before : Statics w
  incr : BitVec w
  ret : Option (BitVec w)
  after : Statics w

/-- The block that a call with a positive increment returns. -/
def Call.block (c : Call w) : Option (ℕ × ℕ) :=
  if 0 < c.incr.toInt then c.ret.map fun p => (p.toNat, p.toNat + c.incr.toNat) else none

/-- One call. -/
def call (E : Image w) (g : Statics w) (incr : BitVec w) : Call w :=
  { before := g, incr := incr, ret := (sbrk E incr g).1, after := (sbrk E incr g).2 }

/-- The calls of a run. -/
def calls (E : Image w) : Statics w → List (Event w) → List (Call w)
  | _, [] => []
  | g, .sbrk incr :: events => call E g incr :: calls E (call E g incr).after events
  | g, .dtbReady :: events => calls E { g with ready := true } events

def start (E : Image w) : Statics w := { curbrk := E._end, ready := false, cached := 0, enomem := false }

/-- What `soct_heap_remaining` returns. -/
def remaining (E : Image w) (g : Statics w) : ℕ := (soctHeapRemaining E g).1.toNat

theorem inv_start (hE : Laid E) : Inv E (start E) where
  cached := Or.inl rfl
  place := Or.inl ⟨BitVec.le_refl _, hE.end_le⟩

theorem Inv.dtbReady (hi : Inv E g) : Inv E { g with ready := true } := by
  cases hr : g.ready with
  | true =>
    have hsame : { g with ready := true } = g := by rw [← hr]
    rw [hsame]
    exact hi
  | false =>
    have hz : known E g = 0 := by rw [known, hr]; rfl
    refine ⟨Or.inl (hi.cached.elim id fun h => h.trans hz), Or.inl ?_⟩
    exact hi.place.resolve_right fun h => h.1 hz

/-- There is room for `n` more bytes, below the stacks or above them. -/
def Room (E : Image w) (g : Statics w) (n : ℕ) : Prop :=
  g.curbrk.toNat + n ≤ E.stackStart.toNat ∨
    known E g ≠ 0 ∧ max g.curbrk.toNat E.stacksEnd.toNat + n ≤ (known E g).toNat

section Calls

variable (hE : Laid E) (hi : Inv E g)
include hE hi

/-- A call that fails. -/
theorem Inv.call_none (hret : (call E g incr).ret = none) :
    (call E g incr).after.curbrk.toNat = g.curbrk.toNat ∧ (0 ≤ incr.toInt → ¬ Room E g incr.toNat) := by
  have hserve := sbrk_serve hE hi incr
  have hnone : (arena E g).serve g.curbrk.toNat incr.toInt = none := by
    rw [← hserve.ret]
    exact congrArg (Option.map BitVec.toNat) hret
  refine ⟨by have hbrk := hserve.brk; rwa [hnone] at hbrk, fun hpos hroom => ?_⟩
  rw [toInt_of_nonneg (by omega), serve_arena] at hnone
  split_ifs at hnone with hlow hhigh
  exact hroom.elim hlow hhigh

/-- A call that returns a block: below the stacks or above them. -/
theorem Inv.call_some {p : BitVec w} (hret : (call E g incr).ret = some p) :
    incr.toInt = incr.toNat ∧ (call E g incr).after.curbrk.toNat = p.toNat + incr.toNat ∧
    (p.toNat = g.curbrk.toNat ∧ p.toNat + incr.toNat ≤ E.stackStart.toNat ∨
      known E g ≠ 0 ∧ p.toNat = max g.curbrk.toNat E.stacksEnd.toNat ∧
        p.toNat + incr.toNat ≤ (known E g).toNat) := by
  have hserve := sbrk_serve hE hi incr
  have hsome : (arena E g).serve g.curbrk.toNat incr.toInt = some p.toNat := by
    rw [← hserve.ret]
    exact congrArg (Option.map BitVec.toNat) hret
  have hneg : ¬ incr.toInt < 0 := fun hneg => by
    rw [Arena.serve, if_pos hneg] at hsome
    exact nomatch hsome
  refine ⟨toInt_of_nonneg hneg, by have hbrk := hserve.brk; rwa [hsome] at hbrk, ?_⟩
  rw [toInt_of_nonneg hneg, serve_arena] at hsome
  split_ifs at hsome with hlow hhigh <;> rw [Option.some.injEq] at hsome
  · exact Or.inl ⟨hsome.symm, by omega⟩
  · exact Or.inr ⟨hhigh.1, hsome.symm, by omega⟩

theorem Inv.known_after : known E (call E g incr).after = known E g := by
  rw [known, known, call, (sbrk_serve hE hi incr).ready]

/-- A call keeps the break in its regions. -/
theorem Inv.call : Inv E (call E g incr).after := by
  refine ⟨(sbrk_serve hE hi incr).cached, ?_⟩
  have hstart := BitVec.lt_def.mp hE.start_lt
  have hplace := hi.place
  simp only [BitVec.le_def] at hplace
  rw [hi.known_after hE]
  simp only [BitVec.le_def]
  cases hret : (Glue.call E g incr).ret with
  | none => rwa [(hi.call_none hE hret).1]
  | some p =>
    obtain ⟨-, hbrk, ⟨hp, hle⟩ | ⟨hz, hp, hle⟩⟩ := hi.call_some hE hret <;> rw [hbrk]
    · rcases hplace with ⟨hlo, -⟩ | ⟨-, hge, -⟩
      · exact Or.inl ⟨by omega, hle⟩
      · omega
    · exact Or.inr ⟨hz, by omega, hle⟩

/-- A block is at the break or above it, and in its region. -/
theorem Inv.block_mem {b : ℕ × ℕ} (hb : (Glue.call E g incr).block = some b) :
    g.curbrk.toNat ≤ b.1 ∧ b.2 = (Glue.call E g incr).after.curbrk.toNat ∧
      (E._end.toNat ≤ b.1 ∧ b.2 ≤ E.stackStart.toNat ∨ E.stacksEnd.toNat ≤ b.1 ∧ b.2 ≤ E.ramEnd.toNat) := by
  rw [Call.block] at hb
  split_ifs at hb with hpos
  obtain ⟨p, hret, rfl⟩ := Option.map_eq_some_iff.mp hb
  obtain ⟨-, hbrk, hcase⟩ := hi.call_some hE hret
  have hplace := hi.place
  simp only [BitVec.le_def] at hplace
  have hstart := BitVec.lt_def.mp hE.start_lt
  have hram : known E g ≠ 0 → known E g = E.ramEnd := by
    intro hz
    rw [known] at hz ⊢
    split_ifs at hz ⊢ with hr
    · rfl
    · exact absurd rfl hz
  change _ ≤ p.toNat ∧ p.toNat + incr.toNat = _ ∧ _
  refine ⟨by omega, hbrk.symm, ?_⟩
  rcases hcase with ⟨hp, hle⟩ | ⟨hz, hp, hle⟩
  · exact Or.inl ⟨by omega, hle⟩
  · rw [hram hz] at hle
    exact Or.inr ⟨by omega, hle⟩

end Calls

/-- What holds at every call holds along a run. -/
theorem calls_forall (hE : Laid E) {P : Call w → Prop} (hP : ∀ g incr, Inv E g → P (call E g incr)) :
    ∀ (events : List (Event w)) (g : Statics w), Inv E g → ∀ c ∈ calls E g events, P c
  | [], _, _ => nofun
  | .dtbReady :: events, g, hi => calls_forall hE hP events _ hi.dtbReady
  | .sbrk incr :: events, g, hi => by
    intro c hc
    rcases List.mem_cons.mp hc with rfl | hc
    · exact hP g incr hi
    · exact calls_forall hE hP events _ (hi.call hE) c hc

/-- The blocks of a run go up. -/
theorem blocks_ascend (hE : Laid E) : ∀ (events : List (Event w)) (g : Statics w), Inv E g →
    (∀ b ∈ (calls E g events).filterMap Call.block, g.curbrk.toNat ≤ b.1) ∧
      ((calls E g events).filterMap Call.block).Pairwise fun a b => a.2 ≤ b.1
  | [], _, _ => ⟨nofun, List.Pairwise.nil⟩
  | .dtbReady :: events, g, hi => blocks_ascend hE events _ hi.dtbReady
  | .sbrk incr :: events, g, hi => by
    obtain ⟨hfrom, hpair⟩ := blocks_ascend hE events _ (hi.call hE)
    have hup : g.curbrk.toNat ≤ (call E g incr).after.curbrk.toNat := by
      cases hret : (call E g incr).ret with
      | none => rw [(hi.call_none hE hret).1]
      | some p =>
        obtain ⟨-, hbrk, hcase⟩ := hi.call_some hE hret
        omega
    rw [calls]
    cases hb : (call E g incr).block with
    | none =>
      rw [List.filterMap_cons_none hb]
      exact ⟨fun b hmem => hup.trans (hfrom b hmem), hpair⟩
    | some b =>
      obtain ⟨hle, htop, -⟩ := hi.block_mem hE hb
      rw [List.filterMap_cons_some hb]
      refine ⟨fun b' hmem => ?_, List.pairwise_cons.mpr ⟨fun b' hmem => htop.trans_le (hfrom b' hmem), hpair⟩⟩
      rcases List.mem_cons.mp hmem with rfl | hmem
      · exact hle
      · exact hup.trans (hfrom b' hmem)

/-! ## What remains -/

theorem soctHeapRemaining_run (h : Cached E g) : (soctHeapRemaining E g).1 =
    if g.curbrk ≤ E.stackStart then
      if known E g ≠ 0 ∧ stacksEnd E g < known E g then E.stackStart - g.curbrk + (known E g - stacksEnd E g)
      else E.stackStart - g.curbrk
    else if g.curbrk < known E g then known E g - g.curbrk else 0 := by
  have hstacks : stacksEnd E { g with cached := known E g } = stacksEnd E g := rfl
  rw [soctHeapRemaining]
  simp only [bind, StateT.bind, soctRamEnd_run h, get, getThe, MonadStateOf.get, StateT.get, pure, hstacks]
  split_ifs <;> first | rfl | tauto

/-- `soct_heap_remaining`, over natural numbers. -/
theorem Inv.remaining_eq (hE : Laid E) (hi : Inv E g) : remaining E g =
    if g.curbrk.toNat ≤ E.stackStart.toNat then
      E.stackStart.toNat - g.curbrk.toNat + ((known E g).toNat - E.stacksEnd.toNat)
    else (known E g).toNat - g.curbrk.toNat := by
  have hstart := BitVec.lt_def.mp hE.start_lt
  have hlt := (known E g).isLt
  rw [remaining, soctHeapRemaining_run hi.cached]
  by_cases hlow : g.curbrk ≤ E.stackStart
  · rw [if_pos hlow, if_pos (BitVec.le_def.mp hlow)]
    have hsub := BitVec.toNat_sub_of_le hlow
    split_ifs with hext
    · obtain ⟨hz, hext⟩ := hext
      rw [stacksEnd_of_known hz] at hext ⊢
      have hsub' := BitVec.toNat_sub_of_le (BitVec.le_of_lt hext)
      rw [BitVec.lt_def] at hext
      rw [BitVec.toNat_add_of_lt (by omega), hsub, hsub']
    · have hzero : (known E g).toNat - E.stacksEnd.toNat = 0 := by
        by_cases hz : known E g = 0
        · simp [hz]
        · rw [stacksEnd_of_known hz, BitVec.lt_def] at hext
          exact Nat.sub_eq_zero_of_le (not_lt.mp fun h => hext ⟨hz, h⟩)
      rw [hsub, hzero, Nat.add_zero]
  · rw [if_neg hlow, if_neg fun h => hlow (BitVec.le_def.mpr h)]
    split_ifs with hlt'
    · exact BitVec.toNat_sub_of_le (BitVec.le_of_lt hlt')
    · rw [BitVec.lt_def] at hlt'
      rw [Nat.sub_eq_zero_of_le (not_lt.mp hlt')]
      exact BitVec.toNat_zero

/-- A block comes off what remains. -/
theorem Inv.remaining_call (hE : Laid E) (hi : Inv E g) {p : BitVec w} (hret : (Glue.call E g incr).ret = some p) :
    remaining E (Glue.call E g incr).after + incr.toNat ≤ remaining E g := by
  have hstart := BitVec.lt_def.mp hE.start_lt
  obtain ⟨-, hbrk, hcase⟩ := hi.call_some hE hret
  rw [(hi.call hE).remaining_eq hE, hi.remaining_eq hE, hbrk, hi.known_after hE]
  split_ifs <;> omega

theorem Inv.le_remaining (hE : Laid E) (hi : Inv E g) {n : ℕ} (h : Room E g n) : n ≤ remaining E g := by
  have hstart := BitVec.lt_def.mp hE.start_lt
  have hcase : g.curbrk.toNat + n ≤ E.stackStart.toNat ∨
      max g.curbrk.toNat E.stacksEnd.toNat + n ≤ (known E g).toNat := h.imp_right And.right
  rw [hi.remaining_eq hE]
  split_ifs <;> omega

/-! ## The heap over whole runs -/

/-- The heap is safe in a run of calls. -/
structure HeapSafe (E : Image w) (cs : List (Call w)) : Prop where
  disjoint : (cs.filterMap Call.block).Pairwise fun a b => Disjoint (Set.Ico a.1 a.2) (Set.Ico b.1 b.2)
  inside : ∀ b ∈ cs.filterMap Call.block,
    Set.Ico b.1 b.2 ⊆ Set.Ico E._end.toNat E.stackStart.toNat ∨
      Set.Ico b.1 b.2 ⊆ Set.Ico E.stacksEnd.toNat E.ramEnd.toNat
  off_stacks :
    ∀ b ∈ cs.filterMap Call.block, Disjoint (Set.Ico b.1 b.2) (Set.Ico E.stackStart.toNat E.stacksEnd.toNat)
  failed : ∀ c ∈ cs, c.ret = none → c.after.curbrk = c.before.curbrk
  succeeds : ∀ c ∈ cs, 0 ≤ c.incr.toInt → (c.ret.isSome = true ↔
    c.before.curbrk ≤ E.stackStart ∧ c.incr.toInt ≤ (E.stackStart.toNat : ℤ) - c.before.curbrk.toNat ∨
    (c.before.ready = true ∧ E.ramEnd ≠ 0) ∧
      c.incr.toInt ≤ (E.ramEnd.toNat : ℤ) - max c.before.curbrk.toNat E.stacksEnd.toNat)
  drops : ∀ c ∈ cs, c.ret.isSome = true → c.incr.toInt ≤ (remaining E c.before : ℤ) - remaining E c.after
  enough : ∀ c ∈ cs, ∀ incr, (call E c.before incr).ret.isSome = true → incr.toInt ≤ remaining E c.before

/-- A call that asks for zero or more bytes returns a block exactly if there is room. -/
theorem Inv.isSome_iff (hE : Laid E) (hi : Inv E g) (hpos : 0 ≤ incr.toInt) :
    (Glue.call E g incr).ret.isSome = true ↔ Room E g incr.toNat := by
  cases hret : (Glue.call E g incr).ret with
  | none => exact ⟨nofun, fun h => absurd h ((hi.call_none hE hret).2 hpos)⟩
  | some p =>
    refine ⟨fun _ => ?_, fun _ => rfl⟩
    obtain ⟨-, -, ⟨hp, hle⟩ | ⟨hz, hp, hle⟩⟩ := hi.call_some hE hret
    · exact Or.inl (by omega)
    · exact Or.inr ⟨hz, by omega⟩

theorem known_ne_zero_iff : known E g ≠ 0 ↔ g.ready = true ∧ E.ramEnd ≠ 0 := by
  rw [known]
  split_ifs with hr
  · exact ⟨fun h => ⟨hr, h⟩, And.right⟩
  · exact ⟨fun h => absurd rfl h, fun h => absurd h.1 hr⟩

theorem known_of_ready (h : g.ready = true) : known E g = E.ramEnd := if_pos h

/-- **The heap over whole runs.**  Whatever is asked for, and whenever the device tree becomes ready, the blocks
are disjoint and in their regions, a call fails exactly for want of room, and `soct_heap_remaining` bounds what can
be had. -/
theorem heap_safe (hE : Laid E) (events : List (Event w)) : HeapSafe E (calls E (start E) events) := by
  have hrun {P : Call w → Prop} (hP : ∀ g incr, Inv E g → P (call E g incr)) :
      ∀ c ∈ calls E (start E) events, P c :=
    calls_forall hE hP events _ (inv_start hE)
  have hblocks : ∀ b ∈ (calls E (start E) events).filterMap Call.block,
      E._end.toNat ≤ b.1 ∧ b.2 ≤ E.stackStart.toNat ∨ E.stacksEnd.toNat ≤ b.1 ∧ b.2 ≤ E.ramEnd.toNat := by
    intro b hb
    obtain ⟨c, hc, hcb⟩ := List.mem_filterMap.mp hb
    exact hrun (P := fun c => c.block = some b → _) (fun g incr hi hb => (hi.block_mem hE hb).2.2) c hc hcb
  have hstart := BitVec.lt_def.mp hE.start_lt
  constructor
  case disjoint =>
    refine (blocks_ascend hE events _ (inv_start hE)).2.imp fun {a b} hle => ?_
    exact Set.disjoint_left.mpr fun x hx hx' => absurd (hx.2.trans_le hle) (not_lt.mpr hx'.1)
  case inside =>
    intro b hb
    exact (hblocks b hb).imp (fun h => Set.Ico_subset_Ico h.1 h.2) fun h => Set.Ico_subset_Ico h.1 h.2
  case off_stacks =>
    intro b hb
    have hin := hblocks b hb
    refine Set.disjoint_left.mpr fun x ⟨hx₁, hx₂⟩ ⟨hx₃, hx₄⟩ => ?_
    omega
  case failed =>
    exact hrun fun g incr hi hret => BitVec.eq_of_toNat_eq (hi.call_none hE hret).1
  case succeeds =>
    refine hrun fun g incr hi hpos => ?_
    change 0 ≤ incr.toInt at hpos
    rw [hi.isSome_iff hE hpos, Room, known_ne_zero_iff]
    change _ ↔ g.curbrk ≤ E.stackStart ∧ incr.toInt ≤ (E.stackStart.toNat : ℤ) - g.curbrk.toNat ∨
      (g.ready = true ∧ E.ramEnd ≠ 0) ∧ incr.toInt ≤ (E.ramEnd.toNat : ℤ) - max g.curbrk.toNat E.stacksEnd.toNat
    rw [toInt_of_nonneg (by omega), BitVec.le_def]
    refine or_congr (by omega) (and_congr_right fun hk => ?_)
    rw [known_of_ready hk.1]
    omega
  case drops =>
    refine hrun fun g incr hi hsome => ?_
    obtain ⟨p, hret⟩ := Option.isSome_iff_exists.mp hsome
    have hle := hi.remaining_call hE hret
    have hint := (hi.call_some hE hret).1
    change incr.toInt ≤ (remaining E g : ℤ) - remaining E (call E g incr).after
    omega
  case enough =>
    refine hrun fun g _ hi incr hsome => ?_
    obtain ⟨p, hret⟩ := Option.isSome_iff_exists.mp hsome
    have hint := (hi.call_some hE hret).1
    have hle := hi.le_remaining hE ((hi.isSome_iff hE (by omega)).mp hsome)
    change incr.toInt ≤ (remaining E g : ℤ)
    omega

/-- A property with its bytes, and zeros after them. -/
def propOf (name : CStr) (bytes : List UInt8) : DtbProp where
  name := name
  length := BitVec.ofNat 32 bytes.length
  data := fun i => bytes.getD i 0

/-- Two harts, and 64 KiB of memory at `0x80000000`. -/
def board64 : DtbNode :=
  let cpu : DtbNode := .mk (ascii "cpu") [propOf (ascii "device_type") (ascii "cpu" ++ [0])] []
  .mk [] [propOf (ascii "#address-cells") [0, 0, 0, 2], propOf (ascii "#size-cells") [0, 0, 0, 2]]
    [.mk (ascii "cpus") [] [cpu, cpu],
      .mk (ascii "memory@80000000")
        [propOf (ascii "device_type") (ascii "memory" ++ [0]),
          propOf (ascii "reg") [0, 0, 0, 0, 0x80, 0, 0, 0, 0, 0, 0, 0, 0, 1, 0, 0]] []]

/-- A program that ends at `0x80001000`, with stacks of 4 KiB at `0x80002000`. -/
def image64 : Image 64 where
  target := ⟨fun x n => x <<< n, fun _ _ _ => rfl⟩
  tree := some board64
  _end := 0x80001000
  stackStart := 0x80002000
  stackSize := 0x1000

theorem image64_laid : Laid image64 := ⟨by decide, by decide⟩

/-- The break jumps over the stacks once the tree is ready. -/
theorem image64_safe :
    let events : List (Event 64) := [.sbrk 0x800, .sbrk 0x900, .dtbReady, .sbrk 0x900, .sbrk (-1), .sbrk 0x10000]
    (calls image64 (start image64) events).map Call.ret = [some 0x80001000, none, some 0x80004000, none, none] ∧
      HeapSafe image64 (calls image64 (start image64) events) :=
  ⟨by decide, heap_safe image64_laid _⟩

end Soceteer.Glue
