import Soceteer.Lib.Bits

/-!
# Soceteer.Lib.Rtl — clocked memories in a subset of Verilog

A module is a list of register arrays and items: registers, `always @(posedge clk)` blocks and continuous assigns
of registers to slices of an output.  Names come from an arbitrary type `ν`; values are natural numbers.

* `Stmt.updates`: the nonblocking updates of a block, all right-hand sides read in the state before the edge.
* `Module.step`: one clock edge, the updates of all triggered blocks in textual order.
* `Module.output`: the word driven onto an output by the assigns.
* `override b os`: the last `some` of `os`, or `b`.  The bits and registers after an edge are overrides by what the
  updates write there (`testBit_applyAll`, `regs_applyAll`, `testBit_output`), which is how two descriptions of a
  memory are compared without looking at the order of independent writes (`override_flatMap_single`).
-/

namespace Soceteer.Rtl

open Bits

/-! ## Overrides -/

section Override

variable {α β : Type}

/-- The last `some` of the list, `b` if there is none. -/
def override (b : β) (os : List (Option β)) : β := os.foldl (fun b o => o.getD b) b

@[simp] theorem override_nil (b : β) : override b [] = b := rfl

@[simp] theorem override_cons (b : β) (o : Option β) (os : List (Option β)) :
    override b (o :: os) = override (o.getD b) os := rfl

@[simp] theorem override_append (b : β) (os os' : List (Option β)) :
    override b (os ++ os') = override (override b os) os' := List.foldl_append

theorem override_of_none {b : β} {os : List (Option β)} (h : ∀ o ∈ os, o = none) : override b os = b := by
  induction os generalizing b with
  | nil => rfl
  | cons o os ih =>
    rw [override_cons, h o (by simp)]
    exact ih fun o' ho' => h o' (by simp [ho'])

/-- Only one element of the index list contributes. -/
theorem override_flatMap_single {l : List α} (hl : l.Nodup) {f : α → List (Option β)} {x : α} (hx : x ∈ l)
    (h : ∀ y ∈ l, y ≠ x → ∀ o ∈ f y, o = none) (b : β) : override b (l.flatMap f) = override b (f x) := by
  induction l generalizing b with
  | nil => exact absurd hx (by simp)
  | cons y l ih =>
    rw [List.flatMap_cons, override_append]
    obtain ⟨hy, hl'⟩ := List.nodup_cons.mp hl
    rcases List.mem_cons.mp hx with rfl | hx'
    · refine override_of_none fun o ho => ?_
      obtain ⟨z, hz, hoz⟩ := List.mem_flatMap.mp ho
      exact h z (by simp [hz]) (by rintro rfl; exact hy hz) o hoz
    · rw [override_of_none (h y (by simp) (by rintro rfl; exact hy hx'))]
      exact ih hl' hx' (fun z hz => h z (by simp [hz])) b

theorem override_map_single {l : List α} (hl : l.Nodup) {f : α → Option β} {x : α} (hx : x ∈ l)
    (h : ∀ y ∈ l, y ≠ x → f y = none) (b : β) : override b (l.map f) = (f x).getD b := by
  have := override_flatMap_single hl (f := fun y => [f y]) hx (fun y hy hne o ho => by
    rw [List.mem_singleton.mp ho, h y hy hne]) b
  rwa [← List.map_eq_flatMap] at this

/-- Index lists whose elements contribute alike. -/
theorem override_flatMap_congr {l : List α} {f f' : α → List (Option β)}
    (h : ∀ x ∈ l, ∀ b, override b (f x) = override b (f' x)) (b : β) :
    override b (l.flatMap f) = override b (l.flatMap f') := by
  induction l generalizing b with
  | nil => rfl
  | cons x l ih =>
    rw [List.flatMap_cons, List.flatMap_cons, override_append, override_append, h x (by simp)]
    exact ih (fun y hy => h y (by simp [hy])) _

/-- All contributions agree and there is one. -/
theorem override_const {os : List (Option β)} {v : β} (h : ∀ o ∈ os, o = none ∨ o = some v) (hv : some v ∈ os)
    (b : β) : override b os = v := by
  induction os generalizing b with
  | nil => exact absurd hv (by simp)
  | cons o os ih =>
    rw [override_cons]
    by_cases hmem : some v ∈ os
    · exact ih (fun o' ho' => h o' (by simp [ho'])) hmem _
    · have ho : o = some v := by
        rcases List.mem_cons.mp hv with ho | ho
        · exact ho.symm
        · exact absurd ho hmem
      rw [ho, Option.getD_some]
      refine override_of_none fun o' ho' => ?_
      rcases h o' (by simp [ho']) with h' | h'
      · exact h'
      · exact absurd (h' ▸ ho') hmem

/-- Contributions that change nothing. -/
theorem override_self {os : List (Option β)} {b : β} (h : ∀ o ∈ os, o = none ∨ o = some b) :
    override b os = b := by
  by_cases hb : some b ∈ os
  · exact override_const h hb b
  · exact override_of_none fun o ho => (h o ho).resolve_right fun heq => hb (heq ▸ ho)

theorem override_map {γ : Type} (f : β → γ) (b : β) (os : List (Option β)) :
    f (override b os) = override (f b) (os.map (Option.map f)) := by
  induction os generalizing b with
  | nil => rfl
  | cons o os ih =>
    rw [List.map_cons, override_cons, override_cons, ih]
    cases o <;> rfl

/-- The bits of a word after conditional slice writes. -/
theorem testBit_foldl_setSlice (l : List α) (c : α → Bool) (lo w v : α → ℕ) (old i : ℕ) :
    (l.foldl (fun acc x => if c x then setSlice acc (lo x) (w x) (v x) else acc) old).testBit i =
      override (old.testBit i) (l.map fun x =>
        if c x ∧ lo x ≤ i ∧ i < lo x + w x then some ((v x).testBit (i - lo x)) else none) := by
  induction l generalizing old with
  | nil => rfl
  | cons x l ih =>
    rw [List.foldl_cons, List.map_cons, override_cons, ih]
    congr 1
    by_cases hc : c x = true
    · rw [if_pos hc, testBit_setSlice]
      by_cases hi : lo x ≤ i ∧ i < lo x + w x <;> simp [hc, hi]
    · simp [hc]

end Override

/-! ## Modules -/

/-- A constant part select, `[hi:lo]` or `[off +: width]`. -/
inductive Select
  | bits (hi lo : ℤ)
  | part (off width : ℤ)
deriving DecidableEq

def Select.lo : Select → ℕ
  | .bits _ lo => lo.toNat
  | .part off _ => off.toNat

def Select.width : Select → ℕ
  | .bits hi lo => (hi - lo + 1).toNat
  | .part _ width => width.toNat

variable {ν : Type}

/-- Statements of a clocked block. -/
inductive Stmt (ν : Type)
  | skip
  | seq (s t : Stmt ν)
  /-- `if (c[bit]) t else e` -/
  | cond (c : ν) (bit : ℕ) (t e : Stmt ν)
  /-- `arr[addr] <= rhs[..];` or `arr[addr][..] <= rhs[..];` -/
  | store (arr addr : ν) (sel : Option Select) (rhs : ν) (rhsSel : Select)
  /-- `reg <= arr[addr];` -/
  | load (reg arr addr : ν)

/-- A block of statements. -/
def Stmt.block (ss : List (Stmt ν)) : Stmt ν := ss.foldr .seq .skip

inductive Item (ν : Type)
  /-- `reg [hi:0] name;` -/
  | reg (name : ν) (hi : ℤ)
  /-- `always @(posedge clk) body` -/
  | always (clk : ν) (body : Stmt ν)
  /-- `assign lhs[..] = rhs;` -/
  | assign (lhs : ν) (sel : Select) (rhs : ν)

/-- `reg [hi:0] name [0:last];` -/
structure ArrayDecl (ν : Type) where
  name : ν
  hi : ℤ
  last : ℤ

inductive Dir
  | input
  | output
deriving DecidableEq

/-- A port; `hi` is absent for one bit. -/
structure PortDecl (ν : Type) where
  dir : Dir
  hi : Option ℤ
  name : ν

structure Module (ν : Type) where
  ports : List (PortDecl ν)
  arrays : List (ArrayDecl ν)
  items : List (Item ν)

/-- The contents of the registers and arrays. -/
structure State (ν : Type) where
  regs : ν → ℕ
  arrays : ν → ℕ → ℕ

/-- A nonblocking update: of a register, or of `width` bits from bit `lo` of an array element. -/
inductive Update (ν : Type)
  | reg (r : ν) (v : ℕ)
  | cell (arr : ν) (addr lo width v : ℕ)

/-- One clock edge: which clocks rise, and the inputs sampled. -/
structure Edge (ν : Type) where
  posedge : ν → Bool
  input : ν → ℕ

/-- The signals tested by a statement. -/
def Stmt.tested : Stmt ν → List ν
  | .seq s t => s.tested ++ t.tested
  | .cond c _ t e => c :: (t.tested ++ e.tested)
  | .skip | .store .. | .load .. => []

def Item.tested : Item ν → List ν
  | .always _ body => body.tested
  | _ => []

def Module.tested (m : Module ν) : List ν := m.items.flatMap Item.tested

theorem Stmt.tested_block (ss : List (Stmt ν)) : (Stmt.block ss).tested = ss.flatMap Stmt.tested := by
  induction ss with
  | nil => rfl
  | cons s ss ih =>
    rw [List.flatMap_cons, ← ih]
    rfl

variable [DecidableEq ν]

def Module.array? (m : Module ν) (arr : ν) : Option (ArrayDecl ν) := m.arrays.find? (fun d => d.name = arr)

/-- An index outside the array: such a store is dropped, such a load is undefined (`x`, here `0`). -/
def Module.inRange (m : Module ν) (arr : ν) (addr : ℕ) : Bool :=
  match m.array? arr with
  | some d => (addr : ℤ) ≤ d.last
  | none => false

def Module.elemWidth (m : Module ν) (arr : ν) : ℕ :=
  match m.array? arr with
  | some d => (d.hi + 1).toNat
  | none => 0

/-- The updates of a statement, all right-hand sides read in `σ`. -/
def Stmt.updates (m : Module ν) (input : ν → ℕ) (σ : State ν) : Stmt ν → List (Update ν)
  | .skip => []
  | .seq s t => s.updates m input σ ++ t.updates m input σ
  | .cond c bit t e => if (input c).testBit bit then t.updates m input σ else e.updates m input σ
  | .store arr addr sel rhs rhsSel =>
    if m.inRange arr (input addr) then
      let v := slice (input rhs) rhsSel.lo rhsSel.width
      match sel with
      | none => [.cell arr (input addr) 0 (m.elemWidth arr) v]
      | some sel => [.cell arr (input addr) sel.lo sel.width v]
    else []
  | .load reg arr addr => [.reg reg (if m.inRange arr (input addr) then σ.arrays arr (input addr) else 0)]

theorem Stmt.updates_cond (m : Module ν) (input : ν → ℕ) (σ : State ν) (c : ν) (bit : ℕ) (t e : Stmt ν) :
    (Stmt.cond c bit t e).updates m input σ =
      if (input c).testBit bit then t.updates m input σ else e.updates m input σ := rfl

theorem Stmt.updates_block (m : Module ν) (input : ν → ℕ) (σ : State ν) (ss : List (Stmt ν)) :
    (Stmt.block ss).updates m input σ = ss.flatMap (Stmt.updates m input σ) := by
  induction ss with
  | nil => rfl
  | cons s ss ih =>
    rw [List.flatMap_cons, ← ih]
    rfl

def Item.updates (m : Module ν) (e : Edge ν) (σ : State ν) : Item ν → List (Update ν)
  | .always clk body => if e.posedge clk then body.updates m e.input σ else []
  | _ => []

def Update.apply (σ : State ν) : Update ν → State ν
  | .reg r v => { σ with regs := Function.update σ.regs r v }
  | .cell arr addr lo width v =>
    let elems := Function.update (σ.arrays arr) addr (setSlice (σ.arrays arr addr) lo width v)
    { σ with arrays := Function.update σ.arrays arr elems }

def applyAll (σ : State ν) (us : List (Update ν)) : State ν := us.foldl Update.apply σ

/-- One clock edge. -/
def Module.step (m : Module ν) (σ : State ν) (e : Edge ν) : State ν :=
  applyAll σ (m.items.flatMap (Item.updates m e σ))

/-- A run of clock edges. -/
def Module.run (m : Module ν) (σ : State ν) (es : List (Edge ν)) : State ν := es.foldl m.step σ

def Item.drive (σ : State ν) (port : ν) (w : ℕ) : Item ν → ℕ
  | .assign lhs sel rhs => if lhs = port then setSlice w sel.lo sel.width (σ.regs rhs) else w
  | _ => w

/-- The word on an output port. -/
def Module.output (m : Module ν) (σ : State ν) (port : ν) : ℕ := m.items.foldl (Item.drive σ port) 0

/-! ## What the updates write -/

/-- What an update writes to bit `j` of element `a` of `arr`. -/
def Update.bit (arr : ν) (a j : ℕ) : Update ν → Option Bool
  | .cell arr' a' lo width v =>
    if arr' = arr ∧ a' = a ∧ lo ≤ j ∧ j < lo + width then some (v.testBit (j - lo)) else none
  | .reg _ _ => none

/-- What an update writes to register `r`. -/
def Update.reg? (r : ν) : Update ν → Option ℕ
  | .reg r' v => if r' = r then some v else none
  | .cell _ _ _ _ _ => none

/-- What an assign drives onto bit `j` of `port`. -/
def Item.bit (σ : State ν) (port : ν) (j : ℕ) : Item ν → Option Bool
  | .assign lhs sel rhs =>
    if lhs = port ∧ sel.lo ≤ j ∧ j < sel.lo + sel.width then some ((σ.regs rhs).testBit (j - sel.lo)) else none
  | _ => none

theorem testBit_apply (σ : State ν) (u : Update ν) (arr : ν) (a j : ℕ) :
    ((u.apply σ).arrays arr a).testBit j = (u.bit arr a j).getD ((σ.arrays arr a).testBit j) := by
  cases u with
  | reg r v => rfl
  | cell arr' a' lo width v =>
    simp only [Update.apply, Update.bit]
    by_cases harr : arr' = arr
    · subst harr
      rw [Function.update_self]
      by_cases ha : a' = a
      · subst ha
        rw [Function.update_self, testBit_setSlice]
        by_cases hj : lo ≤ j ∧ j < lo + width <;> simp [hj]
      · rw [Function.update_of_ne (Ne.symm ha)]
        simp [ha]
    · rw [Function.update_of_ne (Ne.symm harr)]
      simp [harr]

theorem regs_apply (σ : State ν) (u : Update ν) (r : ν) : (u.apply σ).regs r = (u.reg? r).getD (σ.regs r) := by
  cases u with
  | cell arr' a' lo width v => rfl
  | reg r' v =>
    simp only [Update.apply, Update.reg?]
    by_cases hr : r' = r
    · subst hr; simp
    · rw [Function.update_of_ne (Ne.symm hr)]; simp [hr]

/-- **Array bits after a list of updates.** -/
theorem testBit_applyAll (us : List (Update ν)) (σ : State ν) (arr : ν) (a j : ℕ) :
    ((applyAll σ us).arrays arr a).testBit j =
      override ((σ.arrays arr a).testBit j) (us.map (Update.bit arr a j)) := by
  induction us generalizing σ with
  | nil => rfl
  | cons u us ih =>
    rw [List.map_cons, override_cons, ← testBit_apply]
    exact ih (u.apply σ)

/-- **Registers after a list of updates.** -/
theorem regs_applyAll (us : List (Update ν)) (σ : State ν) (r : ν) :
    (applyAll σ us).regs r = override (σ.regs r) (us.map (Update.reg? r)) := by
  induction us generalizing σ with
  | nil => rfl
  | cons u us ih =>
    rw [List.map_cons, override_cons, ← regs_apply]
    exact ih (u.apply σ)

theorem testBit_drive (σ : State ν) (port : ν) (w j : ℕ) (it : Item ν) :
    (it.drive σ port w).testBit j = (it.bit σ port j).getD (w.testBit j) := by
  cases it with
  | reg name hi => rfl
  | always clk body => rfl
  | assign lhs sel rhs =>
    simp only [Item.drive, Item.bit]
    by_cases hl : lhs = port
    · subst hl
      rw [if_pos rfl, testBit_setSlice]
      by_cases hj : sel.lo ≤ j ∧ j < sel.lo + sel.width <;> simp [hj]
    · simp [hl]

/-- **Output bits.** -/
theorem testBit_output (m : Module ν) (σ : State ν) (port : ν) (j : ℕ) :
    (m.output σ port).testBit j = override false (m.items.map (Item.bit σ port j)) := by
  have key : ∀ (its : List (Item ν)) (w : ℕ), (its.foldl (Item.drive σ port) w).testBit j =
      override (w.testBit j) (its.map (Item.bit σ port j)) := by
    intro its
    induction its with
    | nil => exact fun w => rfl
    | cons it its ih =>
      intro w
      rw [List.map_cons, override_cons, ← testBit_drive]
      exact ih _
  rw [Module.output, key, Nat.zero_testBit]

end Soceteer.Rtl
