import Soceteer.Glue.Sbrk

/-!
# Soceteer.Glue.Reads — what the readers of the device tree store

`dtb_read_prop_1` and `dtb_read_prop_2` store one element for every complete group of cells of a property, whatever
the caller has room for.  The callers are `soct_ram_end` (`soctglue.c`), `soct_init_from_dtb_uart`
(`syscall-uart.c`), `soct_init_from_dtb_sdc` (`soct_ff/sdc.c`), `dt_require_reg` and `dt_require_u32` (`soctfb.c`).

* `Store`: a call of a reader with a destination, by the number of elements it stores and the room there is.
* `Entry`: a node as it lies in `node_buff`; `findCompatible` searches it.
* `ramEndScan`, `soctInitFromDtbUart`, `soctInitFromDtbSdc`, `dtRequireReg`, `dtRequireU32`: the callers, with
  their stores.
* `reads_inRoom_iff`: the trees on which they stay inside their buffers.
-/

namespace Soceteer.Glue

/-! ## The callers -/

/-- A call of a reader with a destination. -/
structure Store where
  elements : ℕ
  room : ℕ

def Store.InRoom (s : Store) : Prop := s.elements ≤ s.room

/-- A node of `node_buff` with its parent. -/
structure Entry where
  node : DtbNode
  parent : Option DtbNode

variable (T : Target)

def Entry.addrCells (e : Entry) : ℕ := (e.parent.map (dtbGetAddrCellsFor T)).getD 2

def Entry.sizeCells (e : Entry) : ℕ := (e.parent.map (dtbGetSizeCellsFor T)).getD 1

/-- `strings_eq` with the length of `text`: the string at `ofs` starts with it. -/
def startsWith (prop : DtbProp) (ofs : ℕ) (text : CStr) : Bool :=
  (List.range text.length).map (fun i => prop.data (ofs + i)) = text

/-- The loop of `dtb_is_compatible`; a property has fewer strings than bytes. -/
def compatibleFrom (prop : DtbProp) (str : CStr) : ℕ → ℕ → Bool
  | 0, _ => false
  | k + 1, i =>
    match dtbReadPropString prop i with
    | none => false
    | some ofs => startsWith prop ofs str || compatibleFrom prop str k (i + 1)

def dtbIsCompatible (node : DtbNode) (str : CStr) : Bool :=
  match dtbFindProp node (ascii "compatible") with
  | none => false
  | some prop => compatibleFrom prop str (prop.length.toNat * 4 + 1) 0

/-- `dtb_find_compatible` over the rest of `node_buff`: the node, and what lies behind it. -/
def findCompatible (str : CStr) : List Entry → Option (Entry × List Entry)
  | [] => none
  | e :: es => if dtbIsCompatible e.node str then some (e, es) else findCompatible str es

/-- The scan of `soct_ram_end` over the children of the root, with `dtb_pair vals[8]`. -/
def ramEndScan {w : ℕ} (E : Image w) (layout : ℕ × ℕ) : List DtbNode → List Store × BitVec w
  | [] => ([], 0)
  | node :: nodes =>
    if isDevice node (ascii "memory") then
      match dtbFindProp node (ascii "reg") with
      | none => ramEndScan E layout nodes
      | some reg =>
        let pairs := dtbReadProp2 E.target reg layout
        match (pairs.take 8).find? fun r => r.1 ≤ E._end.setWidth 64 ∧ E._end.setWidth 64 < r.1 + r.2 with
        | some r => ([⟨pairs.length, 8⟩], clip w (r.1 + r.2))
        | none => (⟨pairs.length, 8⟩ :: (ramEndScan E layout nodes).1, (ramEndScan E layout nodes).2)
    else ramEndScan E layout nodes

/-- `soct_ram_end`: what it stores in a state. -/
def ramEndStores {w : ℕ} (E : Image w) (g : Statics w) : List Store :=
  if g.cached ≠ 0 ∨ ¬ g.ready then []
  else match dtbFind (root E g) [] with
    | none => []
    | some root =>
      (ramEndScan E (dtbGetAddrCellsFor E.target root, dtbGetSizeCellsFor E.target root) root.children).1

/-- `soct_init_from_dtb_uart`, with `uintmax_t regs[16]`: the new `s_uart_base`, if it succeeds. -/
def soctInitFromDtbUart (buff : List Entry) : List Store × Option (BitVec 64) :=
  match findCompatible (ascii "riscv,axi-uart-1.0") buff with
  | none => ([], none)
  | some (e, _) =>
    match dtbFindProp e.node (ascii "reg") with
    | none => ([], none)
    | some reg =>
      let regs := dtbReadProp1 T reg (e.addrCells T)
      ([⟨regs.length, 16⟩], if 1 < regs.length then regs.head? else none)

/-- `FF_VOLUME_STRS`. -/
def volStr : List CStr := ["RAM", "NAND", "CF", "SD", "SD2", "USB", "USB2", "USB3"].map ascii

def findPdrv (volName : CStr) : Option ℕ := volStr.findIdx? fun v => v = volName

/-- The loop of `soct_init_from_dtb_sdc` over the slots, with `uintmax_t regs[16]`: the drives that are mounted,
with their `s_regs`.  `mount` says which drives have a file system. -/
def sdcSlots (mount : ℕ → BitVec 64 → Bool) : List CStr → List Entry → List Store × List (ℕ × BitVec 64)
  | [], _ => ([], [])
  | volName :: slots, buff =>
    match findCompatible (ascii "riscv,axi-sd-card-1.0") buff with
    | none => ([], [])
    | some (e, rest) =>
      let next := sdcSlots mount slots rest
      match findPdrv volName, dtbFindProp e.node (ascii "reg") with
      | some pdrv, some reg =>
        let regs := dtbReadProp1 T reg (e.addrCells T)
        (⟨regs.length, 16⟩ :: next.1,
          (regs.head?.toList.filter fun base => mount pdrv base).map (fun base => (pdrv, base)) ++ next.2)
      | _, _ => next

def soctInitFromDtbSdc (mount : ℕ → BitVec 64 → Bool) (buff : List Entry) : List Store × List (ℕ × BitVec 64) :=
  sdcSlots T mount [ascii "SD", ascii "SD2"] buff

/-- `dt_require_reg`, with `dtb_pair val`: base and size, or the message before `abort()`. -/
def dtRequireReg (e : Entry) : List Store × Except String (BitVec 64 × BitVec 64) :=
  match dtbFindProp e.node (ascii "reg") with
  | none => ([], .error "FATAL: device-tree node has no reg property\n")
  | some reg =>
    match dtbReadProp2 T reg (e.addrCells T, e.sizeCells T) with
    | [] => ([⟨0, 1⟩], .error "FATAL: could not read device-tree reg property\n")
    | val :: vals => ([⟨vals.length + 1, 1⟩], .ok val)

/-- `dt_require_u32`, with `uintmax_t val`. -/
def dtRequireU32 (e : Entry) (name : CStr) : List Store × Except String (BitVec 64) :=
  match dtbFindProp e.node name with
  | none => ([], .error "FATAL: could not read device-tree property \"%s\"\n")
  | some prop =>
    match dtbReadProp1 T prop 1 with
    | [] => ([⟨0, 1⟩], .error "FATAL: could not read device-tree property \"%s\"\n")
    | val :: vals => ([⟨vals.length + 1, 1⟩], .ok val)

/-! ## Room -/

/-- A property with fewer than `n` complete groups of `cells` cells. -/
def FewerThan (prop : DtbProp) (n cells : ℕ) : Prop := prop.length.toNat < n * (cells * 4)

/-- The first `n` nodes of `node_buff` that are compatible have registers that `regs[16]` can take. -/
def RegsFit (buff : List Entry) (str : CStr) (n : ℕ) : Prop :=
  ∀ e ∈ (buff.filter fun e => dtbIsCompatible e.node str).take n, ∀ reg,
    dtbFindProp e.node (ascii "reg") = some reg →
    e.addrCells T = 0 ∨ FewerThan reg 17 (e.addrCells T)

section RamEnd

variable {w : ℕ} (E : Image w) (layout : ℕ × ℕ)

/-- A memory node with `_end` in one of its first eight ranges. -/
def HoldsEnd (node : DtbNode) : Prop :=
  isDevice node (ascii "memory") = true ∧ ∃ reg, dtbFindProp node (ascii "reg") = some reg ∧
    ∃ r ∈ (dtbReadProp2 E.target reg layout).take 8, r.1 ≤ E._end.setWidth 64 ∧ E._end.setWidth 64 < r.1 + r.2

/-- Up to the node with `_end` in it, no memory node has more than eight ranges. -/
def RangesFit (nodes : List DtbNode) : Prop :=
  ∀ pre node post reg, nodes = pre ++ node :: post → (∀ n ∈ pre, ¬ HoldsEnd E layout n) →
    isDevice node (ascii "memory") = true → dtbFindProp node (ascii "reg") = some reg →
      layout.1 = 0 ∨ layout.2 = 0 ∨ FewerThan reg 9 (layout.1 + layout.2)

end RamEnd

variable {T} {w : ℕ} {E : Image w} {layout : ℕ × ℕ}

theorem length_dtbReadProp1_le {prop : DtbProp} {cells k : ℕ} :
    (dtbReadProp1 T prop cells).length ≤ k ↔ cells = 0 ∨ FewerThan prop (k + 1) cells := by
  rw [dtbReadProp1]
  split_ifs with h
  · simp [h]
  · rw [List.length_map, List.length_range, ← Nat.lt_succ_iff, Nat.div_lt_iff_lt_mul (by omega), FewerThan]
    simp [h]

theorem length_dtbReadProp2_le {prop : DtbProp} {k : ℕ} : (dtbReadProp2 T prop layout).length ≤ k ↔
    layout.1 = 0 ∨ layout.2 = 0 ∨ FewerThan prop (k + 1) (layout.1 + layout.2) := by
  rw [dtbReadProp2]
  split_ifs with h
  · rw [← or_assoc]
    exact ⟨fun _ => Or.inl h, fun _ => Nat.zero_le k⟩
  · rw [List.length_map, List.length_range, ← Nat.lt_succ_iff, Nat.div_lt_iff_lt_mul (by omega),
      FewerThan, ← or_assoc,
      or_iff_right h]

/-! ## The scan for the end of memory -/

theorem rangesFit_cons {node : DtbNode} {nodes : List DtbNode} : RangesFit E layout (node :: nodes) ↔
    (∀ reg, isDevice node (ascii "memory") = true → dtbFindProp node (ascii "reg") = some reg →
      layout.1 = 0 ∨ layout.2 = 0 ∨ FewerThan reg 9 (layout.1 + layout.2)) ∧
    (¬ HoldsEnd E layout node → RangesFit E layout nodes) := by
  constructor
  · intro h
    refine ⟨fun reg => h [] node nodes reg rfl (List.forall_mem_nil _), fun hno pre n post reg hsplit hpre => ?_⟩
    exact h (node :: pre) n post reg (by rw [hsplit]; rfl) (List.forall_mem_cons.mpr ⟨hno, hpre⟩)
  · rintro ⟨hhead, htail⟩ pre n post reg hsplit hpre
    rcases List.cons_eq_append_iff.mp hsplit with ⟨rfl, hpost⟩ | ⟨pre', rfl, hsplit⟩
    · obtain ⟨rfl, -⟩ := List.cons.inj hpost
      exact hhead reg
    · obtain ⟨hno, hpre⟩ := List.forall_mem_cons.mp hpre
      exact htail hno pre' n post reg (List.cons.inj hsplit).2 hpre

theorem ramEndScan_inRoom (E : Image w) (layout : ℕ × ℕ) : ∀ nodes : List DtbNode,
    (∀ s ∈ (ramEndScan E layout nodes).1, s.InRoom) ↔ RangesFit E layout nodes
  | [] => by simp [ramEndScan, RangesFit]
  | node :: nodes => by
    rw [rangesFit_cons, ← ramEndScan_inRoom E layout nodes, ramEndScan]
    split_ifs with hmem
    · split
      · next hreg =>
        have hno : ¬ HoldsEnd E layout node := by
          rintro ⟨-, reg, hsome, -⟩
          simp [hreg] at hsome
        simp [hreg, hno]
      · next reg hreg =>
        dsimp only
        split
        · next r hfind =>
          have hholds : HoldsEnd E layout node := by
            have hr := List.find?_some hfind
            exact ⟨hmem, reg, hreg, r, List.mem_of_find?_eq_some hfind, by simpa using hr⟩
          simp [hreg, hmem, hholds, Store.InRoom, length_dtbReadProp2_le]
        · next hfind =>
          have hno : ¬ HoldsEnd E layout node := by
            rintro ⟨-, reg', hsome, r, hr, hin⟩
            obtain rfl : reg = reg' := Option.some.inj (hreg.symm.trans hsome)
            exact List.find?_eq_none.mp hfind r hr (by simpa using hin)
          simp [hreg, hmem, hno, Store.InRoom, length_dtbReadProp2_le]
    · have hno : ¬ HoldsEnd E layout node := fun h => hmem h.1
      simp [hmem, hno]

/-- The value of the scan is that of the model without stores. -/
theorem ramEndScan_value (E : Image w) (root : DtbNode) (layout : ℕ × ℕ)
    (hlayout : layout = (dtbGetAddrCellsFor E.target root, dtbGetSizeCellsFor E.target root)) :
    (ramEndScan E layout root.children).2 = ramEndIn E (memoryRanges E.target root) := by
  rw [memoryRanges, ← hlayout]
  induction root.children with
  | nil => rfl
  | cons node nodes ih =>
    rw [ramEndScan, List.flatMap_cons, ramEndIn, List.find?_append]
    split_ifs with hmem
    · cases dtbFindProp node (ascii "reg") with
      | none => simpa [ramEndIn] using ih
      | some reg =>
        dsimp only
        split
        · next r hfind => rw [hfind, Option.some_or]
        · next hfind =>
          rw [hfind, Option.none_or]
          exact ih
    · simpa [ramEndIn] using ih

/-! ## The searches for compatible nodes -/

theorem findCompatible_eq (str : CStr) : ∀ buff : List Entry, match findCompatible str buff with
    | none => buff.filter (fun e => dtbIsCompatible e.node str) = []
    | some (e, rest) => buff.filter (fun e => dtbIsCompatible e.node str) =
        e :: rest.filter fun e => dtbIsCompatible e.node str
  | [] => rfl
  | e :: es => by
    rw [findCompatible, List.filter_cons]
    split_ifs with h
    · rfl
    · exact findCompatible_eq str es

theorem regs_inRoom {e : Entry} {reg : DtbProp} : Store.InRoom ⟨(dtbReadProp1 T reg (e.addrCells T)).length, 16⟩ ↔
    e.addrCells T = 0 ∨ FewerThan reg 17 (e.addrCells T) := length_dtbReadProp1_le

theorem uart_inRoom (buff : List Entry) :
    (∀ s ∈ (soctInitFromDtbUart T buff).1, s.InRoom) ↔ RegsFit T buff (ascii "riscv,axi-uart-1.0") 1 := by
  have hfind := findCompatible_eq (ascii "riscv,axi-uart-1.0") buff
  rw [soctInitFromDtbUart, RegsFit]
  split
  · next h => simp [(h ▸ hfind : _ = _)]
  · next e rest h =>
    rw [h] at hfind
    rw [hfind, List.take_succ_cons, List.take_zero, List.forall_mem_singleton]
    split
    · next hreg => simp [hreg]
    · next reg hreg => simp [hreg, regs_inRoom]

theorem sdcSlots_inRoom (mount : ℕ → BitVec 64 → Bool) : ∀ (slots : List CStr) (buff : List Entry),
    (∀ v ∈ slots, (findPdrv v).isSome) →
      ((∀ s ∈ (sdcSlots T mount slots buff).1, s.InRoom) ↔
        RegsFit T buff (ascii "riscv,axi-sd-card-1.0") slots.length)
  | [], buff, _ => by simp [sdcSlots, RegsFit]
  | v :: slots, buff, hv => by
    obtain ⟨hv, hslots⟩ := List.forall_mem_cons.mp hv
    obtain ⟨pdrv, hpdrv⟩ := Option.isSome_iff_exists.mp hv
    have hfind := findCompatible_eq (ascii "riscv,axi-sd-card-1.0") buff
    rw [sdcSlots]
    split
    · next h =>
      rw [h] at hfind
      simp [RegsFit, hfind]
    · next e rest h =>
      have ih := sdcSlots_inRoom mount slots rest hslots
      rw [h] at hfind
      rw [RegsFit, hfind, List.length_cons, List.take_succ_cons, List.forall_mem_cons, ← RegsFit, ← ih, hpdrv]
      cases hreg : dtbFindProp e.node (ascii "reg") with
      | none => simp
      | some reg => simp [regs_inRoom]

theorem sdc_inRoom (mount : ℕ → BitVec 64 → Bool) (buff : List Entry) :
    (∀ s ∈ (soctInitFromDtbSdc T mount buff).1, s.InRoom) ↔ RegsFit T buff (ascii "riscv,axi-sd-card-1.0") 2 :=
  sdcSlots_inRoom mount _ buff (by decide)

/-! ## The required properties -/

theorem require_reg_inRoom (e : Entry) : (∀ s ∈ (dtRequireReg T e).1, s.InRoom) ↔
    ∀ reg, dtbFindProp e.node (ascii "reg") = some reg →
      e.addrCells T = 0 ∨ e.sizeCells T = 0 ∨ FewerThan reg 2 (e.addrCells T + e.sizeCells T) := by
  rw [dtRequireReg]
  split
  · next hreg => simp [hreg]
  · next reg hreg =>
    have hlen : (dtbReadProp2 T reg (e.addrCells T, e.sizeCells T)).length ≤ 1 ↔ _ := length_dtbReadProp2_le
    split <;> simp_all [Store.InRoom]

theorem require_u32_inRoom (e : Entry) (name : CStr) : (∀ s ∈ (dtRequireU32 T e name).1, s.InRoom) ↔
    ∀ prop, dtbFindProp e.node name = some prop → FewerThan prop 2 1 := by
  rw [dtRequireU32]
  split
  · next hprop => simp [hprop]
  · next prop hprop =>
    have hlen : (dtbReadProp1 T prop 1).length ≤ 1 ↔ _ := length_dtbReadProp1_le
    split <;> simp_all [Store.InRoom]

/-! ## All callers -/

theorem ramEndStores_inRoom (E : Image w) (g : Statics w) : (∀ s ∈ ramEndStores E g, s.InRoom) ↔
    (g.cached = 0 → g.ready = true → ∀ root, E.tree = some root →
      RangesFit E (dtbGetAddrCellsFor E.target root, dtbGetSizeCellsFor E.target root) root.children) := by
  rw [ramEndStores]
  split_ifs with h
  · refine ⟨fun _ hc hr => ?_, fun _ => List.forall_mem_nil _⟩
    rcases h with h | h
    · exact absurd hc h
    · exact absurd hr h
  · obtain ⟨hc, hr⟩ := not_or.mp h
    rw [not_not] at hc hr
    rw [dtbFind, Glue.root, if_pos hr]
    cases E.tree with
    | none => simp
    | some root => simp [hc, hr, ramEndScan_inRoom]

/-- Where the readers store no more than there is room for: up to eight ranges of each memory node that is looked
at, up to sixteen addresses of the console and of the two cards, one range and one cell of a property that is
required. -/
theorem reads_inRoom_iff (E : Image w) (g : Statics w) (mount : ℕ → BitVec 64 → Bool)
    (buff : List Entry) (e : Entry)
    (name : CStr) :
    ((∀ s ∈ ramEndStores E g, s.InRoom) ↔
      (g.cached = 0 → g.ready = true → ∀ root, E.tree = some root →
        RangesFit E (dtbGetAddrCellsFor E.target root, dtbGetSizeCellsFor E.target root) root.children)) ∧
    ((∀ s ∈ (soctInitFromDtbUart E.target buff).1, s.InRoom) ↔
      RegsFit E.target buff (ascii "riscv,axi-uart-1.0") 1) ∧
    ((∀ s ∈ (soctInitFromDtbSdc E.target mount buff).1, s.InRoom) ↔
      RegsFit E.target buff (ascii "riscv,axi-sd-card-1.0") 2) ∧
    ((∀ s ∈ (dtRequireReg E.target e).1, s.InRoom) ↔ ∀ reg, dtbFindProp e.node (ascii "reg") = some reg →
      e.addrCells E.target = 0 ∨ e.sizeCells E.target = 0 ∨
        FewerThan reg 2 (e.addrCells E.target + e.sizeCells E.target)) ∧
    ((∀ s ∈ (dtRequireU32 E.target e name).1, s.InRoom) ↔
      ∀ prop, dtbFindProp e.node name = some prop → FewerThan prop 2 1) :=
  ⟨ramEndStores_inRoom E g, uart_inRoom buff, sdc_inRoom mount buff, require_reg_inRoom e,
    require_u32_inRoom e name⟩

/-- The shifts of a processor that uses the low six bits of the amount. -/
def Target.riscv : Target where
  shl := fun x n => x <<< (n % 64)
  shl_of_lt := fun x n h => by rw [Nat.mod_eq_of_lt h]

/-- A node with two ranges of three cells each. -/
def twoRanges : Entry where
  node := .mk (ascii "dma") [⟨ascii "reg", 24, fun _ => 0⟩] []
  parent := none

/-- `dt_require_reg` has room for one of them. -/
theorem twoRanges_not_inRoom : ¬ ∀ s ∈ (dtRequireReg Target.riscv twoRanges).1, s.InRoom := by
  intro h
  have hmem : (⟨2, 1⟩ : Store) ∈ (dtRequireReg Target.riscv twoRanges).1 := List.mem_singleton.mpr rfl
  have hroom : 2 ≤ 1 := h _ hmem
  omega

end Soceteer.Glue
