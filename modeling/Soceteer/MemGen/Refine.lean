import Soceteer.MemGen.Emit

/-!
# Soceteer.MemGen.Refine — the emitted module is the plain memory

* `Implementable`: the descriptions `emit` is meant for.
* `groups_eq`: sub-array `gi` holds the lanes `[4 gi, min (4 gi + 4) lanes)`; bit `i` of the data word is bit
  `i % (4 gran)` of sub-array `i / (4 gran)`, and of no other (`mem_wordSlice_iff`).
* `abs`: the plain memory that the contents of an emitted module stand for.
* `abs_step_cells`, `abs_step_rdata`: one clock edge; `emit_refines`: every run.
-/

namespace Soceteer.MemGen

open Bits Jvm Rtl

/-- What `emit` relies on. -/
structure Implementable (m : MemDesc) : Prop where
  depth_pos : 1 ≤ m.depth
  gran_pos : 1 ≤ m.gran
  width_eq : m.width = m.lanes * m.gran
  writers : (m.ports.filter PortKind.writing).length ≤ 1
  mask_iff : m.maskGran.isSome ↔ ∃ k ∈ m.ports, k.masked

/-- Every enabled access of an edge is in range. -/
def EdgeOk (m : MemDesc) (e : Edge Name) : Prop :=
  ∀ kp ∈ prefixed m, e.posedge (.port kp.2 .clk) = true → (e.input (.port kp.2 .en)).testBit 0 = true →
    (e.input (.port kp.2 .addr) : ℤ) < m.depth

/-! ## The lane groups -/

/-- The lanes of sub-array `gi` of `n` lanes. -/
def groupLanes (n gi : ℕ) : List ℕ := List.range' (4 * gi) (min 4 (n - 4 * gi))

theorem groups_eq (m : MemDesc) :
    groups m = (List.range ((m.lanes.toNat + 3) / 4)).map fun gi => (groupLanes m.lanes.toNat gi, gi) := by
  rw [groups, maxLanesPerArray, grouped_range (by omega), List.zipIdx_map]
  refine List.ext_getElem (by simp) fun i h1 h2 => ?_
  simp [groupLanes]

theorem mem_groups {m : MemDesc} {x : List ℕ × ℕ} :
    x ∈ groups m ↔ x.2 < (m.lanes.toNat + 3) / 4 ∧ x.1 = groupLanes m.lanes.toNat x.2 := by
  rw [groups_eq]
  simp only [List.mem_map, List.mem_range]
  constructor
  · rintro ⟨gi, hgi, rfl⟩
    exact ⟨hgi, rfl⟩
  · rintro ⟨hgi, hx⟩
    exact ⟨x.2, hgi, by rw [← hx]⟩

theorem groups_nodup (m : MemDesc) : (groups m).Nodup := by
  rw [groups_eq]
  exact List.nodup_range.map fun a b h => (Prod.mk.inj h).2

theorem groupLanes_nodup (n gi : ℕ) : (groupLanes n gi).Nodup := List.nodup_range'

theorem headD_groupLanes {n gi : ℕ} (h : gi < (n + 3) / 4) : (groupLanes n gi).headD 0 = 4 * gi := by
  obtain ⟨k, hk⟩ : ∃ k, min 4 (n - 4 * gi) = k + 1 := ⟨min 4 (n - 4 * gi) - 1, by omega⟩
  rw [groupLanes, hk, List.range'_succ]
  rfl

theorem getLastD_groupLanes {n gi : ℕ} (h : gi < (n + 3) / 4) :
    (groupLanes n gi).getLastD 0 + 1 = 4 * gi + min 4 (n - 4 * gi) := by
  obtain ⟨k, hk⟩ : ∃ k, min 4 (n - 4 * gi) = k + 1 := ⟨min 4 (n - 4 * gi) - 1, by omega⟩
  rw [groupLanes, hk, List.range'_concat]
  simp
  omega

namespace Implementable

variable {m : MemDesc} (h : Implementable m)
include h

theorem gran_eq : m.gran = (m.gran.toNat : ℤ) := by
  have := h.gran_pos
  omega

theorem gran_toNat_pos : 0 < m.gran.toNat := by
  have := h.gran_pos
  omega

theorem wordSlice_lo {gi : ℕ} (hgi : gi < (m.lanes.toNat + 3) / 4) :
    (wordSlice m (groupLanes m.lanes.toNat gi)).lo = 4 * gi * m.gran.toNat := by
  rw [wordSlice, Select.lo, headD_groupLanes hgi, h.gran_eq]
  exact_mod_cast Int.toNat_natCast _

theorem wordSlice_width {gi : ℕ} (hgi : gi < (m.lanes.toNat + 3) / 4) :
    (wordSlice m (groupLanes m.lanes.toNat gi)).width = min 4 (m.lanes.toNat - 4 * gi) * m.gran.toNat := by
  obtain ⟨g, hg⟩ : ∃ g : ℕ, m.gran = g := ⟨_, h.gran_eq⟩
  have hlast : ((groupLanes m.lanes.toNat gi).getLastD 0 : ℤ) + 1 =
      ((4 * gi + min 4 (m.lanes.toNat - 4 * gi) : ℕ) : ℤ) := by
    exact_mod_cast getLastD_groupLanes hgi
  rw [wordSlice, Select.width, headD_groupLanes hgi, hlast, hg, Int.toNat_natCast]
  have : ((4 * gi + min 4 (m.lanes.toNat - 4 * gi) : ℕ) : ℤ) * g - 1 - ((4 * gi : ℕ) : ℤ) * g + 1 =
      ((min 4 (m.lanes.toNat - 4 * gi) * g : ℕ) : ℤ) := by
    push_cast
    ring
  rw [this, Int.toNat_natCast]

/-- **The group slices partition the data word**: bit `i` lies in the slice of sub-array `i / (4 gran)` only. -/
theorem mem_wordSlice_iff {gi i : ℕ} (hgi : gi < (m.lanes.toNat + 3) / 4) :
    ((wordSlice m (groupLanes m.lanes.toNat gi)).lo ≤ i ∧
      i < (wordSlice m (groupLanes m.lanes.toNat gi)).lo + (wordSlice m (groupLanes m.lanes.toNat gi)).width) ↔
      i < m.lanes.toNat * m.gran.toNat ∧ i / (4 * m.gran.toNat) = gi := by
  have hg := h.gran_toNat_pos
  rw [h.wordSlice_lo hgi, h.wordSlice_width hgi]
  generalize m.gran.toNat = g at hg
  generalize m.lanes.toNat = n at hgi
  rw [← Nat.add_mul, Nat.div_eq_iff (by omega)]
  have e1 : gi * (4 * g) = 4 * gi * g := by ring
  have e2 : (gi + 1) * (4 * g) = (4 * gi + 4) * g := by ring
  rw [Nat.add_mul, Nat.one_mul] at e2
  rcases Nat.le_total 4 (n - 4 * gi) with h4 | h4
  · have e3 : (4 * gi + 4) * g ≤ n * g := Nat.mul_le_mul_right _ (by omega)
    rw [Nat.min_eq_left h4]
    omega
  · have e3 : n * g ≤ (4 * gi + 4) * g := Nat.mul_le_mul_right _ (by omega)
    rw [Nat.min_eq_right h4, show 4 * gi + (n - 4 * gi) = n by omega]
    omega

/-- The sub-array of a bit exists. -/
theorem groupIdx_lt {i : ℕ} (hi : i < m.lanes.toNat * m.gran.toNat) :
    i / (4 * m.gran.toNat) < (m.lanes.toNat + 3) / 4 := by
  have hg := h.gran_toNat_pos
  generalize m.gran.toNat = g at hg hi
  generalize m.lanes.toNat = n at hi
  have hlane : i / g < n := Nat.div_lt_of_lt_mul (by rw [Nat.mul_comm]; exact hi)
  rw [Nat.mul_comm, ← Nat.div_div_eq_div_mul]
  omega

end Implementable

/-! ## Bits of the words -/

/-- The word with the given contents of the sub-arrays as its group slices. -/
def joinGroups (m : MemDesc) (f : ℕ → ℕ) : ℕ :=
  (groups m).foldl (fun w x => setSlice w (wordSlice m x.1).lo (wordSlice m x.1).width (f x.2)) 0

/-- Position of bit `i` of the data word within its sub-array. -/
def localBit (m : MemDesc) (i : ℕ) : ℕ := i - 4 * (i / (4 * m.gran.toNat)) * m.gran.toNat

theorem testBit_joinGroups {m : MemDesc} (h : Implementable m) (f : ℕ → ℕ) (i : ℕ) :
    (joinGroups m f).testBit i =
      (decide (i < m.lanes.toNat * m.gran.toNat) && (f (i / (4 * m.gran.toNat))).testBit (localBit m i)) := by
  have hfold := testBit_foldl_setSlice (groups m) (fun _ => true) (fun x => (wordSlice m x.1).lo)
    (fun x => (wordSlice m x.1).width) (fun x => f x.2) 0 i
  simp only [if_true, true_and, Nat.zero_testBit] at hfold
  rw [joinGroups, hfold]
  -- only the group of bit `i` contributes
  have hne : ∀ x ∈ groups m, i / (4 * m.gran.toNat) ≠ x.2 → ¬ ((wordSlice m x.1).lo ≤ i ∧
      i < (wordSlice m x.1).lo + (wordSlice m x.1).width) := fun x hx hne hin => by
    obtain ⟨hgi, hx1⟩ := mem_groups.mp hx
    rw [hx1] at hin
    exact hne ((h.mem_wordSlice_iff hgi).mp hin).2
  by_cases hi : i < m.lanes.toNat * m.gran.toNat
  · have hgi := h.groupIdx_lt hi
    rw [override_map_single (groups_nodup m)
      (x := (groupLanes m.lanes.toNat (i / (4 * m.gran.toNat)), i / (4 * m.gran.toNat)))
      (mem_groups.mpr ⟨hgi, rfl⟩) (fun y hy hyne => if_neg (hne y hy fun heq => hyne ?_)),
      if_pos ((h.mem_wordSlice_iff hgi).mpr ⟨hi, rfl⟩), h.wordSlice_lo hgi]
    · simp [hi, localBit]
    · obtain ⟨-, hy1⟩ := mem_groups.mp hy
      rw [heq, ← hy1]
  · rw [override_of_none]
    · simp [hi]
    · intro o ho
      obtain ⟨x, hx, rfl⟩ := List.mem_map.mp ho
      refine if_neg fun hin => hi ?_
      obtain ⟨hgi, hx1⟩ := mem_groups.mp hx
      rw [hx1] at hin
      exact ((h.mem_wordSlice_iff hgi).mp hin).1

/-- **Mask bit `l` controls exactly the bits `[l gran, (l + 1) gran)`.** -/
theorem testBit_writeLanes {g : ℕ} (hg : 0 < g) (n mask old data i : ℕ) :
    (writeLanes g n mask old data).testBit i =
      if i < n * g ∧ mask.testBit (i / g) = true then data.testBit i else old.testBit i := by
  have hlane : ∀ l, (l * g ≤ i ∧ i < l * g + g) ↔ i / g = l := fun l => by
    rw [Nat.div_eq_iff hg, Nat.mul_comm l g]
    omega
  rw [writeLanes, testBit_foldl_setSlice]
  by_cases hi : i < n * g
  · have hl : i / g < n := Nat.div_lt_of_lt_mul (by rw [Nat.mul_comm]; exact hi)
    rw [override_map_single List.nodup_range (List.mem_range.mpr hl)
      (fun y _ hne => if_neg fun hin => hne ((hlane y).mp hin.2).symm)]
    have hin := (hlane (i / g)).mpr rfl
    by_cases hm : mask.testBit (i / g) = true
    · rw [if_pos ⟨hm, hin⟩, if_pos ⟨hi, hm⟩, Option.getD_some, testBit_slice,
        show i / g * g + (i - i / g * g) = i by omega]
      simp; omega
    · rw [if_neg (fun hc => hm hc.1), if_neg (fun hc => hm hc.2), Option.getD_none]
  · rw [if_neg (fun hc => hi hc.1)]
    refine override_of_none fun o ho => ?_
    obtain ⟨l, hl, rfl⟩ := List.mem_map.mp ho
    refine if_neg fun hin => hi ?_
    have := (hlane l).mp hin.2
    exact (Nat.div_lt_iff_lt_mul hg).mp (this ▸ List.mem_range.mp hl)

/-- What a port writes to bit `i` of cell `a` of the plain memory on an edge. -/
def writeBit (g n : ℕ) (e : Edge Name) (a i : ℕ) : PortKind × Prefix → Option Bool
  | (kind, p) =>
    if Memory.active e p && (e.input (.port p .addr) == a) then
      match kind with
      | .read => none
      | .write => some (decide (i < n * g) && (e.input (.port p .data)).testBit i)
      | .mwrite => if i < n * g ∧ (e.input (.port p .mask)).testBit (i / g) = true
          then some ((e.input (.port p .data)).testBit i) else none
      | .rw => if Memory.writeMode e p
          then some (decide (i < n * g) && (e.input (.port p .wdata)).testBit i) else none
      | .mrw => if Memory.writeMode e p = true ∧ i < n * g ∧ (e.input (.port p .wmask)).testBit (i / g) = true
          then some ((e.input (.port p .wdata)).testBit i) else none
    else none

theorem writePort_apply (g n : ℕ) (e : Edge Name) (cells : ℕ → ℕ) (kp : PortKind × Prefix) (a : ℕ) :
    Memory.writePort g n e cells kp a =
      if e.input (.port kp.2 .addr) = a then (Memory.written g n e (cells a) kp).getD (cells a) else cells a := by
  unfold Memory.writePort
  by_cases ha : e.input (.port kp.2 .addr) = a
  · subst ha
    rw [if_pos rfl]
    cases Memory.written g n e (cells (e.input (.port kp.2 .addr))) kp <;> simp
  · rw [if_neg ha]
    cases Memory.written g n e (cells (e.input (.port kp.2 .addr))) kp with
    | none => rfl
    | some v => exact Function.update_of_ne (Ne.symm ha) _ _

theorem testBit_writePort {g : ℕ} (hg : 0 < g) (n : ℕ) (e : Edge Name) (cells : ℕ → ℕ) (kp : PortKind × Prefix)
    (a i : ℕ) :
      (Memory.writePort g n e cells kp a).testBit i = (writeBit g n e a i kp).getD ((cells a).testBit i) := by
  obtain ⟨kind, p⟩ := kp
  rw [writePort_apply]
  dsimp only [Memory.written, writeBit]
  by_cases ha : e.input (.port p .addr) = a
  · rw [if_pos ha, beq_iff_eq.mpr ha, Bool.and_true]
    cases Memory.active e p with
    | false => rfl
    | true =>
      cases kind with
      | read => rfl
      | write => simp
      | mwrite =>
        simp only [if_true, Option.getD_some, testBit_writeLanes hg]
        split_ifs <;> rfl
      | rw => cases Memory.writeMode e p <;> simp
      | mrw =>
        cases Memory.writeMode e p with
        | false => simp
        | true =>
          simp only [if_true, Option.getD_some, testBit_writeLanes hg, true_and]
          split_ifs <;> rfl
  · rw [if_neg ha, if_neg (by simp [ha])]
    rfl

theorem testBit_foldl_writePort {g : ℕ} (hg : 0 < g) (n : ℕ) (e : Edge Name) (ports : List (PortKind × Prefix))
    (cells : ℕ → ℕ) (a i : ℕ) : (ports.foldl (Memory.writePort g n e) cells a).testBit i =
      override ((cells a).testBit i) (ports.map (writeBit g n e a i)) := by
  induction ports generalizing cells with
  | nil => rfl
  | cons kp ports ih => rw [List.foldl_cons, List.map_cons, override_cons, ih, testBit_writePort hg]

/-! ## What the emitted blocks write -/

theorem map_fst_prefixed (m : MemDesc) : (prefixed m).map Prod.fst = m.ports := by
  have key : ∀ (ks : List PortKind) (r wr rw : ℕ), (assignPrefixes r wr rw ks).map Prod.fst = ks := by
    intro ks
    induction ks with
    | nil => exact fun r wr rw => rfl
    | cons k ks ih =>
      intro r wr rw
      cases k <;> simp [assignPrefixes, ih]
  exact key m.ports 0 0 0

theorem mem_ports_of_prefixed {m : MemDesc} {kp : PortKind × Prefix} (h : kp ∈ prefixed m) : kp.1 ∈ m.ports := by
  rw [← map_fst_prefixed]
  exact List.mem_map_of_mem h

theorem array?_mem {m : MemDesc} {gi : ℕ} (hgi : gi < (m.lanes.toNat + 3) / 4) :
    (emit m).array? (.mem gi) = some ⟨.mem gi, gwHi m (groupLanes m.lanes.toNat gi), m.depth - 1⟩ := by
  have hin : (⟨.mem gi, gwHi m (groupLanes m.lanes.toNat gi), m.depth - 1⟩ : ArrayDecl Name) ∈ (emit m).arrays :=
    List.mem_map.mpr ⟨(groupLanes m.lanes.toNat gi, gi), mem_groups.mpr ⟨hgi, rfl⟩, rfl⟩
  unfold Module.array?
  cases hf : (emit m).arrays.find? (fun d => decide (d.name = .mem gi)) with
  | none => exact absurd (List.find?_eq_none.mp hf _ hin) (by simp)
  | some d =>
    obtain ⟨x, hx, rfl⟩ := List.mem_map.mp (List.mem_of_find?_eq_some hf)
    have hname := List.find?_some hf
    simp only [decide_eq_true_eq, Name.mem.injEq] at hname
    obtain ⟨-, hx1⟩ := mem_groups.mp hx
    rw [hx1, hname]

theorem inRange_mem {m : MemDesc} {gi a : ℕ} (hgi : gi < (m.lanes.toNat + 3) / 4) (ha : (a : ℤ) < m.depth) :
    (emit m).inRange (.mem gi) a = true := by
  rw [Module.inRange, array?_mem hgi]
  simp
  omega

namespace Implementable

variable {m : MemDesc} (h : Implementable m)
include h

/-- The writing port is masked exactly when the memory has a mask granularity. -/
theorem masked_iff {kp : PortKind × Prefix} (hkp : kp ∈ prefixed m) (hw : kp.1.writing = true) :
    kp.1.masked = true ↔ m.maskGran.isSome = true := by
  have hmem := mem_ports_of_prefixed hkp
  rw [h.mask_iff]
  refine ⟨fun hm => ⟨kp.1, hmem, hm⟩, fun ⟨k, hk, hkm⟩ => ?_⟩
  -- a masked port writes too, so it is the one writing port
  have hkw : k.writing = true := by cases k <;> first | rfl | exact absurd hkm (by decide)
  have h1 : kp.1 ∈ m.ports.filter PortKind.writing := List.mem_filter.mpr ⟨hmem, hw⟩
  have h2 : k ∈ m.ports.filter PortKind.writing := List.mem_filter.mpr ⟨hk, hkw⟩
  have hle := h.writers
  match hf : m.ports.filter PortKind.writing with
  | [] => rw [hf] at h1; exact absurd h1 (by simp)
  | [x] =>
    rw [hf, List.mem_singleton] at h1 h2
    rw [h1, ← h2]
    exact hkm
  | x :: y :: l => rw [hf] at hle; simp at hle

theorem elemWidth_mem {gi : ℕ} (hgi : gi < (m.lanes.toNat + 3) / 4) :
    (emit m).elemWidth (.mem gi) = (wordSlice m (groupLanes m.lanes.toNat gi)).width := by
  obtain ⟨g, hg⟩ : ∃ g : ℕ, m.gran = g := ⟨_, h.gran_eq⟩
  rw [Module.elemWidth, array?_mem hgi, h.wordSlice_width hgi, hg, Int.toNat_natCast]
  simp only [gwHi, groupLanes, List.length_range', hg]
  rw [Int.sub_add_cancel, ← Int.natCast_mul, Int.toNat_natCast]

theorem laneLocal_lo {gi l : ℕ} (hgi : gi < (m.lanes.toNat + 3) / 4) (hl : l ∈ groupLanes m.lanes.toNat gi) :
    (laneLocal m l (groupLanes m.lanes.toNat gi)).lo = l * m.gran.toNat - 4 * gi * m.gran.toNat := by
  obtain ⟨g, hg⟩ : ∃ g : ℕ, m.gran = g := ⟨_, h.gran_eq⟩
  have hle := (List.mem_range'_1.mp hl).1
  rw [laneLocal, Select.lo, headD_groupLanes hgi, hg, Int.toNat_natCast, ← Nat.cast_sub hle, ← Int.natCast_mul,
    Int.toNat_natCast, Nat.sub_mul]

theorem laneWord_lo (l : ℕ) : (laneWord m l).lo = l * m.gran.toNat := by
  obtain ⟨g, hg⟩ : ∃ g : ℕ, m.gran = g := ⟨_, h.gran_eq⟩
  rw [laneWord, Select.lo, hg, Int.toNat_natCast, ← Int.natCast_mul, Int.toNat_natCast]

/-- The writes of one sub-array's block, bit by bit. -/
theorem override_writeBody {p : Prefix} {dataSig maskSig : Field} {input : Name → ℕ} {σ : State Name} {a i : ℕ}
    (hi : i < m.lanes.toNat * m.gran.toNat) (haddr : (input (.port p .addr) : ℤ) < m.depth) (b : Bool) :
    override b
      (((writeBody m p (groupLanes m.lanes.toNat (i / (4 * m.gran.toNat))) (i / (4 * m.gran.toNat)) dataSig
      maskSig).updates (emit m) input σ).map (Update.bit (.mem (i / (4 * m.gran.toNat))) a (localBit m i))) =
      if input (.port p .addr) = a ∧
        (m.maskGran.isNone = true ∨ (input (.port p maskSig)).testBit (i / m.gran.toNat) = true)
      then (input (.port p dataSig)).testBit i else b := by
  have hgi := h.groupIdx_lt hi
  have hg := h.gran_toNat_pos
  obtain ⟨hlo, hhi⟩ := (h.mem_wordSlice_iff hgi).mpr ⟨hi, rfl⟩
  have hlo' := h.wordSlice_lo hgi
  unfold writeBody
  cases hmg : m.maskGran with
  | none =>
    have hin : (input (.port p .addr) = a ∧ 0 ≤ localBit m i ∧
        localBit m i < 0 + (wordSlice m (groupLanes m.lanes.toNat (i / (4 * m.gran.toNat)))).width) ↔
          input (.port p .addr) = a := by
      unfold localBit
      omega
    simp only [Option.isNone_none, if_true, Stmt.updates, inRange_mem hgi haddr, List.map_cons, List.map_nil,
      override_cons, override_nil, Update.bit, true_and, true_or, and_true, h.elemWidth_mem hgi,
        hin, testBit_slice]
    rw [show (wordSlice m (groupLanes m.lanes.toNat (i / (4 * m.gran.toNat)))).lo + (localBit m i - 0) = i by
      unfold localBit; omega]
    by_cases ha : input (.port p .addr) = a
    · simp only [ha, if_true, Option.getD_some, Bool.and_eq_right_iff_imp, decide_eq_true_eq]
      intro
      unfold localBit
      omega
    · simp [ha]
  | some mg =>
    have hlane : i / m.gran.toNat ∈ groupLanes m.lanes.toNat (i / (4 * m.gran.toNat)) := by
      have hl : i / m.gran.toNat < m.lanes.toNat := Nat.div_lt_of_lt_mul (by rw [Nat.mul_comm]; exact hi)
      rw [groupLanes, List.mem_range'_1, Nat.mul_comm 4 m.gran.toNat, ← Nat.div_div_eq_div_mul]
      omega
    -- bit `i` lies in lane `l` iff `l = i / gran`
    have hin : ∀ l ∈ groupLanes m.lanes.toNat (i / (4 * m.gran.toNat)),
        ((laneLocal m l (groupLanes m.lanes.toNat (i / (4 * m.gran.toNat)))).lo ≤ localBit m i ∧ localBit m i <
          (laneLocal m l (groupLanes m.lanes.toNat (i / (4 * m.gran.toNat)))).lo + m.gran.toNat) ↔
            l = i / m.gran.toNat := fun l hl => by
      have hle : 4 * (i / (4 * m.gran.toNat)) * m.gran.toNat ≤ l * m.gran.toNat :=
        Nat.mul_le_mul_right _ (List.mem_range'_1.mp hl).1
      rw [h.laneLocal_lo hgi hl, eq_comm (b := i / m.gran.toNat), Nat.div_eq_iff hg, Nat.mul_comm l]
      rw [Nat.mul_comm l] at hle
      unfold localBit
      omega
    simp only [Option.isNone_some, Bool.false_eq_true, if_false, Stmt.updates_block, List.map_flatMap,
      List.flatMap_map, false_or]
    rw [override_flatMap_single (groupLanes_nodup _ _) hlane]
    · simp only [Stmt.updates, inRange_mem hgi haddr, if_true]
      by_cases hmask : (input (.port p maskSig)).testBit (i / m.gran.toNat) = true
      · have hbit := (hin _ hlane).mpr rfl
        simp only [hmask, if_true, List.map_cons, List.map_nil, override_cons, override_nil, Update.bit, true_and,
          and_true, testBit_slice]
        by_cases ha : input (.port p .addr) = a
        · have hle : 4 * (i / (4 * m.gran.toNat)) * m.gran.toNat ≤ i / m.gran.toNat * m.gran.toNat :=
            Nat.mul_le_mul_right _ (List.mem_range'_1.mp hlane).1
          have hdiv := Nat.div_mul_le_self i m.gran.toNat
          have hmod := Nat.lt_div_mul_add hg (a := i)
          have hpos : localBit m i - (laneLocal m (i / m.gran.toNat)
              (groupLanes m.lanes.toNat (i / (4 * m.gran.toNat)))).lo = i - i / m.gran.toNat * m.gran.toNat := by
            rw [h.laneLocal_lo hgi hlane]
            unfold localBit
            omega
          rw [if_pos ⟨ha, hbit⟩, if_pos ha, Option.getD_some, h.laneWord_lo, hpos, Nat.add_sub_cancel' hdiv]
          simp only [Bool.and_eq_right_iff_imp, decide_eq_true_eq]
          exact fun _ => show i - i / m.gran.toNat * m.gran.toNat < m.gran.toNat by omega
        · rw [if_neg (fun hc => ha hc.1), if_neg ha, Option.getD_none]
      · simp [hmask]
    · intro l hl hne o ho
      simp only [Stmt.updates, inRange_mem hgi haddr, if_true] at ho
      by_cases hmask : (input (.port p maskSig)).testBit l = true
      · simp only [hmask, if_true, List.map_cons, List.map_nil, List.mem_singleton, Update.bit, true_and] at ho
        rw [ho]
        exact if_neg fun hc => hne ((hin l hl).mp hc.2)
      · simp [hmask] at ho

end Implementable

/-- A block writes no sub-array but its own, and no register. -/
theorem mem_updates_writeBody {m : MemDesc} {p : Prefix} {grp : List ℕ} {gi : ℕ} {dataSig maskSig : Field}
    {input : Name → ℕ} {σ : State Name} {u : Update Name}
    (hu : u ∈ (writeBody m p grp gi dataSig maskSig).updates (emit m) input σ) :
    ∃ a lo w v, u = .cell (.mem gi) a lo w v := by
  have hcell : ∀ (sel : Option Select) (rs : Select),
      u ∈ (Stmt.store (.mem gi) (.port p .addr) sel (.port p dataSig) rs).updates (emit m) input σ →
        ∃ a lo w v, u = .cell (.mem gi) a lo w v := by
    intro sel rs hu
    simp only [Stmt.updates] at hu
    split at hu
    · cases sel <;> exact ⟨_, _, _, _, List.mem_singleton.mp hu⟩
    · exact absurd hu (by simp)
  unfold writeBody at hu
  split at hu
  · exact hcell _ _ hu
  · rw [Stmt.updates_block, List.flatMap_map] at hu
    obtain ⟨l, -, hu⟩ := List.mem_flatMap.mp hu
    rw [Stmt.updates_cond] at hu
    split at hu
    · exact hcell _ _ hu
    · exact absurd hu (by simp [Stmt.updates])

theorem bit_writeBody_of_ne {m : MemDesc} {p : Prefix} {grp : List ℕ} {gi gi' : ℕ} {dataSig maskSig : Field}
    {input : Name → ℕ} {σ : State Name} (hne : gi' ≠ gi) {u : Update Name}
    (hu : u ∈ (writeBody m p grp gi' dataSig maskSig).updates (emit m) input σ) (a j : ℕ) :
    u.bit (.mem gi) a j = none := by
  obtain ⟨a', lo, w, v, rfl⟩ := mem_updates_writeBody hu
  exact if_neg fun hc => hne (Name.mem.inj hc.1)

/-- The updates of one port on one sub-array. -/
def portUpdates (m : MemDesc) (e : Edge Name) (σ : State Name) (kp : PortKind × Prefix) (x : List ℕ × ℕ) :
    List (Update Name) := (portLogic m kp x).flatMap (Item.updates (emit m) e σ)

/-- The blocks of a port, all triggered by its clock and gated by its enable. -/
theorem portUpdates_eq (m : MemDesc) (e : Edge Name) (σ : State Name) (kind : PortKind) (p : Prefix) (grp : List ℕ)
    (gi : ℕ) : portUpdates m e σ (kind, p) (grp, gi) =
      if Memory.active e p then
        match kind with
        | .read => (Stmt.load (.lane p .data gi) (.mem gi) (.port p .addr)).updates (emit m) e.input σ
        | .write | .mwrite => (writeBody m p grp gi .data .mask).updates (emit m) e.input σ
        | .rw | .mrw =>
          if Memory.writeMode e p then (writeBody m p grp gi .wdata .wmask).updates (emit m) e.input σ
            else (Stmt.load (.lane p .rdata gi) (.mem gi) (.port p .addr)).updates (emit m) e.input σ
      else [] := by
  unfold portUpdates Memory.active Memory.writeMode
  cases hclk : e.posedge (.port p .clk) <;> cases hen : (e.input (.port p .en)).testBit 0 <;> cases kind <;>
    simp only [portLogic, List.flatMap_cons, List.flatMap_nil, Item.updates, hclk, Stmt.updates_cond,
      hen, Bool.and_self,
      Bool.and_false, Bool.and_true, Bool.false_eq_true, if_true, if_false, List.nil_append, List.append_nil] <;>
    rfl

theorem bit_portUpdates_of_ne {m : MemDesc} {e : Edge Name} {σ : State Name} {kp : PortKind × Prefix}
    {x : List ℕ × ℕ} {gi : ℕ} (hne : x.2 ≠ gi) {u : Update Name} (hu : u ∈ portUpdates m e σ kp x) (a j : ℕ) :
    u.bit (.mem gi) a j = none := by
  obtain ⟨kind, p⟩ := kp
  obtain ⟨grp, gi'⟩ := x
  rw [portUpdates_eq] at hu
  have hload : ∀ f, u ∈ (Stmt.load (.lane p f gi') (.mem gi') (.port p .addr)).updates (emit m) e.input σ →
      u.bit (.mem gi) a j = none := fun f hu => by
    rw [List.mem_singleton.mp hu]
    rfl
  split at hu
  · cases kind with
    | read => exact hload _ hu
    | write => exact bit_writeBody_of_ne hne hu a j
    | mwrite => exact bit_writeBody_of_ne hne hu a j
    | rw | mrw =>
      dsimp only at hu
      split at hu
      · exact bit_writeBody_of_ne hne hu a j
      · exact hload _ hu
  · exact absurd hu (by simp)

/-- **A port writes the bits of the plain memory.** -/
theorem override_portUpdates {m : MemDesc} (h : Implementable m) {e : Edge Name} (hok : EdgeOk m e)
    {σ : State Name} {kp : PortKind × Prefix} (hkp : kp ∈ prefixed m) {a i : ℕ}
    (hi : i < m.lanes.toNat * m.gran.toNat) (b : Bool) :
    override b
      ((portUpdates m e σ kp (groupLanes m.lanes.toNat (i / (4 * m.gran.toNat)), i / (4 * m.gran.toNat))).map
      (Update.bit (.mem (i / (4 * m.gran.toNat))) a (localBit m i))) =
        (writeBit m.gran.toNat m.lanes.toNat e a i kp).getD b := by
  obtain ⟨kind, p⟩ := kp
  rw [portUpdates_eq]
  dsimp only [writeBit]
  cases hact : Memory.active e p with
  | false => rfl
  | true =>
    have haddr : (e.input (.port p .addr) : ℤ) < m.depth := by
      rw [Memory.active, Bool.and_eq_true] at hact
      exact hok _ hkp hact.1 hact.2
    have hload : ∀ f, override b (((Stmt.load (.lane p f (i / (4 * m.gran.toNat))) (.mem (i / (4 * m.gran.toNat)))
        (.port p .addr)).updates (emit m) e.input σ).map
          (Update.bit (.mem (i / (4 * m.gran.toNat))) a (localBit m i))) = b := fun f => rfl
    have hmask := h.masked_iff hkp
    cases kind with
    | read => simp only [if_true, hload]; split_ifs <;> rfl
    | write =>
      have hnone : m.maskGran.isNone = true := by
        simpa [PortKind.masked] using hmask rfl
      simp only [if_true, h.override_writeBody hi haddr, hnone, true_or, and_true, hi, decide_true, Bool.true_and,
        beq_iff_eq]
      split_ifs <;> rfl
    | mwrite =>
      have hsome : m.maskGran.isNone = false := by
        simpa [PortKind.masked, Option.isSome_iff_ne_none] using hmask rfl
      simp only [if_true, h.override_writeBody hi haddr, hsome, Bool.false_eq_true, false_or, hi, true_and,
        Bool.true_and, beq_iff_eq]
      split_ifs <;> simp_all
    | rw =>
      have hnone : m.maskGran.isNone = true := by
        simpa [PortKind.masked] using hmask rfl
      cases Memory.writeMode e p with
      | false => simp only [if_true, Bool.false_eq_true, if_false, hload]; split_ifs <;> rfl
      | true =>
        simp only [if_true, h.override_writeBody hi haddr, hnone, true_or, and_true, hi,
          decide_true, Bool.true_and,
          beq_iff_eq]
        split_ifs <;> rfl
    | mrw =>
      have hsome : m.maskGran.isNone = false := by
        simpa [PortKind.masked, Option.isSome_iff_ne_none] using hmask rfl
      cases Memory.writeMode e p with
      | false => simp only [if_true, Bool.false_eq_true, if_false, false_and, hload]; split_ifs <;> rfl
      | true =>
        simp only [if_true, h.override_writeBody hi haddr, hsome, Bool.false_eq_true, false_or, hi, true_and,
          Bool.true_and, beq_iff_eq]
        split_ifs <;> simp_all

/-- A port loads the registers of its output, and no others. -/
theorem override_reg?_portUpdates {m : MemDesc} {e : Edge Name} (hok : EdgeOk m e) {σ : State Name}
    {kp : PortKind × Prefix} (hkp : kp ∈ prefixed m) {gi : ℕ} (hgi : gi < (m.lanes.toNat + 3) / 4) (p : Prefix)
    (f : Field) (v : ℕ) :
    override v ((portUpdates m e σ kp (groupLanes m.lanes.toNat gi, gi)).map (Update.reg? (.lane p f gi))) =
      if Memory.reads e kp = some (.port p f) then σ.arrays (.mem gi) (e.input (.port kp.2 .addr)) else v := by
  obtain ⟨kind, q⟩ := kp
  rw [portUpdates_eq]
  dsimp only [Memory.reads]
  by_cases hact : Memory.active e q = true
  · simp only [if_pos hact]
    have haddr : (e.input (.port q .addr) : ℤ) < m.depth := by
      rw [Memory.active, Bool.and_eq_true] at hact
      exact hok _ hkp hact.1 hact.2
    have hload : ∀ f', override v (((Stmt.load (.lane q f' gi) (.mem gi) (.port q .addr)).updates (emit m) e.input
        σ).map (Update.reg? (.lane p f gi))) =
          if some (Name.port q f') = some (.port p f) then σ.arrays (.mem gi) (e.input (.port q .addr))
            else v := by
      intro f'
      simp only [Stmt.updates, inRange_mem hgi haddr, if_true, List.map_cons, List.map_nil, override_cons,
        override_nil, Update.reg?, Name.lane.injEq, and_true, Option.some.injEq, Name.port.injEq]
      split_ifs <;> rfl
    have hwrite : ∀ dataSig maskSig, override v (((writeBody m q (groupLanes m.lanes.toNat gi) gi dataSig
        maskSig).updates (emit m) e.input σ).map (Update.reg? (.lane p f gi))) = v := by
      intro dataSig maskSig
      refine override_of_none fun o ho => ?_
      obtain ⟨u, hu, rfl⟩ := List.mem_map.mp ho
      obtain ⟨a, lo, w, x, rfl⟩ := mem_updates_writeBody hu
      rfl
    cases kind with
    | read => exact hload .data
    | write | mwrite => simp only [hwrite]; rfl
    | rw | mrw =>
      by_cases hw : Memory.writeMode e q = true
      · simp only [if_pos hw, hwrite]; rfl
      · simp only [if_neg hw]; exact hload .rdata
  · simp only [if_neg hact]
    rfl

theorem reg?_portUpdates_of_ne {m : MemDesc} {e : Edge Name} {σ : State Name} {kp : PortKind × Prefix}
    {x : List ℕ × ℕ} {gi : ℕ} (hne : x.2 ≠ gi) {u : Update Name} (hu : u ∈ portUpdates m e σ kp x) (p : Prefix)
    (f : Field) : u.reg? (.lane p f gi) = none := by
  obtain ⟨kind, q⟩ := kp
  obtain ⟨grp, gi'⟩ := x
  rw [portUpdates_eq] at hu
  have hload : ∀ f', u ∈ (Stmt.load (.lane q f' gi') (.mem gi') (.port q .addr)).updates (emit m) e.input σ →
      u.reg? (.lane p f gi) = none := fun f' hu => by
    rw [List.mem_singleton.mp hu]
    exact if_neg fun hc => hne (Name.lane.inj hc).2.2
  have hwrite : ∀ dataSig maskSig, u ∈ (writeBody m q grp gi' dataSig maskSig).updates (emit m) e.input σ →
      u.reg? (.lane p f gi) = none := fun _ _ hu => by
    obtain ⟨a, lo, w, v, rfl⟩ := mem_updates_writeBody hu
    rfl
  split at hu
  · cases kind with
    | read => exact hload _ hu
    | write | mwrite => exact hwrite _ _ hu
    | rw | mrw =>
      dsimp only at hu
      split at hu
      · exact hwrite _ _ hu
      · exact hload _ hu
  · exact absurd hu (by simp)

/-! ## One edge and whole runs -/

theorem step_updates (m : MemDesc) (e : Edge Name) (σ : State Name) :
    (emit m).items.flatMap (Item.updates (emit m) e σ) =
      (prefixed m).flatMap fun kp => (groups m).flatMap (portUpdates m e σ kp) := by
  rw [emit, List.flatMap_assoc]
  refine List.flatMap_congr fun kp _ => ?_
  rw [List.flatMap_assoc]
  rfl

section Step

variable {m : MemDesc} {e : Edge Name} (hok : EdgeOk m e) (σ : State Name)
include hok

/-- Bit `i` of a cell after an edge: what the ports of the plain memory write there. -/
theorem testBit_arrays_step (h : Implementable m) {a i : ℕ} (hi : i < m.lanes.toNat * m.gran.toNat) :
    (((emit m).step σ e).arrays (.mem (i / (4 * m.gran.toNat))) a).testBit (localBit m i) =
      override ((σ.arrays (.mem (i / (4 * m.gran.toNat))) a).testBit (localBit m i))
        ((prefixed m).map (writeBit m.gran.toNat m.lanes.toNat e a i)) := by
  rw [Module.step, testBit_applyAll, step_updates, List.map_flatMap, List.map_eq_flatMap]
  refine override_flatMap_congr (fun kp hkp b => ?_) _
  have hgi := h.groupIdx_lt hi
  rw [List.map_flatMap, override_flatMap_single (groups_nodup m)
    (x := (groupLanes m.lanes.toNat (i / (4 * m.gran.toNat)), i / (4 * m.gran.toNat)))
    (mem_groups.mpr ⟨hgi, rfl⟩), override_portUpdates h hok hkp hi]
  · rfl
  · intro y hy hne o ho
    obtain ⟨u, hu, rfl⟩ := List.mem_map.mp ho
    refine bit_portUpdates_of_ne (fun heq => hne ?_) hu _ _
    rw [← heq, ← (mem_groups.mp hy).2]

/-- A lane register after an edge: what the ports that read into its output load there. -/
theorem regs_step {gi : ℕ} (hgi : gi < (m.lanes.toNat + 3) / 4) (p : Prefix) (f : Field) :
    ((emit m).step σ e).regs (.lane p f gi) = override (σ.regs (.lane p f gi)) ((prefixed m).map fun kp =>
      if Memory.reads e kp = some (.port p f) then some (σ.arrays (.mem gi) (e.input (.port kp.2 .addr)))
        else none) := by
  rw [Module.step, regs_applyAll, step_updates, List.map_flatMap, List.map_eq_flatMap]
  refine override_flatMap_congr (fun kp hkp v => ?_) _
  rw [List.map_flatMap, override_flatMap_single (groups_nodup m) (x := (groupLanes m.lanes.toNat gi, gi))
    (mem_groups.mpr ⟨hgi, rfl⟩), override_reg?_portUpdates hok hkp hgi, override_cons, override_nil]
  · split_ifs <;> rfl
  · intro y hy hne o ho
    obtain ⟨u, hu, rfl⟩ := List.mem_map.mp ho
    refine reg?_portUpdates_of_ne (fun heq => hne ?_) hu _ _
    rw [← heq, ← (mem_groups.mp hy).2]

end Step

/-- The output of a port. -/
def outName : PortKind × Prefix → Option Name
  | (.read, p) => some (.port p .data)
  | (.rw, p) | (.mrw, p) => some (.port p .rdata)
  | _ => none

theorem mem_emit_items {m : MemDesc} {it : Item Name} :
    it ∈ (emit m).items ↔ ∃ kp ∈ prefixed m, ∃ x ∈ groups m, it ∈ portLogic m kp x := by
  simp [emit]

/-- **Outputs.**  Bit `i` of an output is the bit of its lane register in the sub-array of bit `i`. -/
theorem testBit_output_emit {m : MemDesc} (h : Implementable m) (σ : State Name) {kp : PortKind × Prefix}
    (hkp : kp ∈ prefixed m) {p : Prefix} {f : Field} (hout : outName kp = some (.port p f)) (i : ℕ) :
    ((emit m).output σ (.port p f)).testBit i = (decide (i < m.lanes.toNat * m.gran.toNat) &&
      (σ.regs (.lane p f (i / (4 * m.gran.toNat)))).testBit (localBit m i)) := by
  rw [testBit_output]
  -- every assign that drives the bit drives it from the same register
  have hall : ∀ it ∈ (emit m).items, it.bit σ (.port p f) i = none ∨ (i < m.lanes.toNat * m.gran.toNat ∧
      it.bit σ (.port p f) i = some ((σ.regs (.lane p f (i / (4 * m.gran.toNat)))).testBit (localBit m i))) := by
    intro it hit
    obtain ⟨⟨kind, q⟩, -, ⟨grp, gi⟩, hx, hit⟩ := mem_emit_items.mp hit
    have hgi : gi < (m.lanes.toNat + 3) / 4 := (mem_groups.mp hx).1
    have hgrp : grp = groupLanes m.lanes.toNat gi := (mem_groups.mp hx).2
    subst hgrp
    have hassign :
      ∀ f', (Item.assign (.port q f') (wordSlice m (groupLanes m.lanes.toNat gi)) (.lane q f' gi)).bit σ
        (.port p f) i = none ∨ (i < m.lanes.toNat * m.gran.toNat ∧ (Item.assign (.port q f')
          (wordSlice m (groupLanes m.lanes.toNat gi)) (.lane q f' gi)).bit σ (.port p f) i =
            some ((σ.regs (.lane p f (i / (4 * m.gran.toNat)))).testBit (localBit m i))) := by
      intro f'
      rw [Item.bit]
      split_ifs with hc
      · obtain ⟨hname, hin⟩ := hc
        obtain ⟨rfl, rfl⟩ := Name.port.inj hname
        obtain ⟨hi, rfl⟩ := (h.mem_wordSlice_iff hgi).mp hin
        exact Or.inr ⟨hi, by rw [h.wordSlice_lo hgi]; rfl⟩
      · exact Or.inl rfl
    cases kind <;> simp only [portLogic, List.mem_cons, List.not_mem_nil, or_false] at hit
    case read | rw | mrw =>
      rcases hit with rfl | rfl | rfl
      · exact Or.inl rfl
      · exact Or.inl rfl
      · exact hassign _
    all_goals
      rw [hit]
      exact Or.inl rfl
  by_cases hi : i < m.lanes.toNat * m.gran.toNat
  · have hgi := h.groupIdx_lt hi
    rw [override_const (v := (σ.regs (.lane p f (i / (4 * m.gran.toNat)))).testBit (localBit m i))]
    · simp [hi]
    · intro o ho
      obtain ⟨it, hit, rfl⟩ := List.mem_map.mp ho
      exact (hall it hit).imp id (·.2)
    · -- the port's own assign on the sub-array of bit `i`
      refine List.mem_map.mpr
        ⟨.assign (.port p f) (wordSlice m (groupLanes m.lanes.toNat (i / (4 * m.gran.toNat))))
        (.lane p f (i / (4 * m.gran.toNat))), mem_emit_items.mpr ⟨kp, hkp,
          (groupLanes m.lanes.toNat (i / (4 * m.gran.toNat)), i / (4 * m.gran.toNat)),
            mem_groups.mpr ⟨hgi, rfl⟩, ?_⟩, ?_⟩
      · obtain ⟨kind, q⟩ := kp
        cases kind <;> simp_all [outName, portLogic]
      · rw [Item.bit, if_pos ⟨rfl, (h.mem_wordSlice_iff hgi).mpr ⟨hi, rfl⟩⟩, h.wordSlice_lo hgi]
        rfl
  · rw [override_of_none]
    · simp [hi]
    · intro o ho
      obtain ⟨it, hit, rfl⟩ := List.mem_map.mp ho
      exact (hall it hit).resolve_right fun hc => hi hc.1

/-- The plain memory that the contents of an emitted module stand for. -/
def abs (m : MemDesc) (σ : State Name) : Memory where
  cells a := joinGroups m fun gi => σ.arrays (.mem gi) a
  rdata out := (emit m).output σ out

theorem foldl_readPort (e : Edge Name) (cells : ℕ → ℕ) (ports : List (PortKind × Prefix)) (rdata : Name → ℕ)
    (out : Name) : ports.foldl (Memory.readPort e cells) rdata out = override (rdata out) (ports.map fun kp =>
      if Memory.reads e kp = some out then some (cells (e.input (.port kp.2 .addr))) else none) := by
  induction ports generalizing rdata with
  | nil => rfl
  | cons kp ports ih =>
    rw [List.foldl_cons, List.map_cons, override_cons, ih]
    congr 1
    unfold Memory.readPort
    cases hr : Memory.reads e kp with
    | none => rfl
    | some out' =>
      by_cases ho : out' = out
      · subst ho; simp
      · simp [ho, Function.update_of_ne (Ne.symm ho)]

/-- The mask and the data of a masked write on an edge. -/
def maskedWrite (e : Edge Name) : PortKind × Prefix → Option (ℕ × ℕ)
  | (.mwrite, p) =>
    if Memory.active e p then some (e.input (.port p .mask), e.input (.port p .data)) else none
  | (.mrw, p) =>
    if Memory.active e p && Memory.writeMode e p then some (e.input (.port p .wmask), e.input (.port p .wdata))
    else none
  | _ => none

/-- The memory holds the cells and the outputs of the module. -/
def Agrees (m : MemDesc) (σ : State Name) (μ : Memory) : Prop :=
  (∀ a, (abs m σ).cells a = μ.cells a) ∧
    ∀ kp ∈ prefixed m, ∀ out, outName kp = some out → (abs m σ).rdata out = μ.rdata out

section Refinement

variable {m : MemDesc} (h : Implementable m)
include h

theorem abs_step_cells {e : Edge Name} (hok : EdgeOk m e) (σ : State Name) (a : ℕ) :
    (abs m ((emit m).step σ e)).cells a =
      (Memory.step (prefixed m) m.gran.toNat m.lanes.toNat (abs m σ) e).cells a := by
  refine Nat.eq_of_testBit_eq fun i => ?_
  simp only [abs, Memory.step]
  rw [testBit_joinGroups h, testBit_foldl_writePort h.gran_toNat_pos, testBit_joinGroups h]
  by_cases hi : i < m.lanes.toNat * m.gran.toNat
  · simp only [hi, decide_true, Bool.true_and]
    exact testBit_arrays_step hok σ h hi
  · -- no bits beyond the word
    simp only [hi, decide_false, Bool.false_and]
    refine (override_self fun o ho => ?_).symm
    obtain ⟨⟨kind, p⟩, -, rfl⟩ := List.mem_map.mp ho
    dsimp only [writeBit]
    cases kind <;> simp only [hi, decide_false, Bool.false_and, false_and, and_false, if_false] <;>
      split_ifs <;> simp

theorem abs_step_rdata {e : Edge Name} (hok : EdgeOk m e) (σ : State Name) {kp : PortKind × Prefix}
    (hkp : kp ∈ prefixed m) {out : Name} (hout : outName kp = some out) :
    (abs m ((emit m).step σ e)).rdata out =
      (Memory.step (prefixed m) m.gran.toNat m.lanes.toNat (abs m σ) e).rdata out := by
  obtain ⟨p, f, rfl⟩ : ∃ p f, out = .port p f := by
    obtain ⟨kind, q⟩ := kp
    cases kind <;> simp_all [outName] <;> exact ⟨_, _, hout.symm⟩
  refine Nat.eq_of_testBit_eq fun i => ?_
  simp only [abs, Memory.step]
  rw [foldl_readPort, override_map (fun w : ℕ => w.testBit i), testBit_output_emit h _ hkp hout,
    testBit_output_emit h _ hkp hout, List.map_map]
  by_cases hi : i < m.lanes.toNat * m.gran.toNat
  · simp only [hi, decide_true, Bool.true_and]
    rw [regs_step hok σ (h.groupIdx_lt hi), override_map (fun w : ℕ => w.testBit (localBit m i)), List.map_map]
    congr 1
    refine List.map_congr_left fun kp' _ => ?_
    simp only [Function.comp]
    split_ifs
    · simp [testBit_joinGroups h, hi]
    · rfl
  · simp only [hi, decide_false, Bool.false_and]
    refine (override_self fun o ho => ?_).symm
    obtain ⟨kp', -, rfl⟩ := List.mem_map.mp ho
    simp only [Function.comp]
    split_ifs
    · simp [testBit_joinGroups h, hi]
    · simp

/-- **One edge.**  A memory that agrees with the module on every cell and every output still agrees after the
edge. -/
theorem agrees_step {e : Edge Name} (hok : EdgeOk m e) {σ : State Name} {μ : Memory} (hμ : Agrees m σ μ) :
    Agrees m ((emit m).step σ e) (Memory.step (prefixed m) m.gran.toNat m.lanes.toNat μ e) := by
  obtain ⟨hcells, hrdata⟩ := hμ
  refine ⟨fun a => ?_, fun kp hkp out hout => ?_⟩
  · rw [abs_step_cells h hok, Memory.step, Memory.step, funext hcells]
  · have hstep := abs_step_rdata h hok σ hkp hout
    simp only [Memory.step, foldl_readPort] at hstep ⊢
    rw [hrdata kp hkp out hout, funext hcells] at hstep
    exact hstep

theorem agrees_run (es : List (Edge Name)) (hok : ∀ e ∈ es, EdgeOk m e) {σ : State Name} {μ : Memory}
    (hμ : Agrees m σ μ) :
    Agrees m ((emit m).run σ es) (Memory.run (prefixed m) m.gran.toNat m.lanes.toNat μ es) := by
  induction es generalizing σ μ with
  | nil => exact hμ
  | cons e es ih =>
    exact ih (fun e' he' => hok e' (List.mem_cons_of_mem _ he')) (agrees_step h (hok e (List.mem_cons_self ..)) hμ)

/-- Every bit of the data word lies in the slice of exactly one sub-array. -/
theorem existsUnique_wordSlice {i : ℕ} (hi : i < m.lanes.toNat * m.gran.toNat) :
    ∃! x, x ∈ groups m ∧ (wordSlice m x.1).lo ≤ i ∧ i < (wordSlice m x.1).lo + (wordSlice m x.1).width := by
  have hgi := h.groupIdx_lt hi
  refine ⟨(groupLanes m.lanes.toNat (i / (4 * m.gran.toNat)), i / (4 * m.gran.toNat)),
    ⟨mem_groups.mpr ⟨hgi, rfl⟩, (h.mem_wordSlice_iff hgi).mpr ⟨hi, rfl⟩⟩, fun y hy => ?_⟩
  obtain ⟨hy, hin⟩ := hy
  obtain ⟨hygi, hy1⟩ := mem_groups.mp hy
  rw [hy1] at hin
  have hidx := ((h.mem_wordSlice_iff hygi).mp hin).2
  rw [hidx, ← hy1]

theorem eq_of_writing {kp kp' : PortKind × Prefix} (hkp : kp ∈ prefixed m) (hkp' : kp' ∈ prefixed m)
    (hw : kp.1.writing = true) (hw' : kp'.1.writing = true) : kp' = kp := by
  have hlen : ((prefixed m).filter fun x => x.1.writing).length ≤ 1 := by
    have := h.writers
    rwa [← map_fst_prefixed, List.filter_map, List.length_map] at this
  have h1 : kp ∈ (prefixed m).filter fun x => x.1.writing := List.mem_filter.mpr ⟨hkp, hw⟩
  have h2 : kp' ∈ (prefixed m).filter fun x => x.1.writing := List.mem_filter.mpr ⟨hkp', hw'⟩
  match hf : (prefixed m).filter fun x => x.1.writing with
  | [] => rw [hf] at h1; exact absurd h1 (by simp)
  | [x] =>
    rw [hf, List.mem_singleton] at h1 h2
    rw [h1, h2]
  | x :: y :: l => rw [hf] at hlen; simp at hlen

/-- A masked write stores every lane of its mask and keeps the others. -/
theorem testBit_cells_maskedWrite {e : Edge Name} (hok : EdgeOk m e) (σ : State Name) {kp : PortKind × Prefix}
    (hkp : kp ∈ prefixed m) {mask data : ℕ} (hw : maskedWrite e kp = some (mask, data)) {l i : ℕ}
    (hl : l < m.lanes.toNat) (hlo : l * m.gran.toNat ≤ i) (hhi : i < (l + 1) * m.gran.toNat) :
    ((abs m ((emit m).step σ e)).cells (e.input (.port kp.2 .addr))).testBit i =
      if mask.testBit l then data.testBit i
      else ((abs m σ).cells (e.input (.port kp.2 .addr))).testBit i := by
  have hlane : i / m.gran.toNat = l := by
    rw [Nat.div_eq_iff h.gran_toNat_pos, Nat.mul_comm]
    rw [Nat.add_mul] at hhi
    exact ⟨by rw [Nat.mul_comm]; exact hlo, by rw [Nat.mul_comm]; omega⟩
  have hi : i < m.lanes.toNat * m.gran.toNat :=
    lt_of_lt_of_le hhi (Nat.mul_le_mul_right _ hl)
  have hbit : writeBit m.gran.toNat m.lanes.toNat e (e.input (.port kp.2 .addr)) i kp =
      if mask.testBit l then some (data.testBit i) else none := by
    obtain ⟨kind, p⟩ := kp
    cases kind <;> simp only [maskedWrite, reduceCtorEq, Option.ite_none_right_eq_some, Option.some.injEq,
      Prod.mk.injEq, Bool.and_eq_true] at hw
    · obtain ⟨⟨ha, hm⟩, rfl, rfl⟩ := hw
      simp [writeBit, ha, hm, hi, hlane]
    · obtain ⟨ha, rfl, rfl⟩ := hw
      simp [writeBit, ha, hi, hlane]
  have hwr : kp.1.writing = true := by
    obtain ⟨kind, p⟩ := kp
    cases kind <;> first | rfl | simp [maskedWrite] at hw
  rw [abs_step_cells h hok, Memory.step, testBit_foldl_writePort h.gran_toNat_pos]
  -- the other ports only read
  have hall : ∀ o ∈ (prefixed m).map (writeBit m.gran.toNat m.lanes.toNat e (e.input (.port kp.2 .addr)) i),
      o = none ∨ o = if mask.testBit l then some (data.testBit i) else none := by
    intro o ho
    obtain ⟨kp', hkp', rfl⟩ := List.mem_map.mp ho
    by_cases hwr' : kp'.1.writing = true
    · rw [eq_of_writing h hkp hkp' hwr hwr']
      exact Or.inr hbit
    · left
      obtain ⟨kind, p⟩ := kp'
      cases kind <;> first | exact absurd rfl hwr' | (dsimp only [writeBit]; split_ifs <;> rfl)
  by_cases hm : mask.testBit l = true
  · simp only [hm, if_true] at hall hbit ⊢
    exact override_const hall (List.mem_map.mpr ⟨kp, hkp, hbit⟩) _
  · simp only [hm] at hall ⊢
    exact override_of_none fun o ho => (hall o ho).elim id id

/-- **The emitted module refines the plain memory.**  Whatever the arrays and registers hold at the start and
whatever edges follow, every read port shows the word of the plain memory; the group slices partition the data
word, and bit `l` of a mask controls the bits `[l gran, (l + 1) gran)` and no others. -/
theorem emit_refines (σ : State Name) (es : List (Edge Name)) (hok : ∀ e ∈ es, EdgeOk m e) :
    (∀ kp ∈ prefixed m, ∀ out, outName kp = some out →
      (emit m).output ((emit m).run σ es) out =
        (Memory.run (prefixed m) m.gran.toNat m.lanes.toNat (abs m σ) es).rdata out) ∧
    (∀ i < m.width.toNat, ∃! x, x ∈ groups m ∧ (wordSlice m x.1).lo ≤ i ∧
      i < (wordSlice m x.1).lo + (wordSlice m x.1).width) ∧
    (∀ e, EdgeOk m e → ∀ kp ∈ prefixed m, ∀ mask data, maskedWrite e kp = some (mask, data) →
      ∀ l < m.lanes.toNat, ∀ i, l * m.gran.toNat ≤ i → i < (l + 1) * m.gran.toNat →
        ((abs m ((emit m).step ((emit m).run σ es) e)).cells (e.input (.port kp.2 .addr))).testBit i =
          if mask.testBit l then data.testBit i
          else ((abs m ((emit m).run σ es)).cells (e.input (.port kp.2 .addr))).testBit i) := by
  refine ⟨fun kp hkp out hout => ?_, fun i hi => existsUnique_wordSlice h ?_, ?_⟩
  · have hrun := agrees_run h es hok (σ := σ) (μ := abs m σ) ⟨fun _ => rfl, fun _ _ _ _ => rfl⟩
    exact hrun.2 kp hkp out hout
  · have hg := h.gran_pos
    rcases le_or_gt 0 m.lanes with hl | hl
    · rwa [h.width_eq, Int.toNat_mul hl (by omega)] at hi
    · have hneg : m.lanes * m.gran < 0 := Int.mul_neg_of_neg_of_pos hl (by omega)
      rw [h.width_eq] at hi
      omega
  · intro e he kp hkp mask data hw l hl i hlo hhi
    exact testBit_cells_maskedWrite h he _ hkp hw hl hlo hhi

end Refinement

/-- Four words of ten two-bit lanes in three sub-arrays, with a read port and a masked write port. -/
def tagArray : MemDesc := ⟨"tag_array_ext".toList, 4, 20, [.read, .mwrite], some 2⟩

/-- A masked write of the lanes 1, 4 and 9 of word 2. -/
def tagWrite : Edge Name where
  posedge s := s = .port ⟨.W, 0⟩ .clk
  input
    | .port ⟨.W, _⟩ .addr => 2
    | .port ⟨.W, _⟩ .en => 1
    | .port ⟨.W, _⟩ .data => 0xfffff
    | .port ⟨.W, _⟩ .mask => 0x212
    | _ => 0

/-- A read of word 2. -/
def tagRead : Edge Name where
  posedge s := s = .port ⟨.R, 0⟩ .clk
  input
    | .port ⟨.R, _⟩ .addr => 2
    | .port ⟨.R, _⟩ .en => 1
    | _ => 0

theorem tagArray_refines : Implementable tagArray ∧ (∀ e ∈ [tagWrite, tagRead], EdgeOk tagArray e) ∧
    (emit tagArray).output ((emit tagArray).run ⟨fun _ => 0, fun _ _ => 0⟩ [tagWrite, tagRead])
      (.port ⟨.R, 0⟩ .data) = 0xc030c := by
  have himpl : Implementable tagArray := by
    constructor <;> decide
  have hok : ∀ e ∈ [tagWrite, tagRead], EdgeOk tagArray e := by
    unfold EdgeOk
    decide
  refine ⟨himpl, hok, ?_⟩
  rw [(emit_refines himpl ⟨fun _ => 0, fun _ _ => 0⟩ _ hok).1 (.read, ⟨.R, 0⟩) (by decide) _ rfl]
  decide

end Soceteer.MemGen
