import Mathlib.Algebra.BigOperators.Group.Finset.Piecewise
import Mathlib.Data.Int.CardIntervalMod
import Soceteer.Bd.Consistent

/-!
# Soceteer.Bd.Slices — the fan-out of a reset is cut into slices

A `ProcSysReset` has four outputs that are vectors of a limited width. On finalization `createSlices` takes the
sinks of an output off it, gives each to one of as many one-bit slices as the width allows, and has the output
drive the slices.

* `Comp`, `Pin`: the components and pins of the design, and the slices that are new in it.
* `ProcSysReset`, `Output`, `dinWidth`, `defaultProperties`, `wireOne`, `wire`, `link`, `createSlices`: the source.
* `Wired`: the graph after some sinks have been given to their slices; `wireOne_wired`, `wire_wired`,
  `link_refines`.
* `design`, `Before`: the graph that any calls of the mutators come to, before there are slices of the output.
* `Sliced`, `createSlices_preserves`: what holds of the graph afterwards.
-/

namespace Soceteer.Bd

open Soceteer.Lib

/-! ## The source -/

/-- `InlineSlice`, with the name and the group it is given. -/
structure InlineSlice where
  dinWidth : ℕ
  dinFrom : ℕ
  dinTo : ℕ
  doutWidth : ℕ
  instanceName : String
  group : Option String
deriving DecidableEq

/-- A component of the design, or a slice that is created now. -/
inductive Comp (κ : Type)
  | old (c : κ)
  | slice (s : InlineSlice)
deriving DecidableEq

/-- A pin of the design, or a pin of a slice that is created now. -/
inductive Pin (π : Type)
  | old (p : π)
  | din (s : InlineSlice)
  | dout (s : InlineSlice)
deriving DecidableEq

/-- The outputs with a `ProcSysResetPort`. -/
inductive Output
  | peripheralAResetN
  | peripheralReset
  | busStructReset
  | interconnectResetN
deriving DecidableEq

namespace Output

def pin : Output → String
  | peripheralAResetN => "peripheral_aresetn"
  | peripheralReset => "peripheral_reset"
  | busStructReset => "bus_struct_reset"
  | interconnectResetN => "interconnect_aresetn"

def maxOutputs : Output → ℕ
  | peripheralAResetN => 16
  | peripheralReset => 16
  | busStructReset => 8
  | interconnectResetN => 8

/-- The property that counts the bits of the output. -/
def config : Output → String
  | peripheralAResetN => "CONFIG.C_NUM_PERP_ARESETN"
  | peripheralReset => "CONFIG.C_NUM_PERP_RST"
  | busStructReset => "CONFIG.C_NUM_BUS_RST"
  | interconnectResetN => "CONFIG.C_NUM_INTERCONNECT_ARESETN"

end Output

structure ProcSysReset (π : Type) where
  instanceName : String
  group : Option String
  pin : Output → π

/-- `sinks.size min maxOutputs max 1` -/
def dinWidth {α : Type} (o : Output) (sinks : List α) : ℕ := max (min sinks.length o.maxOutputs) 1

/-- With `autoSlice`, from the sinks that the ports have taken down. -/
def defaultProperties {α : Type} (sinks : Output → List α) : List (String × String) :=
  [.peripheralAResetN, .peripheralReset, .busStructReset, .interconnectResetN].map fun o =>
    (o.config, toString (dinWidth o (sinks o)))

section Source

variable {κ π : Type} [DecidableEq κ] [DecidableEq π] (r : ProcSysReset π) (o : Output)

omit [DecidableEq π] in
/-- The slice for bit `sliceIdx`. -/
def slice (width sliceIdx : ℕ) : InlineSlice where
  dinWidth := width
  dinFrom := sliceIdx
  dinTo := sliceIdx
  doutWidth := 1
  instanceName := r.instanceName ++ "_" ++ o.pin ++ "_slice_" ++ toString sliceIdx
  group := r.group

/-- `getOrElseUpdate`: a component adds itself to the design when it is created. -/
def sliceAt (width sliceIdx : ℕ) (idxToSlice : LinkedMap ℕ InlineSlice) :
    BdM (Comp κ) (Pin π) (InlineSlice × LinkedMap ℕ InlineSlice) :=
  match idxToSlice.get sliceIdx with
  | some s => pure (s, idxToSlice)
  | none => do
    addNode (.slice (slice r o width sliceIdx))
    pure (slice r o width sliceIdx, idxToSlice.put sliceIdx (slice r o width sliceIdx))

/-- One turn of the loop over the sinks. -/
def wireOne (width : ℕ) (sink : Pin π) (i : ℕ) (idxToSlice : LinkedMap ℕ InlineSlice) :
    BdM (Comp κ) (Pin π) (LinkedMap ℕ InlineSlice) := do
  let r ← sliceAt r o width (i % o.maxOutputs) idxToSlice
  addEdge (.dout r.1) sink
  pure r.2

def wire (width : ℕ) : List (Pin π × ℕ) → LinkedMap ℕ InlineSlice → BdM (Comp κ) (Pin π) (LinkedMap ℕ InlineSlice)
  | [], idxToSlice => pure idxToSlice
  | x :: xs, idxToSlice => do
    let idxToSlice ← wireOne r o width x.1 x.2 idxToSlice
    wire width xs idxToSlice

/-- `idxToSlice.values.foreach`; the keys are small numbers, which a hash map goes through in ascending order. -/
def link : List InlineSlice → BdM (Comp κ) (Pin π) Unit
  | [] => pure ()
  | s :: ss => do
    addEdge (.old (r.pin o)) (.din s)
    link ss

/-- `createSlices`; the lazy `sinks` are taken down when `dinWidth` is first asked for. -/
def createSlices : BdM (Comp κ) (Pin π) Unit := do
  let sinks := (← get).successors (.old (r.pin o))
  if dinWidth o sinks < 2 then pure ()
  else do
    disconnect (.old (r.pin o)) none
    let idxToSlice ← wire r o (dinWidth o sinks) sinks.zipIdx LinkedMap.empty
    link r o (idxToSlice.entries.map Prod.snd)

end Source

/-! ## Adding edges -/

section Edges

variable {ν α : Type} [DecidableEq α] {E : List (α × α)} {bd : SoctBd ν α} {q : α → Bool}

/-- Edges from other sources keep their order when an edge is added. -/
theorem pairs_append_filter (m : LinkedMap α (List α)) {source : α} (sink : α) (hq : q source = false) :
    (append m source sink).pairs.filter (fun e => q e.1) = m.pairs.filter fun e => q e.1 := by
  have hgroup : ∀ l : List α, (l.map fun c => (source, c)).filter (fun e => q e.1) = [] := by
    intro l
    refine List.filter_eq_nil_iff.mpr fun e he => ?_
    obtain ⟨c, -, rfl⟩ := List.mem_map.mp he
    simp [hq]
  rw [append]
  by_cases hmem : source ∈ m.keys
  · rw [LinkedMap.pairs, LinkedMap.entries_put_of_mem hmem, LinkedMap.replaced, List.flatMap_map, LinkedMap.pairs,
      List.filter_flatMap, List.filter_flatMap]
    refine List.flatMap_congr fun e _ => ?_
    by_cases hk : e.1 = source
    · rw [if_pos hk, hk, hgroup, hgroup]
    · rw [if_neg hk]
  · rw [LinkedMap.pairs, LinkedMap.entries_put_of_not_mem hmem, List.flatMap_append, List.filter_append,
      List.flatMap_singleton, hgroup, List.append_nil]
    rfl

/-- What `addEdge` does to a design that is not locked. -/
theorem wp_addEdge (h : Refines E bd) (hlock : bd.locked = false) (source sink : α) :
    Wp (addEdge source sink) bd
      (fun _ bd' => bd'.locked = false ∧ bd'.nodes = bd.nodes ∧ Refines (E ++ [(source, sink)]) bd' ∧
        ∀ q : α → Bool, q source = false → bd'.edges.filter (fun e => q e.1) = bd.edges.filter fun e => q e.1)
      (fun _ _ => False) := by
  rw [addEdge, wp_bind, wp_requireUnlocked, if_neg (by simp [hlock])]
  exact ⟨hlock, rfl, h.addEdge, fun q hq => pairs_append_filter _ _ hq⟩

end Edges

/-! ## The loop over the sinks -/

section Wiring

variable {κ π : Type} [DecidableEq κ] [DecidableEq π] {r : ProcSysReset π} {o : Output} {width : ℕ}
  {E : List (Pin π × Pin π)} {bd bd₀ : SoctBd (Comp κ) (Pin π)} {idxToSlice : LinkedMap ℕ InlineSlice}

/-- Sources whose edges stay: pins of the design other than the output. -/
def stays (r : ProcSysReset π) (o : Output) : Pin π → Bool
  | .old p => p ≠ r.pin o
  | _ => false

/-- The edges to the sinks, each from the slice of its number. -/
def rewired (r : ProcSysReset π) (o : Output) (width : ℕ) (sinks : List (Pin π)) : List (Pin π × Pin π) :=
  sinks.zipIdx.map fun x => (.dout (slice r o width (x.2 % o.maxOutputs)), x.1)

/-- The slices for the first `n` sinks. -/
def slices (r : ProcSysReset π) (o : Output) (width n : ℕ) : List InlineSlice :=
  (List.range (min n o.maxOutputs)).map (slice r o width)

/-- The sinks `done` have been given to their slices. -/
structure Wired (r : ProcSysReset π) (o : Output) (width : ℕ) (E : List (Pin π × Pin π))
    (bd₀ bd : SoctBd (Comp κ) (Pin π))
    (idxToSlice : LinkedMap ℕ InlineSlice) (done : List (Pin π)) : Prop where
  locked : bd.locked = false
  refines : Refines (E ++ rewired r o width done) bd
  entries : idxToSlice.entries = (List.range (min done.length o.maxOutputs)).map fun i => (i, slice r o width i)
  nodes : bd.nodes = bd₀.nodes ++ (slices r o width done.length).map .slice
  others : bd.edges.filter (fun e => stays r o e.1) = bd₀.edges.filter fun e => stays r o e.1

theorem maxOutputs_pos (o : Output) : 2 ≤ o.maxOutputs := by cases o <;> decide

omit [DecidableEq π] in
theorem slice_injective (r : ProcSysReset π) (o : Output) (width : ℕ) : Function.Injective (slice r o width) :=
  fun _ _ h => congrArg InlineSlice.dinFrom h

omit [DecidableEq π] in
theorem rewired_concat (done : List (Pin π)) (sink : Pin π) : rewired r o width (done ++ [sink]) =
    rewired r o width done ++ [(.dout (slice r o width (done.length % o.maxOutputs)), sink)] := by
  simp [rewired, List.zipIdx_append]

/-- The slice of the next sink is there, or it is created as the next one. -/
theorem sliceAt_wired {done : List (Pin π)} (h : Wired r o width E bd₀ bd idxToSlice done)
    (hold : ∀ c ∈ bd₀.nodes, ∃ k, c = .old k) :
    Wp (sliceAt r o width (done.length % o.maxOutputs) idxToSlice) bd
      (fun res bd' => res.1 = slice r o width (done.length % o.maxOutputs) ∧ bd'.locked = false ∧
        Refines (E ++ rewired r o width done) bd' ∧
        res.2.entries = (List.range (min (done.length + 1) o.maxOutputs)).map (fun i => (i, slice r o width i)) ∧
        bd'.nodes = bd₀.nodes ++ (slices r o width (done.length + 1)).map .slice ∧ bd'.edges = bd.edges)
      (fun _ _ => False) := by
  have hpos := maxOutputs_pos o
  have hkeys : idxToSlice.keys = List.range (min done.length o.maxOutputs) := by
    rw [LinkedMap.keys, h.entries, List.map_map]
    exact List.map_id _
  rcases Nat.lt_or_ge done.length o.maxOutputs with hlt | hge
  · -- one of the first `maxOutputs` sinks: its slice is new
    have hidx : done.length % o.maxOutputs = done.length := Nat.mod_eq_of_lt hlt
    have hnot : done.length ∉ idxToSlice.keys := by
      rw [hkeys, Nat.min_eq_left hlt.le, List.mem_range]
      omega
    have hfresh : Comp.slice (slice r o width done.length) ∉ bd.nodes := by
      rw [h.nodes, List.mem_append, not_or]
      constructor
      · intro hmem
        obtain ⟨k, hk⟩ := hold _ hmem
        exact absurd hk (by simp)
      · intro hmem
        obtain ⟨s, hs, heq⟩ := List.mem_map.mp hmem
        obtain ⟨i, hi, rfl⟩ := List.mem_map.mp hs
        rw [Comp.slice.injEq] at heq
        rw [List.mem_range, slice_injective r o width heq] at hi
        omega
    rw [hidx, sliceAt, LinkedMap.get_eq_none_iff.mpr hnot, wp_bind, addNode, wp_bind, wp_requireUnlocked,
      if_neg (by simp [h.locked])]
    refine ⟨rfl, h.locked, ⟨h.refines.outAdj, h.refines.inAdj⟩, ?_, ?_, rfl⟩
    · rw [LinkedMap.entries_put_of_not_mem hnot, h.entries, Nat.min_eq_left hlt.le,
        Nat.min_eq_left hlt, List.range_succ,
        List.map_append]
      rfl
    · show (if _ ∈ bd.nodes then bd.nodes else _) = _
      rw [if_neg hfresh, h.nodes, slices, slices, Nat.min_eq_left hlt.le, Nat.min_eq_left hlt, List.range_succ,
        List.map_append, List.map_append, List.append_assoc]
      rfl
  · -- all slices are there
    have hmin : min (done.length + 1) o.maxOutputs = min done.length o.maxOutputs := by omega
    have hget :
        idxToSlice.get (done.length % o.maxOutputs) = some (slice r o width (done.length % o.maxOutputs)) := by
      rw [LinkedMap.get_eq_some_iff, h.entries, List.mem_map]
      refine ⟨done.length % o.maxOutputs, List.mem_range.mpr ?_, rfl⟩
      rw [Nat.min_eq_right hge]
      exact Nat.mod_lt _ (by omega)
    rw [sliceAt, hget]
    refine ⟨rfl, h.locked, h.refines, by rw [hmin]; exact h.entries, ?_, rfl⟩
    rw [slices, hmin]
    exact h.nodes

theorem wireOne_wired {done : List (Pin π)} (h : Wired r o width E bd₀ bd idxToSlice done)
    (hold : ∀ c ∈ bd₀.nodes, ∃ k, c = .old k) (sink : Pin π) :
    Wp (wireOne r o width sink done.length idxToSlice) bd
      (fun idxToSlice' bd' => Wired r o width E bd₀ bd' idxToSlice' (done ++ [sink])) (fun _ _ => False) := by
  rw [wireOne, wp_bind]
  refine (sliceAt_wired h hold).mono (fun res bd₁ ⟨hslice, hlock, href, hentries, hnodes, hedges⟩ =>
    ?_) fun _ _ => id
  rw [wp_bind]
  refine (wp_addEdge href hlock (.dout res.1) sink).mono (fun _ bd₂ ⟨hlock₂, hnodes₂, href₂, hothers⟩ =>
    ?_) fun _ _ => id
  refine ⟨hlock₂, ?_, ?_, ?_, ?_⟩
  · rw [rewired_concat, ← hslice, ← List.append_assoc]
    exact href₂
  · rw [List.length_append, List.length_singleton]
    exact hentries
  · rw [List.length_append, List.length_singleton, hnodes₂]
    exact hnodes
  · rw [hothers (stays r o) rfl, hedges]
    exact h.others

/-- All sinks are given to their slices, one after the other. -/
theorem wire_wired {done : List (Pin π)} (h : Wired r o width E bd₀ bd idxToSlice done)
    (hold : ∀ c ∈ bd₀.nodes, ∃ k, c = .old k) (sinks : List (Pin π)) :
    Wp (wire r o width (sinks.zipIdx done.length) idxToSlice) bd
      (fun idxToSlice' bd' => Wired r o width E bd₀ bd' idxToSlice' (done ++ sinks)) (fun _ _ => False) := by
  induction sinks generalizing done bd idxToSlice with
  | nil =>
    rw [List.append_nil]
    exact h
  | cons sink sinks ih =>
    rw [List.zipIdx_cons, wire, wp_bind]
    refine (wireOne_wired h hold sink).mono (fun idxToSlice' bd' h' => ?_) fun _ _ => id
    have hrest := ih h'
    rw [List.length_append, List.length_singleton, List.append_assoc] at hrest
    exact hrest

omit [DecidableEq κ] in
/-- The output drives the slices. -/
theorem link_refines {ss : List InlineSlice} (h : Refines E bd) (hlock : bd.locked = false) :
    Wp (link r o ss) bd
      (fun _ bd' => Refines (E ++ ss.map fun s => (.old (r.pin o), .din s)) bd' ∧ bd'.nodes = bd.nodes ∧
        bd'.edges.filter (fun e => stays r o e.1) = bd.edges.filter fun e => stays r o e.1)
      (fun _ _ => False) := by
  induction ss generalizing E bd with
  | nil => exact ⟨by rw [List.map_nil, List.append_nil]; exact h, rfl, rfl⟩
  | cons s ss ih =>
    rw [link, wp_bind]
    refine (wp_addEdge h hlock _ _).mono (fun _ bd₁ ⟨hlock₁, hnodes₁, href₁, hothers₁⟩ => ?_) fun _ _ => id
    refine (ih href₁ hlock₁).mono (fun _ bd₂ ⟨href₂, hnodes₂, hothers₂⟩ => ⟨?_, hnodes₂.trans hnodes₁, ?_⟩)
      fun _ _ => id
    · rw [List.append_assoc] at href₂
      exact href₂
    · rw [hothers₂]
      exact hothers₁ _ (by simp [stays])

end Wiring

/-! ## The graph afterwards -/

section Sinks

variable {β : Type}

/-- What is counted over all values of `f` is counted once. -/
theorem sum_countP (p : β → Bool) (f : β → ℕ) {k : ℕ} : ∀ l : List β, (∀ x ∈ l, f x < k) →
    ∑ i ∈ Finset.range k, (l.filter fun x => f x = i).countP p = l.countP p
  | [], _ => by simp
  | x :: l, h => by
    have hsplit : ∀ i, ((x :: l).filter fun y => f y = i).countP p =
        (l.filter fun y => f y = i).countP p + if i = f x then [x].countP p else 0 := by
      intro i
      rw [List.filter_cons]
      by_cases hi : f x = i
      · rw [if_pos (decide_eq_true hi), if_pos hi.symm, List.countP_cons, List.countP_singleton]
      · rw [if_neg (by simp [hi]), if_neg (Ne.symm hi), Nat.add_zero]
    rw [Finset.sum_congr rfl fun i _ => hsplit i, Finset.sum_add_distrib, Finset.sum_ite_eq',
      if_pos (Finset.mem_range.mpr (h x List.mem_cons_self)), sum_countP p f l fun y hy =>
        h y (List.mem_cons_of_mem x hy),
      List.countP_singleton, List.countP_cons]

/-- The positions that leave the remainder of `i`. -/
theorem length_filter_mod (l : List β) (m i : ℕ) :
    (l.zipIdx.filter fun x => x.2 % m = i % m).length = Nat.count (· ≡ i [MOD m]) l.length := by
  rw [← List.countP_eq_length_filter, Nat.count, List.range_eq_range', ← List.zipIdx_map_snd 0 l, List.countP_map]
  rfl

/-- Two remainders are left nearly as often. -/
theorem count_mod_le {m : ℕ} (hm : 0 < m) (n i j : ℕ) :
    Nat.count (· ≡ i [MOD m]) n ≤ Nat.count (· ≡ j [MOD m]) n + 1 := by
  rw [Nat.count_modEq_card n hm, Nat.count_modEq_card n hm]
  split_ifs <;> omega

end Sinks

section Indexes

variable {ν α : Type} [DecidableEq α] {bd : SoctBd ν α}

theorem outs_add (E F : List (α × α)) (source : α) : outs (E ++ F) source = outs E source ++ outs F source := by
  rw [outs, List.filter_append, List.map_append]
  rfl

theorem ins_add (E F : List (α × α)) (sink : α) : ins (E ++ F) sink = ins E sink ++ ins F sink := by
  rw [ins, List.filter_append, List.map_append]
  rfl

theorem outs_eq_nil {E : List (α × α)} {source : α} (h : ∀ e ∈ E, e.1 ≠ source) : outs E source = [] := by
  rw [outs, List.filter_eq_nil_iff.mpr fun e he => by simp [h e he], List.map_nil]

omit [DecidableEq α] in
theorem requireUnlocked_nodes {msg : String} {k : PUnit → BdM ν α Unit}
    (h : Wp (k ⟨⟩) bd (fun _ bd' => bd'.nodes = bd.nodes) fun _ bd' => bd'.nodes = bd.nodes) :
    Wp (requireUnlocked msg >>= k) bd (fun _ bd' => bd'.nodes = bd.nodes) fun _ bd' => bd'.nodes = bd.nodes := by
  rw [wp_bind, wp_requireUnlocked]
  split_ifs
  · rfl
  · exact h

/-- The components stay when edges are removed. -/
theorem disconnect_nodes (source : α) (sinkOpt : Option α) :
    Wp (disconnect source sinkOpt) bd (fun _ bd' => bd'.nodes = bd.nodes) fun _ bd' => bd'.nodes = bd.nodes := by
  rw [disconnect]
  refine requireUnlocked_nodes ?_
  rw [wp_bind, wp_get]
  cases sinkOpt with
  | none => cases bd.outAdj.get source <;> exact rfl
  | some sink =>
    cases bd.outAdj.get source with
    | none => exact rfl
    | some sinks =>
      dsimp only
      rw [wp_ite]
      refine ⟨fun _ => rfl, fun _ => ?_⟩
      cases bd.inAdj.get sink <;> exact rfl

end Indexes

section Design

variable {κ π : Type} [DecidableEq κ] [DecidableEq π]

/-- A call of a mutator before the slices are created. -/
def lift : Op κ π → Op (Comp κ) (Pin π)
  | .addNode n => .addNode (.old n)
  | .addEdge source sink => .addEdge (.old source) (.old sink)
  | .disconnect source sinkOpt => .disconnect (.old source) (sinkOpt.map .old)
  | .clearEdges => .clearEdges
  | .clearAll => .clearAll

/-- The design after some calls of the mutators; it is locked only after its components have been finalized. -/
def design (ops : List (Op κ π)) : SoctBd (Comp κ) (Pin π) := run (ops.map fun op => .op (lift op))

/-- The design and the edges in it, with no slice that is yet to be created. -/
structure Before (E : List (Pin π × Pin π)) (bd : SoctBd (Comp κ) (Pin π)) : Prop where
  locked : bd.locked = false
  refines : Refines E bd
  nodes : ∀ c ∈ bd.nodes, ∃ k, c = .old k
  sources : ∀ e ∈ E, ∃ p, e.1 = .old p

theorem call_nodes {bd : SoctBd (Comp κ) (Pin π)} (h : ∀ c ∈ bd.nodes, ∃ k, c = .old k) (op : Op κ π) :
    Wp (call (lift op)) bd (fun _ bd' => ∀ c ∈ bd'.nodes, ∃ k, c = .old k) fun _ bd' => ∀ c ∈ bd'.nodes,
      ∃ k, c = .old k := by
  have hsame : ∀ bd' : SoctBd (Comp κ) (Pin π), bd'.nodes = bd.nodes → ∀ c ∈ bd'.nodes, ∃ k, c = .old k := by
    intro bd' hnodes
    rw [hnodes]
    exact h
  cases op with
  | addNode n =>
    rw [lift, call, addNode, wp_bind, wp_requireUnlocked]
    split_ifs
    · exact h
    · rw [wp_modify]
      dsimp only
      split_ifs
      · exact h
      · intro c hc
        rcases List.mem_append.mp hc with hc | hc
        · exact h c hc
        · exact ⟨n, List.mem_singleton.mp hc⟩
  | addEdge source sink =>
    refine Wp.mono (requireUnlocked_nodes ?_) (fun _ => hsame) fun _ => hsame
    rfl
  | disconnect source sinkOpt => exact (disconnect_nodes _ _).mono (fun _ => hsame) fun _ => hsame
  | clearEdges =>
    refine Wp.mono (requireUnlocked_nodes ?_) (fun _ => hsame) fun _ => hsame
    rfl
  | clearAll =>
    rw [lift, call, clearAll, wp_bind, wp_requireUnlocked]
    split_ifs
    · exact h
    · rw [wp_bind, wp_modify, clearEdges, wp_bind, wp_requireUnlocked]
      split_ifs
      · exact fun c hc => absurd hc List.not_mem_nil
      · exact fun c hc => absurd hc List.not_mem_nil

omit [DecidableEq κ] in
theorem remain_sources {E : List (Pin π × Pin π)} (h : ∀ e ∈ E, ∃ p, e.1 = .old p) (op : Op κ π) :
    ∀ e ∈ remain E (lift op), ∃ p, e.1 = .old p := by
  cases op with
  | addNode n => exact h
  | addEdge source sink =>
    intro e he
    rcases List.mem_append.mp he with he | he
    · exact h e he
    · rw [List.mem_singleton.mp he]
      exact ⟨source, rfl⟩
  | disconnect source sinkOpt => exact fun e he => h e (List.mem_filter.mp he).1
  | clearEdges => exact nofun
  | clearAll => exact nofun

theorem step_before {E : List (Pin π × Pin π)} {bd : SoctBd (Comp κ) (Pin π)} (h : Before E bd) (op : Op κ π) :
    ∃ E', Before E' (step bd (.op (lift op))) := by
  obtain ⟨_, bd', hcall, ⟨hlock, href⟩, hnodes⟩ :=
    ((call_refines h.refines h.locked (lift op)).and (call_nodes h.nodes op)).mono (fun _ _ => id)
      (fun _ _ hx => hx.1)
      |>.exists_ok
  refine ⟨remain E (lift op), ?_⟩
  rw [step, after, hcall]
  exact ⟨hlock, href, hnodes, remain_sources h.sources op⟩

theorem design_before (ops : List (Op κ π)) : ∃ E, Before E (design ops) := by
  have hrun : ∀ (ops : List (Op κ π)) (E : List (Pin π × Pin π)) (bd : SoctBd (Comp κ) (Pin π)), Before E bd →
      ∃ E', Before E' ((ops.map fun op => Event.op (lift op)).foldl step bd) := by
    intro ops
    induction ops with
    | nil => exact fun E bd h => ⟨E, h⟩
    | cons op ops ih =>
      intro E bd h
      obtain ⟨E', h'⟩ := step_before h op
      exact ih E' _ h'
  exact hrun ops [] empty ⟨rfl, refines_empty rfl rfl, nofun, nofun⟩

/-- The bits of the output that are used, once it drives slices. -/
def bits (r : ProcSysReset π) (o : Output) (bd : SoctBd (Comp κ) (Pin π)) : ℕ :=
  min (bd.successors (.old (r.pin o))).length o.maxOutputs

/-- The slice of a bit of the output. -/
def bitSlice (r : ProcSysReset π) (o : Output) (bd : SoctBd (Comp κ) (Pin π)) (i : ℕ) : InlineSlice :=
  slice r o (bits r o bd) i

/-- The sinks of the output in `bd` are driven by slices in `bd'`. -/
structure Sliced (r : ProcSysReset π) (o : Output) (bd bd' : SoctBd (Comp κ) (Pin π)) : Prop where
  /-- The output drives the slices of its bits, each once, and nothing else. -/
  output : bd'.successors (.old (r.pin o)) = (List.range (bits r o bd)).map fun i => .din (bitSlice r o bd i)
  nodes : bd'.nodes = bd.nodes ++ (List.range (bits r o bd)).map fun i => .slice (bitSlice r o bd i)
  selects : ∀ i, (bitSlice r o bd i).dinWidth = bits r o bd ∧ (bitSlice r o bd i).dinFrom = i ∧
    (bitSlice r o bd i).dinTo = i ∧ (bitSlice r o bd i).doutWidth = 1
  config : ∀ sinks : Output → List (Pin π), sinks o = bd.successors (.old (r.pin o)) →
    (o.config, toString (bits r o bd)) ∈ defaultProperties sinks
  /-- The slices drive a pin as often as the output did. -/
  driven : ∀ t, ∑ i ∈ Finset.range (bits r o bd), (bd'.successors (.dout (bitSlice r o bd i))).count t =
    (bd.successors (.old (r.pin o))).count t
  balanced : ∀ i < bits r o bd, ∀ j < bits r o bd,
    (bd'.successors (.dout (bitSlice r o bd i))).length ≤ (bd'.successors (.dout (bitSlice r o bd j))).length + 1
  /-- The other edges, by source and by sink, in their order. -/
  others : bd'.edges.filter (fun e => stays r o e.1) = bd.edges.filter fun e => e.1 ≠ .old (r.pin o)
  others_in : ∀ t, (bd'.predecessors t).filter (stays r o) = (bd.predecessors t).filter (· ≠ .old (r.pin o))
  added : ∀ e ∈ bd'.edges, stays r o e.1 = false →
    e.1 = .old (r.pin o) ∨ ∃ i < bits r o bd, e.1 = .dout (bitSlice r o bd i)
  indexes : ∀ source sink, (bd'.successors source).count sink = (bd'.predecessors sink).count source

end Design

section Result

variable {κ π : Type} [DecidableEq κ] [DecidableEq π] {r : ProcSysReset π} {o : Output} {width : ℕ}
  {E : List (Pin π × Pin π)} {bd bd' : SoctBd (Comp κ) (Pin π)} {sinks : List (Pin π)}

omit [DecidableEq κ] in
theorem mod_lt_bits {x : Pin π × ℕ} (hx : x ∈ (bd.successors (.old (r.pin o))).zipIdx) :
    x.2 % o.maxOutputs < bits r o bd := by
  have hpos := maxOutputs_pos o
  have hlt := List.snd_lt_of_mem_zipIdx hx
  refine Nat.lt_min.mpr ⟨?_, Nat.mod_lt _ (by omega)⟩
  exact Nat.lt_of_le_of_lt (Nat.mod_le _ _) hlt

/-- What a slice drives: the sinks at every `maxOutputs`-th position. -/
theorem outs_rewired (sinks : List (Pin π)) (i : ℕ) : outs (rewired r o width sinks) (.dout (slice r o width i)) =
    (sinks.zipIdx.filter fun x => x.2 % o.maxOutputs = i).map Prod.fst := by
  rw [outs, rewired, List.filter_map, List.map_map]
  congr 1
  refine List.filter_congr fun x _ => ?_
  have hiff : (Pin.dout (slice r o width (x.2 % o.maxOutputs)) : Pin π) = .dout (slice r o width i) ↔
      x.2 % o.maxOutputs = i := by
    rw [Pin.dout.injEq]
    exact (slice_injective r o width).eq_iff
  simp only [Function.comp_apply, hiff]

/-- The edges after the output has been disconnected, the sinks given to the slices and the slices to the
output. -/
def slicedEdges (r : ProcSysReset π) (o : Output) (E : List (Pin π × Pin π)) (bd : SoctBd (Comp κ) (Pin π)) :
    List (Pin π × Pin π) :=
  E.filter (fun e => !requested (.old (r.pin o)) none e) ++
    rewired r o (bits r o bd) (bd.successors (.old (r.pin o))) ++
    (List.range (bits r o bd)).map fun i => (.old (r.pin o), .din (bitSlice r o bd i))

omit [DecidableEq κ] in
theorem outs_slicedEdges_output : outs (slicedEdges r o E bd) (.old (r.pin o)) =
    (List.range (bits r o bd)).map fun i => .din (bitSlice r o bd i) := by
  have hkept : outs (E.filter fun e => !requested (.old (r.pin o)) none e) (.old (r.pin o)) = [] := by
    refine outs_eq_nil fun e he => ?_
    simpa [requested] using (List.mem_filter.mp he).2
  have hrewired : outs (rewired r o (bits r o bd) (bd.successors (.old (r.pin o)))) (.old (r.pin o)) = [] := by
    refine outs_eq_nil fun e he => ?_
    obtain ⟨x, -, rfl⟩ := List.mem_map.mp he
    simp
  rw [slicedEdges, outs_add, outs_add, hkept, hrewired, outs, List.filter_eq_self.mpr, List.map_map]
  · rfl
  · intro e he
    obtain ⟨i, -, rfl⟩ := List.mem_map.mp he
    exact decide_eq_true rfl

omit [DecidableEq κ] in
theorem outs_slicedEdges_slice (hE : ∀ e ∈ E, ∃ p, e.1 = .old p) (i : ℕ) :
    outs (slicedEdges r o E bd) (.dout (bitSlice r o bd i)) =
      ((bd.successors (.old (r.pin o))).zipIdx.filter fun x => x.2 % o.maxOutputs = i).map Prod.fst := by
  have hkept : outs (E.filter fun e => !requested (.old (r.pin o)) none e) (.dout (bitSlice r o bd i)) = [] := by
    refine outs_eq_nil fun e he => ?_
    obtain ⟨p, hp⟩ := hE e (List.mem_filter.mp he).1
    simp [hp]
  have hlinks : outs ((List.range (bits r o bd)).map fun i => (Pin.old (r.pin o), .din (bitSlice r o bd i)))
      (.dout (bitSlice r o bd i)) = [] := by
    refine outs_eq_nil fun e he => ?_
    obtain ⟨j, -, rfl⟩ := List.mem_map.mp he
    simp
  rw [slicedEdges, outs_add, outs_add, hkept, hlinks, List.nil_append, List.append_nil]
  exact outs_rewired _ i

omit [DecidableEq κ] in
/-- By sink, the edges that stay are the ones from the other pins. -/
theorem ins_slicedEdges (hE : ∀ e ∈ E, ∃ p, e.1 = .old p) (t : Pin π) :
    (ins (slicedEdges r o E bd) t).filter (stays r o) = (ins E t).filter (· ≠ .old (r.pin o)) := by
  have hnew : ∀ F : List (Pin π × Pin π), (∀ e ∈ F, stays r o e.1 = false) →
      (ins F t).filter (stays r o) = [] := by
    intro F hF
    refine List.filter_eq_nil_iff.mpr fun a ha => ?_
    obtain ⟨e, he, rfl⟩ := List.mem_map.mp ha
    simp [hF e (List.mem_filter.mp he).1]
  rw [slicedEdges, ins_add, ins_add, List.filter_append, List.filter_append, hnew (rewired _ _ _ _),
    hnew (List.map _ _),
    List.append_nil, List.append_nil, ins_filter, List.filter_filter]
  · refine List.filter_congr fun a ha => ?_
    obtain ⟨e, he, rfl⟩ := List.mem_map.mp ha
    obtain ⟨p, hp⟩ := hE e (List.mem_filter.mp he).1
    rw [hp]
    simp [stays, requested]
  · intro e he
    obtain ⟨i, -, rfl⟩ := List.mem_map.mp he
    simp [stays]
  · intro e he
    obtain ⟨x, -, rfl⟩ := List.mem_map.mp he
    rfl

omit [DecidableEq κ] in
/-- What the indexes of the new edges say of the graph. -/
theorem sliced_of_refines (h : Before E bd) (hwidth : 2 ≤ (bd.successors (.old (r.pin o))).length)
    (href : Refines (slicedEdges r o E bd) bd')
    (hnodes : bd'.nodes = bd.nodes ++ (List.range (bits r o bd)).map fun i => .slice (bitSlice r o bd i))
    (hothers : bd'.edges.filter (fun e => stays r o e.1) = bd.edges.filter fun e => e.1 ≠ .old (r.pin o)) :
    Sliced r o bd bd' := by
  have hpos := maxOutputs_pos o
  have hout : ∀ i, bd'.successors (.dout (bitSlice r o bd i)) =
      ((bd.successors (.old (r.pin o))).zipIdx.filter fun x => x.2 % o.maxOutputs = i).map Prod.fst := by
    intro i
    rw [SoctBd.successors, href.outAdj.list_eq]
    exact outs_slicedEdges_slice h.sources i
  refine ⟨?_, hnodes, fun i => ⟨rfl, rfl, rfl, rfl⟩, ?_, ?_, ?_, hothers, ?_, ?_, href.count_eq⟩
  · rw [SoctBd.successors, href.outAdj.list_eq]
    exact outs_slicedEdges_output
  · intro sinks hsinks
    have hw : bits r o bd = dinWidth o (sinks o) := by
      rw [hsinks, dinWidth, bits]
      omega
    rw [hw]
    exact List.mem_map_of_mem (by cases o <;> simp)
  · intro t
    have hcount : ∀ i, (bd'.successors (.dout (bitSlice r o bd i))).count t =
        ((bd.successors (.old (r.pin o))).zipIdx.filter fun x => x.2 % o.maxOutputs = i).countP fun x =>
          x.1 == t := by
      intro i
      rw [hout, List.count, List.countP_map]
      rfl
    rw [Finset.sum_congr rfl fun i _ => hcount i, sum_countP _ _ _ fun x hx => mod_lt_bits hx]
    conv_rhs => rw [← List.zipIdx_map_fst 0 (bd.successors (.old (r.pin o))), List.count, List.countP_map]
    rfl
  · intro i hi j hj
    have hlen : ∀ i < bits r o bd, (bd'.successors (.dout (bitSlice r o bd i))).length =
        Nat.count (· ≡ i [MOD o.maxOutputs]) (bd.successors (.old (r.pin o))).length := by
      intro i hi
      have hmod : i % o.maxOutputs = i := Nat.mod_eq_of_lt (lt_of_lt_of_le hi (Nat.min_le_right _ _))
      rw [hout, List.length_map, ← length_filter_mod, hmod]
    rw [hlen i hi, hlen j hj]
    exact count_mod_le (by omega) _ _ _
  · intro t
    rw [SoctBd.predecessors, SoctBd.predecessors, href.inAdj.list_eq, h.refines.inAdj.list_eq]
    exact ins_slicedEdges h.sources t
  · intro e he hstays
    have hmem := href.edges_perm.mem_iff.mp he
    rw [slicedEdges, List.mem_append, List.mem_append] at hmem
    rcases hmem with (hkept | hrewired) | hlink
    · obtain ⟨p, hp⟩ := h.sources e (List.mem_filter.mp hkept).1
      rw [hp] at hstays ⊢
      exact Or.inl (by simpa [stays] using hstays)
    · obtain ⟨x, hx, rfl⟩ := List.mem_map.mp hrewired
      exact Or.inr ⟨_, mod_lt_bits hx, rfl⟩
    · obtain ⟨i, -, rfl⟩ := List.mem_map.mp hlink
      exact Or.inl rfl

/-- `createSlices` of an output with at least two sinks. -/
theorem createSlices_sliced (h : Before E bd) (hwidth : 2 ≤ (bd.successors (.old (r.pin o))).length) :
    Wp (createSlices r o) bd (fun _ bd' => Sliced r o bd bd') fun _ _ => False := by
  have hpos := maxOutputs_pos o
  have hbits : dinWidth o (bd.successors (.old (r.pin o))) = bits r o bd := by
    rw [dinWidth, bits]
    omega
  have htwo : 2 ≤ bits r o bd := Nat.le_min.mpr ⟨hwidth, hpos⟩
  rw [createSlices, wp_bind, wp_get]
  dsimp only
  rw [hbits, if_neg (by omega), wp_bind]
  have hdisc :=
    ((h.refines.disconnect h.locked (.old (r.pin o)) none).and (disconnect_nodes (Pin.old (r.pin o)) none)).mono
    (fun _ _ => id) (fun _ _ hx => hx.1)
  refine hdisc.mono (fun _ bd₁ ⟨⟨hlock₁, href₁, hedges₁⟩, hnodes₁⟩ => ?_) fun _ _ => id
  have hwired : Wired r o (bits r o bd) (E.filter fun e => !requested (.old (r.pin o)) none e) bd₁ bd₁
      LinkedMap.empty [] := by
    refine ⟨hlock₁, ?_, ?_, ?_, rfl⟩
    · rw [rewired, List.zipIdx_nil, List.map_nil, List.append_nil]
      exact href₁
    · rw [List.length_nil, Nat.zero_min]
      rfl
    · rw [slices, List.length_nil, Nat.zero_min]
      exact (List.append_nil _).symm
  rw [wp_bind]
  refine (wire_wired hwired (by rw [hnodes₁]; exact h.nodes) (bd.successors (.old (r.pin o)))).mono
    (fun idxToSlice bd₂ h₂ => ?_) fun _ _ => id
  refine (link_refines h₂.refines h₂.locked).mono (fun _ bd₃ ⟨href₃, hnodes₃, hothers₃⟩ => ?_) fun _ _ => id
  refine sliced_of_refines h hwidth ?_ ?_ ?_
  · rw [h₂.entries, List.map_map, List.map_map, List.nil_append] at href₃
    exact href₃
  · rw [hnodes₃, h₂.nodes, hnodes₁, List.nil_append, slices, List.map_map]
    rfl
  · rw [hothers₃, h₂.others, hedges₁, List.filter_filter]
    refine List.filter_congr fun e he => ?_
    obtain ⟨p, hp⟩ := h.sources e (h.refines.edges_perm.mem_iff.mp he)
    simp [stays, requested, hp]

end Result

/-- **The slices preserve the wiring.**  In any design, an output with fewer than two sinks is left alone, and
otherwise its sinks are given to as many slices as it has bits. -/
theorem createSlices_preserves {κ π : Type} [DecidableEq κ] [DecidableEq π] (r : ProcSysReset π) (o : Output)
    (ops : List (Op κ π)) :
    ∃ bd', createSlices r o (design ops) = .ok () bd' ∧
      if ((design ops).successors (.old (r.pin o))).length < 2 then bd' = design ops
      else Sliced r o (design ops) bd' := by
  obtain ⟨E, h⟩ := design_before ops
  by_cases hlt : ((design ops).successors (.old (r.pin o))).length < 2
  · refine ⟨design ops, ?_, by rw [if_pos hlt]⟩
    have hpos := maxOutputs_pos o
    have hwidth : dinWidth o ((design ops).successors (.old (r.pin o))) < 2 := by
      rw [dinWidth]
      omega
    change (if dinWidth o ((design ops).successors (Pin.old (r.pin o))) < 2 then _
      else _ : BdM (Comp κ) (Pin π) Unit) _ = _
    rw [if_pos hwidth]
    rfl
  · obtain ⟨_, bd', hrun, hsliced⟩ := (createSlices_sliced h (Nat.le_of_not_lt hlt)).exists_ok
    exact ⟨bd', hrun, by rw [if_neg hlt]; exact hsliced⟩

end Soceteer.Bd
