import Soceteer.Bd.Graph
import Soceteer.Lib.Wp

/-!
# Soceteer.Bd.Consistent — the two indexes of the graph agree

* `outs`, `ins`: the sinks and the sources in a list of edges, oldest first.
* `Refines E bd`: the maps of `bd` index the edges `E` by source and by sink, with no empty buffers.
* `call_refines`, `call_locked`: a mutator does to `bd` what `remain` does to the edges, or it throws and changes
  nothing.
* `Consistent`, `graph_consistent`: what holds of the queries in every state that a sequence of calls comes to.
-/

namespace Soceteer.Bd

open Soceteer.Lib

variable {ν α : Type} [DecidableEq α] {E : List (α × α)} {bd : SoctBd ν α} {source sink : α}

/-! ## Edges -/

def outs (E : List (α × α)) (source : α) : List α := (E.filter fun e => e.1 = source).map Prod.snd

def ins (E : List (α × α)) (sink : α) : List α := (E.filter fun e => e.2 = sink).map Prod.fst

/-- An edge that `disconnect` is to remove. -/
def requested (source : α) (sinkOpt : Option α) (e : α × α) : Bool := e.1 = source ∧ ∀ sink ∈ sinkOpt, e.2 = sink

/-- The edges that remain after a mutator, oldest first. -/
def remain (E : List (α × α)) : Op ν α → List (α × α)
  | .addNode _ => E
  | .addEdge source sink => E ++ [(source, sink)]
  | .disconnect source sinkOpt => E.filter fun e => !requested source sinkOpt e
  | .clearEdges => []
  | .clearAll => []

theorem count_outs (E : List (α × α)) (source sink : α) : (outs E source).count sink = E.count (source, sink) := by
  rw [outs, List.count, List.countP_map, List.countP_filter, List.count]
  refine List.countP_congr fun e _ => ?_
  simp [Prod.ext_iff, and_comm]

theorem count_ins (E : List (α × α)) (source sink : α) : (ins E sink).count source = E.count (source, sink) := by
  rw [ins, List.count, List.countP_map, List.countP_filter, List.count]
  refine List.countP_congr fun e _ => ?_
  simp [Prod.ext_iff]

theorem outs_filter (p : α × α → Bool) (source : α) :
    outs (E.filter p) source = (outs E source).filter fun c => p (source, c) := by
  rw [outs, outs, List.filter_map, List.filter_filter, List.filter_filter]
  congr 1
  refine List.filter_congr fun e _ => ?_
  by_cases h : e.1 = source
  · simp [← h]
  · simp [h]

theorem ins_filter (p : α × α → Bool) (sink : α) :
    ins (E.filter p) sink = (ins E sink).filter fun c => p (c, sink) := by
  rw [ins, ins, List.filter_map, List.filter_filter, List.filter_filter]
  congr 1
  refine List.filter_congr fun e _ => ?_
  by_cases h : e.2 = sink
  · simp [← h]
  · simp [h]

theorem outs_append :
    outs (E ++ [(source, sink)]) = Function.update (outs E) source (outs E source ++ [sink]) := by
  ext1 a
  rw [Function.update_apply, outs, List.filter_append, List.map_append]
  split_ifs with h
  · simp [h, outs]
  · simp [Ne.symm h, outs]

theorem ins_append : ins (E ++ [(source, sink)]) = Function.update (ins E) sink (ins E sink ++ [source]) := by
  ext1 a
  rw [Function.update_apply, ins, List.filter_append, List.map_append]
  split_ifs with h
  · simp [h, ins]
  · simp [Ne.symm h, ins]

/-! ## Occurrences -/

theorem filter_erase (a : α) : ∀ l : List α, (l.erase a).filter (· ≠ a) = l.filter (· ≠ a)
  | [] => rfl
  | b :: l => by
    by_cases h : b = a
    · simp [h]
    · rw [List.erase_cons_tail (by simpa using h), List.filter_cons, List.filter_cons, filter_erase a l]

theorem filter_ne_of_count {a : α} {l : List α} (h : l.count a ≤ 0) : l.filter (· ≠ a) = l := by
  have hnot : a ∉ l := List.count_eq_zero.mp (Nat.le_zero.mp h)
  refine List.filter_eq_self.mpr fun b hb => ?_
  rw [decide_eq_true_eq]
  rintro rfl
  exact hnot hb

/-- With at least as many rounds as there are occurrences, all are removed. -/
theorem removeUpTo_eq (source : α) : ∀ (n : ℕ) (l : List α), l.count source ≤ n →
    removeUpTo source n l = l.filter (· ≠ source)
  | 0, l, h => (filter_ne_of_count h).symm
  | n + 1, l, h => by
    rw [removeUpTo]
    split_ifs with hmem
    · rw [removeUpTo_eq source n _ (by rw [List.count_erase_self]; omega), filter_erase]
    · exact (filter_ne_of_count (Nat.le_of_eq (List.count_eq_zero.mpr hmem))).symm

theorem removeOne_holds {m : LinkedMap α (List α)} {f : α → List α} (h : m.Holds f) :
    (removeOne source m sink).Holds (Function.update f sink ((f sink).erase source)) := by
  rw [removeOne]
  cases hget : m.get sink with
  | none =>
    rw [h.get_none hget, List.erase_nil, ← h.get_none hget, Function.update_eq_self]
    exact h
  | some l =>
    rw [h.get_some hget]
    exact h.shrink

/-- The sinks one by one: each takes an occurrence out of its sources. -/
theorem foldl_removeOne_holds : ∀ {sinks : List α} {m : LinkedMap α (List α)} {f : α → List α}, m.Holds f →
    (∀ sink, (f sink).count source ≤ sinks.count sink) →
    (sinks.foldl (removeOne source) m).Holds fun sink => (f sink).filter (· ≠ source)
  | [], m, f, h, hcount => by
    have hsame : (fun sink => (f sink).filter (· ≠ source)) = f :=
      funext fun sink => filter_ne_of_count (hcount sink)
    rw [hsame]
    exact h
  | s :: sinks, m, f, h, hcount => by
    have hsame : (fun sink => (Function.update f s ((f s).erase source) sink).filter (· ≠ source)) =
        fun sink => (f sink).filter (· ≠ source) := by
      ext1 sink
      rw [Function.update_apply]
      split_ifs with hs
      · rw [hs, filter_erase]
      · rfl
    rw [List.foldl_cons, ← hsame]
    refine foldl_removeOne_holds (removeOne_holds h) fun sink => ?_
    have hle := hcount sink
    rw [List.count_cons] at hle
    rw [Function.update_apply]
    split_ifs with hs
    · rw [hs, List.count_erase_self, ← hs]
      rw [hs, beq_self_eq_true, if_pos rfl, ← hs] at hle
      omega
    · rw [if_neg (by simpa using Ne.symm hs)] at hle
      exact hle

/-! ## The indexes -/

/-- The maps index the edges `E`, by source and by sink. -/
structure Refines (E : List (α × α)) (bd : SoctBd ν α) : Prop where
  outAdj : bd.outAdj.Holds (outs E)
  inAdj : bd.inAdj.Holds (ins E)

theorem refines_empty {bd : SoctBd ν α} (hout : bd.outAdj = LinkedMap.empty) (hin : bd.inAdj = LinkedMap.empty) :
    Refines [] bd := by
  refine ⟨?_, ?_⟩
  · rw [hout]
    exact LinkedMap.holds_empty
  · rw [hin]
    exact LinkedMap.holds_empty

theorem append_holds {m : LinkedMap α (List α)} {f : α → List α} {k v : α} (h : m.Holds f) :
    (append m k v).Holds (Function.update f k (f k ++ [v])) := by
  rw [append, h.list_eq]
  exact h.put (by simp)

omit [DecidableEq α] in
theorem wp_requireUnlocked {msg : String} {Q : PUnit → SoctBd ν α → Prop} {X : String → SoctBd ν α → Prop} :
    Wp (requireUnlocked msg) bd Q X ↔ if bd.locked then X msg bd else Q ⟨⟩ bd := by
  rw [requireUnlocked, wp_bind, wp_get]
  cases bd.locked <;> rfl

section Unlocked

variable (h : Refines E bd)
include h

theorem Refines.addEdge : Refines (E ++ [(source, sink)])
    { bd with outAdj := append bd.outAdj source sink, inAdj := append bd.inAdj sink source } := by
  refine ⟨?_, ?_⟩
  · rw [outs_append]
    exact append_holds h.outAdj
  · rw [ins_append]
    exact append_holds h.inAdj

/-- An edge is there as often in one index as in the other. -/
theorem Refines.count_eq (source sink : α) :
    (bd.successors source).count sink = (bd.predecessors sink).count source := by
  rw [SoctBd.successors, SoctBd.predecessors, h.outAdj.list_eq, h.inAdj.list_eq, count_outs, count_ins]

theorem Refines.edges_perm : bd.edges.Perm E := h.outAdj.pairs_perm fun _ => rfl

/-- Where no edge is requested nothing has to be done. -/
theorem Refines.of_none_requested {p : α × α → Bool} (hno : ∀ e ∈ E, p e = true) :
    Refines (E.filter p) bd ∧ bd.edges = bd.edges.filter p := by
  refine ⟨(List.filter_eq_self.mpr hno).symm ▸ h, (List.filter_eq_self.mpr fun e he => ?_).symm⟩
  exact hno e (h.edges_perm.mem_iff.mp he)

theorem Refines.disconnect_none {sinks : List α} (hget : bd.outAdj.get source = some sinks) :
    Refines (E.filter fun e => !requested source none e)
      { bd with outAdj := bd.outAdj.remove source, inAdj := sinks.foldl (removeOne source) bd.inAdj } := by
  have hreq : ∀ e : α × α, requested source none e = decide (e.1 = source) := fun e => by simp [requested]
  have hout : outs (E.filter fun e => !requested source none e) = Function.update (outs E) source [] := by
    ext1 a
    rw [outs_filter, Function.update_apply]
    split_ifs with ha <;> simp [hreq, ha]
  have hin : ins (E.filter fun e => !requested source none e) = fun b => (ins E b).filter (· ≠ source) := by
    ext1 b
    rw [ins_filter]
    simp [hreq]
  refine ⟨?_, ?_⟩
  · rw [hout]
    exact h.outAdj.remove
  · rw [hin]
    refine foldl_removeOne_holds h.inAdj fun b => ?_
    exact Nat.le_of_eq (by rw [count_ins, ← count_outs, h.outAdj.get_some hget])

theorem Refines.disconnect_some {sinks sources : List α} (hget : bd.outAdj.get source = some sinks)
    (hget' : bd.inAdj.get sink = some sources) :
    Refines (E.filter fun e => !requested source (some sink) e)
      { bd with
        outAdj := bd.outAdj.shrink source (sinks.filter (· ≠ sink))
        inAdj := bd.inAdj.shrink sink (removeUpTo source (sinks.count sink) sources) } := by
  have hreq : ∀ e : α × α, requested source (some sink) e = decide (e.1 = source ∧ e.2 = sink) := fun e => by
    simp [requested]
  have hout : outs (E.filter fun e => !requested source (some sink) e) =
      Function.update (outs E) source (sinks.filter (· ≠ sink)) := by
    ext1 a
    rw [outs_filter, Function.update_apply, ← h.outAdj.get_some hget]
    split_ifs with ha <;> simp [hreq, ha]
  have hin : ins (E.filter fun e => !requested source (some sink) e) =
      Function.update (ins E) sink (removeUpTo source (sinks.count sink) sources) := by
    ext1 b
    rw [ins_filter, Function.update_apply, ← h.inAdj.get_some hget', ← h.outAdj.get_some hget,
      removeUpTo_eq _ _ _ (Nat.le_of_eq (by rw [count_ins, count_outs]))]
    split_ifs with hb <;> simp [hreq, hb]
  refine ⟨?_, ?_⟩
  · rw [hout]
    exact h.outAdj.shrink
  · rw [hin]
    exact h.inAdj.shrink

/-- What `disconnect` does: the edges that are requested go, and the others stay in their order. -/
theorem Refines.disconnect (hlock : bd.locked = false) (source : α) (sinkOpt : Option α) :
    Wp (Bd.disconnect source sinkOpt) bd
      (fun _ bd' => bd'.locked = false ∧ Refines (E.filter fun e => !requested source sinkOpt e) bd' ∧
        bd'.edges = bd.edges.filter fun e => !requested source sinkOpt e)
      (fun _ _ => False) := by
  rw [Bd.disconnect, wp_bind, wp_requireUnlocked, if_neg (by simp [hlock]), wp_bind, wp_get]
  cases hget : bd.outAdj.get source with
  | none =>
    -- there is no edge from `source`
    have hno : ∀ e ∈ E, (!requested source sinkOpt e) = true := by
      intro e he
      have hnil := h.outAdj.get_none hget
      have hne : e.1 ≠ source := by
        rintro rfl
        exact List.ne_nil_of_mem (List.mem_map_of_mem (List.mem_filter.mpr ⟨he, decide_eq_true rfl⟩)) hnil
      simp [requested, hne]
    cases sinkOpt <;> exact ⟨hlock, h.of_none_requested hno⟩
  | some sinks =>
    cases sinkOpt with
    | none =>
      refine ⟨hlock, h.disconnect_none hget, ?_⟩
      rw [SoctBd.edges, SoctBd.edges, LinkedMap.pairs_remove]
      refine List.filter_congr fun e _ => ?_
      simp [requested]
    | some sink =>
      dsimp only
      rw [wp_ite]
      refine ⟨fun hzero => ?_, fun hpos => ?_⟩
      · refine ⟨hlock, h.of_none_requested fun e he => ?_⟩
        rw [← h.outAdj.get_some hget, count_outs, List.count_eq_zero] at hzero
        rw [Bool.not_eq_true', requested, decide_eq_false_iff_not]
        rintro ⟨hsource, hsink⟩
        have heq : e = (source, sink) := Prod.ext hsource (hsink sink rfl)
        exact hzero (heq ▸ he)
      · cases hget' : bd.inAdj.get sink with
        | none =>
          rw [← h.outAdj.get_some hget, count_outs, ← count_ins, h.inAdj.get_none hget'] at hpos
          exact absurd List.count_nil hpos
        | some sources =>
          refine ⟨hlock, h.disconnect_some hget hget', ?_⟩
          rw [SoctBd.edges, SoctBd.edges, LinkedMap.pairs_shrink hget]
          refine List.filter_congr fun e _ => ?_
          simp [requested]

theorem Refines.sourceOf_eq (sink : α) : bd.sourceOf sink = (E.find? fun e => e.2 = sink).map Prod.fst := by
  rw [SoctBd.sourceOf, SoctBd.predecessors, h.inAdj.list_eq, ins, List.head?_map, List.head?_filter]

theorem Refines.inDegree_sum : (bd.inAdj.keys.map bd.inDegree).sum = E.length := by
  have hdegree : bd.inAdj.keys.map bd.inDegree = bd.inAdj.entries.map fun e => e.2.length := by
    rw [LinkedMap.keys, List.map_map]
    refine List.map_congr_left fun e he => ?_
    rw [Function.comp_apply, SoctBd.inDegree, LinkedMap.get_eq_some_iff.mpr he]
    rfl
  have hins : ∀ sink, ins E sink = ((E.map Prod.swap).filter fun e => e.1 = sink).map Prod.snd := by
    intro sink
    rw [List.filter_map, List.map_map]
    rfl
  rw [hdegree, ← LinkedMap.length_pairs, (h.inAdj.pairs_perm hins).length_eq, List.length_map]

end Unlocked

/-! ## Calls -/

variable [DecidableEq ν]

/-- A mutator of a design that is not locked. -/
theorem call_refines (h : Refines E bd) (hlock : bd.locked = false) (op : Op ν α) :
    Wp (call op) bd (fun _ bd' => bd'.locked = false ∧ Refines (remain E op) bd') (fun _ _ => False) := by
  have hun : ¬ bd.locked = true := by simp [hlock]
  cases op with
  | addNode n =>
    rw [call, addNode, wp_bind, wp_requireUnlocked, if_neg hun]
    exact ⟨hlock, h.outAdj, h.inAdj⟩
  | addEdge source sink =>
    rw [call, addEdge, wp_bind, wp_requireUnlocked, if_neg hun]
    exact ⟨hlock, h.addEdge⟩
  | disconnect source sinkOpt =>
    exact (h.disconnect hlock source sinkOpt).mono (fun _ _ hd => ⟨hd.1, hd.2.1⟩) fun _ _ => id
  | clearEdges =>
    rw [call, clearEdges, wp_bind, wp_requireUnlocked, if_neg hun]
    exact ⟨hlock, refines_empty rfl rfl⟩
  | clearAll =>
    rw [call, clearAll, wp_bind, wp_requireUnlocked, if_neg hun, wp_bind, wp_modify, clearEdges, wp_bind,
      wp_requireUnlocked,
      if_neg hun]
    exact ⟨hlock, refines_empty rfl rfl⟩

/-- A mutator of a locked design throws and changes nothing. -/
theorem call_locked (hlock : bd.locked = true) (op : Op ν α) : ∃ msg, call op bd = .error msg bd := by
  have hthrow : ∀ (msg : String) (k : PUnit → BdM ν α Unit), (requireUnlocked msg >>= k) bd = .error msg bd := by
    intro msg k
    have hreq : requireUnlocked msg bd = .error msg bd := by
      change (if bd.locked = true then throw msg else pure () : BdM ν α Unit) bd = _
      rw [if_pos hlock]
      rfl
    change EStateM.bind (requireUnlocked msg) k bd = _
    rw [EStateM.bind, hreq]
  cases op <;> exact ⟨_, hthrow _ _⟩

/-! ## Sequences of calls -/

/-- Whether the design is locked, and the edges that remain, oldest first. -/
def track : Bool × List (α × α) → Event ν α → Bool × List (α × α)
  | (locked, E), .op op => (locked, if locked then E else remain E op)
  | (_, E), .lock => (true, E)

/-- The edges that remain after a sequence of calls. -/
def history (events : List (Event ν α)) : List (α × α) := (events.foldl track (false, [])).2

theorem step_refines (h : Refines E bd) (event : Event ν α) :
    (track (bd.locked, E) event).1 = (step bd event).locked ∧
      Refines (track (bd.locked, E) event).2 (step bd event) := by
  cases event with
  | lock => exact ⟨rfl, h.outAdj, h.inAdj⟩
  | op op =>
    rw [track, step, after]
    cases hlock : bd.locked with
    | true =>
      obtain ⟨msg, hcall⟩ := call_locked hlock op
      rw [hcall]
      exact ⟨hlock.symm, h⟩
    | false =>
      have hwp := call_refines h hlock op
      unfold Wp at hwp
      split at hwp
      · next hcall =>
        rw [hcall]
        exact ⟨hwp.1.symm, hwp.2⟩
      · exact hwp.elim

theorem foldl_refines : ∀ {events : List (Event ν α)} {E : List (α × α)} {bd : SoctBd ν α}, Refines E bd →
    Refines (events.foldl track (bd.locked, E)).2 (events.foldl step bd)
  | [], _, _, h => h
  | event :: events, E, bd, h => by
    obtain ⟨hlock, hstep⟩ := step_refines h event
    have hpair : track (bd.locked, E) event = ((step bd event).locked, (track (bd.locked, E) event).2) :=
      Prod.ext hlock rfl
    rw [List.foldl_cons, List.foldl_cons, hpair]
    exact foldl_refines hstep

/-- What holds of a graph whose edges are `E`, oldest first. -/
structure Consistent (E : List (α × α)) (bd : SoctBd ν α) : Prop where
  count_eq : ∀ source sink, (bd.successors source).count sink = (bd.predecessors sink).count source
  out_ne_nil : ∀ source l, bd.outAdj.get source = some l → l ≠ []
  in_ne_nil : ∀ sink l, bd.inAdj.get sink = some l → l ≠ []
  edgeCount_eq : bd.edgeCount = bd.edges.length
  inDegree_sum : (bd.inAdj.keys.map bd.inDegree).sum = bd.edgeCount
  edges_perm : bd.edges.Perm E
  sourceOf_eq : ∀ sink, bd.sourceOf sink = (E.find? fun e => e.2 = sink).map Prod.fst
  /-- `disconnect` returns; the requested edges are gone and the others are in the order they were in. -/
  disconnect : bd.locked = false → ∀ source sinkOpt, Wp (disconnect source sinkOpt) bd
    (fun _ bd' => (bd'.edges = bd.edges.filter fun e => !requested source sinkOpt e) ∧
      (∀ a, bd'.successors a = (bd.successors a).filter fun b => !requested source sinkOpt (a, b)) ∧
      ∀ b, bd'.predecessors b = (bd.predecessors b).filter fun a => !requested source sinkOpt (a, b))
    (fun _ _ => False)
  locked : bd.locked = true → ∀ op, ∃ msg, call op bd = .error msg bd

theorem Refines.consistent (h : Refines E bd) : Consistent E bd where
  count_eq := h.count_eq
  out_ne_nil := h.outAdj.ne_nil
  in_ne_nil := h.inAdj.ne_nil
  edgeCount_eq := (LinkedMap.length_pairs bd.outAdj).symm
  inDegree_sum := by
    rw [h.inDegree_sum, ← h.edges_perm.length_eq]
    exact LinkedMap.length_pairs bd.outAdj
  edges_perm := h.edges_perm
  sourceOf_eq := h.sourceOf_eq
  disconnect := by
    intro hlock source sinkOpt
    refine (h.disconnect hlock source sinkOpt).mono (fun _ bd' ⟨_, href, hedges⟩ =>
      ⟨hedges, fun a => ?_, fun b => ?_⟩)
      fun _ _ => id
    · rw [SoctBd.successors, SoctBd.successors, href.outAdj.list_eq, h.outAdj.list_eq, outs_filter]
    · rw [SoctBd.predecessors, SoctBd.predecessors, href.inAdj.list_eq, h.inAdj.list_eq, ins_filter]
  locked := call_locked

/-- **The graph of the block design.**  After any sequence of calls, with the design locked at any point, the two
indexes agree. -/
theorem graph_consistent (events : List (Event ν α)) : Consistent (history events) (run events) := by
  have hempty : Refines [] (empty : SoctBd ν α) := refines_empty rfl rfl
  exact (foldl_refines hempty).consistent

/-- A self-loop, a double edge that is removed, and a call that is too late. -/
example : (run [.op (.addEdge 1 2), .op (.addEdge 2 2), .op (.addEdge 1 2), .op (.addEdge 1 3),
    .op (.disconnect 1 (some 2)), .lock, .op (.addEdge 4 2)] : SoctBd Unit ℕ).edges = [(1, 3), (2, 2)] := by decide

end Soceteer.Bd
