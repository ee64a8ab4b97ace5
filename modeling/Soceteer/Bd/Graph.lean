import Soceteer.Lib.LinkedMap

/-!
# Soceteer.Bd.Graph — the block design's graph

`SOCTBd` (`vivado/SOCTBd.scala`) is a directed multigraph over ports that is kept twice: by the source of an edge
and by its sink.  The maps are insertion-ordered and their values are buffers.

* `SoctBd`: the graph with its nodes and the lock.
* `addNode`, `addEdge`, `disconnect`, `clearEdges`, `clearAll`: the mutators; `successors`, `predecessors`,
  `sourceOf`, `edges`, `edgeCount` and the degrees: the queries.
* `Op`, `apply`, `run`: sequences of mutators, with the design being locked at some point.
-/

namespace Soceteer.Bd

open Soceteer.Lib

/-- Over components `ν` and ports `α`. -/
structure SoctBd (ν α : Type) where
  locked : Bool
  nodes : List ν
  outAdj : LinkedMap α (List α)
  inAdj : LinkedMap α (List α)

/-- The methods; a `VivadoDesignException` is its message. -/
abbrev BdM (ν α : Type) := EStateM String (SoctBd ν α)

variable {ν α : Type} [DecidableEq ν] [DecidableEq α]

def empty : SoctBd ν α := { locked := false, nodes := [], outAdj := LinkedMap.empty, inAdj := LinkedMap.empty }

/-! ## Mutators -/

def requireUnlocked (msg : String) : BdM ν α Unit := do
  if (← get).locked then throw msg

def addNode (n : ν) : BdM ν α Unit := do
  requireUnlocked "Cannot add components after finalization"
  modify fun bd => { bd with nodes := if n ∈ bd.nodes then bd.nodes else bd.nodes ++ [n] }

/-- `getOrElseUpdate` with an empty buffer, and then `+=`. -/
def append (m : LinkedMap α (List α)) (k v : α) : LinkedMap α (List α) := m.put k (m.listOf k ++ [v])

def addEdge (source sink : α) : BdM ν α Unit := do
  requireUnlocked "Cannot add connections after finalization"
  modify fun bd => { bd with outAdj := append bd.outAdj source sink }
  modify fun bd => { bd with inAdj := append bd.inAdj sink source }

/-- One occurrence of `source` is removed from the sources of `sink`. -/
def removeOne (source : α) (inAdj : LinkedMap α (List α)) (sink : α) : LinkedMap α (List α) :=
  match inAdj.get sink with
  | none => inAdj
  | some ins => inAdj.shrink sink (ins.erase source)

/-- The loop that removes an occurrence as long as there is one, `remaining` times at most. -/
def removeUpTo (source : α) : ℕ → List α → List α
  | 0, ins => ins
  | remaining + 1, ins => if source ∈ ins then removeUpTo source remaining (ins.erase source) else ins

def disconnect (source : α) (sinkOpt : Option α) : BdM ν α Unit := do
  requireUnlocked "Cannot remove connections after finalization"
  let bd ← get
  match sinkOpt with
  | none =>
    match bd.outAdj.get source with
    | none => return ()
    | some sinks =>
      set { bd with outAdj := bd.outAdj.remove source, inAdj := sinks.foldl (removeOne source) bd.inAdj }
  | some sink =>
    match bd.outAdj.get source with
    | none => return ()
    | some outs =>
      let k := outs.count sink
      if k = 0 then return ()
      let outAdj := bd.outAdj.shrink source (outs.filter (· ≠ sink))
      match bd.inAdj.get sink with
      | none => set { bd with outAdj := outAdj }
      | some ins => set { bd with outAdj := outAdj, inAdj := bd.inAdj.shrink sink (removeUpTo source k ins) }

def clearEdges : BdM ν α Unit := do
  requireUnlocked "Cannot clear connections after finalization"
  modify fun bd => { bd with outAdj := LinkedMap.empty, inAdj := LinkedMap.empty }

def clearAll : BdM ν α Unit := do
  requireUnlocked "Cannot clear after finalization"
  modify fun bd => { bd with nodes := [] }
  clearEdges

/-! ## Queries -/

namespace SoctBd

def successors (bd : SoctBd ν α) (source : α) : List α := bd.outAdj.listOf source

def predecessors (bd : SoctBd ν α) (sink : α) : List α := bd.inAdj.listOf sink

def inDegree (bd : SoctBd ν α) (sink : α) : ℕ := (bd.inAdj.get sink).elim 0 List.length

def sourceOf (bd : SoctBd ν α) (sink : α) : Option α := (bd.predecessors sink).head?

def edges (bd : SoctBd ν α) : List (α × α) := bd.outAdj.pairs

def edgeCount (bd : SoctBd ν α) : ℕ := (bd.outAdj.entries.map fun e => e.2.length).sum

end SoctBd

/-! ## Sequences -/

inductive Op (ν α : Type)
  | addNode (n : ν)
  | addEdge (source sink : α)
  | disconnect (source : α) (sinkOpt : Option α)
  | clearEdges
  | clearAll
  deriving DecidableEq

/-- A mutator. -/
def call : Op ν α → BdM ν α Unit
  | .addNode n => addNode n
  | .addEdge source sink => addEdge source sink
  | .disconnect source sinkOpt => disconnect source sinkOpt
  | .clearEdges => clearEdges
  | .clearAll => clearAll

/-- A mutator is called, or the design is locked. -/
inductive Event (ν α : Type)
  | op (op : Op ν α)
  | lock

/-- The state that a call leaves, whether it returns or throws. -/
def after (p : BdM ν α Unit) (bd : SoctBd ν α) : SoctBd ν α :=
  match p bd with
  | .ok _ bd' => bd'
  | .error _ bd' => bd'

def step (bd : SoctBd ν α) : Event ν α → SoctBd ν α
  | .op op => after (call op) bd
  | .lock => { bd with locked := true }

def run (events : List (Event ν α)) : SoctBd ν α := events.foldl step empty

end Soceteer.Bd
