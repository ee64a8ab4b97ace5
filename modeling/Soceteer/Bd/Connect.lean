import Soceteer.Bd.Consistent

/-!
# Soceteer.Bd.Connect — the directional connect operators

`source --> sink` and `sink <-- source` are resolved by the types of their operands to one of six instances
(`vivado/abstracts/BdPinPort.scala`), each of which adds an edge in an order of its own. Chisel data stands for a
new pin object wherever it is connected.

* `Endpoint`, `Connection`, `Connection.apply`, `connectAll`: the instances and sequences of connections.
* `Connection.driver`, `Connection.driven`, `Connection.mirror`: what the operators say.
* `wanted`, `made`: the edges from driver to driven, and the edges that are added; `connectAll_refines`.
* `Directed`, `directed_iff`: the edges point from driver to driven exactly without `chiselToDrives`.
-/

namespace Soceteer.Bd

open Soceteer.Lib

/-! ## The source -/

/-- A pin or port object, or the pin that the `n`-th connection creates for Chisel data. -/
inductive Endpoint (π δ : Type)
  | obj (p : π)
  | chisel (n : ℕ) (x : δ)
deriving DecidableEq

/-- A connection between pins or ports `π` and Chisel data `δ`, by the instance that its operands select; the
operands in the order they are written in, on the left and on the right of `-->` (the first three) or of `<--`. -/
inductive Connection (π δ : Type)
  | drivesToDriven (a b : π)
  | chiselToDriven (a : δ) (b : π)
  | drivesToChisel (a : π) (b : δ)
  | drivenFromDrives (a b : π)
  | drivenFromChisel (a : π) (b : δ)
  | chiselToDrives (a : δ) (b : π)

variable {ν π δ : Type} [DecidableEq π] [DecidableEq δ]

omit [DecidableEq π] [DecidableEq δ] in
/-- A new `BdChiselPin` for the datum. -/
def portToBdPin (n : ℕ) (x : δ) : Endpoint π δ := .chisel n x

/-- The instance applied to its operands. -/
def Connection.apply (n : ℕ) : Connection π δ → BdM ν (Endpoint π δ) Unit
  | .drivesToDriven a b => addEdge (.obj a) (.obj b)
  | .chiselToDriven a b => addEdge (portToBdPin n a) (.obj b)
  | .drivesToChisel a b => addEdge (.obj a) (portToBdPin n b)
  | .drivenFromDrives a b => addEdge (.obj b) (.obj a)
  | .drivenFromChisel a b => addEdge (portToBdPin n b) (.obj a)
  | .chiselToDrives a b => addEdge (portToBdPin n a) (.obj b)

/-- A sequence of connections, the first of which is number `n`. -/
def connectAll (n : ℕ) : List (Connection π δ) → BdM ν (Endpoint π δ) Unit
  | [] => pure ()
  | c :: cs => do
    c.apply n
    connectAll (n + 1) cs

/-- The graph that the connections build. -/
def build (cs : List (Connection π δ)) : SoctBd ν (Endpoint π δ) := after (connectAll 0 cs) empty

/-! ## What the operators say -/

namespace Connection

omit [DecidableEq π] [DecidableEq δ]

/-- The operand that drives: the left one of `-->` and the right one of `<--`. -/
def driver (n : ℕ) : Connection π δ → Endpoint π δ
  | .drivesToDriven a _ => .obj a
  | .chiselToDriven a _ => .chisel n a
  | .drivesToChisel a _ => .obj a
  | .drivenFromDrives _ b => .obj b
  | .drivenFromChisel _ b => .chisel n b
  | .chiselToDrives _ b => .obj b

/-- The operand that is driven. -/
def driven (n : ℕ) : Connection π δ → Endpoint π δ
  | .drivesToDriven _ b => .obj b
  | .chiselToDriven _ b => .obj b
  | .drivesToChisel _ b => .chisel n b
  | .drivenFromDrives a _ => .obj a
  | .drivenFromChisel a _ => .obj a
  | .chiselToDrives a _ => .chisel n a

/-- `source --> sink` for `sink <-- source`. -/
def toSink : Connection π δ → Connection π δ
  | .drivenFromDrives a b => .drivesToDriven b a
  | .drivenFromChisel a b => .chiselToDriven b a
  | .chiselToDrives a b => .drivesToChisel b a
  | c => c

/-- Chisel data on the left of `<--`. -/
def ChiselFromDrives : Connection π δ → Prop
  | .chiselToDrives _ _ => True
  | _ => False

/-- The edge that is added. -/
def edge (n : ℕ) : Connection π δ → Endpoint π δ × Endpoint π δ
  | .chiselToDrives a b => (.chisel n a, .obj b)
  | c => (c.driver n, c.driven n)

end Connection

/-- The edges from driver to driven. -/
def wanted (n : ℕ) : List (Connection π δ) → List (Endpoint π δ × Endpoint π δ)
  | [] => []
  | c :: cs => (c.driver n, c.driven n) :: wanted (n + 1) cs

/-- The edges that are added. -/
def made (n : ℕ) : List (Connection π δ) → List (Endpoint π δ × Endpoint π δ)
  | [] => []
  | c :: cs => c.edge n :: made (n + 1) cs

/-- Edges point from driver to driven: `<--` adds the edge of `-->`, the edges of the graph are those from driver
to driven, and the only driver of an endpoint is found. -/
structure Directed (ν : Type) (cs : List (Connection π δ)) : Prop where
  same : ∀ c ∈ cs, ∀ n, (c.apply n : BdM ν (Endpoint π δ) Unit) = c.toSink.apply n
  edges : (build cs : SoctBd ν (Endpoint π δ)).edges.Perm (wanted 0 cs)
  source : ∀ sink driver, ins (wanted 0 cs) sink = [driver] →
    (build cs : SoctBd ν (Endpoint π δ)).sourceOf sink = some driver

/-! ## Sequences -/

section Sequences

variable {cs : List (Connection π δ)} {E : List (Endpoint π δ × Endpoint π δ)} {bd : SoctBd ν (Endpoint π δ)}

theorem Connection.apply_eq (n : ℕ) (c : Connection π δ) :
    (c.apply n : BdM ν (Endpoint π δ) Unit) = addEdge (c.edge n).1 (c.edge n).2 := by
  cases c <;> rfl

/-- The edges are added one after the other. -/
theorem connectAll_refines (h : Refines E bd) (hlock : bd.locked = false) (n : ℕ) :
    Wp (connectAll n cs) bd (fun _ bd' => Refines (E ++ made n cs) bd') (fun _ _ => False) := by
  induction cs generalizing E bd n with
  | nil =>
    rw [made, List.append_nil]
    exact h
  | cons c cs ih =>
    rw [connectAll, Connection.apply_eq, addEdge, wp_bind, wp_bind, wp_requireUnlocked, if_neg (by simp [hlock])]
    have hadd : Refines (E ++ [((c.edge n).1, (c.edge n).2)]) _ := h.addEdge
    have hrest := ih hadd hlock (n + 1)
    rw [List.append_assoc] at hrest
    exact hrest

theorem build_refines (cs : List (Connection π δ)) : Refines (made 0 cs) (build cs : SoctBd ν (Endpoint π δ)) := by
  have hempty : Refines [] (empty : SoctBd ν (Endpoint π δ)) := refines_empty rfl rfl
  have hconnect : Wp (connectAll 0 cs) empty _ _ := connectAll_refines hempty rfl 0
  obtain ⟨_, bd', hrun, hrefines⟩ := hconnect.exists_ok
  rw [build, after, hrun]
  exact hrefines

omit [DecidableEq π] [DecidableEq δ] in
theorem Connection.edge_eq {c : Connection π δ} (h : ¬ c.ChiselFromDrives) (n : ℕ) :
    c.edge n = (c.driver n, c.driven n) := by
  cases c with
  | chiselToDrives a b => exact absurd trivial h
  | _ => rfl

omit [DecidableEq π] [DecidableEq δ] in
theorem made_eq_wanted (h : ∀ c ∈ cs, ¬ c.ChiselFromDrives) (n : ℕ) : made n cs = wanted n cs := by
  induction cs generalizing n with
  | nil => rfl
  | cons c cs ih =>
    rw [made, wanted, Connection.edge_eq (h c List.mem_cons_self), ih fun c' hc' =>
      h c' (List.mem_cons_of_mem _ hc')]

omit [DecidableEq π] [DecidableEq δ] in
/-- A reversed edge is there, at the place of its connection. -/
theorem exists_reversed (h : ∃ c ∈ cs, c.ChiselFromDrives) (n : ℕ) :
    ∃ i a b, cs[i]? = some (.chiselToDrives a b) ∧ (.chisel (n + i) a, .obj b) ∈ made n cs := by
  induction cs generalizing n with
  | nil =>
    obtain ⟨c, hc, -⟩ := h
    exact absurd hc List.not_mem_nil
  | cons c cs ih =>
    cases c with
    | chiselToDrives a b => exact ⟨0, a, b, rfl, List.mem_cons_self⟩
    | _ =>
      obtain ⟨c', hc', hrev⟩ := h
      rcases List.mem_cons.mp hc' with rfl | hc'
      · exact hrev.elim
      · obtain ⟨i, a, b, hget, hmem⟩ := ih ⟨c', hc', hrev⟩ (n + 1)
        refine ⟨i + 1, a, b, hget, List.mem_cons_of_mem _ ?_⟩
        rwa [show n + (i + 1) = n + 1 + i by omega]

omit [DecidableEq π] [DecidableEq δ] in
theorem mem_wanted {e : Endpoint π δ × Endpoint π δ} {n : ℕ} (h : e ∈ wanted n cs) :
    ∃ (i : ℕ) (c : Connection π δ), cs[i]? = some c ∧ e = (c.driver (n + i), c.driven (n + i)) := by
  induction cs generalizing n with
  | nil => exact absurd h List.not_mem_nil
  | cons c cs ih =>
    rcases List.mem_cons.mp h with rfl | h
    · exact ⟨0, c, rfl, rfl⟩
    · obtain ⟨i, c', hget, heq⟩ := ih h
      exact ⟨i + 1, c', hget, by rw [heq, show n + (i + 1) = n + 1 + i by omega]⟩

/-- **The direction of the edges**: they point from driver to driven exactly when no connection has Chisel data on
the left of `<--`. -/
theorem directed_iff (cs : List (Connection π δ)) : Directed ν cs ↔ ∀ c ∈ cs, ¬ c.ChiselFromDrives := by
  have hbuild : Refines (made 0 cs) (build cs : SoctBd ν (Endpoint π δ)) := build_refines cs
  constructor
  · intro hdir c hc hrev
    obtain ⟨i, a, b, hget, hmem⟩ := exists_reversed ⟨c, hc, hrev⟩ 0
    -- the pin of the datum is new, so only its own connection could have it as a driver
    have hedge : (Endpoint.chisel (0 + i) a, Endpoint.obj b) ∈ wanted 0 cs :=
      hdir.edges.mem_iff.mp (hbuild.edges_perm.mem_iff.mpr hmem)
    obtain ⟨j, c', hget', heq⟩ := mem_wanted hedge
    obtain ⟨hdriver, hdriven⟩ := Prod.mk.inj heq
    have hsame : 0 + i = 0 + j := by
      cases c' <;> simp only [Connection.driver, reduceCtorEq, Endpoint.chisel.injEq] at hdriver <;>
        exact hdriver.1
    have hij : i = j := by omega
    subst hij
    rw [hget] at hget'
    cases Option.some.inj hget'
    exact absurd hdriver (by simp [Connection.driver])
  · intro h
    rw [made_eq_wanted h] at hbuild
    refine ⟨fun c hc n => ?_, hbuild.edges_perm, fun sink driver hone => ?_⟩
    · cases c with
      | chiselToDrives a b => exact absurd trivial (h _ hc)
      | _ => rfl
    · rw [SoctBd.sourceOf, SoctBd.predecessors, hbuild.inAdj.list_eq, hone]
      rfl

/-- A datum that is to be driven by a pin drives it. -/
theorem directed_reversed : ¬ ∀ cs : List (Connection ℕ ℕ), Directed Unit cs := by
  intro h
  exact absurd (h [.chiselToDrives 0 1]).edges (by decide)

end Sequences

end Soceteer.Bd
