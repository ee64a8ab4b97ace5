import Soceteer.Lib.Run
import Mathlib.Data.List.Infix
import Mathlib.Order.Monotone.Basic

/-!
# Soceteer.Fesvr.Tick — requests and responses between two threads and the target

The host thread sends a request with `send_req` and waits for its response; the simulator's thread calls
`debug_tick` on every clock edge.  They meet in two one-slot queues (`misc/mt_q.hpp`).  The outputs of `debug_tick`
drive the target until the next edge, where it accepts a request if `valid` and `ready` are both high.

Each critical section of a queue is a step of its own, so a run is any interleaving of the two threads and the
clock.

* `MtQueue`: the queue, with the threads asleep in it.
* `hostStep`, `simStep`, `edgeStep`, `step`: the two threads and the clock edge.
* `Stage`, `Ctl`, `step_moves`: where a request is, and how it moves on, whatever the target does.
* `Exact`, `Spaced`, `Served`: what the protocol promises and what it needs of the target.
* `exactly_once`: the queues are never pushed while occupied; requests are accepted once and answered by their own
  responses exactly when the target spaces out its `ready`; and then every call comes back.
-/

namespace Soceteer.Tick

open Soceteer.Lib

/-! ## Queues -/

/-- `dtm_t::req_t`. -/
structure Req where
  addr : BitVec 32
  op : BitVec 32
  data : BitVec 32
  deriving DecidableEq

/-- `dtm_t::resp_t`. -/
structure Resp where
  resp : BitVec 32
  data : BitVec 32
  deriving DecidableEq

inductive Thread
  | host
  | sim
  deriving DecidableEq

/-- `mt_queue_t`: the slot, and the threads asleep on the condition variable. -/
structure MtQueue (α : Type) where
  val : Option α
  sleepers : List Thread
  deriving DecidableEq

namespace MtQueue

variable {α : Type}

def empty : MtQueue α := ⟨none, []⟩

def notifyOne (q : MtQueue α) : MtQueue α := { q with sleepers := q.sleepers.tail }

/-- `m_cv.wait(lock, pred)` up to the point where the thread falls asleep, and the `notify_one` after it. -/
def wait (t : Thread) (pred : Option α → Bool) (q : MtQueue α) : Bool × MtQueue α :=
  if pred q.val then (true, q.notifyOne) else (false, { q with sleepers := q.sleepers ++ [t] })

def waitForValue (t : Thread) (q : MtQueue α) : Bool × MtQueue α := q.wait t Option.isSome

def waitForClear (t : Thread) (q : MtQueue α) : Bool × MtQueue α := q.wait t Option.isNone

/-- `push` after its `wait_for_clear`. -/
def store (q : MtQueue α) (value : α) : MtQueue α := { q with val := some value }.notifyOne

/-- `pop`, which throws if the queue is empty. -/
def pop (q : MtQueue α) : Option (α × MtQueue α) := q.val.map fun v => (v, { q with val := none })

/-- A thread wakes up without a notification. -/
def wake (q : MtQueue α) (t : Thread) : MtQueue α := { q with sleepers := q.sleepers.filter (· ≠ t) }

end MtQueue

/-! ## State -/

/-- `dtm_t::state_t`. -/
inductive State
  | waitingResp
  | waitingReq
  deriving DecidableEq

/-- Where the host thread is in `send_req`.  An uncaught exception or a failed `massert` ends it. -/
inductive Host
  | idle
  | pushWait (r : Req)
  | pushStore (r : Req)
  | respWait
  | respPop
  | aborted
  deriving DecidableEq

/-- Where the simulator's thread is in `tick`. -/
inductive Sim
  | idle
  | pushWait (ready : Bool) (v : Resp)
  | pushStore (ready : Bool) (v : Resp)
  | check (ready : Bool)
  | pop
  | aborted
  deriving DecidableEq

/-- What has gone by: the requests sent and accepted, the responses returned by the target and by `send_req`, and
the target's `ready` at the last edge.  The `i`-th response of the target is the one to the `i`-th request it
accepted. -/
structure Log where
  sent : List Req
  accepted : List Req
  responded : List Resp
  returned : List Resp
  ready : Bool
  deriving DecidableEq

structure Sys where
  host : Host
  sim : Sim
  reqBuf : MtQueue Req
  respBuf : MtQueue Resp
  state : State
  req : Req
  targetReady : Bool
  valid : Bool
  bits : Req
  log : Log
  deriving DecidableEq

/-- Before the first edge. -/
def init : Sys where
  host := .idle
  sim := .idle
  reqBuf := .empty
  respBuf := .empty
  state := .waitingReq
  req := ⟨0, 0, 0⟩
  targetReady := false
  valid := false
  bits := ⟨0, 0, 0⟩
  log := ⟨[], [], [], [], false⟩

/-! ## Steps -/

/-- The host thread calls `send_req`. -/
def callStep (r : Req) (s : Sys) : Option Sys :=
  if s.host = .idle then some { s with host := .pushWait r, log := { s.log with sent := s.log.sent ++ [r] } }
    else none

/-- The next step of `send_req`. -/
def hostStep (s : Sys) : Option Sys :=
  match s.host with
  | .idle => none
  | .pushWait r =>
    if .host ∈ s.reqBuf.sleepers then none
    else
      let (passed, reqBuf) := s.reqBuf.waitForClear .host
      some { s with reqBuf, host := if passed then .pushStore r else .pushWait r }
  | .pushStore r => some { s with reqBuf := s.reqBuf.store r, host := .respWait }
  | .respWait =>
    if .host ∈ s.respBuf.sleepers then none
    else
      let (passed, respBuf) := s.respBuf.waitForValue .host
      some { s with respBuf, host := if passed then .respPop else .respWait }
  | .respPop =>
    match s.respBuf.pop with
    | none => some { s with host := .aborted }
    | some (v, respBuf) =>
      if v.resp = 0 then
        some { s with respBuf, host := .idle, log := { s.log with returned := s.log.returned ++ [v] } }
      else some { s with respBuf, host := .aborted }
  | .aborted => none

/-- `req_valid`. -/
def reqValid (s : Sys) : Bool := s.state = .waitingResp && s.targetReady

/-- `debug_tick` after `tick`. -/
def output (s : Sys) : Sys := { s with sim := .idle, valid := reqValid s, bits := s.req }

/-- The next step of `tick`. -/
def simStep (s : Sys) : Option Sys :=
  match s.sim with
  | .idle => none
  | .pushWait ready v =>
    if .sim ∈ s.respBuf.sleepers then none
    else
      let (passed, respBuf) := s.respBuf.waitForClear .sim
      some { s with respBuf, sim := if passed then .pushStore ready v else .pushWait ready v }
  | .pushStore ready v => some { s with respBuf := s.respBuf.store v, state := .waitingReq, sim := .check ready }
  | .check ready =>
    if s.state = .waitingReq ∧ ready ∧ s.reqBuf.val.isSome then some { s with sim := .pop } else some (output s)
  | .pop =>
    match s.reqBuf.pop with
    | none => some { s with sim := .aborted }
    | some (r, reqBuf) => some (output { s with reqBuf, req := r, state := .waitingResp })
  | .aborted => none

/-- The target at a clock edge, and the start of `tick`: the target accepts what is driven if it is ready, and may
return a response. -/
def edgeTo (ready : Bool) (resp : Option Resp) (s : Sys) : Sys :=
  { s with
    targetReady := ready
    log := { s.log with
      accepted := s.log.accepted ++ if s.valid && ready then [s.bits] else []
      responded := s.log.responded ++ resp.toList
      ready }
    sim := match s.state, resp with
      | .waitingResp, some v => .pushWait ready v
      | _, _ => .check ready }

/-- A clock edge.  There is no response but to a request that has been accepted. -/
def edgeStep (ready : Bool) (resp : Option Resp) (s : Sys) : Option Sys :=
  if s.sim = .idle ∧ (edgeTo ready resp s).log.responded.length ≤ (edgeTo ready resp s).log.accepted.length then
    some (edgeTo ready resp s)
  else none

inductive Event
  | call (r : Req)
  | host
  | sim
  | edge (ready : Bool) (resp : Option Resp)
  | wake (t : Thread)
  deriving DecidableEq

def step (s : Sys) : Event → Option Sys
  | .call r => callStep r s
  | .host => hostStep s
  | .sim => simStep s
  | .edge ready resp => edgeStep ready resp s
  | .wake t => some { s with reqBuf := s.reqBuf.wake t, respBuf := s.respBuf.wake t }

/-! ## Where a request is -/

/-- The way of a request and its response: no call, pushed by the host, in the queue, driven at the target, its
response taken by `tick`, in the queue, and rejected by the host. -/
inductive Stage
  | free
  | pushing (r : Req)
  | posted (r : Req)
  | driven (r : Req)
  | taken (v : Resp)
  | answered (v : Resp)
  | failed (v : Resp)

namespace Stage

def hostAt : Stage → Host → Prop
  | free, p => p = .idle
  | pushing r, p => p = .pushWait r ∨ p = .pushStore r
  | answered _, p => p = .respWait ∨ p = .respPop
  | failed v, p => p = .aborted ∧ v.resp ≠ 0
  | _, p => p = .respWait

def simAt : Stage → Sim → Prop
  | taken v, p => ∃ b, p = .pushWait b v ∨ p = .pushStore b v
  | posted _, p => p = .idle ∨ p = .pop ∨ ∃ b, p = .check b
  | _, p => p = .idle ∨ ∃ b, p = .check b

def state : Stage → State
  | driven _ => .waitingResp
  | taken _ => .waitingResp
  | _ => .waitingReq

def reqVal : Stage → Option Req
  | posted r => some r
  | _ => none

def respVal : Stage → Option Resp
  | answered v => some v
  | _ => none

/-- After an edge. -/
def edge : Stage → Option Resp → Stage
  | driven _, some v => taken v
  | g, _ => g

end Stage

/-- The threads, the queues and the target's inputs at a stage. -/
structure Ctl (g : Stage) (s : Sys) : Prop where
  host : g.hostAt s.host
  sim : g.simAt s.sim
  state : s.state = g.state
  reqVal : s.reqBuf.val = g.reqVal
  respVal : s.respBuf.val = g.respVal
  req : ∀ r, g = .driven r → s.req = r
  reqAwake : s.reqBuf.sleepers = []
  respAwake : s.respBuf.sleepers = [] ∨ s.respBuf.sleepers = [.host] ∧ s.host = .respWait ∧ s.respBuf.val = none
  output : s.sim = .idle → s.valid = reqValid s ∧ s.bits = s.req
  ready : s.targetReady = s.log.ready

theorem ctl_init : Ctl .free init :=
  ⟨rfl, Or.inl rfl, rfl, rfl, rfl, nofun, rfl, Or.inl rfl, fun _ => ⟨rfl, rfl⟩, rfl⟩

/-- Everything a step can do. -/
inductive Move (s : Sys) : Stage → Event → Stage → Sys → Prop
  | call (r : Req) (h : s.host = .idle) : Move s .free (.call r) (.pushing r)
      { s with host := .pushWait r, log := { s.log with sent := s.log.sent ++ [r] } }
  | clear (r : Req) (h : s.host = .pushWait r) : Move s (.pushing r) .host (.pushing r)
      { s with reqBuf := .empty, host := .pushStore r }
  | post (r : Req) (h : s.host = .pushStore r) : Move s (.pushing r) .host (.posted r)
      { s with reqBuf := ⟨some r, []⟩, host := .respWait }
  | sleep (g : Stage) (h : s.host = .respWait) (hnone : g.respVal = none) : Move s g .host g
      { s with respBuf := ⟨none, [.host]⟩ }
  | see (v : Resp) (h : s.host = .respWait) : Move s (.answered v) .host (.answered v)
      { s with respBuf := ⟨some v, []⟩, host := .respPop }
  | ret (v : Resp) (h : s.host = .respPop) (hv : v.resp = 0) : Move s (.answered v) .host .free
      { s with respBuf := .empty, host := .idle, log := { s.log with returned := s.log.returned ++ [v] } }
  | fail (v : Resp) (h : s.host = .respPop) (hv : v.resp ≠ 0) : Move s (.answered v) .host (.failed v)
      { s with respBuf := .empty, host := .aborted }
  | take (b : Bool) (v : Resp) (h : s.sim = .pushWait b v) : Move s (.taken v) .sim (.taken v)
      { s with respBuf := .empty, sim := .pushStore b v }
  | answer (b : Bool) (v : Resp) (h : s.sim = .pushStore b v) : Move s (.taken v) .sim (.answered v)
      { s with respBuf := ⟨some v, []⟩, state := .waitingReq, sim := .check b }
  | find (r : Req) (h : s.sim = .check true) : Move s (.posted r) .sim (.posted r) { s with sim := .pop }
  | drive (r : Req) (h : s.sim = .pop) : Move s (.posted r) .sim (.driven r)
      (output { s with reqBuf := .empty, req := r, state := .waitingResp })
  | finish (g : Stage) (b : Bool) (h : s.sim = .check b) (hb : g.reqVal.isSome → b = false) :
    Move s g .sim g (output s)
  | edge (g : Stage) (b : Bool) (resp : Option Resp) (h : s.sim = .idle)
      (hle : (edgeTo b resp s).log.responded.length ≤ (edgeTo b resp s).log.accepted.length) :
      Move s g (.edge b resp) (g.edge resp) (edgeTo b resp s)
  | wake (g : Stage) (t : Thread) : Move s g (.wake t) g
      { s with reqBuf := s.reqBuf.wake t, respBuf := s.respBuf.wake t }

section Moves

variable {s s' : Sys} {g g' : Stage} {e : Event}

/-- A thread that is asleep takes no step; one that looks for a value that is not there falls asleep. -/
theorem respWait_moves (h : Ctl g s) (hhost : s.host = .respWait) (hnone : g.respVal = none)
    (hs : hostStep s = some s') : Move s g .host g s' := by
  have hval : s.respBuf.val = none := h.respVal.trans hnone
  rw [hostStep, hhost] at hs
  rcases h.respAwake with hawake | ⟨hawake, -⟩
  · have hbuf : s.respBuf = ⟨none, []⟩ := by rw [← hval, ← hawake]
    rw [hbuf] at hs
    cases hs
    rw [← hhost]
    exact .sleep g hhost hnone
  · simp [hawake] at hs

/-- The response is there. -/
theorem answered_moves {v : Resp} (h : Ctl (.answered v) s) (hs : hostStep s = some s') :
    ∃ g', Move s (.answered v) .host g' s' := by
  have hval : s.respBuf.val = some v := h.respVal
  have hbuf : s.respBuf = ⟨some v, []⟩ := by
    rw [← hval, ← h.respAwake.resolve_right fun hc => by rw [hval] at hc; cases hc.2.2]
  rcases h.host with hhost | hhost <;> rw [hostStep, hhost, hbuf] at hs
  · cases hs
    exact ⟨_, .see v hhost⟩
  · change (if v.resp = 0 then _ else _) = some s' at hs
    split_ifs at hs with hv <;> cases hs
    · exact ⟨_, .ret v hhost hv⟩
    · exact ⟨_, .fail v hhost hv⟩

theorem hostStep_moves (h : Ctl g s) (hs : hostStep s = some s') : ∃ g', Move s g .host g' s' := by
  have hhost := h.host
  cases g with
  | free =>
    rw [hostStep, show s.host = .idle from hhost] at hs
    cases hs
  | pushing r =>
    have hbuf : s.reqBuf = ⟨none, []⟩ := by rw [← show s.reqBuf.val = none from h.reqVal, ← h.reqAwake]
    rcases hhost with hhost | hhost <;> rw [hostStep, hhost, hbuf] at hs <;> cases hs
    · exact ⟨_, .clear r hhost⟩
    · exact ⟨_, .post r hhost⟩
  | posted r => exact ⟨_, respWait_moves h hhost rfl hs⟩
  | driven r => exact ⟨_, respWait_moves h hhost rfl hs⟩
  | taken v => exact ⟨_, respWait_moves h hhost rfl hs⟩
  | answered v => exact answered_moves h hs
  | failed v =>
    rw [hostStep, hhost.1] at hs
    cases hs

/-- `tick` past its look at the request queue. -/
theorem check_moves {b : Bool} (h : Ctl g s) (hsim : s.sim = .check b) (hs : simStep s = some s') :
    ∃ g', Move s g .sim g' s' := by
  have hstate := h.state
  have hval := h.reqVal
  rw [simStep, hsim] at hs
  dsimp only at hs
  split_ifs at hs with hc <;> cases hs <;> rw [hstate, hval] at hc
  · obtain ⟨-, rfl, hsome⟩ := hc
    cases g <;> cases hsome
    exact ⟨_, .find _ hsim⟩
  · refine ⟨g, .finish g b hsim fun hsome => ?_⟩
    cases g <;> cases hsome
    simpa [Stage.state, Stage.reqVal] using hc

/-- `tick` has a response at hand. -/
theorem taken_moves {v : Resp} (h : Ctl (.taken v) s) (hs : simStep s = some s') :
    ∃ g', Move s (.taken v) .sim g' s' := by
  have hval : s.respBuf.val = none := h.respVal
  have hbuf : s.respBuf = ⟨none, []⟩ ∨ s.respBuf = ⟨none, [.host]⟩ := by
    rcases h.respAwake with hawake | ⟨hawake, -⟩
    · exact Or.inl (by rw [← hval, ← hawake])
    · exact Or.inr (by rw [← hval, ← hawake])
  obtain ⟨b, hsim | hsim⟩ := h.sim <;> rw [simStep, hsim] at hs
  · rcases hbuf with hbuf | hbuf <;> rw [hbuf] at hs <;> cases hs <;> exact ⟨_, .take b v hsim⟩
  · rcases hbuf with hbuf | hbuf <;> rw [hbuf] at hs <;> cases hs <;> exact ⟨_, .answer b v hsim⟩

theorem simStep_moves (h : Ctl g s) (hs : simStep s = some s') : ∃ g', Move s g .sim g' s' := by
  have hsim := h.sim
  have hidle : (s.sim = .idle ∨ ∃ b, s.sim = .check b) → ∃ g', Move s g .sim g' s' := by
    rintro (hi | ⟨b, hb⟩)
    · rw [simStep, hi] at hs
      cases hs
    · exact check_moves h hb hs
  cases g with
  | posted r =>
    rcases hsim with hi | hp | hb
    · exact hidle (Or.inl hi)
    · have hbuf : s.reqBuf = ⟨some r, []⟩ := by rw [← show s.reqBuf.val = some r from h.reqVal, ← h.reqAwake]
      rw [simStep, hp, hbuf] at hs
      cases hs
      exact ⟨_, .drive r hp⟩
    · exact hidle (Or.inr hb)
  | taken v => exact taken_moves h hs
  | free => exact hidle hsim
  | pushing r => exact hidle hsim
  | driven r => exact hidle hsim
  | answered v => exact hidle hsim
  | failed v => exact hidle hsim

/-- **Every step is a move.** -/
theorem step_moves (h : Ctl g s) (hs : step s e = some s') : ∃ g', Move s g e g' s' := by
  cases e with
  | call r =>
    simp only [step, callStep] at hs
    split_ifs at hs with hidle
    cases hs
    have hhost := h.host
    rw [hidle] at hhost
    cases g <;> simp [Stage.hostAt] at hhost
    exact ⟨_, .call r hidle⟩
  | host => exact hostStep_moves h hs
  | sim => exact simStep_moves h hs
  | edge b resp =>
    simp only [step, edgeStep] at hs
    split_ifs at hs with hc
    cases hs
    exact ⟨_, .edge g b resp hc.1 hc.2⟩
  | wake t =>
    cases hs
    exact ⟨_, .wake g t⟩

theorem Stage.simAt_check (b : Bool) (h : g.simAt .idle) : g.simAt (.check b) := by
  cases g <;> simp_all [Stage.simAt]

theorem Ctl.edge {b : Bool} {resp : Option Resp} (h : Ctl g s) (hidle : s.sim = .idle) :
    Ctl (g.edge resp) (edgeTo b resp s) := by
  obtain ⟨hhost, hsim, hstate, hreqVal, hrespVal, hreq, hreqAwake, hrespAwake, -, -⟩ := h
  rw [hidle] at hsim
  by_cases hd : s.state = .waitingResp ∧ resp.isSome
  · -- the response is taken
    obtain ⟨hwait, hsome⟩ := hd
    obtain ⟨v, rfl⟩ := Option.isSome_iff_exists.mp hsome
    have hpush : (edgeTo b (some v) s).sim = .pushWait b v := by simp [edgeTo, hwait]
    obtain ⟨r, rfl⟩ : ∃ r, g = .driven r := by cases g <;> simp_all [Stage.state, Stage.simAt]
    exact ⟨hhost, ⟨b, Or.inl hpush⟩, hwait, hreqVal, hrespVal, nofun, hreqAwake, hrespAwake,
      fun hc => absurd (hpush.symm.trans hc) (by simp), rfl⟩
  · have hcheck : (edgeTo b resp s).sim = .check b := by
      unfold edgeTo
      cases hs : s.state <;> cases hr : resp <;> simp_all
    have hg : g.edge resp = g := by
      cases g <;> cases resp <;> first | rfl | exact absurd ⟨hstate, rfl⟩ hd
    rw [hg]
    refine ⟨hhost, ?_, hstate, hreqVal, hrespVal, hreq, hreqAwake, hrespAwake, fun hc => ?_, rfl⟩
    · rw [hcheck]
      exact g.simAt_check b hsim
    · rw [hcheck] at hc
      cases hc

theorem Ctl.respAwake_of_ne (h : Ctl g s) (hhost : s.host ≠ .respWait) : s.respBuf.sleepers = [] :=
  h.respAwake.resolve_right fun hc => hhost hc.2.1

theorem Move.ctl (h : Ctl g s) (hm : Move s g e g' s') : Ctl g' s' := by
  cases hm with
  | call r hhost =>
    exact { h with host := Or.inl rfl, req := nofun, respAwake := Or.inl (h.respAwake_of_ne (by simp [hhost])) }
  | clear r hhost =>
    exact { h with host := Or.inr rfl, reqVal := rfl, reqAwake := rfl,
                   respAwake := Or.inl (h.respAwake_of_ne (by simp [hhost])) }
  | post r hhost =>
    exact { h with host := rfl, sim := h.sim.imp_right Or.inr, reqVal := rfl, reqAwake := rfl, req := nofun,
                   respAwake := Or.inl (h.respAwake_of_ne (by simp [hhost])) }
  | sleep g hhost hnone => exact { h with respVal := hnone.symm, respAwake := Or.inr ⟨rfl, hhost, rfl⟩ }
  | see v hhost => exact { h with host := Or.inr rfl, respVal := rfl, respAwake := Or.inl rfl }
  | ret v hhost hv => exact { h with host := rfl, respVal := rfl, respAwake := Or.inl rfl, req := nofun }
  | fail v hhost hv => exact { h with host := ⟨rfl, hv⟩, respVal := rfl, respAwake := Or.inl rfl, req := nofun }
  | take b v hsim =>
    exact { h with sim := ⟨b, Or.inr rfl⟩, respVal := rfl, respAwake := Or.inl rfl, output := nofun }
  | answer b v hsim =>
    exact { h with host := Or.inl h.host, sim := Or.inr ⟨b, rfl⟩, state := rfl, respVal := rfl, req := nofun,
                   respAwake := Or.inl rfl, output := nofun }
  | find r hsim => exact { h with sim := Or.inr (Or.inl rfl), output := nofun }
  | drive r hsim =>
    exact { h with sim := Or.inl rfl, state := rfl, reqVal := rfl, reqAwake := rfl, output := fun _ => ⟨rfl, rfl⟩,
                   req := fun r' hr' => by cases hr'; rfl }
  | finish g b hsim hb =>
    have hidle : g.simAt .idle := by
      have hs := h.sim
      rw [hsim] at hs
      cases g <;> simp_all [Stage.simAt]
    exact { h with sim := hidle, output := fun _ => ⟨rfl, rfl⟩ }
  | edge g b resp hsim hle => exact h.edge hsim
  | wake g t =>
    refine { h with reqAwake := by simp [MtQueue.wake, h.reqAwake], respAwake := ?_ }
    rcases h.respAwake with hawake | ⟨hawake, hrest⟩
    · exact Or.inl (by simp [MtQueue.wake, hawake])
    · cases t with
      | host => exact Or.inl (by simp [MtQueue.wake, hawake])
      | sim => exact Or.inr ⟨by simp [MtQueue.wake, hawake], hrest⟩

end Moves

/-! ## Promises -/

/-- A queue that is being pushed is empty, and no queue is popped empty by `tick`. -/
structure QueuesFree (s : Sys) : Prop where
  req : ∀ r, s.host = .pushWait r ∨ s.host = .pushStore r → s.reqBuf.val = none
  resp : ∀ b v, s.sim = .pushWait b v ∨ s.sim = .pushStore b v → s.respBuf.val = none
  sim : s.sim ≠ .aborted

/-- The requests sent are accepted once each and in order, the `i`-th call returns the `i`-th response, and the
host stops only at an error that its own response reports. -/
structure Exact (s : Sys) : Prop where
  once : s.log.accepted <+: s.log.sent
  own : s.log.returned <+: s.log.responded
  answered : s.log.responded.length ≤ s.log.accepted.length
  aborted : s.host = .aborted → ∃ v, v.resp ≠ 0 ∧ s.log.returned ++ [v] <+: s.log.responded

/-- The target is not ready at two edges in a row while it owes a response from before the second one. -/
def Spaced (s : Sys) : Event → Prop
  | .edge ready _ => s.log.responded.length < s.log.accepted.length → ¬ (s.log.ready ∧ ready)
  | _ => True

namespace Stage

/-- Sent, and not accepted yet. -/
def unaccepted : Stage → List Req
  | pushing r => [r]
  | posted r => [r]
  | driven r => [r]
  | _ => []

/-- Returned by the target, and not by `send_req` yet. -/
def unreturned : Stage → List Resp
  | taken v => [v]
  | answered v => [v]
  | failed v => [v]
  | _ => []

/-- What the target is offered when `valid` is high. -/
def offered : Stage → List Req
  | driven r => [r]
  | _ => []

end Stage

/-- Nothing is lost and nothing is added on the way.  A request that is driven may have been accepted. -/
structure Logs (g : Stage) (l : Log) : Prop where
  own : l.responded = l.returned ++ g.unreturned
  sent : l.sent = l.accepted ++ g.unaccepted ∧ l.accepted.length = l.responded.length ∨
    g.offered ≠ [] ∧ l.sent = l.accepted ∧ l.accepted.length = l.responded.length + 1

section Promises

variable {s s' : Sys} {g g' : Stage} {e : Event} {b : Bool} {resp : Option Resp}

theorem Ctl.queuesFree (h : Ctl g s) : QueuesFree s := by
  obtain ⟨hhost, hsim, -, hreqVal, hrespVal, -, -, -, -, -⟩ := h
  refine ⟨fun r hr => ?_, fun b v hv => ?_, fun hc => ?_⟩
  · rw [hreqVal]
    rcases hr with hr | hr <;> rw [hr] at hhost <;> cases g <;> simp_all [Stage.hostAt, Stage.reqVal]
  · rw [hrespVal]
    rcases hv with hv | hv <;> rw [hv] at hsim <;> cases g <;> simp_all [Stage.simAt, Stage.respVal]
  · rw [hc] at hsim
    cases g <;> simp_all [Stage.simAt]

/-- What the target accepts at an edge. -/
theorem Ctl.accepted_edge (h : Ctl g s) (hidle : s.sim = .idle) : (edgeTo b resp s).log.accepted =
    s.log.accepted ++ if s.log.ready ∧ b then g.offered else [] := by
  obtain ⟨hvalid, hbits⟩ := h.output hidle
  have hsim := h.sim
  rw [hidle] at hsim
  have hreq := h.req
  simp only [edgeTo, hvalid, reqValid, h.state, h.ready, hbits]
  cases g <;> simp_all [Stage.state, Stage.offered, Stage.simAt]

theorem Logs.edge {l l' : Log} (hl : Logs g l) (hsent : l'.sent = l.sent) (hret : l'.returned = l.returned)
    (hacc : l'.accepted = l.accepted ++ if l.ready ∧ b then g.offered else [])
    (hresp : l'.responded = l.responded ++ resp.toList)
    (hsp : l.responded.length < l.accepted.length → ¬ (l.ready ∧ b))
    (hle : l'.responded.length ≤ l'.accepted.length) : Logs (g.edge resp) l' := by
  obtain ⟨sent, accepted, responded, returned, ready⟩ := l'
  dsimp only at hsent hret hacc hresp hle
  subst hsent hret hacc hresp
  obtain ⟨hown, hsent⟩ := hl
  by_cases hoff : g.offered = []
  · obtain ⟨hsent, hlen⟩ := hsent.resolve_right fun hc => hc.1 hoff
    cases resp with
    | none =>
      have hg : g.edge none = g := by cases g <;> rfl
      simp only [hoff, ite_self, List.append_nil, Option.toList_none, hg]
      exact ⟨hown, Or.inl ⟨hsent, hlen⟩⟩
    | some v =>
      simp only [hoff, ite_self, List.append_nil, List.length_append, Option.toList_some,
        List.length_singleton] at hle
      omega
  obtain ⟨r, rfl⟩ : ∃ r, g = .driven r := by cases g <;> simp_all [Stage.offered]
  by_cases hrb : l.ready ∧ b
  · -- accepted at this edge, and not before
    obtain ⟨hsent, hlen⟩ := hsent.resolve_right fun hc => hsp (by omega) hrb
    rw [if_pos hrb] at hle ⊢
    cases resp with
    | none => exact ⟨by simpa [Stage.edge] using hown, Or.inr ⟨hoff, hsent, by simp [hlen, Stage.offered]⟩⟩
    | some v =>
      refine ⟨by simpa [Stage.edge, Stage.unreturned] using hown, Or.inl ⟨?_, by simp [hlen, Stage.offered]⟩⟩
      simpa [Stage.edge, Stage.offered, Stage.unaccepted] using hsent
  · rw [if_neg hrb, List.append_nil] at hle ⊢
    cases resp with
    | none =>
      rw [Option.toList_none, List.append_nil]
      exact ⟨hown, hsent⟩
    | some v =>
      -- only a request that was accepted before can be answered
      rw [List.length_append, Option.toList_some, List.length_singleton] at hle
      obtain ⟨-, hsent, hlen⟩ := hsent.resolve_left fun hc => by omega
      exact ⟨by simpa [Stage.edge, Stage.unreturned] using hown,
        Or.inl ⟨by simpa [Stage.edge, Stage.unaccepted] using hsent, by simp [hlen]⟩⟩

theorem Move.logs (h : Ctl g s) (hl : Logs g s.log) (hsp : Spaced s e) (hm : Move s g e g' s') :
    Logs g' s'.log := by
  obtain ⟨hown, hsent⟩ := hl
  cases hm with
  | call r hhost =>
    have hfree := hsent.resolve_right (fun hc => hc.1 rfl)
    exact ⟨hown, Or.inl ⟨by simp [hfree.1, Stage.unaccepted], hfree.2⟩⟩
  | ret v hhost hv =>
    have hfree := hsent.resolve_right (fun hc => hc.1 rfl)
    exact ⟨by simpa [Stage.unreturned] using hown, Or.inl hfree⟩
  | edge g b resp hsim hle => exact Logs.edge ⟨hown, hsent⟩ rfl rfl (h.accepted_edge hsim) rfl hsp hle
  | drive r hsim => exact ⟨hown, Or.inl (hsent.resolve_right fun hc => hc.1 rfl)⟩
  | _ => exact ⟨hown, hsent⟩

theorem Logs.exact (h : Ctl g s) (hl : Logs g s.log) : Exact s := by
  obtain ⟨hown, hsent⟩ := hl
  refine ⟨?_, ⟨_, hown.symm⟩, ?_, fun habort => ?_⟩
  · rcases hsent with ⟨hsent, -⟩ | ⟨-, hsent, -⟩
    · exact ⟨_, hsent.symm⟩
    · rw [hsent]
  · rcases hsent with ⟨-, hlen⟩ | ⟨-, -, hlen⟩ <;> omega
  · have hhost := h.host
    rw [habort] at hhost
    cases g with
    | failed v => exact ⟨v, hhost.2, by rw [hown]; exact List.prefix_rfl⟩
    | _ => simp [Stage.hostAt] at hhost

/-- Ready twice in a row with a response owed: the request is accepted again. -/
theorem not_exact_of_not_spaced (h : Ctl g s) (hl : Logs g s.log) (hsp : ¬ Spaced s e) (hs : step s e = some s') :
    ¬ Exact s' := by
  intro hexact
  cases e with
  | edge b resp =>
    simp only [Spaced, Classical.not_imp, not_not] at hsp
    simp only [step, edgeStep] at hs
    split_ifs at hs with hc
    cases hs
    obtain ⟨hoff, hsent, -⟩ := hl.sent.resolve_left fun hc => by omega
    have hlen := hexact.once.length_le
    rw [h.accepted_edge hc.1, if_pos hsp.2, List.length_append] at hlen
    rw [show (edgeTo b resp s).log.sent = s.log.accepted from hsent] at hlen
    have hpos := List.length_pos_iff.mpr hoff
    omega
  | _ => exact hsp trivial

end Promises

/-! ## Progress -/

/-- How far a call is from its end.  At 11, 10, 2 and 1 it is the host thread's turn, at 8, 7, 4 and 3 that of
`tick`; at 9 and 6 the target is to be ready, and at 5 to answer. -/
def rank : Stage → Sys → ℕ
  | .free, _ => 0
  | .pushing r, s => if s.host = .pushWait r then 11 else 10
  | .posted _, s => if s.sim = .pop then 7 else if s.sim = .check true then 8 else 9
  | .driven _, s => if s.log.responded.length < s.log.accepted.length then 5 else 6
  | .taken _, s => match s.sim with
    | .pushWait _ _ => 4
    | _ => 3
  | .answered _, s => if s.host = .respPop then 1 else 2
  | .failed _, _ => 0

section Progress

variable {s s' : Sys} {g g' : Stage} {e : Event} {b : Bool} {resp : Option Resp}

theorem rank_congr (g : Stage) (hhost : s'.host = s.host) (hsim : s'.sim = s.sim) (hlog : s'.log = s.log) :
    rank g s' = rank g s := by
  cases g <;> simp [rank, hhost, hsim, hlog]

theorem rank_edge (h : Ctl g s) (hidle : s.sim = .idle) : rank (g.edge resp) (edgeTo b resp s) ≤ rank g s := by
  have hsim := h.sim
  rw [hidle] at hsim
  cases g with
  | driven r =>
    cases resp with
    | none =>
      simp only [Stage.edge, rank, edgeTo, Option.toList_none, List.append_nil, List.length_append]
      split_ifs <;> omega
    | some v =>
      simp only [Stage.edge, rank]
      split_ifs <;> split <;> omega
  | posted r =>
    rw [show rank (.posted r) s = 9 by simp [rank, hidle]]
    simp only [Stage.edge, rank]
    split_ifs <;> omega
  | taken v => simp [Stage.simAt] at hsim
  | _ => exact Nat.le_refl _

/-- A step does not set a call back. -/
theorem Move.rank_le (h : Ctl g s) (hm : Move s g e g' s') (hpos : rank g s ≠ 0) : rank g' s' ≤ rank g s := by
  cases hm with
  | call r hhost => exact absurd rfl hpos
  | clear r hhost => simp [rank, hhost]
  | post r hhost =>
    simp only [rank, hhost]
    split_ifs <;> omega
  | see v hhost => simp [rank, hhost]
  | ret v hhost hv => exact Nat.zero_le _
  | fail v hhost hv => exact Nat.zero_le _
  | take b v hsim => simp [rank, hsim]
  | answer b v hsim =>
    simp only [rank, hsim]
    split_ifs <;> omega
  | find r hsim => simp [rank, hsim]
  | drive r hsim =>
    simp only [rank, hsim]
    split_ifs <;> omega
  | finish g b hsim hb =>
    have hs := h.sim
    rw [hsim] at hs
    cases g with
    | posted r =>
      obtain rfl := hb rfl
      simp [rank, output, hsim]
    | taken v => simp [Stage.simAt] at hs
    | _ => exact Nat.le_refl _
  | edge g b resp hsim hle => exact rank_edge h hsim
  | sleep g hhost hnone => exact Nat.le_of_eq (rank_congr (s := s) g rfl rfl rfl)
  | wake g t => exact Nat.le_of_eq (rank_congr (s := s) g rfl rfl rfl)

/-- The host thread's turn. -/
theorem pushing_or_answered (hr : rank g s ∈ [11, 10, 2, 1]) : (∃ r, g = .pushing r) ∨ ∃ v, g = .answered v := by
  cases g with
  | pushing r => exact Or.inl ⟨r, rfl⟩
  | answered v => exact Or.inr ⟨v, rfl⟩
  | _ =>
    simp only [rank] at hr
    repeat' split at hr
    all_goals simp at hr

theorem hostStep_ne_none (h : Ctl g s) (hr : rank g s ∈ [11, 10, 2, 1]) : hostStep s ≠ none := by
  obtain ⟨r, rfl⟩ | ⟨v, rfl⟩ := pushing_or_answered hr
  · rcases h.host with hhost | hhost <;> simp [hostStep, hhost, h.reqAwake]
  · have hval : s.respBuf.val = some v := h.respVal
    have hawake : s.respBuf.sleepers = [] := h.respAwake.resolve_right fun hc => by rw [hval] at hc; cases hc.2.2
    rcases h.host with hhost | hhost
    · simp [hostStep, hhost, hawake]
    · simp only [hostStep, hhost, MtQueue.pop, hval, Option.map_some]
      split_ifs <;> simp

theorem Move.rank_host (h : Ctl g s) (hm : Move s g .host g' s') (hr : rank g s ∈ [11, 10, 2, 1]) :
    rank g' s' < rank g s := by
  cases hm with
  | clear r hhost => simp [rank, hhost]
  | post r hhost =>
    simp only [rank, hhost]
    split_ifs <;> omega
  | see v hhost => simp [rank, hhost]
  | ret v hhost hv => simp [rank, hhost]
  | fail v hhost hv => simp [rank, hhost]
  | sleep g hhost hnone =>
    have hs := h.host
    obtain ⟨r, rfl⟩ | ⟨v, rfl⟩ := pushing_or_answered hr
    · simp [Stage.hostAt, hhost] at hs
    · cases hnone

/-- The turn of `tick`. -/
theorem posted_or_taken (h : Ctl g s) (hr : rank g s ∈ [8, 7, 4, 3]) :
    (∃ r, g = .posted r ∧ (s.sim = .pop ∨ s.sim = .check true)) ∨
      ∃ b v, g = .taken v ∧ (s.sim = .pushWait b v ∨ s.sim = .pushStore b v) := by
  have hsim := h.sim
  cases g with
  | posted r =>
    refine Or.inl ⟨r, rfl, ?_⟩
    simp only [rank] at hr
    split_ifs at hr with h1 h2
    · exact Or.inl h1
    · exact Or.inr h2
    · simp at hr
  | taken v =>
    obtain ⟨b, hb⟩ := hsim
    exact Or.inr ⟨b, v, rfl, hb⟩
  | _ =>
    simp only [rank] at hr
    repeat' split at hr
    all_goals simp at hr

theorem simStep_ne_none (h : Ctl g s) (hr : rank g s ∈ [8, 7, 4, 3]) : simStep s ≠ none := by
  obtain ⟨r, rfl, hsim | hsim⟩ | ⟨b, v, rfl, hsim | hsim⟩ := posted_or_taken h hr
  · have hval : s.reqBuf.val = some r := h.reqVal
    simp [simStep, hsim, MtQueue.pop, hval]
  · simp only [simStep, hsim]
    split_ifs <;> simp
  · have hawake : Thread.sim ∉ s.respBuf.sleepers := by
      rcases h.respAwake with ha | ⟨ha, -⟩ <;> simp [ha]
    simp [simStep, hsim, hawake]
  · simp [simStep, hsim]

theorem Move.rank_sim (h : Ctl g s) (hm : Move s g .sim g' s') (hr : rank g s ∈ [8, 7, 4, 3]) :
    rank g' s' < rank g s := by
  cases hm with
  | take b v hsim => simp [rank, hsim]
  | answer b v hsim =>
    simp only [rank, hsim]
    split_ifs <;> omega
  | find r hsim => simp [rank, hsim]
  | drive r hsim =>
    simp only [rank, hsim]
    split_ifs <;> omega
  | finish g b hsim hb =>
    obtain ⟨r, rfl, hs | hs⟩ | ⟨b', v, rfl, hs | hs⟩ := posted_or_taken h hr <;> rw [hsim] at hs <;> cases hs
    cases hb rfl

theorem rank_taken_le (v : Resp) (s : Sys) : rank (.taken v) s ≤ 4 := by
  simp only [rank]
  split <;> omega

/-- The target is ready for the second time. -/
theorem Move.rank_ready (h : Ctl g s) (hm : Move s g (.edge true resp) g' s') (hready : s.log.ready)
    (hlen : s.log.responded.length ≤ s.log.accepted.length) (hr : rank g s = 9 ∨ rank g s = 6) :
    rank g' s' < rank g s := by
  cases hm with
  | edge g b resp hsim hle =>
    cases g with
    | posted r =>
      have hcheck : (edgeTo true resp s).sim = .check true := by
        simp [edgeTo, show s.state = .waitingReq from h.state]
      simp [Stage.edge, rank, hcheck, hsim]
    | driven r =>
      obtain hsix : rank (.driven r) s = 6 := hr.resolve_left fun hc => by
        simp only [rank] at hc; split_ifs at hc <;> omega
      rw [hsix]
      cases resp with
      | none =>
        have hacc : (edgeTo true none s).log.accepted = s.log.accepted ++ [r] := by
          rw [h.accepted_edge hsim, if_pos ⟨hready, rfl⟩, Stage.offered]
        simp only [Stage.edge, rank, hacc, List.length_append, List.length_singleton]
        rw [if_pos (by simp [edgeTo]; omega)]
        omega
      | some v => exact (rank_taken_le v _).trans_lt (by omega)
    | _ =>
      simp only [rank] at hr
      repeat' split at hr
      all_goals simp at hr

/-- The target answers. -/
theorem Move.rank_answer {v : Resp} (hm : Move s g (.edge b (some v)) g' s') (hr : rank g s = 5) :
    rank g' s' < rank g s := by
  cases hm with
  | edge g b resp hsim hle =>
    rw [hr]
    cases g with
    | driven r => exact (rank_taken_le v _).trans_lt (by omega)
    | _ =>
      simp only [rank] at hr
      repeat' split at hr
      all_goals simp at hr

/-- Whose turn it is. -/
theorem rank_cases (g : Stage) (s : Sys) : rank g s = 0 ∨ rank g s ∈ [11, 10, 2, 1] ∨ rank g s ∈ [8, 7, 4, 3] ∨
    (rank g s = 9 ∨ rank g s = 6) ∨ rank g s = 5 ∧ s.log.responded.length < s.log.accepted.length := by
  cases g <;> simp only [rank]
  all_goals repeat' split
  all_goals simp_all

/-- At the end of a call there is nothing on the way. -/
theorem done_of_rank (h : Ctl g s) (hl : Logs g s.log) (hr : rank g s = 0) :
    s.log.accepted = s.log.sent ∧ (s.log.returned.length = s.log.sent.length ∨ s.host = .aborted) := by
  obtain ⟨hown, hsent⟩ := hl
  cases g with
  | free =>
    obtain ⟨hsent, hlen⟩ := hsent.resolve_right fun hc => hc.1 rfl
    simp only [Stage.unaccepted, Stage.unreturned, List.append_nil] at hsent hown
    exact ⟨hsent.symm, Or.inl (by rw [hsent, hlen, hown])⟩
  | failed v =>
    obtain ⟨hsent, -⟩ := hsent.resolve_right fun hc => hc.1 rfl
    simp only [Stage.unaccepted, List.append_nil] at hsent
    exact ⟨hsent.symm, Or.inr h.host.1⟩
  | _ =>
    simp only [rank] at hr
    repeat' split at hr
    all_goals simp at hr

theorem Move.sent_le (hm : Move s g e g' s') : s.log.sent.length ≤ s'.log.sent.length := by
  cases hm <;> simp [output, edgeTo]

end Progress

/-! ## Runs -/

/-- What progress takes: both threads go on, the target is ready twice in a row again and again, and it answers the
requests it has accepted. -/
structure Fair (ρ : Run step init) : Prop where
  host : ∀ n, ∃ m, n ≤ m ∧ (ρ.event m = .host ∨ hostStep (ρ.state m) = none)
  sim : ∀ n, ∃ m, n ≤ m ∧ (ρ.event m = .sim ∨ simStep (ρ.state m) = none)
  ready : ∀ n, ∃ m, n ≤ m ∧ (ρ.state m).log.ready ∧ ∃ resp, ρ.event m = .edge true resp
  answer : ∀ n, (ρ.state n).log.responded.length < (ρ.state n).log.accepted.length →
    ∃ m, n ≤ m ∧ ∃ b v, ρ.event m = .edge b (some v)

/-- Every request sent is accepted, and its call returns, unless the response is an error. -/
def Served (ρ : Run step init) : Prop :=
  ∀ n i, i < (ρ.state n).log.sent.length → ∃ m, i < (ρ.state m).log.accepted.length ∧
    (i < (ρ.state m).log.returned.length ∨ (ρ.state m).host = .aborted)

section Runs

variable (ρ : Run step init)

theorem ctl_run (n : ℕ) : ∃ g, Ctl g (ρ.state n) := by
  refine ρ.invariant (I := fun s => ∃ g, Ctl g s) (C := fun _ _ => True) ⟨_, ctl_init⟩ ?_ n fun _ _ => trivial
  rintro s e s' ⟨g, h⟩ - hs
  obtain ⟨g', hm⟩ := step_moves h hs
  exact ⟨g', hm.ctl h⟩

theorem logs_step {s s' : Sys} {e : Event} (h : ∃ g, Ctl g s ∧ Logs g s.log) (hsp : Spaced s e)
    (hs : step s e = some s') : ∃ g, Ctl g s' ∧ Logs g s'.log := by
  obtain ⟨g, hc, hl⟩ := h
  obtain ⟨g', hm⟩ := step_moves hc hs
  exact ⟨g', hm.ctl hc, hm.logs hc hl hsp⟩

theorem logs_init : Logs .free init.log := ⟨rfl, Or.inl ⟨rfl, rfl⟩⟩

theorem exact_iff_spaced : (∀ n, Exact (ρ.state n)) ↔ ∀ n, Spaced (ρ.state n) (ρ.event n) := by
  refine ρ.holds_iff (I := fun s => ∃ g, Ctl g s ∧ Logs g s.log) ⟨_, ctl_init, logs_init⟩
    (fun s e s' h hsp hs => logs_step h hsp hs) ?_ ?_
  · rintro s ⟨g, hc, hl⟩
    exact hl.exact hc
  · rintro s e s' ⟨g, hc, hl⟩ hsp hs
    exact not_exact_of_not_spaced hc hl hsp hs

/-- `c` is the rank of the state at `n`. -/
def RankAt (n c : ℕ) : Prop := ∃ g, Ctl g (ρ.state n) ∧ Logs g (ρ.state n).log ∧ rank g (ρ.state n) = c

section Serve

variable {ρ} {n c : ℕ} (hsp : ∀ n, Spaced (ρ.state n) (ρ.event n))
include hsp

/-- A step brings the rank to that of the state it leads to. -/
theorem RankAt.succ (h : RankAt ρ n c) {p : ℕ → Prop}
    (hp : ∀ g g', Ctl g (ρ.state n) → Logs g (ρ.state n).log → rank g (ρ.state n) = c →
      Move (ρ.state n) g (ρ.event n) g' (ρ.state (n + 1)) → p (rank g' (ρ.state (n + 1)))) :
    ∃ c', p c' ∧ RankAt ρ (n + 1) c' := by
  obtain ⟨g, hc, hl, hr⟩ := h
  obtain ⟨g', hm⟩ := step_moves hc (ρ.next n)
  exact ⟨_, hp g g' hc hl hr hm, g', hm.ctl hc, hm.logs hc hl (hsp n), rfl⟩

theorem RankAt.keep (h : RankAt ρ n c) (hc : c ≠ 0) : RankAt ρ (n + 1) c ∨ ∃ c' < c, RankAt ρ (n + 1) c' := by
  obtain ⟨c', hle, hc'⟩ := h.succ hsp (p := (· ≤ c)) fun g g' hc' _ hr hm => hr ▸ hm.rank_le hc' (by omega)
  rcases hle.lt_or_eq with hlt | rfl
  · exact Or.inr ⟨c', hlt, hc'⟩
  · exact Or.inl hc'

/-- Fairness provides the event that a call waits for. -/
theorem RankAt.helps (hfair : Fair ρ) (h : RankAt ρ n c) (hc : c ≠ 0) :
    ∃ m, n ≤ m ∧ (RankAt ρ m c → ∃ c' < c, RankAt ρ (m + 1) c') := by
  obtain ⟨g, -, -, hr⟩ := h
  rcases rank_cases g (ρ.state n) with h0 | hhost | hsim | hready | ⟨hanswer, howed⟩
  · omega
  · obtain ⟨m, hnm, he | hnone⟩ := hfair.host n
    · refine ⟨m, hnm, fun hm => hm.succ hsp fun g g' hc' _ hr' hmove => ?_⟩
      rw [he] at hmove
      exact hr' ▸ hmove.rank_host hc' (by rw [hr', ← hr]; exact hhost)
    · refine ⟨m, hnm, ?_⟩
      rintro ⟨g', hc', -, hr'⟩
      exact absurd hnone (hostStep_ne_none hc' (by rw [hr', ← hr]; exact hhost))
  · obtain ⟨m, hnm, he | hnone⟩ := hfair.sim n
    · refine ⟨m, hnm, fun hm => hm.succ hsp fun g g' hc' _ hr' hmove => ?_⟩
      rw [he] at hmove
      exact hr' ▸ hmove.rank_sim hc' (by rw [hr', ← hr]; exact hsim)
    · refine ⟨m, hnm, ?_⟩
      rintro ⟨g', hc', -, hr'⟩
      exact absurd hnone (simStep_ne_none hc' (by rw [hr', ← hr]; exact hsim))
  · obtain ⟨m, hnm, hlast, resp, he⟩ := hfair.ready n
    refine ⟨m, hnm, fun hm => hm.succ hsp fun g g' hc' hl' hr' hmove => ?_⟩
    rw [he] at hmove
    exact hr' ▸ hmove.rank_ready hc' hlast (hl'.exact hc').answered (by rw [hr', ← hr]; exact hready)
  · obtain ⟨m, hnm, b, v, he⟩ := hfair.answer n howed
    refine ⟨m, hnm, fun hm => hm.succ hsp fun g g' _ _ hr' hmove => ?_⟩
    rw [he] at hmove
    exact hr' ▸ hmove.rank_answer (by rw [hr', ← hr]; exact hanswer)

theorem served (hfair : Fair ρ) : Served ρ := by
  intro n i hi
  have hinv : ∀ k, ∃ g, Ctl g (ρ.state k) ∧ Logs g (ρ.state k).log := fun k =>
    ρ.invariant (I := fun s => ∃ g, Ctl g s ∧ Logs g s.log) ⟨_, ctl_init, logs_init⟩
      (fun s e s' h hs hstep => logs_step h hs hstep) k fun j _ => hsp j
  have hmono : Monotone fun k => (ρ.state k).log.sent.length := monotone_nat_of_le_succ fun k => by
    obtain ⟨g, hc, -⟩ := hinv k
    obtain ⟨g', hm⟩ := step_moves hc (ρ.next k)
    exact hm.sent_le
  have hrank : ∀ k c, n ≤ k → RankAt ρ k c → ∃ m, k ≤ m ∧ ((i < (ρ.state m).log.accepted.length ∧
      (i < (ρ.state m).log.returned.length ∨ (ρ.state m).host = .aborted)) ∨ ∃ c' < c, RankAt ρ m c') := by
    intro k c hk hR
    by_cases h0 : c = 0
    · subst h0
      obtain ⟨g, hc, hl, hr⟩ := hR
      obtain ⟨hacc, hdone⟩ := done_of_rank hc hl hr
      have hik : i < (ρ.state k).log.sent.length := hi.trans_le (hmono hk)
      exact ⟨k, le_rfl, Or.inl ⟨by rw [hacc]; exact hik, hdone.imp_left fun hlen => by rw [hlen]; exact hik⟩⟩
    · obtain ⟨m, hkm, hhelp⟩ := hR.helps hsp hfair h0
      obtain ⟨j, hkj, hj⟩ := Run.reaches (P := fun j => RankAt ρ j c) (Q := fun j => ∃ c' < c,
        RankAt ρ j c') hkm hR
        (fun j _ hj => hj.keep hsp h0) hhelp
      exact ⟨j, hkj, Or.inr hj⟩
  obtain ⟨g, hc, hl⟩ := hinv n
  obtain ⟨m, -, hm⟩ := Run.reaches_of_rank hrank ⟨g, hc, hl, rfl⟩
  exact ⟨m, hm⟩

end Serve

/-- **Requests and responses.**  No queue is ever pushed while it is occupied.  Each request is accepted once, in
order, and each call returns its own response, exactly when the target spaces out its `ready`; in a fair run every
call then comes back. -/
theorem exactly_once : (∀ n, QueuesFree (ρ.state n)) ∧
    ((∀ n, Exact (ρ.state n)) ↔ ∀ n, Spaced (ρ.state n) (ρ.event n)) ∧
    ((∀ n, Spaced (ρ.state n) (ρ.event n)) → Fair ρ → Served ρ) := by
  refine ⟨fun n => ?_, exact_iff_spaced ρ, fun hsp hfair => served hsp hfair⟩
  obtain ⟨g, hc⟩ := ctl_run ρ n
  exact hc.queuesFree

end Runs

/-! ## Two targets -/

def readDmstatus : Req := ⟨0x11, 1, 0⟩

def readAbstractcs : Req := ⟨0x16, 1, 0⟩

/-- The state after a list of events. -/
def after (events : List Event) : Sys := (events.foldlM step init).getD init

/-- A list of events, then edges at which the target is ready and nothing happens. -/
def thenReady (stem : List Event) (hstem : stem.foldlM step init = some (after stem))
    (hedge : step (after stem) (.edge true none) = some (after (stem ++ [.edge true none])))
    (hsim : step (after (stem ++ [.edge true none])) .sim = some (after stem)) : Run step init :=
  Run.lasso hedge hsim stem init hstem

/-- The target answers on the edge on which it accepts. -/
def promptStem : List Event :=
  [.call readDmstatus, .host, .host, .host, .edge true none, .sim, .sim, .edge true (some ⟨0, 0x382⟩),
    .sim, .sim, .sim,
    .host, .host, .edge true none, .sim]

theorem promptStem_end : promptStem.foldlM step init = some (after promptStem) := rfl

theorem promptStem_edge :
    step (after promptStem) (.edge true none) = some (after (promptStem ++ [.edge true none])) := rfl

theorem promptStem_sim : step (after (promptStem ++ [.edge true none])) .sim = some (after promptStem) := rfl

def promptRun : Run step init := thenReady promptStem promptStem_end promptStem_edge promptStem_sim

/-- A request is served in a fair run whose edges are all spaced. -/
theorem promptRun_served :
    Fair promptRun ∧ (∀ n, Spaced (promptRun.state n) (promptRun.event n)) ∧ Served promptRun := by
  have heven : ∀ n, ∃ m, n ≤ m ∧ promptRun.state m = after promptStem ∧ promptRun.event m = .edge true none := by
    intro n
    obtain ⟨hstate, hevent⟩ := Run.lasso_end promptStem_edge promptStem_sim (2 * n) promptStem init promptStem_end
    rw [if_pos (by omega)] at hstate hevent
    exact ⟨_, by omega, hstate, hevent⟩
  have hnone : ∀ n, (promptRun.state n).log.responded.length = (promptRun.state n).log.accepted.length := by
    intro n
    have hall :
      ∀ x ∈ Run.visited step init promptStem ++ [after promptStem, after (promptStem ++ [.edge true none])],
        x.log.responded.length = x.log.accepted.length := by decide
    exact hall _ (Run.lasso_mem promptStem_edge promptStem_sim promptStem init promptStem_end n)
  have hfair : Fair promptRun := by
    refine ⟨fun n => ?_, fun n => ?_, fun n => ?_, fun n hc => absurd hc (by rw [hnone]; omega)⟩ <;>
      obtain ⟨m, hnm, hstate, hevent⟩ := heven n
    · exact ⟨m, hnm, Or.inr (by rw [hstate]; rfl)⟩
    · exact ⟨m, hnm, Or.inr (by rw [hstate]; rfl)⟩
    · exact ⟨m, hnm, by rw [hstate]; rfl, none, hevent⟩
  have hspaced : ∀ n, Spaced (promptRun.state n) (promptRun.event n) := by
    intro n
    cases promptRun.event n with
    | edge b resp => exact fun hc => absurd hc (by rw [hnone]; omega)
    | _ => trivial
  exact ⟨hfair, hspaced, (exactly_once promptRun).2.2 hspaced hfair⟩

/-- The target stays ready and answers on the edge after the one on which it accepts.  The host thread is quick to
send its second request. -/
def eagerStem : List Event :=
  [.call readDmstatus, .host, .host, .edge true none, .sim, .sim, .edge true none, .sim,
    .edge true (some ⟨0, 0x382⟩),
    .sim, .sim, .host, .host, .call readAbstractcs, .host, .host, .sim, .sim,
      .edge true (some ⟨0, 0x382⟩), .sim, .sim,
    .sim, .host, .host, .edge true (some ⟨0, 0x10000002⟩), .sim]

def eagerRun : Run step init := thenReady eagerStem rfl rfl rfl

/-- The first request is executed twice, and the second call returns the response to its second execution. -/
theorem eagerRun_duplicates : (eagerRun.state 26).log.sent = [readDmstatus, readAbstractcs] ∧
    (eagerRun.state 26).log.accepted = [readDmstatus, readDmstatus, readAbstractcs] ∧
    (eagerRun.state 26).log.responded = [⟨0, 0x382⟩, ⟨0, 0x382⟩, ⟨0, 0x10000002⟩] ∧
    (eagerRun.state 26).log.returned = [⟨0, 0x382⟩, ⟨0, 0x382⟩] ∧ ¬ Exact (eagerRun.state 26) := by
  refine ⟨rfl, rfl, rfl, rfl, fun hexact => ?_⟩
  exact absurd hexact.once.length_le (by decide)

end Soceteer.Tick
