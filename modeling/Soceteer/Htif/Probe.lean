import Soceteer.Htif.Stage

/-!
# Soceteer.Htif.Probe — what a probe that gives up leaves behind

`soct_htif_present` posts a command and gives up when the host has not answered in time.  It returns without taking
the command back, and its buffer is on the stack.

* `LeavesNothing`: the host never touches the buffer again, and the mailbox is empty and stays so.
* `timed_out_probe`: a probe that gives up never leaves nothing behind, whatever the host has done so far.
* `stale_response`: the next call takes the response to the probe for its own.
-/

namespace Soceteer.Htif

open Soceteer.Lib

variable {H : Type}

section Log

variable {s s' : Sys H}

theorem hartStep_timedOut [DecidableEq H] {h : H} (hs : hartStep h s = some s') :
    s.log.timedOut <+: s'.log.timedOut := by
  rw [hartStep] at hs
  split at hs <;> (try split_ifs at hs) <;> cases hs <;>
    first | exact List.prefix_refl _ | exact List.prefix_append _ _

theorem hostStep_timedOut (hs : hostStep s = some s') : s'.log.timedOut = s.log.timedOut := by
  rw [hostStep] at hs
  split at hs <;> (try split at hs) <;> (try split_ifs at hs) <;> cases hs <;> rfl

theorem Sys.poke_log (s : Sys H) (a : ℕ) (v : Word) : (s.poke a v).log = s.log := by
  unfold poke
  split_ifs <;> rfl

end Log

variable [DecidableEq H] [Fintype H]

/-- The buffer of `soct_htif_present`. -/
def probeArgs : Fin 8 → Word := fun i => if i = 0 then devTest.setWidth 64 else 0

/-- The steps of the host. -/
def Event.isHost : Event H → Prop
  | .host => True
  | .data _ _ => True
  | .serve _ _ => True
  | _ => False

/-- The mailbox is empty, and the host is not about to load from or store into the buffer. -/
def Quiet (c : Call) (s : Sys H) : Prop :=
  s.tohost = 0 ∧ s.fromhost = 0 ∧ ∀ i, s.host.touches ≠ some (c.word i)

/-- Whatever the host does next, it stays so. -/
def LeavesNothing (c : Call) (s : Sys H) : Prop :=
  ∀ es : List (Event H), (∀ e ∈ es, e.isHost) → ∀ t, es.foldlM step s = some t → Quiet c t

section Late

variable {s t : Sys H} {c : Call} {e : Event H}

theorem LeavesNothing.quiet (h : LeavesNothing c s) : Quiet c s := h [] nofun s rfl

theorem LeavesNothing.next (h : LeavesNothing c s) (hs : step s e = some t) (he : e.isHost) :
    LeavesNothing c t := by
  intro es hes u hu
  refine h (e :: es) ?_ u ?_
  · exact List.forall_mem_cons.mpr ⟨he, hes⟩
  · rw [List.foldlM_cons, hs]
    exact hu

/-- The host is about to write the response. -/
theorem not_leavesNothing_decide (hp : s.host = .decide 0) (hq : s.queue = [1]) : ¬ LeavesNothing c s := by
  intro h
  have hs : step s .host = some { s with fromhost := 1, queue := [], host := .head } := by
    rw [step, hostStep, hp, hq]
    rfl
  have hfrom : (1 : Word) = 0 := (h.next hs trivial).quiet.2.1
  cases hfrom

theorem not_leavesNothing_check (hp : s.host = .checkFrom) (hq : s.queue = [1]) (hf : s.fromhost = 0) :
    ¬ LeavesNothing c s := by
  intro h
  have hs : step s .host = some { s with host := .decide 0 } := by rw [step, hostStep, hp, ← hf]
  have hnext := h.next hs trivial
  exact not_leavesNothing_decide (by rfl) (by exact hq) hnext

theorem not_leavesNothing_respond (hp : s.host = .respond c.slot) (hq : s.queue = []) (hf : s.fromhost = 0) :
    ¬ LeavesNothing c s := by
  intro h
  have hs : step s .host = some { s with queue := [1], host := .checkFrom } := by
    rw [step, hostStep, hp]
    dsimp only
    rw [hq, c.respond_slot]
    rfl
  have hnext := h.next hs trivial
  exact not_leavesNothing_check (by rfl) (by rfl) (by exact hf) hnext

/-- The host is about to store the result. -/
theorem not_leavesNothing_write {i : Fin 8} {m : Fin 8 → Word} (hp : s.host = .write c.slot i m) :
    ¬ LeavesNothing c s := by
  intro h
  refine h.quiet.2.2 i ?_
  rw [hp]
  exact congrArg some (c.word_eq i)

theorem not_leavesNothing_serve (hp : s.host = .serve c.slot c.args) (hc : c.args = probeArgs) :
    ¬ LeavesNothing c s := by
  intro h
  have hs : ∃ t, step s (.serve (some 0) false) = some t ∧
      t.host = .write c.slot 0 (Function.update c.args 0 0) := by
    rw [step, serveStep, hp]
    dsimp only
    rw [if_pos (by rw [hc]; rfl)]
    exact ⟨_, rfl, rfl⟩
  obtain ⟨t, hs, ht⟩ := hs
  exact not_leavesNothing_write ht (h.next hs trivial)

/-- The command of a call that is not waiting any more is still on its way. -/
theorem not_leavesNothing_busy {ph : Phase} {k : ℕ} {l : Log} (hpc : ph.pc c k = .spin c k)
    (hc : c.args = probeArgs)
    (hto : s.tohost = ph.tohost c) (hfrom : s.fromhost = ph.fromhost) (hq : s.queue = ph.queue)
    (hhost : ph.Holds c k l s.mem s.host) : ¬ LeavesNothing c s := by
  cases ph with
  | posted | seen => exact fun h => c.slot_ne_zero (hto.symm.trans h.quiet.1)
  | handling =>
    obtain ⟨-, ⟨i, m, hv, -⟩ | hv | ⟨-, hno⟩⟩ := hhost
    · intro h
      refine h.quiet.2.2 i ?_
      rw [hv]
      exact congrArg some (c.word_eq i)
    · exact not_leavesNothing_serve hv hc
    · rw [hc] at hno
      exact absurd rfl hno
  | served =>
    obtain ⟨r, -, ⟨i, hv, -⟩ | ⟨hv, -⟩⟩ := hhost
    · exact not_leavesNothing_write hv
    · exact not_leavesNothing_respond hv hq hfrom
  | queued =>
    obtain ⟨-, hv | hv⟩ := hhost
    · exact not_leavesNothing_check hv hq hfrom
    · exact not_leavesNothing_decide hv hq
  | answered =>
    intro h
    cases hfrom.symm.trans h.quiet.2.1
  | acking => cases hpc
  | leaving => cases hpc

end Late

/-! ## Runs -/

section Runs

variable {s s' : Sys H} {e : Event H} {words : Words} {mem : ℕ → Word}

/-- The probes that have given up are not forgotten. -/
theorem step_timedOut (hs : step s e = some s') : s.log.timedOut <+: s'.log.timedOut := by
  cases e with
  | call h c =>
    rw [step, callStep] at hs
    split at hs
    · split_ifs at hs
      cases hs
      exact List.prefix_refl _
    · cases hs
  | hart h => exact hartStep_timedOut hs
  | expire h =>
    rw [step, expireStep] at hs
    split at hs <;> cases hs
    exact List.prefix_refl _
  | host =>
    rw [hostStep_timedOut hs]
  | data a v =>
    rw [step, dataStep] at hs
    split at hs
    · split_ifs at hs
      cases hs
      rw [Sys.poke_log]
    · cases hs
  | serve r b =>
    rw [step, serveStep] at hs
    split at hs
    · split_ifs at hs
      cases r <;> cases hs <;> exact List.prefix_refl _
    · cases hs

theorem holding_of_step (hs : step s e = some s') (hnil : s'.log.timedOut = []) : Holding s e := by
  rintro h c k rfl hp
  rw [step, hartStep, hp] at hs
  cases hs
  exact List.append_ne_nil_of_right_ne_nil _ (List.cons_ne_nil c []) hnil

theorem inv_of_steps {es : List (Event H)} (hs : es.foldlM step (init H words mem) = some s)
    (hnil : s.log.timedOut = []) :
    ∃ g, Inv g s := by
  refine Run.foldlM_invariant (I := fun s => s.log.timedOut = [] → ∃ g, Inv g s) (C := fun _ => True)
    (fun _ => ⟨_, inv_init words mem⟩) ?_ es (fun _ _ => trivial) hs hnil
  intro s e s' hI _ hstep hnil'
  obtain ⟨g, hi⟩ := hI (List.prefix_nil.mp (hnil' ▸ step_timedOut hstep))
  obtain ⟨g', hm⟩ := step_moves hi (holding_of_step hstep hnil') hstep
  exact ⟨g', hm.inv hi⟩

end Runs

/-- **A probe that gives up.**  After any interleaving of any number of harts with the host in which no probe has
given up before, the return of a probe that does so leaves its command, the host's access to its buffer or a late
response behind. -/
theorem timed_out_probe (words : Words) (mem : ℕ → Word) (es : List (Event H)) (s s' : Sys H) (h : H)
    (c : Call) (k : ℕ)
    (hs : es.foldlM step (init H words mem) = some s) (hnil : s.log.timedOut = []) (hc : c.args = probeArgs)
    (hp : s.hart h = .unlock c k false) (hs' : step s (.hart h) = some s') : ¬ LeavesNothing c s' := by
  obtain ⟨g, hi⟩ := inv_of_steps hs hnil
  obtain ⟨ph, rfl, hpc, -⟩ := hi.probing hp (Or.inr rfl)
  rw [step, hartStep, hp] at hs'
  cases hs'
  exact not_leavesNothing_busy hpc hc hi.tohost hi.fromhost hi.queue hi.host

/-! ## A host that is late -/

/-- The probe, with its buffer at `0x80010000`. -/
def probeCall : Call := .ofArgs probeArgs false

/-- A later call, of `SOCT_WRITE` (number 1), with its buffer where the probe's was. -/
def writeCall : Call := .ofArgs (fun i => i.val + 1) true

/-- The probe posts its command, finds no response and gives up. -/
def probing : List (Event Unit) := .call () probeCall :: List.replicate 11 (.hart ()) ++ [.expire ()]

/-- The host handles the probe. -/
def answering : List (Event Unit) := List.replicate 10 .host ++ .serve (some 0) false :: List.replicate 11 .host

/-- A hart makes the later call. -/
def writing : List (Event Unit) := .call () writeCall :: List.replicate 14 (.hart ())

/-- The state after a list of events. -/
def afterwards (es : List (Event Unit)) : Sys Unit :=
  (es.foldlM step (init Unit exampleWords fun _ => 0)).getD (init Unit exampleWords fun _ => 0)

/-- The time of a probe is up before the host has looked at `tohost`. -/
theorem timed_out_probe_late :
    probing.foldlM step (init Unit exampleWords fun _ => 0) = some (afterwards probing) ∧
    ¬ LeavesNothing probeCall (afterwards (probing ++ [.hart ()])) := by
  refine ⟨rfl, ?_⟩
  exact timed_out_probe exampleWords (fun _ => 0) probing (afterwards probing) _ () probeCall 0 rfl rfl rfl rfl rfl

/-- The probe returns false, its command still in `tohost`; the host answers later, into a buffer that is not there
any more; and the next call, with its command not yet handled, takes the response and returns its own first
argument. -/
theorem stale_response : (afterwards (probing ++ [.hart ()])).log.timedOut.length = 1 ∧
    (afterwards (probing ++ [.hart ()])).tohost = probeCall.slot ∧
    (afterwards (probing ++ .hart () :: answering)).fromhost = 1 ∧
    ¬ LeavesNothing probeCall (afterwards (probing ++ [.hart ()])) ∧
    (afterwards (probing ++ .hart () :: answering ++ writing)).log.handled.length = 1 ∧
    (afterwards (probing ++ .hart () :: answering ++ writing)).log.returned.map (fun x => (x.1, x.2.2)) =
      [(1, 1)] := by
  refine ⟨rfl, rfl, rfl, fun h => ?_, rfl, rfl⟩
  exact probeCall.slot_ne_zero h.quiet.1

end Soceteer.Htif
