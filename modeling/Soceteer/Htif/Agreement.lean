import Soceteer.Htif.Stage

/-!
# Soceteer.Htif.Agreement — every waiting call gets its own result

* `Agrees`: what holds of every state.
* `Fair`, `Completes`: what a fair run comes to.
* `htif_agreement`: both, for any number of harts whose calls wait.
-/

namespace Soceteer.Htif

open Soceteer.Lib

variable {H : Type}

/-! ## Agreement -/

/-- Whether the host has still to queue the response to the command it has handled. -/
def Host.owes : Host → ℕ
  | .write _ _ _ => 1
  | .respond _ => 1
  | _ => 0

/-- The responses that have not been taken yet: one that the host has still to queue, those in the queue, and one
in `fromhost`. -/
def Sys.responses (s : Sys H) : ℕ := s.host.owes + s.queue.length + if s.fromhost = 0 then 0 else 1

/-- What holds of every state. -/
structure Agrees (s : Sys H) : Prop where
  handled : s.log.handled.map Prod.fst <+: s.log.posted.map Call.args
  pending : s.log.posted.length ≤ s.log.handled.length + 1
  returned : ∀ k c v, (k, c, v) ∈ s.log.returned → s.log.posted[k]? = some c ∧ s.log.handled[k]? = some (c.args, v)
  once : (s.log.returned.map Prod.fst).Nodup
  touches : ∀ a, s.host.touches = some a → ∃ h c k i, s.hart h = .spin c k ∧ a = c.word i
  writes : ∀ t a, hostStep s = some t → t.mem a ≠ s.mem a → ∃ h c k i, s.hart h = .spin c k ∧ a = c.word i
  stores : ∀ t a v, dataStep a v s = some t → t = s.store a v ∧ ∃ h c k, s.hart h = .spin c k ∧
    c.area.Meets a 8 ∧ ∀ h' c', (s.hart h').call? = some c' → ∀ i, a ≠ c'.word i
  responses : s.log.handled.length = s.log.acked.length + s.responses
  inOrder : s.log.acked = List.range s.log.acked.length
  own : ∀ h c k, s.hart h = .ack c k → s.log.acked.length = k ∧ Answered s.log s.mem c k

/-- The calls in progress wait. -/
def Waits (s : Sys H) : Prop := ∀ h c, (s.hart h).call? = some c → c.wait = true

/-- The calls that start wait. -/
def Event.waits : Event H → Prop
  | .call _ c => c.wait = true
  | _ => True

section Agreement

variable {s : Sys H} {g : Stage H}

/-- A call that waits does not look at the clock. -/
theorem Inv.pc {ph : Phase} {h : H} {c : Call} {k : ℕ} (hi : Inv (.busy ph h c k) s) (hw : Waits s) :
    s.hart h = ph.pc c k := by
  have hat : ph.hartAt c k (s.hart h) := (hi.hart h).1 rfl
  refine hat.resolve_right fun hc => ?_
  have hwait := hw h c hat.inside.2
  rw [hc.2.1] at hwait
  cases hwait

theorem Inv.holding (hi : Inv g s) (hw : Waits s) (e : Event H) : Holding s e := by
  intro h c k _ hp
  obtain ⟨ph, rfl, hpc, hwait⟩ := hi.probing hp (Or.inr rfl)
  rw [hw h c (by rw [hp]; rfl)] at hwait
  cases hwait

theorem Move.waits [DecidableEq H] {s' : Sys H} {g' : Stage H} {e : Event H} (hm : Move s g e g' s') (hw : Waits s)
    (he : e.waits) : Waits s' := by
  intro h c hc
  rcases hm.calls hc with hold | ⟨rfl, -⟩
  · exact hw h c hold
  · exact he

theorem Inv.touches (hi : Inv g s) (hw : Waits s) {a : ℕ} (ha : s.host.touches = some a) :
    ∃ h c k i, s.hart h = .spin c k ∧ a = c.word i := by
  have hhost := hi.host
  have hworking : ¬ s.host.waiting := by
    intro hw
    cases hp : s.host <;> rw [hp] at ha hw <;> first | exact hw | cases ha
  obtain ⟨ph, h, c, k, rfl, hph⟩ := hhost.working hworking
  have hspin : s.hart h = .spin c k := by
    rw [hi.pc hw]
    rcases hph with rfl | rfl | rfl <;> rfl
  refine ⟨h, c, k, ?_⟩
  rcases hph with rfl | rfl | rfl
  · rw [hhost.2] at ha
    cases ha
  · obtain ⟨-, ⟨i, m, hv, -⟩ | hv | ⟨hv, -⟩⟩ := hhost <;> rw [hv] at ha <;> cases ha
    exact ⟨i, hspin, c.word_eq i⟩
  · obtain ⟨r, -, ⟨i, hv, -⟩ | ⟨hv, -⟩⟩ := hhost <;> rw [hv] at ha <;> cases ha
    exact ⟨i, hspin, c.word_eq i⟩

/-- The host's own steps store nowhere but where they say. -/
theorem hostStep_mem {t : Sys H} (hs : hostStep s = some t) {a : ℕ} (ha : t.mem a ≠ s.mem a) :
    s.host.touches = some a := by
  rw [hostStep] at hs
  split at hs
  · split_ifs at hs <;> cases hs <;> exact absurd rfl ha
  · cases hs
    exact absurd rfl ha
  · cases hs
    exact absurd rfl ha
  · cases hs
  · next v i m hp =>
    cases hs
    rw [hp]
    by_contra hne
    exact ha (Function.update_of_ne (fun h => hne (congrArg some h.symm)) _ _)
  · cases hs
    exact absurd rfl ha
  · cases hs
    exact absurd rfl ha
  · split at hs
    · cases hs
      exact absurd rfl ha
    · split_ifs at hs <;> cases hs <;> exact absurd rfl ha
  · cases hs
  · cases hs

/-- A handler stores into the memory its command names, which is in no buffer and none of the shared words. -/
theorem Inv.stores (hi : Inv g s) (hw : Waits s) {t : Sys H} {a : ℕ} {v : Word} (hs : dataStep a v s = some t) :
    t = s.store a v ∧ ∃ h c k, s.hart h = .spin c k ∧ c.area.Meets a 8 ∧
      ∀ h' c', (s.hart h').call? = some c' → ∀ i, a ≠ c'.word i := by
  unfold dataStep at hs
  split at hs
  · next v' m hp =>
    obtain ⟨h, c, k, rfl, rfl, rfl⟩ := hi.serving hp
    split_ifs at hs with ha
    have hspin : s.hart h = .spin c k := hi.pc hw
    have hown := hi.own h c (by rw [hspin]; rfl)
    rw [s.poke_of_clear hown.2.2.2 ha.2] at hs
    cases hs
    exact ⟨rfl, h, c, k, hspin, ha.2, fun h' c' hc' i => ha.2.word_ne (hi.area_clear hc') i⟩
  · cases hs

theorem Host.owes_of_waiting {p : Host} (hp : p.waiting) : p.owes = 0 := by
  cases p <;> first | rfl | exact absurd hp id

/-- The responses on their way are those of the stage. -/
theorem Inv.responses (hi : Inv g s) : s.log.handled.length = s.log.acked.length + s.responses := by
  have hhost := hi.host
  have hcounts := hi.counts
  rw [Sys.responses, hi.queue, hi.fromhost]
  cases g with
  | free | ready =>
    obtain ⟨hhand, hack⟩ := hcounts
    rw [hhand, hack, List.length_range, Host.owes_of_waiting hhost]
    rfl
  | busy ph h c k =>
    obtain ⟨-, -, hhand, hack⟩ := hcounts
    rw [hhand, hack, List.length_range]
    cases ph with
    | seen =>
      rw [hhost.2]
      rfl
    | handling => obtain ⟨-, ⟨i, m, hv, -⟩ | hv | ⟨hv, -⟩⟩ := hhost <;> rw [hv] <;> rfl
    | served => obtain ⟨r, -, ⟨i, hv, -⟩ | ⟨hv, -⟩⟩ := hhost <;> rw [hv] <;> rfl
    | queued => obtain ⟨-, hv | hv⟩ := hhost <;> rw [hv] <;> rfl
    | _ =>
      rw [Host.owes_of_waiting hhost.2]
      rfl

theorem Inv.agrees (hi : Inv g s) (hw : Waits s) : Agrees s where
  handled := hi.log.handled
  pending := by
    have hcounts := hi.counts
    cases g with
    | busy ph h c k =>
      obtain ⟨-, hlen, hhand, -⟩ := hcounts
      rw [hlen, hhand]
      cases ph <;> simp [Phase.handled]
    | _ => exact hcounts.1 ▸ Nat.le_succ _
  returned := hi.log.returned
  once := hi.fresh.nodup
  touches := fun _ ha => hi.touches hw ha
  writes := fun _ _ hs ha => hi.touches hw (hostStep_mem hs ha)
  stores := fun _ _ _ hs => hi.stores hw hs
  responses := hi.responses
  inOrder := by
    have hcounts := hi.counts
    cases g with
    | busy ph h c k => rw [hcounts.2.2.2, List.length_range]
    | _ => rw [hcounts.2, List.length_range]
  own := fun h c k hp => by
    obtain ⟨c', -, hc⟩ | ⟨ph, c', k', rfl, -⟩ := hi.inside hp trivial
    · cases hc
    · have hpc := hi.pc hw
      rw [hp] at hpc
      cases ph <;> cases hpc
      exact ⟨by rw [hi.counts.2.2.2, List.length_range]; rfl, hi.host.1⟩

end Agreement

/-! ## Progress -/

/-- How far the command on its way is from its return. -/
def Phase.rank : Phase → Host → ℕ
  | posted, .checkFrom => 28
  | posted, .decide _ => 27
  | posted, _ => 26
  | seen, _ => 25
  | handling, .read _ i _ => 24 - i
  | handling, _ => 16
  | served, .write _ i _ => 15 - i
  | served, _ => 7
  | queued, .checkFrom => 6
  | queued, _ => 5
  | answered, _ => 4
  | acking, _ => 3
  | leaving, _ => 2

/-- The event that a command at this distance waits for. -/
def helps (h : H) (r : ℕ) (e : Event H) : Prop :=
  if r ≤ 4 then e = .hart h else if r = 16 then ∃ result exits, e = .serve result exits else e = .host

/-- The host has left its loop with command `k` unhandled. -/
def Ended (s : Sys H) (k : ℕ) : Prop := (s.host = .done ∨ s.host = .crashed) ∧ s.log.handled.length = k

section Progress

variable {s s' : Sys H} {g g' : Stage H} {e : Event H} {ph : Phase} {h : H} {c : Call} {k : ℕ}

/-- The command on its way gets no farther from its return, and closer with the event it waits for. -/
def Closer (h : H) (c : Call) (k r : ℕ) (e : Event H) (g' : Stage H) (s' : Sys H) : Prop :=
  (∃ ph, g' = .busy ph h c k ∧ (ph.rank s'.host < r ∨ ph.rank s'.host = r ∧ ¬ helps h r e)) ∨
    g' = .free ∧ s'.hart h = .ret c k ∨ Ended s' k

theorem Closer.keep {r : ℕ} (hr : ph.rank s'.host = r) (he : ¬ helps h r e) :
    Closer h c k r e (.busy ph h c k) s' := Or.inl ⟨ph, rfl, Or.inr ⟨hr, he⟩⟩

theorem Closer.next {r : ℕ} (hr : ph.rank s'.host < r) : Closer h c k r e (.busy ph h c k) s' :=
  Or.inl ⟨ph, rfl, Or.inl hr⟩

theorem not_helps_hart {h' : H} {r : ℕ} (hh : h' = h → 4 < r) : ¬ helps h r (.hart h') := by
  unfold helps
  split_ifs with h4 h16
  · rintro ⟨⟩
    exact absurd (hh rfl) (by omega)
  · rintro ⟨_, _, ⟨⟩⟩
  · rintro ⟨⟩

/-- The host goes round its loop after it has delivered the response. -/
theorem closer_idle {p : Host} (hi : Inv (.busy ph h c k) s) (hw : s.host.waiting)
    (hc : s.host ≠ .crashed) (hph : ph ≠ .posted) (hq : ph ≠ .queued) :
    Closer h c k (ph.rank s.host) .host (.busy ph h c k) { s with host := p } := by
  have hhost := hi.host
  cases ph with
  | posted => exact absurd rfl hph
  | queued => exact absurd rfl hq
  | seen =>
    rw [hhost.2] at hw
    exact absurd hw id
  | handling =>
    obtain ⟨-, ⟨i, m, hv, -⟩ | hv | ⟨hv, -⟩⟩ := hhost
    · rw [hv] at hw
      exact absurd hw id
    · rw [hv] at hw
      exact absurd hw id
    · exact absurd hv hc
  | served => obtain ⟨r, -, ⟨i, hv, -⟩ | ⟨hv, -⟩⟩ := hhost <;> rw [hv] at hw <;> exact absurd hw id
  | answered | acking | leaving => exact .keep rfl (by simp [helps, Phase.rank])

/-- Before the response is delivered. -/
theorem four_lt_rank (hf : ph.fromhost = 0) (hl : ph ≠ .leaving) (p : Host) : 4 < ph.rank p := by
  cases ph with
  | answered => cases hf
  | acking => cases hf
  | leaving => exact absurd rfl hl
  | seen | posted | queued => cases p <;> simp [Phase.rank]
  | handling | served =>
    cases p with
    | read v i m | write v i m =>
      have hi := i.isLt
      simp only [Phase.rank]
      omega
    | _ => simp [Phase.rank]

theorem rank_reading (i : Fin 8) (m : Fin 8 → Word) : Phase.handling.rank (c.reading i m) < 24 - i := by
  unfold Call.reading
  have hi := i.isLt
  split_ifs with h8
  · change 24 - (i.val + 1) < 24 - i
    omega
  · change 16 < 24 - i.val
    omega

theorem rank_writing (i : Fin 8) (m : Fin 8 → Word) : Phase.served.rank (c.writing i m) < 15 - i := by
  unfold Call.writing
  have hi := i.isLt
  split_ifs with h8
  · change 15 - (i.val + 1) < 15 - i
    omega
  · change 7 < 15 - i.val
    omega

theorem Move.closer [DecidableEq H] (hi : Inv (.busy ph h c k) s) (hw : Waits s)
    (hm : Move s (.busy ph h c k) e g' s') :
    Closer h c k (ph.rank s.host) e g' s' := by
  have hpc := hi.pc hw
  cases hm with
  | call _ h' c' hp => exact .keep rfl (by unfold helps; split_ifs <;> simp)
  | data _ _ _ a v hp ha => exact .keep rfl (by unfold helps; split_ifs <;> simp)
  | fill _ h' c' i hp =>
    refine .keep rfl (not_helps_hart ?_)
    rintro rfl
    rw [hp] at hpc
    cases ph <;> cases hpc
  | stay _ h' hg hp =>
    refine .keep rfl (not_helps_hart ?_)
    rintro rfl
    have hfrom := hg ph c k rfl
    have hspin : ph ≠ .leaving := by
      rintro rfl
      obtain ⟨c', hp⟩ | ⟨c', k', hp⟩ := hp <;> rw [hp] at hpc <;> cases hpc
    exact four_lt_rank hfrom hspin _
  | tick _ _ _ _ hp hph hno | expire _ _ _ _ hp hph hno =>
    rw [hw h c (by rw [hp]; rfl)] at hno
    cases hno
  | tock _ _ _ _ hp hph =>
    rw [hph, hp] at hpc
    cases hpc
  | see _ _ _ hp => exact .next (Nat.lt_succ_self 3)
  | ack _ _ _ hp => exact .next (Nat.lt_succ_self 2)
  | unlock _ _ _ hp => exact Or.inr (Or.inl ⟨rfl, Function.update_self ..⟩)
  | ret _ h' c' k' hp =>
    refine .keep rfl (not_helps_hart ?_)
    rintro rfl
    rw [hp] at hpc
    cases ph <;> cases hpc
  | quit _ hp hx =>
    by_cases hph : ph = .posted
    · subst hph
      exact Or.inr (Or.inr ⟨Or.inl rfl, hi.counts.2.2.1⟩)
    · refine closer_idle hi (by rw [hp]; trivial) (by rw [hp]; nofun) hph ?_
      rintro rfl
      cases hi.queue_nil hp
  | pass _ hp hx =>
    refine closer_idle hi (by rw [hp]; trivial) (by rw [hp]; nofun) ?_ ?_
    · rintro rfl
      exact c.slot_ne_zero (hi.tohost.symm.trans hx)
    · rintro rfl
      cases hi.queue_nil hp
  | check _ hp =>
    by_cases hph : ph = .posted
    · subst hph
      rw [hp]
      exact .next (Nat.lt_succ_self 27)
    · by_cases hq : ph = .queued
      · subst hq
        rw [hp]
        exact .next (Nat.lt_succ_self 5)
      · exact closer_idle hi (by rw [hp]; trivial) (by rw [hp]; nofun) hph hq
  | again _ f hp hq =>
    by_cases hph : ph = .posted
    · subst hph
      rw [hp]
      exact .next (Nat.lt_succ_self 26)
    · refine closer_idle hi (by rw [hp]; trivial) (by rw [hp]; nofun) hph ?_
      rintro rfl
      cases hq
  | notice _ _ _ hp =>
    rw [hp]
    exact .next (Nat.lt_succ_self 25)
  | clear _ _ _ hp => exact .next (Nat.lt_succ_self 24)
  | read _ _ _ i m hp =>
    rw [hp]
    exact .next (rank_reading i _)
  | crash _ _ _ b hp hr => exact Or.inr (Or.inr ⟨Or.inr rfl, hi.counts.2.2.1⟩)
  | serve _ _ _ r b hp =>
    rw [hp]
    exact .next (Nat.lt_succ_self 15)
  | write _ _ _ i m hp =>
    rw [hp]
    exact .next (rank_writing i _)
  | respond _ _ _ hp =>
    rw [hp]
    exact .next (Nat.lt_succ_self 6)
  | deliver _ _ _ hp =>
    rw [hp]
    exact .next (Nat.lt_succ_self 4)

theorem Move.posted [DecidableEq H] (hm : Move s g e g' s') : s'.log.posted = s.log.posted ∨
    ∃ h c, g' = .busy .posted h c s.log.posted.length ∧ s'.log.posted = s.log.posted ++ [c] := by
  cases hm with
  | post h c hp => exact Or.inr ⟨h, c, rfl, rfl⟩
  | _ => exact Or.inl rfl

/-- The step of another hart or of the host. -/
theorem Move.ret_of_ne [DecidableEq H] (hm : Move s g e g' s') (he : e ≠ .hart h) (hp : s.hart h = .ret c k) :
    s'.hart h = .ret c k := by
  rw [← hp]
  have hne : ∀ {h' : H}, e = .hart h' → h ≠ h' := by
    rintro h' rfl rfl
    exact he rfl
  cases hm with
  | call _ h' _ hp' | expire _ h' _ _ hp' =>
    refine Function.update_of_ne ?_ _ _
    rintro rfl
    rw [hp] at hp'
    cases hp'
  | fill | acquire | post | tick | tock | see | ack | unlock | ret => exact Function.update_of_ne (hne rfl) _ _
  | _ => rfl

theorem hostStep_ne_none {p : Host} (hp : s.host = p) (hs : ∀ v m, p ≠ .serve v m) (hd : p ≠ .done)
    (hc : p ≠ .crashed) : hostStep s ≠ none := by
  rw [hostStep, hp]
  cases p with
  | head =>
    dsimp only
    split_ifs <;> exact Option.some_ne_none _
  | serve v m => exact absurd rfl (hs v m)
  | decide f =>
    dsimp only
    split
    · exact Option.some_ne_none _
    · split_ifs <;> exact Option.some_ne_none _
  | done => exact absurd rfl hd
  | crashed => exact absurd rfl hc
  | _ => exact Option.some_ne_none _

/-- It is the turn of the hart, of a handler or of the host, and it can take it. -/
theorem Inv.turn [DecidableEq H] (hi : Inv (.busy ph h c k) s) (hw : Waits s) (hend : ¬ Ended s k) :
    ph.rank s.host ≤ 4 ∧ hartStep h s ≠ none ∨ ph.rank s.host = 16 ∧ (∃ v m, s.host = .serve v m) ∨
      4 < ph.rank s.host ∧ ph.rank s.host ≠ 16 ∧ hostStep s ≠ none := by
  have hhost := hi.host
  have hpc := hi.pc hw
  cases ph with
  | posted =>
    have hnd : s.host ≠ .done := fun hc => hend ⟨Or.inl hc, hi.counts.2.2.1⟩
    have hnc : s.host ≠ .crashed := fun hc => hend ⟨Or.inr hc, hi.counts.2.2.1⟩
    refine Or.inr (Or.inr ⟨four_lt_rank rfl (by simp) _, ?_, hostStep_ne_none rfl (fun v m hc => ?_) hnd hnc⟩)
    · cases s.host <;> simp [Phase.rank]
    · rw [hc] at hhost
      exact hhost.2
  | seen =>
    refine Or.inr (Or.inr ⟨four_lt_rank rfl (by simp) _, by simp [Phase.rank], ?_⟩)
    exact hostStep_ne_none hhost.2 (by simp) (by simp) (by simp)
  | handling =>
    obtain ⟨-, ⟨i, m, hv, -⟩ | hv | ⟨hv, -⟩⟩ := hhost
    · refine Or.inr (Or.inr ⟨four_lt_rank rfl (by simp) _, ?_, ?_⟩)
      swap
      · exact hostStep_ne_none hv (by simp) (by simp) (by simp)
      have hi := i.isLt
      rw [hv]
      simp only [Phase.rank]
      omega
    · exact Or.inr (Or.inl ⟨by rw [hv]; rfl, _, _, hv⟩)
    · exact absurd ⟨Or.inr hv, hi.counts.2.2.1⟩ hend
  | served =>
    refine Or.inr (Or.inr ⟨four_lt_rank rfl (by simp) _, ?_, ?_⟩)
    · obtain ⟨r, -, ⟨i, hv, -⟩ | ⟨hv, -⟩⟩ := hhost <;> rw [hv] <;> simp only [Phase.rank] <;> omega
    · obtain ⟨r, -, ⟨i, hv, -⟩ | ⟨hv, -⟩⟩ := hhost <;> exact hostStep_ne_none hv (by simp) (by simp) (by simp)
  | queued =>
    refine Or.inr (Or.inr ⟨four_lt_rank rfl (by simp) _, ?_, ?_⟩)
    · obtain ⟨-, hv | hv⟩ := hhost <;> rw [hv] <;> simp [Phase.rank]
    · obtain ⟨-, hv | hv⟩ := hhost <;> exact hostStep_ne_none hv (by simp) (by simp) (by simp)
  | answered =>
    refine Or.inl ⟨Nat.le_refl 4, ?_⟩
    rw [hartStep, hpc]
    simp only [Phase.pc]
    split_ifs <;> exact Option.some_ne_none _
  | acking | leaving =>
    refine Or.inl ⟨by simp [Phase.rank], ?_⟩
    rw [hartStep, hpc]
    exact Option.some_ne_none _

end Progress

/-! ## Runs -/

theorem waits_init (words : Words) (mem : ℕ → Word) : Waits (init H words mem) := nofun

/-- Every hart and the host go on, and every handler comes back. -/
structure Fair [DecidableEq H] [Fintype H] {s₀ : Sys H} (ρ : Run step s₀) : Prop where
  hart : ∀ h n, ∃ m, n ≤ m ∧ (ρ.event m = .hart h ∨ hartStep h (ρ.state m) = none)
  host : ∀ n, ∃ m, n ≤ m ∧ (ρ.event m = .host ∨ hostStep (ρ.state m) = none)
  serve :
    ∀ n, ∃ m, n ≤ m ∧ ((∃ result exits, ρ.event m = .serve result exits) ∨ ∀ v x, (ρ.state m).host ≠ .serve v x)

/-- Every command that is posted is handled and its call returns, unless the host leaves its loop before it comes
to the command. -/
def Completes [DecidableEq H] [Fintype H] {s₀ : Sys H} (ρ : Run step s₀) : Prop :=
  ∀ n k c, (ρ.state n).log.posted[k]? = some c →
    ∃ m, (∃ v, (k, c, v) ∈ (ρ.state m).log.returned) ∨ Ended (ρ.state m) k

section Runs

variable [DecidableEq H] [Fintype H]

theorem waits_moves {s s' : Sys H} {g : Stage H} {e : Event H} (hi : Inv g s) (hw : Waits s) (he : e.waits)
    (hs : step s e = some s') : ∃ g', Move s g e g' s' ∧ Inv g' s' ∧ Waits s' := by
  obtain ⟨g', hm⟩ := step_moves hi (hi.holding hw e) hs
  exact ⟨g', hm, hm.inv hi, hm.waits hw he⟩

theorem agrees_of_steps {words : Words} {mem : ℕ → Word} {es : List (Event H)} {s : Sys H}
    (hs : es.foldlM step (init H words mem) = some s) (hwait : ∀ e ∈ es, e.waits) : Agrees s := by
  obtain ⟨g, hi, hw⟩ : ∃ g, Inv g s ∧ Waits s := by
    refine Run.foldlM_invariant (I := fun s => ∃ g, Inv g s ∧ Waits s) (C := Event.waits)
      ⟨_, inv_init words mem, waits_init words mem⟩ ?_ es hwait hs
    rintro s e s' ⟨g, hi, hw⟩ he hstep
    obtain ⟨g', -, h'⟩ := waits_moves hi hw he hstep
    exact ⟨g', h'⟩
  exact hi.agrees hw

variable {words : Words} {mem : ℕ → Word} {ρ : Run step (init H words mem)} (hwait : ∀ n, (ρ.event n).waits)
include hwait

theorem inv_run (n : ℕ) : ∃ g, Inv g (ρ.state n) ∧ Waits (ρ.state n) := by
  refine ρ.invariant (I := fun s => ∃ g, Inv g s ∧ Waits s) (C := fun _ e => e.waits)
    ⟨_, inv_init words mem, waits_init words mem⟩ ?_ n fun k _ => hwait k
  rintro s e s' ⟨g, hi, hw⟩ he hs
  obtain ⟨g', -, h'⟩ := waits_moves hi hw he hs
  exact ⟨g', h'⟩

/-- The call has returned, or the host has left. -/
def Settled (ρ : Run step (init H words mem)) (k : ℕ) (c : Call) (n : ℕ) : Prop :=
  (∃ v, (k, c, v) ∈ (ρ.state n).log.returned) ∨ Ended (ρ.state n) k

/-- A call that has left the critical section returns. -/
theorem returns {h : H} {c : Call} {k n : ℕ} (hfair : Fair ρ) (hp : (ρ.state n).hart h = .ret c k) :
    ∃ m, n ≤ m ∧ Settled ρ k c m := by
  obtain ⟨m, hnm, hm⟩ := hfair.hart h n
  have hret : ∀ j, (ρ.state j).hart h = .ret c k → ρ.event j = .hart h → Settled ρ k c (j + 1) := by
    intro j hj he
    have hs : hartStep h (ρ.state j) = some (ρ.state (j + 1)) := by
      have hnext := ρ.next j
      rwa [he] at hnext
    rw [hartStep, hj] at hs
    refine Or.inl ⟨(ρ.state j).mem (c.word 0), ?_⟩
    rw [← Option.some.inj hs]
    exact List.mem_append_right _ (List.mem_singleton.mpr rfl)
  refine Run.reaches (P := fun j => (ρ.state j).hart h = .ret c k) hnm hp (fun j _ hj => ?_) fun hj => ?_
  · by_cases he : ρ.event j = .hart h
    · exact Or.inr (hret j hj he)
    · obtain ⟨g, hi, hw⟩ := inv_run hwait j
      obtain ⟨g', hmove, -⟩ := waits_moves hi hw (hwait j) (ρ.next j)
      exact Or.inl (hmove.ret_of_ne he hj)
  · rcases hm with he | hnone
    · exact hret m hj he
    · rw [hartStep, hj] at hnone
      cases hnone

/-- Command `k` is on its way at distance `r`. -/
def RankAt (ρ : Run step (init H words mem)) (h : H) (c : Call) (k n r : ℕ) : Prop :=
  ∃ ph, Inv (.busy ph h c k) (ρ.state n) ∧ Waits (ρ.state n) ∧ ph.rank (ρ.state n).host = r

section Settles

variable {h : H} {c : Call} {k n r : ℕ}

theorem RankAt.succ (hR : RankAt ρ h c k n r) :
    RankAt ρ h c k (n + 1) r ∧ ¬ helps h r (ρ.event n) ∨
      (∃ r' < r, RankAt ρ h c k (n + 1) r') ∨ (ρ.state (n + 1)).hart h = .ret c k ∨ Settled ρ k c (n + 1) := by
  obtain ⟨ph, hi, hw, rfl⟩ := hR
  obtain ⟨g', hmove, hi', hw'⟩ := waits_moves hi hw (hwait n) (ρ.next n)
  obtain ⟨ph', rfl, hlt | ⟨heq, hno⟩⟩ | ⟨-, hret⟩ | hend := hmove.closer hi hw
  · exact Or.inr (Or.inl ⟨_, hlt, ph', hi', hw', rfl⟩)
  · exact Or.inl ⟨⟨ph', hi', hw', heq⟩, hno⟩
  · exact Or.inr (Or.inr (Or.inl hret))
  · exact Or.inr (Or.inr (Or.inr (Or.inr hend)))

omit hwait in
/-- Fairness provides the event that a command waits for. -/
theorem Fair.helps (hfair : Fair ρ) (h : H) (c : Call) (k n r : ℕ) :
    ∃ m, n ≤ m ∧ (RankAt ρ h c k m r → Ended (ρ.state m) k ∨ Htif.helps h r (ρ.event m)) := by
  by_cases h4 : r ≤ 4
  · obtain ⟨m, hnm, hm⟩ := hfair.hart h n
    refine ⟨m, hnm, ?_⟩
    rintro ⟨ph, hi, hw, rfl⟩
    by_cases hend : Ended (ρ.state m) k
    · exact Or.inl hend
    · refine Or.inr ?_
      rw [Htif.helps, if_pos h4]
      rcases hi.turn hw hend with ⟨-, hne⟩ | ⟨h16, -⟩ | ⟨hlt, -⟩
      · exact hm.resolve_right hne
      · omega
      · omega
  · by_cases h16 : r = 16
    · obtain ⟨m, hnm, hm⟩ := hfair.serve n
      refine ⟨m, hnm, ?_⟩
      rintro ⟨ph, hi, hw, rfl⟩
      by_cases hend : Ended (ρ.state m) k
      · exact Or.inl hend
      · refine Or.inr ?_
        rw [Htif.helps, if_neg h4, if_pos h16]
        rcases hi.turn hw hend with ⟨hle, -⟩ | ⟨-, v, x, hv⟩ | ⟨-, hne, -⟩
        · omega
        · exact hm.resolve_right fun hno => hno v x hv
        · exact absurd h16 hne
    · obtain ⟨m, hnm, hm⟩ := hfair.host n
      refine ⟨m, hnm, ?_⟩
      rintro ⟨ph, hi, hw, rfl⟩
      by_cases hend : Ended (ρ.state m) k
      · exact Or.inl hend
      · refine Or.inr ?_
        rw [Htif.helps, if_neg h4, if_neg h16]
        rcases hi.turn hw hend with ⟨hle, -⟩ | ⟨heq, -⟩ | ⟨-, -, hne⟩
        · omega
        · exact absurd heq h16
        · exact hm.resolve_right hne

theorem RankAt.settles (hfair : Fair ρ) (hR : RankAt ρ h c k n r) : ∃ m, n ≤ m ∧ Settled ρ k c m := by
  have hdown : ∀ j r, n ≤ j → RankAt ρ h c k j r →
      ∃ m, j ≤ m ∧ (Settled ρ k c m ∨ ∃ r' < r, RankAt ρ h c k m r') := by
    intro j r _ hj
    obtain ⟨m, hjm, hhelp⟩ := hfair.helps h c k j r
    by_cases hend : Ended (ρ.state m) k
    · exact ⟨m, hjm, Or.inl (Or.inr hend)⟩
    obtain ⟨m', hjm', hlt | hret | hdone⟩ := Run.reaches (P := fun i => RankAt ρ h c k i r)
      (Q := fun i => (∃ r' < r, RankAt ρ h c k i r') ∨ (ρ.state i).hart h = .ret c k ∨ Settled ρ k c i) hjm hj
      (fun i _ hi => (hi.succ hwait).imp_left And.left)
      fun hi => (hi.succ hwait).resolve_left fun hstay => hstay.2 ((hhelp hi).resolve_left hend)
    · exact ⟨m', hjm', Or.inr hlt⟩
    · obtain ⟨m'', hle, hm''⟩ := returns hwait hfair hret
      exact ⟨m'', by omega, Or.inl hm''⟩
    · exact ⟨m', hjm', Or.inl hdone⟩
  exact Run.reaches_of_rank hdown hR

/-- A command that has been posted has been on its way. -/
theorem on_way (hc : (ρ.state n).log.posted[k]? = some c) : ∃ m h r, RankAt ρ h c k m r := by
  induction n with
  | zero =>
    rw [ρ.start] at hc
    cases hc
  | succ n ih =>
    obtain ⟨g, hi, hw⟩ := inv_run hwait n
    obtain ⟨g', hmove, hi', hw'⟩ := waits_moves hi hw (hwait n) (ρ.next n)
    rcases hmove.posted with heq | ⟨h, c', rfl, heq⟩ <;> rw [heq] at hc
    · exact ih hc
    · by_cases hk : k < (ρ.state n).log.posted.length
      · rw [List.getElem?_append_left hk] at hc
        exact ih hc
      · have hlen := (List.getElem?_eq_some_iff.mp hc).1
        rw [List.length_append, List.length_singleton] at hlen
        obtain rfl : k = (ρ.state n).log.posted.length := by omega
        rw [List.getElem?_concat_length] at hc
        cases hc
        exact ⟨n + 1, h, _, .posted, hi', hw', rfl⟩

theorem completes (hfair : Fair ρ) : Completes ρ := by
  intro n k c hc
  obtain ⟨m, h, r, hR⟩ := on_way hwait hc
  obtain ⟨m', -, hm'⟩ := hR.settles hwait hfair
  exact ⟨m', hm'⟩

end Settles

end Runs

/-- **Agreement.**  Along every interleaving of any number of harts, whose calls wait, with the host: every command
is handled at most once, in order, with its own arguments; a call returns once, with the host's result for its
arguments; the host touches only the buffer of a call that is waiting for it and, while it handles that call's
command, the memory that the arguments name, which is in nobody's buffer; and every response is taken by the call
it is for.  In a fair run every command is handled and every call returns, unless the host leaves its loop
first. -/
theorem htif_agreement [DecidableEq H] [Fintype H] (words : Words) (mem : ℕ → Word) :
    (∀ (es : List (Event H)) s, es.foldlM step (init H words mem) = some s → (∀ e ∈ es, e.waits) → Agrees s) ∧
      ∀ ρ : Run step (init H words mem), (∀ n, (ρ.event n).waits) → Fair ρ → Completes ρ :=
  ⟨fun _ _ hs hwait => agrees_of_steps hs hwait, fun _ hwait hfair => completes hwait hfair⟩

/-! ## Two harts -/

/-- A read of 16 bytes into `0x80020000`, with the buffer at `0x80010000`. -/
def exampleCall : Call := .ofArgs (fun i => if i = 2 then 0x80020000 else if i = 3 then 16 else 0) true

/-- The exit of another hart (`SOCT_EXIT`, number 60), with the buffer on its own stack. -/
def exitCall : Call where
  buf := 0x80011000
  args := fun i => if i = 0 then 60 else 0
  wait := true
  pos := by omega
  aligned := by omega
  fits := by omega

/-- Both harts fill their buffers. -/
def filling : List (Event Bool) :=
  .call true exampleCall :: .call false exitCall :: (List.replicate 8 [.hart true, .hart false]).flatten

/-- The host takes and handles the read, which stores two words, and responds. -/
def reading : List (Event Bool) :=
  List.replicate 10 .host ++ [.data 0x80020000 7, .data 0x80020008 9, .serve (some 16) false] ++
    List.replicate 11 .host

/-- The host takes and handles the exit, responds and leaves its loop. -/
def exiting : List (Event Bool) := List.replicate 10 .host ++ .serve (some 0) true :: List.replicate 12 .host

/-- A hart whose buffer is filled takes the lock and posts its command; the other waits for the lock. -/
def posting (h : Bool) : List (Event Bool) := [.hart h, .hart h, .hart !h]

/-- A hart takes its response and returns. -/
def returning (h : Bool) : List (Event Bool) := List.replicate 4 (.hart h)

/-- Two calls that are handled. -/
def twoCalls : List (Event Bool) :=
  filling ++ posting true ++ reading ++ returning true ++ [.hart false, .hart false] ++ exiting ++ returning false

/-- A third one that comes too late. -/
def threeCalls : List (Event Bool) := twoCalls ++ .call true exampleCall :: List.replicate 10 (.hart true)

/-- The state after a list of events. -/
def after (es : List (Event Bool)) : Sys Bool :=
  (es.foldlM step (init Bool exampleWords fun _ => 0)).getD (init Bool exampleWords fun _ => 0)

/-- The state after `threeCalls`. -/
def late : Sys Bool := after threeCalls

set_option maxRecDepth 8000 in
theorem threeCalls_late : threeCalls.foldlM step (init Bool exampleWords fun _ => 0) = some late := rfl

set_option maxRecDepth 8000 in
theorem late_spins : step late (.hart true) = some late := rfl

theorem threeCalls_waits : ∀ e ∈ threeCalls, e.waits := by
  simp [threeCalls, twoCalls, filling, posting, reading, exiting, returning, exampleCall, exitCall, Call.ofArgs,
    Event.waits, or_imp, forall_and]

/-- The third call waits for ever. -/
def lateRun : Run step (init Bool exampleWords fun _ => 0) :=
  Run.lasso late_spins late_spins threeCalls _ threeCalls_late

theorem lateRun_end (n : ℕ) : lateRun.state (threeCalls.length + n) = late ∧
    lateRun.event (threeCalls.length + n) = .hart true := by
  have hend := Run.lasso_end late_spins late_spins n threeCalls _ threeCalls_late
  rwa [ite_self, ite_self] at hend

set_option maxRecDepth 8000 in
theorem late_rest : hartStep false late = none ∧ hostStep late = none ∧ ∀ v x, late.host ≠ .serve v x :=
  ⟨rfl, rfl, nofun⟩

theorem lateRun_fair : Fair lateRun := by
  have hlater : ∀ n, ∃ m, n ≤ m ∧ lateRun.state m = late ∧ lateRun.event m = .hart true :=
    fun n => ⟨_, Nat.le_add_left n threeCalls.length, lateRun_end n⟩
  obtain ⟨hidle, hdone, hserve⟩ := late_rest
  refine ⟨fun h n => ?_, fun n => ?_, fun n => ?_⟩ <;> obtain ⟨m, hnm, hstate, hevent⟩ := hlater n
  · refine ⟨m, hnm, ?_⟩
    cases h with
    | true => exact Or.inl hevent
    | false => exact Or.inr (by rw [hstate, hidle])
  · exact ⟨m, hnm, Or.inr (by rw [hstate, hdone])⟩
  · exact ⟨m, hnm, Or.inr fun v x => by rw [hstate]; exact hserve v x⟩

set_option maxRecDepth 8000 in
/-- Each of the first two calls returns the result of its command, and the host leaves its loop before it comes to
the third. -/
theorem late_agreement : late.log.returned.map (fun x => (x.1, x.2.2)) = [(0, 16), (1, 0)] ∧ Agrees late ∧
    Completes lateRun := by
  refine ⟨rfl, ?_, ?_⟩
  · exact (htif_agreement exampleWords fun _ => 0).1 threeCalls late threeCalls_late threeCalls_waits
  · refine (htif_agreement exampleWords fun _ => 0).2 lateRun (fun n => ?_) lateRun_fair
    have hmem := Run.lasso_event_mem late_spins late_spins threeCalls _ threeCalls_late n
    rcases List.mem_append.mp hmem with hstem | hloop
    · exact threeCalls_waits _ hstem
    · simp only [List.mem_cons, or_self, List.not_mem_nil, or_false] at hloop
      rw [show lateRun.event n = .hart true from hloop]
      trivial

/-- The host has loaded the eight words of the read. -/
def toRead : List (Event Bool) := filling ++ posting true ++ List.replicate 10 .host

set_option maxRecDepth 8000 in
/-- The handler of the read stores where no call has its buffer, and the command of the third call is never
handled. -/
theorem stores_elsewhere :
    step (after toRead) (.data 0x80020000 7) = some (after (toRead ++ [.data 0x80020000 7])) ∧
    (after toRead).mem 0x80020000 = 0 ∧ (after (toRead ++ [.data 0x80020000 7])).mem 0x80020000 = 7 ∧
    (∀ h c i, ((after toRead).hart h).call? = some c → c.word i ≠ 0x80020000) ∧
    late.log.posted.length = 3 ∧ ∀ n, (lateRun.state (threeCalls.length + n)).log.handled.length = 2 := by
  refine ⟨rfl, rfl, rfl, fun h c i hc => ?_, rfl, fun n => ?_⟩
  · have hcalls : ((after toRead).hart true).call? = some exampleCall ∧
        ((after toRead).hart false).call? = some exitCall := ⟨rfl, rfl⟩
    have hi := i.isLt
    cases h with
    | true =>
      rw [hcalls.1] at hc
      cases hc
      simp only [Call.word, exampleCall, Call.ofArgs]
      omega
    | false =>
      rw [hcalls.2] at hc
      cases hc
      simp only [Call.word, exitCall]
      omega
  · rw [(lateRun_end n).1]
    rfl

end Soceteer.Htif
