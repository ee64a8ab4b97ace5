import Mathlib.Order.Filter.AtTopBot.Basic

/-!
# Soceteer.Lib.Prog — stateful programs with unbounded loops

* `Prog σ α`: a program over the state `σ`.  It is given fuel for its loops and may stop with a result and a state;
  `none` is a fault or a loop that has not ended.
* `Runs p s Q`: from some fuel on, `p` stops in one and the same way, and `Q` holds there.  `Stuck p s`: from some
  fuel on, `p` does not stop.
* Rules for both: sequencing, guards, counted loops (`Runs.forFrom`), loops with a variant (`Runs.loop`) and
  polling (`Runs.repeatUntil`).
* `Ensures p Q`: whatever `p` returns, `Q` holds of it; `Prog.forFrom_congr`, `Prog.loop_congr`: loops with the
  same rounds.
-/

namespace Soceteer.Lib

open Filter

/-- A program over the state `σ`: with fuel for its loops it may stop with a result and a state. -/
def Prog (σ α : Type) : Type := ℕ → σ → Option (α × σ)

namespace Prog

variable {σ α β : Type}

instance : Monad (Prog σ) where
  pure a := fun _ s => some (a, s)
  bind p k := fun n s => (p n s).bind fun r => k r.1 n r.2

theorem bind_assoc {γ : Type} (p : Prog σ α) (q : α → Prog σ β) (k : β → Prog σ γ) :
    ((p >>= q) >>= k) = (p >>= fun a => q a >>= k) := by
  funext n s
  exact Option.bind_assoc (p n s) _ _

/-- A computation that may fault and leaves the state alone. -/
def lift (o : Option α) : Prog σ α := fun _ s => o.map fun a => (a, s)

/-- Stop with a fault unless `c` holds. -/
def guard (c : Prop) [Decidable c] : Prog σ Unit := lift (if c then some () else none)

/-- `for (i = lo; i < lo + k; i++) a = body(i, a)`. -/
def forFrom (body : ℕ → α → Prog σ α) : ℕ → ℕ → α → Prog σ α
  | _, 0, a => pure a
  | i, k + 1, a => body i a >>= forFrom body (i + 1) k

/-- The first `k` rounds of `loop`. -/
def rounds (body : α → Prog σ (α ⊕ β)) : ℕ → α → Prog σ β
  | 0, _ => lift none
  | k + 1, a => body a >>= fun
    | .inl a' => rounds body k a'
    | .inr b => pure b

/-- Repeat `body` on its own result until it returns a final one. -/
def loop (body : α → Prog σ (α ⊕ β)) (a : α) : Prog σ β := fun n => rounds body n a n

/-- `do v = p(); while (!done(v))`. -/
def repeatUntil (p : Prog σ α) (done : α → Bool) : Prog σ α :=
  loop (fun _ => p >>= fun v => pure (if done v then .inr v else .inl ())) ()

/-- Read or change the state. -/
def modifyGet (f : σ → α × σ) : Prog σ α := fun _ s => some (f s)

end Prog

variable {σ α β : Type}

/-- With enough fuel `p` stops, always in the same way, and `Q` holds there. -/
def Runs (p : Prog σ α) (s : σ) (Q : α → σ → Prop) : Prop :=
  ∃ a s', (∀ᶠ n in atTop, p n s = some (a, s')) ∧ Q a s'

/-- However much fuel it is given, `p` does not stop. -/
def Stuck (p : Prog σ α) (s : σ) : Prop := ∀ᶠ n in atTop, p n s = none

variable {p : Prog σ α} {k : α → Prog σ β} {s : σ} {Q Q' : α → σ → Prop} {R : β → σ → Prop}

/-! ## Straight-line programs -/

theorem Runs.mono (h : Runs p s Q) (hQ : ∀ a s', Q a s' → Q' a s') : Runs p s Q' := by
  obtain ⟨a, s', hp, hq⟩ := h
  exact ⟨a, s', hp, hQ a s' hq⟩

/-- A program stops in one way only. -/
theorem Runs.and (h : Runs p s Q) (h' : Runs p s Q') : Runs p s fun a s' => Q a s' ∧ Q' a s' := by
  obtain ⟨a, s₁, hp, hq⟩ := h
  obtain ⟨a', s₂, hp', hq'⟩ := h'
  obtain ⟨n, h1, h2⟩ := (hp.and hp').exists
  obtain ⟨rfl, rfl⟩ := Prod.mk.inj (Option.some.inj (h1.symm.trans h2))
  exact ⟨a, s₁, hp, hq, hq'⟩

theorem Runs.exists (h : Runs p s Q) : ∃ a s', Q a s' := by
  obtain ⟨a, s', -, hq⟩ := h
  exact ⟨a, s', hq⟩

theorem Runs.not_stuck (h : Runs p s Q) : ¬ Stuck p s := by
  intro hs
  obtain ⟨a, s', hp, -⟩ := h
  obtain ⟨n, h1, h2⟩ := (hp.and hs).exists
  rw [h1] at h2
  cases h2

theorem runs_of_eq (a : α) (s' : σ) (hp : ∀ n, p n s = some (a, s')) (h : Q a s') : Runs p s Q :=
  ⟨a, s', Eventually.of_forall hp, h⟩

theorem runs_pure {a : α} (h : Q a s) : Runs (pure a) s Q := runs_of_eq a s (fun _ => rfl) h

theorem runs_pure_bind {a : α} (h : Runs (k a) s R) : Runs (pure a >>= k) s R := h

theorem Runs.bind (hp : Runs p s Q) (hk : ∀ a s', Q a s' → Runs (k a) s' R) : Runs (p >>= k) s R := by
  obtain ⟨a, s', hp, hq⟩ := hp
  obtain ⟨b, s'', hk, hr⟩ := hk a s' hq
  refine ⟨b, s'', ?_, hr⟩
  filter_upwards [hp, hk] with n h1 h2
  change (p n s).bind _ = _
  rw [h1]
  exact h2

theorem runs_lift {o : Option α} {a : α} (ho : o = some a) (h : Q a s) : Runs (Prog.lift o) s Q := by
  subst ho
  exact runs_of_eq a s (fun _ => rfl) h

theorem runs_lift_bind {o : Option α} {a : α} (ho : o = some a) (h : Runs (k a) s R) :
    Runs (Prog.lift o >>= k) s R := by
  refine (runs_lift (Q := fun x s' => a = x ∧ s = s') ho ⟨rfl, rfl⟩).bind ?_
  rintro _ _ ⟨rfl, rfl⟩
  exact h

theorem runs_guard_bind {c : Prop} [Decidable c] {k : Unit → Prog σ β} (hc : c) (h : Runs (k ()) s R) :
    Runs (Prog.guard c >>= k) s R :=
  runs_lift_bind (if_pos hc) h

theorem Stuck.bind (h : Stuck p s) : Stuck (p >>= k) s := by
  filter_upwards [h] with n hn
  change (p n s).bind _ = _
  rw [hn]
  rfl

theorem stuck_pure_bind {a : α} (h : Stuck (k a) s) : Stuck (pure a >>= k) s := h

theorem Runs.stuck_bind (hp : Runs p s Q) (hk : ∀ a s', Q a s' → Stuck (k a) s') : Stuck (p >>= k) s := by
  obtain ⟨a, s', hp, hq⟩ := hp
  filter_upwards [hp, hk a s' hq] with n h1 h2
  change (p n s).bind _ = _
  rw [h1]
  exact h2

theorem stuck_lift_bind {o : Option α} (ho : o = none) : Stuck (Prog.lift o >>= k) s := by
  subst ho
  exact Stuck.bind (Eventually.of_forall fun _ => rfl)

theorem stuck_guard_bind {c : Prop} [Decidable c] {k : Unit → Prog σ β} (hc : ¬ c) :
    Stuck (Prog.guard c >>= k) s :=
  stuck_lift_bind (if_neg hc)

/-! ## Loops -/

/-- An invariant of a counted loop. -/
theorem Runs.forFrom {body : ℕ → α → Prog σ α} (I : ℕ → α → σ → Prop) :
    ∀ {lo k : ℕ} {a : α} {s : σ},
      (∀ i a s, lo ≤ i → i < lo + k → I i a s → Runs (body i a) s (I (i + 1))) → I lo a s →
        Runs (Prog.forFrom body lo k a) s (I (lo + k))
  | _, 0, _, _, _, hI => runs_pure hI
  | lo, k + 1, a, s, hbody, hI => by
    refine (hbody lo a s le_rfl (by omega) hI).bind fun a' s' hI' => ?_
    have hrest : Runs (Prog.forFrom body (lo + 1) k a') s' (I (lo + 1 + k)) :=
      Runs.forFrom I (fun i a s h1 h2 hi => hbody i a s (by omega) (by omega) hi) hI'
    rwa [show lo + 1 + k = lo + (k + 1) by omega] at hrest

section Loop

variable {body : α → Prog σ (α ⊕ β)}

/-- An invariant of a loop and a measure that every further round decreases. -/
theorem Runs.loop (I : α → σ → Prop) (μ : α → σ → ℕ)
    (hbody : ∀ a s, I a s → Runs (body a) s fun
      | .inl a', s' => I a' s' ∧ μ a' s' < μ a s
      | .inr b, s' => R b s')
    {a : α} {s : σ} (hI : I a s) : Runs (Prog.loop body a) s R := by
  suffices h : ∀ m a s, μ a s = m → I a s →
      ∃ b s', R b s' ∧ ∃ K, ∀ᶠ n in atTop, ∀ j, K ≤ j → Prog.rounds body j a n s = some (b, s') by
    obtain ⟨b, s', hR, K, hK⟩ := h _ a s rfl hI
    refine ⟨b, s', ?_, hR⟩
    filter_upwards [hK, eventually_ge_atTop K] with n h1 h2
    exact h1 n h2
  intro m
  induction m using Nat.strong_induction_on with
  | _ m ih =>
    intro a s hm hI
    obtain ⟨r, s₁, hp, hr⟩ := hbody a s hI
    -- one round has to fit, so the bound on the rounds grows by one
    cases r with
    | inl a' =>
      obtain ⟨b, s', hR, K, hK⟩ := ih _ (hm ▸ hr.2) a' s₁ rfl hr.1
      refine ⟨b, s', hR, K + 1, ?_⟩
      filter_upwards [hp, hK] with n h1 h2 j hj
      obtain ⟨j, rfl⟩ : ∃ i, j = i + 1 := ⟨j - 1, by omega⟩
      change (body a n s).bind _ = _
      rw [h1]
      exact h2 j (by omega)
    | inr b =>
      refine ⟨b, s₁, hr, 1, ?_⟩
      filter_upwards [hp] with n h1 j hj
      obtain ⟨j, rfl⟩ : ∃ i, j = i + 1 := ⟨j - 1, by omega⟩
      change (body a n s).bind _ = _
      rw [h1]
      rfl

/-- A wait that each further round shortens. -/
theorem Runs.repeatUntil {done : α → Bool} (I : σ → Prop) (μ : σ → ℕ)
    (hp : ∀ s, I s → Runs p s fun v s' => (done v = true ∧ Q v s') ∨ (done v = false ∧ I s' ∧ μ s' < μ s))
    (h : I s) :
    Runs (Prog.repeatUntil p done) s Q := by
  refine Runs.loop (fun _ => I) (fun _ => μ) (fun _ s hs => ?_) h
  refine (hp s hs).bind fun v s' hv => runs_pure ?_
  rcases hv with ⟨hdone, hQ⟩ | ⟨hdone, hI, hlt⟩
  · rw [if_pos hdone]
    exact hQ
  · rw [if_neg (by simp [hdone])]
    exact ⟨hI, hlt⟩

theorem Stuck.loop {a : α} (h : Stuck (body a) s) : Stuck (Prog.loop body a) s := by
  filter_upwards [h, eventually_ge_atTop 1] with n hn hpos
  obtain ⟨n, rfl⟩ : ∃ i, n = i + 1 := ⟨n - 1, by omega⟩
  change (body a (n + 1) s).bind _ = _
  rw [hn]
  rfl

end Loop

/-! ## Results -/

/-- The run of a sequence goes on from where its first part stops. -/
theorem Runs.bind_inv (h : Runs (p >>= k) s R) (hp : Runs p s Q) :
    ∃ a s', (∀ᶠ n in atTop, p n s = some (a, s')) ∧ Q a s' ∧ Runs (k a) s' R := by
  obtain ⟨b, s'', hrun, hR⟩ := h
  obtain ⟨a, s', hp, hQ⟩ := hp
  refine ⟨a, s', hp, hQ, b, s'', ?_, hR⟩
  filter_upwards [hrun, hp] with n h1 h2
  change (p n s).bind _ = _ at h1
  rw [h2] at h1
  exact h1

/-- The second part of a sequence is replaced. -/
theorem Runs.bind_congr {k' : α → Prog σ β} (h : Runs (p >>= k) s R) (hp : Runs p s Q)
    (hk : ∀ a s', Q a s' → Runs (k a) s' R → Runs (k' a) s' R) : Runs (p >>= k') s R := by
  obtain ⟨a, s', hp, hQ, hrest⟩ := h.bind_inv hp
  have hstop : Runs p s fun b s'' => b = a ∧ s'' = s' := ⟨a, s', hp, rfl, rfl⟩
  refine hstop.bind ?_
  rintro _ _ ⟨rfl, rfl⟩
  exact hk _ _ hQ hrest

/-- Whatever `p` returns, from any state and with any fuel, `Q` holds of it. -/
def Ensures (p : Prog σ α) (Q : α → Prop) : Prop := ∀ n s a s', p n s = some (a, s') → Q a

section Ensures

variable {P : α → Prop} {S : β → Prop}

theorem Runs.ensures (h : Runs p s Q) (hP : Ensures p P) : Runs p s fun a s' => Q a s' ∧ P a := by
  obtain ⟨a, s', hp, hQ⟩ := h
  obtain ⟨n, hn⟩ := hp.exists
  exact ⟨a, s', hp, hQ, hP n s a s' hn⟩

theorem ensures_pure {a : α} (h : P a) : Ensures (pure a : Prog σ α) P := by
  intro n s b s' hrun
  cases hrun
  exact h

theorem ensures_lift {o : Option α} (h : ∀ a, o = some a → P a) : Ensures (Prog.lift o : Prog σ α) P := by
  intro n s a s' hrun
  obtain ⟨b, hb, heq⟩ := Option.map_eq_some_iff.mp hrun
  cases heq
  exact h _ hb

theorem Ensures.bind (hp : Ensures p P) (hk : ∀ a, P a → Ensures (k a) S) : Ensures (p >>= k) S := by
  intro n s b s' hrun
  obtain ⟨⟨a, s₁⟩, h1, h2⟩ := Option.bind_eq_some_iff.mp hrun
  exact hk a (hp n s a s₁ h1) n s₁ b s' h2

/-- Where nothing is known of the first part. -/
theorem ensures_bind (hk : ∀ a, Ensures (k a) S) : Ensures (p >>= k) S :=
  Ensures.bind (fun _ _ _ _ _ => trivial) fun a (_ : True) => hk a

theorem Ensures.forFrom {body : ℕ → α → Prog σ α} (I : ℕ → α → Prop) : ∀ {lo m : ℕ} {a : α},
    (∀ i a, I i a → Ensures (body i a) (I (i + 1))) → I lo a → Ensures (Prog.forFrom body lo m a) (I (lo + m))
  | _, 0, _, _, hI => ensures_pure hI
  | lo, m + 1, a, hbody, hI => by
    refine (hbody lo a hI).bind fun a' hI' => ?_
    have hrest := Ensures.forFrom I (m := m) hbody hI'
    rwa [show lo + 1 + m = lo + (m + 1) by omega] at hrest

/-- An invariant of a loop, which may never end. -/
theorem Ensures.loop {body : α → Prog σ (α ⊕ β)} (I : α → Prop)
    (hbody : ∀ a, I a → Ensures (body a) (Sum.elim I S)) {a : α}
    (hI : I a) : Ensures (Prog.loop body a) S := by
  have hrounds : ∀ (j : ℕ) (a : α), I a → Ensures (Prog.rounds body j a) S := by
    intro j
    induction j with
    | zero => exact fun a _ => ensures_lift fun b hb => nomatch hb
    | succ j ih =>
      intro a hI
      refine (hbody a hI).bind fun r hr => ?_
      cases r with
      | inl a' => exact ih a' hr
      | inr b => exact ensures_pure hr
  intro n s b s' hrun
  exact hrounds n a hI n s b s' hrun

end Ensures

theorem Prog.forFrom_congr {body body' : ℕ → α → Prog σ α} : ∀ {lo m : ℕ} {a : α},
    (∀ i, lo ≤ i → i < lo + m → ∀ a, body i a = body' i a) → Prog.forFrom body lo m a = Prog.forFrom body' lo m a
  | _, 0, _, _ => rfl
  | lo, m + 1, a, h => by
    rw [Prog.forFrom, Prog.forFrom, h lo le_rfl (by omega)]
    congr 1
    ext1 a'
    exact Prog.forFrom_congr fun i hlo hi => h i (by omega) (by omega)

/-- Loops whose rounds are the same wherever they come. -/
theorem Prog.loop_congr {body body' : α → Prog σ (α ⊕ β)} (I : α → Prop) (hsame : ∀ a, I a → body a = body' a)
    (hbody : ∀ a, I a → Ensures (body a) (Sum.elim I fun _ => True)) {a : α} (hI : I a) :
    Prog.loop body a = Prog.loop body' a := by
  have hrounds : ∀ (j : ℕ) (a : α), I a → Prog.rounds body j a = Prog.rounds body' j a := by
    intro j
    induction j with
    | zero => exact fun a _ => rfl
    | succ j ih =>
      intro a hI
      funext n s
      change (body a n s).bind _ = (body' a n s).bind _
      rw [← hsame a hI]
      refine Option.bind_congr fun r hr => ?_
      have hnext := hbody a hI n s r.1 r.2 hr
      cases hr1 : r.1 with
      | inl a' =>
        rw [hr1] at hnext
        exact congrFun (congrFun (ih a' hnext) n) r.2
      | inr b => rfl
  funext n
  exact congrFun (hrounds n a hI) n

end Soceteer.Lib
