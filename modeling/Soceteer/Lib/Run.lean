import Mathlib.Data.Nat.Init
import Mathlib.Order.Basic
import Mathlib.Tactic.Basic

/-!
# Soceteer.Lib.Run — endless runs of a transition system

* `Run step s₀`: an endless run from `s₀`, with the event that causes each step.
* `Run.invariant`, `Run.holds_iff`: what holds along a run whose steps meet a condition, and when the condition is
  exact.
* `Run.Reach`, `Run.Reach.invariant`: the states that finitely many such steps lead to.
* `Run.reaches`, `Run.reaches_of_rank`: what a run comes to.
* `Run.lasso`: a run that goes back and forth between two states for ever.
-/

namespace Soceteer.Lib

/-- An endless run of `step` from `s₀`. -/
structure Run {σ ε : Type} (step : σ → ε → Option σ) (s₀ : σ) where
  state : ℕ → σ
  event : ℕ → ε
  start : state 0 = s₀
  next : ∀ n, step (state n) (event n) = some (state (n + 1))

namespace Run

variable {σ ε : Type} {step : σ → ε → Option σ} {s₀ : σ} {I J : σ → Prop} {C : σ → ε → Prop}

/-! ## Safety -/

/-- An invariant of the steps that meet `C` holds as long as they all do. -/
theorem invariant (ρ : Run step s₀) (hstart : I s₀)
    (hstep : ∀ s e s', I s → C s e → step s e = some s' → I s') :
    ∀ n, (∀ k < n, C (ρ.state k) (ρ.event k)) → I (ρ.state n)
  | 0, _ => ρ.start.symm ▸ hstart
  | n + 1, hC => by
    have hI := invariant ρ hstart hstep n fun k hk => hC k (by omega)
    exact hstep _ _ _ hI (hC n (by omega)) (ρ.next n)

/-- A condition that an invariant needs: `J` holds throughout a run exactly when every step meets it. -/
theorem holds_iff (ρ : Run step s₀) (hstart : I s₀) (hstep : ∀ s e s', I s → C s e → step s e = some s' → I s')
    (hgood : ∀ s, I s → J s) (hbad : ∀ s e s', I s → ¬ C s e → step s e = some s' → ¬ J s') :
    (∀ n, J (ρ.state n)) ↔ ∀ n, C (ρ.state n) (ρ.event n) := by
  refine ⟨fun hJ n => ?_, fun hC n => hgood _ (ρ.invariant hstart hstep n fun k _ => hC k)⟩
  induction n using Nat.strong_induction_on with
  | _ n ih =>
    by_contra hC
    exact hbad _ _ _ (ρ.invariant hstart hstep n ih) hC (ρ.next n) (hJ (n + 1))

/-- The same along a list of events. -/
theorem foldlM_invariant {C : ε → Prop} {s s' : σ} (hstart : I s)
    (hstep : ∀ s e s', I s → C e → step s e = some s' → I s') :
    ∀ es : List ε, (∀ e ∈ es, C e) → es.foldlM step s = some s' → I s'
  | [], _, hs => Option.some.inj hs ▸ hstart
  | e :: es, hC, hs => by
    rw [List.foldlM_cons, Option.bind_eq_bind, Option.bind_eq_some_iff] at hs
    obtain ⟨s₁, hs₁, hs⟩ := hs
    exact foldlM_invariant (hstep s e s₁ hstart (hC e List.mem_cons_self) hs₁) hstep es
      (fun e' he' => hC e' (List.mem_cons_of_mem e he')) hs

/-- The states that steps which all meet `C` lead to. -/
inductive Reach (step : σ → ε → Option σ) (C : σ → ε → Prop) (s₀ : σ) : σ → Prop
  | start : Reach step C s₀ s₀
  | next {s s' : σ} {e : ε} : Reach step C s₀ s → C s e → step s e = some s' → Reach step C s₀ s'

theorem Reach.invariant {s : σ} (hr : Reach step C s₀ s) (hstart : I s₀)
    (hstep : ∀ s e s', I s → C s e → step s e = some s' → I s') : I s := by
  induction hr with
  | start => exact hstart
  | next _ hC hs ih => exact hstep _ _ _ ih hC hs

theorem Reach.of_foldlM {s s' : σ} (hr : Reach step C s₀ s) :
    ∀ es : List ε, (∀ e ∈ es, ∀ s, C s e) → es.foldlM step s = some s' → Reach step C s₀ s'
  | [], _, hs => Option.some.inj hs ▸ hr
  | e :: es, hC, hs => by
    rw [List.foldlM_cons, Option.bind_eq_bind, Option.bind_eq_some_iff] at hs
    obtain ⟨s₁, hs₁, hs⟩ := hs
    have hnext : Reach step C s₀ s₁ := .next hr (hC e List.mem_cons_self s) hs₁
    exact Reach.of_foldlM hnext es (fun e' he' => hC e' (List.mem_cons_of_mem e he')) hs

/-! ## Progress -/

section Progress

variable {P Q : ℕ → Prop} {n m : ℕ}

/-- `P` lasts until `Q`, and the step at `m` brings `Q` about. -/
theorem reaches (hnm : n ≤ m) (hP : P n) (hkeep : ∀ k, n ≤ k → P k → P (k + 1) ∨ Q (k + 1))
    (hm : P m → Q (m + 1)) :
    ∃ k, n ≤ k ∧ Q k := by
  by_contra hno
  have hall : ∀ j, P (n + j) := by
    intro j
    induction j with
    | zero => exact hP
    | succ j ih => exact (hkeep (n + j) (by omega) ih).resolve_right fun hq => hno ⟨n + j + 1, by omega, hq⟩
  have hlast := hall (m - n)
  rw [Nat.add_sub_cancel' hnm] at hlast
  exact hno ⟨m + 1, by omega, hm hlast⟩

/-- A rank that comes down as long as `Q` has not been reached; `R m c` says that `c` is the rank at `m`. -/
theorem reaches_of_rank {R : ℕ → ℕ → Prop}
    (h : ∀ k c, n ≤ k → R k c → ∃ m, k ≤ m ∧ (Q m ∨ ∃ c' < c, R m c')) {c : ℕ}
    (hR : R n c) : ∃ m, n ≤ m ∧ Q m := by
  suffices hall : ∀ c k, n ≤ k → R k c → ∃ m, n ≤ m ∧ Q m from hall c n (Nat.le_refl n) hR
  intro c
  induction c using Nat.strong_induction_on with
  | _ c ih =>
    intro k hk hR
    obtain ⟨m, hkm, hq | ⟨c', hlt, hR'⟩⟩ := h k c hk hR
    · exact ⟨m, by omega, hq⟩
    · exact ih c' hlt m (by omega) hR'

end Progress

/-! ## Examples of runs -/

/-- One more step in front of a run. -/
def cons {s s' : σ} {e : ε} (h : step s e = some s') (ρ : Run step s') : Run step s where
  state := fun n => n.casesOn s ρ.state
  event := fun n => n.casesOn e ρ.event
  start := rfl
  next := fun n => match n with
    | 0 => h.trans (congrArg some ρ.start.symm)
    | n + 1 => ρ.next n

/-- Back and forth between two states. -/
def swing {a b : σ} {e₁ e₂ : ε} (h₁ : step a e₁ = some b) (h₂ : step b e₂ = some a) : Run step a where
  state := fun n => if n % 2 = 0 then a else b
  event := fun n => if n % 2 = 0 then e₁ else e₂
  start := rfl
  next := fun n => by
    rcases Nat.mod_two_eq_zero_or_one n with hn | hn
    · rw [if_pos hn, if_pos hn, if_neg (by omega), h₁]
    · rw [if_neg (by omega), if_neg (by omega), if_pos (by omega), h₂]

/-- A list of events, then back and forth between two states. -/
def lasso {a b : σ} {e₁ e₂ : ε} (h₁ : step a e₁ = some b) (h₂ : step b e₂ = some a) :
    (stem : List ε) → (s : σ) → stem.foldlM step s = some a → Run step s
  | [], _, h => ⟨(swing h₁ h₂).state, (swing h₁ h₂).event, (Option.some.inj h).symm, (swing h₁ h₂).next⟩
  | e :: stem, s, h =>
    match hs : step s e with
    | some s' => cons hs (lasso h₁ h₂ stem s' (by simpa [hs] using h))
    | none => absurd h (by simp [hs])

/-- The states a list of events goes through, the last one excepted. -/
def visited (step : σ → ε → Option σ) : σ → List ε → List σ
  | _, [] => []
  | s, e :: es => s :: match step s e with
    | some s' => visited step s' es
    | none => []

section Lasso

variable {a b : σ} {e₁ e₂ : ε} (h₁ : step a e₁ = some b) (h₂ : step b e₂ = some a)

theorem lasso_cons {stem : List ε} {s : σ} {e : ε} (h : (e :: stem).foldlM step s = some a) :
    ∃ s', ∃ hs : step s e = some s', ∃ h', lasso h₁ h₂ (e :: stem) s h = cons hs (lasso h₁ h₂ stem s' h') := by
  rw [lasso]
  split
  · next s' hs => exact ⟨s', hs, by simpa [hs] using h, rfl⟩
  · next hs => exact absurd h (by simp [hs])

/-- Past the list of events. -/
theorem lasso_end (n : ℕ) : ∀ (stem : List ε) (s : σ) (h : stem.foldlM step s = some a),
    (lasso h₁ h₂ stem s h).state (stem.length + n) = (if n % 2 = 0 then a else b) ∧
      (lasso h₁ h₂ stem s h).event (stem.length + n) = if n % 2 = 0 then e₁ else e₂
  | [], _, _ => by
    rw [List.length_nil, Nat.zero_add]
    exact ⟨rfl, rfl⟩
  | e :: stem, s, h => by
    obtain ⟨s', hs, h', hcons⟩ := lasso_cons h₁ h₂ h
    rw [hcons, List.length_cons, Nat.add_right_comm]
    exact lasso_end n stem s' h'

theorem lasso_mem : ∀ (stem : List ε) (s : σ) (h : stem.foldlM step s = some a) (n : ℕ),
    (lasso h₁ h₂ stem s h).state n ∈ visited step s stem ++ [a, b]
  | [], s, h, n => by
    change (if n % 2 = 0 then a else b) ∈ [a, b]
    split_ifs <;> simp
  | e :: stem, s, h, n => by
    obtain ⟨s', hs, h', hcons⟩ := lasso_cons h₁ h₂ h
    rw [hcons, visited, hs]
    cases n with
    | zero => exact List.mem_cons_self
    | succ n => exact List.mem_cons_of_mem _ (lasso_mem stem s' h' n)

theorem lasso_event_mem : ∀ (stem : List ε) (s : σ) (h : stem.foldlM step s = some a) (n : ℕ),
    (lasso h₁ h₂ stem s h).event n ∈ stem ++ [e₁, e₂]
  | [], s, h, n => by
    change (if n % 2 = 0 then e₁ else e₂) ∈ [e₁, e₂]
    split_ifs <;> simp
  | e :: stem, s, h, n => by
    obtain ⟨s', hs, h', hcons⟩ := lasso_cons h₁ h₂ h
    rw [hcons]
    cases n with
    | zero => exact List.mem_cons_self
    | succ n => exact List.mem_cons_of_mem _ (lasso_event_mem stem s' h' n)

end Lasso

end Run

end Soceteer.Lib
