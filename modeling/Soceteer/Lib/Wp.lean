import Mathlib.Tactic.Basic

/-!
# Soceteer.Lib.Wp — programs that return or throw

`EStateM ε σ` runs a program over the state `σ` that may throw; the state is kept in both cases.

* `Wp p s Q E`: where `p` returns, `Q` holds of the result and the state; where it throws, `E` holds of the error
  and the state.
* `wp_bind`, `wp_pure`, `wp_throw`, `wp_get`, `wp_set`, `wp_ite`: the rules, as equivalences.
* `Wp.mono`, `Wp.and`: consequence and conjunction.
* `Looks e c p v`: `p` keeps the state; it returns `v` exactly when `c` holds, and throws `e` otherwise.
-/

namespace Soceteer.Lib

variable {ε σ α β : Type}

/-- `Q` holds where `p` returns, and `E` where it throws. -/
def Wp (p : EStateM ε σ α) (s : σ) (Q : α → σ → Prop) (E : ε → σ → Prop) : Prop :=
  match p s with
  | .ok a s' => Q a s'
  | .error e s' => E e s'

variable {p : EStateM ε σ α} {k : α → EStateM ε σ β} {s : σ} {Q Q' : α → σ → Prop} {R : β → σ → Prop}
  {E E' : ε → σ → Prop}

@[simp] theorem wp_bind : Wp (p >>= k) s R E ↔ Wp p s (fun a s' => Wp (k a) s' R E) E := by
  change Wp (EStateM.bind p k) s R E ↔ _
  unfold Wp EStateM.bind
  cases p s <;> rfl

@[simp] theorem wp_pure {a : α} : Wp (pure a : EStateM ε σ α) s Q E ↔ Q a s := Iff.rfl

@[simp] theorem wp_throw {e : ε} : Wp (throw e : EStateM ε σ α) s Q E ↔ E e s := Iff.rfl

@[simp] theorem wp_get {Q : σ → σ → Prop} : Wp (get : EStateM ε σ σ) s Q E ↔ Q s s := Iff.rfl

@[simp] theorem wp_set {s' : σ} {Q : PUnit → σ → Prop} : Wp (set s' : EStateM ε σ PUnit) s Q E ↔ Q ⟨⟩ s' := Iff.rfl

@[simp] theorem wp_modify {f : σ → σ} {Q : PUnit → σ → Prop} :
    Wp (modify f : EStateM ε σ PUnit) s Q E ↔ Q ⟨⟩ (f s) := Iff.rfl

@[simp] theorem wp_ite {c : Prop} [Decidable c] {p q : EStateM ε σ α} :
    Wp (if c then p else q) s Q E ↔ (c → Wp p s Q E) ∧ (¬ c → Wp q s Q E) := by
  by_cases h : c <;> simp [h]

theorem Wp.mono (h : Wp p s Q E) (hQ : ∀ a s', Q a s' → Q' a s')
    (hE : ∀ e s', E e s' → E' e s') : Wp p s Q' E' := by
  unfold Wp at h ⊢
  cases hp : p s with
  | ok a s' =>
    rw [hp] at h
    exact hQ a s' h
  | error e s' =>
    rw [hp] at h
    exact hE e s' h

theorem Wp.and (h : Wp p s Q E) (h' : Wp p s Q' E') :
    Wp p s (fun a s' => Q a s' ∧ Q' a s') fun e s' => E e s' ∧ E' e s' := by
  unfold Wp at h h' ⊢
  cases hp : p s <;> rw [hp] at h h' <;> exact ⟨h, h'⟩

/-- The result of a program that returns. -/
theorem Wp.ok {a : α} {s' : σ} (h : Wp p s Q E) (hp : p s = .ok a s') : Q a s' := by
  unfold Wp at h
  rwa [hp] at h

theorem Wp.exists_ok (h : Wp p s Q fun _ _ => False) : ∃ a s', p s = .ok a s' ∧ Q a s' := by
  unfold Wp at h
  cases hp : p s with
  | ok a s' =>
    rw [hp] at h
    exact ⟨a, s', rfl, h⟩
  | error e s' =>
    rw [hp] at h
    exact h.elim

/-- Programs with the same run. -/
theorem Wp.of_eq {q : EStateM ε σ α} {t : σ} (heq : p s = q t) (h : Wp q t Q E) : Wp p s Q E := by
  unfold Wp at h ⊢
  rwa [heq]

/-! ## Programs that keep the state -/

/-- `p` returns `v` if `c` holds, and throws `e` if not. -/
def Looks (e : ε) (c : Prop) (p : EStateM ε σ α) (v : α) : Prop :=
  ∀ s, (c → p s = .ok v s) ∧ (¬ c → p s = .error e s)

namespace Looks

variable {e : ε} {c c' : Prop} {v : α} {v' : β}

theorem pure (v : α) : Looks e True (pure v : EStateM ε σ α) v :=
  fun _ => ⟨fun _ => rfl, fun h => absurd trivial h⟩

theorem check {b : Prop} {_ : Decidable b} (v : α) :
    Looks e b (if b then Pure.pure v else throw e : EStateM ε σ α) v := by
  intro s
  refine ⟨fun h => ?_, fun h => ?_⟩
  · rw [if_pos h]
    rfl
  · rw [if_neg h]
    rfl

theorem bind_ok (h : Looks e c p v) (hc : c) : (p >>= k) s = k v s := by
  change EStateM.bind p k s = _
  rw [EStateM.bind, (h s).1 hc]

theorem bind_error (h : Looks e c p v) (hc : ¬ c) : (p >>= k) s = .error e s := by
  change EStateM.bind p k s = _
  rw [EStateM.bind, (h s).2 hc]

theorem bind (h : Looks e c p v) (hk : c → Looks e c' (k v) v') : Looks e (c ∧ c') (p >>= k) v' := by
  intro s
  by_cases hc : c
  · rw [h.bind_ok hc]
    exact ⟨fun hcc => (hk hc s).1 hcc.2, fun hcc => (hk hc s).2 fun hc' => hcc ⟨hc, hc'⟩⟩
  · rw [h.bind_error hc]
    exact ⟨fun hcc => absurd hcc.1 hc, fun _ => rfl⟩

/-- The same condition, and the same value where it holds. -/
theorem congr_of {v₁ : α} (h : Looks e c p v) (hc : c' ↔ c) (hv : c → v₁ = v) : Looks e c' p v₁ := by
  refine fun s => ⟨fun h' => ?_, fun h' => (h s).2 fun h'' => h' (hc.mpr h'')⟩
  rw [hv (hc.mp h')]
  exact (h s).1 (hc.mp h')

theorem congr {v₁ : α} (h : Looks e c p v) (hc : c' ↔ c) (hv : v₁ = v) : Looks e c' p v₁ :=
  h.congr_of hc fun _ => hv

theorem map (h : Looks e c p v) (f : α → β) : Looks e c (p >>= fun a => Pure.pure (f a)) (f v) :=
  (h.bind fun _ => pure (f v)).congr (and_iff_left trivial).symm rfl

/-- The second of two tests is made only if the first holds. -/
theorem and {p q : EStateM ε σ Bool} {v v' : Bool} (h : Looks e c p v) (h' : Looks e c' q v') :
    Looks e (c ∧ (v = true → c')) (p <&&> q) (v && v') := by
  refine h.bind fun _ => ?_
  cases v with
  | true => exact h'.congr ⟨fun hc => hc rfl, fun hc _ => hc⟩ rfl
  | false => exact (Looks.pure false).congr ⟨fun _ => trivial, fun _ => nofun⟩ rfl

/-- The second of two tests is made only if the first fails. -/
theorem or {p q : EStateM ε σ Bool} {v v' : Bool} (h : Looks e c p v) (h' : Looks e c' q v') :
    Looks e (c ∧ (v = false → c')) (p <||> q) (v || v') := by
  refine h.bind fun _ => ?_
  cases v with
  | true => exact (Looks.pure true).congr ⟨fun _ => trivial, fun _ => nofun⟩ rfl
  | false => exact h'.congr ⟨fun hc => hc rfl, fun hc _ => hc⟩ rfl

theorem wp (h : Looks e c p v) : Wp p s Q E ↔ (c → Q v s) ∧ (¬ c → E e s) := by
  unfold Wp
  by_cases hc : c
  · rw [(h s).1 hc]
    exact ⟨fun hQ => ⟨fun _ => hQ, fun hn => absurd hc hn⟩, fun hQ => hQ.1 hc⟩
  · rw [(h s).2 hc]
    exact ⟨fun hE => ⟨fun hn => absurd hn hc, fun _ => hE⟩, fun hE => hE.2 hc⟩

end Looks

/-- What a program returns, for one that is run. -/
def returned : EStateM.Result ε σ α → Option α
  | .ok a _ => some a
  | .error _ _ => none

theorem exists_of_returned {r : EStateM.Result ε σ α} {a : α} (h : returned r = some a) : ∃ s, r = .ok a s := by
  cases r with
  | ok b s => exact ⟨s, by rw [Option.some.inj h]⟩
  | error e s => cases h

end Soceteer.Lib
