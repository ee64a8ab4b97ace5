import Mathlib.Data.List.Basic

/-!
# Soceteer.Lib.Trace — properties of the events of a growing log

`Each log P` says that every event of a log satisfies `P`, given what came before and what came after it.

* `each_concat`: the rule for one more event.
-/

namespace Soceteer.Trace

variable {α : Type}

/-- Every event, with the events before and after it. -/
def Each (log : List α) (P : List α → α → List α → Prop) : Prop :=
  ∀ pre e post, log = pre ++ e :: post → P pre e post

theorem each_nil (P : List α → α → List α → Prop) : Each [] P := fun pre e post h => absurd h (by simp)

/-- One more event: the old ones have it after them, and it has nothing after it. -/
theorem each_concat {log : List α} {e : α} {P : List α → α → List α → Prop} :
    Each (log ++ [e]) P ↔ Each log (fun pre x post => P pre x (post ++ [e])) ∧ P log e [] := by
  constructor
  · refine fun h => ⟨fun pre x post hlog => h pre x (post ++ [e]) (by rw [hlog]; simp), h log e [] rfl⟩
  · rintro ⟨hold, hnew⟩ pre x post hlog
    rcases List.eq_nil_or_concat post with rfl | ⟨post', e', rfl⟩
    · obtain ⟨rfl, hx⟩ := List.append_inj' hlog rfl
      cases hx
      exact hnew
    · rw [List.concat_eq_append, ← List.cons_append, ← List.append_assoc] at hlog
      obtain ⟨hold', he⟩ := List.append_inj' hlog rfl
      cases he
      rw [List.concat_eq_append]
      exact hold pre x post' hold'

theorem Each.mono {log : List α} {P Q : List α → α → List α → Prop} (h : Each log P)
    (hPQ : ∀ pre e post, P pre e post → Q pre e post) : Each log Q :=
  fun pre e post hlog => hPQ _ _ _ (h pre e post hlog)

end Soceteer.Trace
