import Mathlib.Tactic

/-!
# Programs that ask while they run

A `Script` ends with a result, fails, or asks a question and goes on with the
answer.  `Script.run` answers the questions with a function on a state.  A
refused question ends the run with a failure; no answer at all (`none`) leaves
the run without an outcome.
-/

namespace AndroidBuild

universe u v w x y

/-- A program that asks questions in `Q` and goes on with answers in `A`. -/
inductive Script (Q : Type u) (A : Type v) (R : Type w) (E : Type x)
  | done (result : R)
  | fail (error : E)
  | ask (question : Q) (next : A → Script Q A R E)

namespace Script

variable {Q : Type u} {A : Type v} {R : Type w} {E : Type x} {σ : Type y}

/-- Runs a script; `refuse` is the failure that a refused question causes. -/
def run (answer : Q → σ → Option (Except E A × σ)) (refuse : Q → E → E) :
    Script Q A R E → σ → Option (Except E R × σ)
  | done r, s => some (.ok r, s)
  | fail e, s => some (.error e, s)
  | ask q next, s =>
      match answer q s with
      | none => none
      | some (.error e, s') => some (.error (refuse q e), s')
      | some (.ok a, s') => run answer refuse (next a) s'

variable {answer : Q → σ → Option (Except E A × σ)} {refuse : Q → E → E}

/-- What the ends and the questions of a script give, its run gives. -/
theorem run_rule
    {P : Script Q A R E → σ → Except E R → σ → Prop}
    (hdone : ∀ r s, P (done r) s (.ok r) s)
    (hfail : ∀ e s, P (fail e) s (.error e) s)
    (hrefused : ∀ q next s e s', answer q s = some (.error e, s') →
      P (ask q next) s (.error (refuse q e)) s')
    (hanswered : ∀ q next s a s' res s'', answer q s = some (.ok a, s') →
      P (next a) s' res s'' → P (ask q next) s res s'')
    (script : Script Q A R E) {s s' : σ} {res : Except E R}
    (h : script.run answer refuse s = some (res, s')) :
    P script s res s' := by
  induction script generalizing s with
  | done r =>
      obtain ⟨rfl, rfl⟩ : Except.ok r = res ∧ s = s' := by simpa [run] using h
      exact hdone r s
  | fail e =>
      obtain ⟨rfl, rfl⟩ : Except.error e = res ∧ s = s' := by simpa [run] using h
      exact hfail e s
  | ask q next ih =>
      rw [run] at h
      split at h
      · simp at h
      · next e s₁ hq =>
          obtain ⟨rfl, rfl⟩ : Except.error (refuse q e) = res ∧ s₁ = s' := by simpa using h
          exact hrefused q next s e s₁ hq
      · next a s₁ hq => exact hanswered q next s a s₁ res s' hq (ih a h)

/-- Where every question finds an answer that keeps `I`, the run has an outcome that keeps `I`. -/
theorem exists_run
    {I : σ → Prop} (h : ∀ q s, I s → ∃ res s', answer q s = some (res, s') ∧ I s')
    (script : Script Q A R E) {s : σ} (hs : I s) :
    ∃ res s', script.run answer refuse s = some (res, s') ∧ I s' := by
  induction script generalizing s with
  | done r => exact ⟨.ok r, s, rfl, hs⟩
  | fail e => exact ⟨.error e, s, rfl, hs⟩
  | ask q next ih =>
      obtain ⟨res, s', hq, hs'⟩ := h q s hs
      rw [run, hq]
      cases res with
      | error e => exact ⟨.error (refuse q e), s', rfl, hs'⟩
      | ok a => exact ih a hs'

end Script
end AndroidBuild
