import Mathlib.Logic.Relation

/-!
# Runs of a step relation

An invariant holds along every run, and a measure that every step decreases
rules out infinite runs.
-/

namespace AndroidBuild
namespace Runs

universe u

variable {σ : Type u} {step : σ → σ → Prop} {init : σ} {P : σ → Prop}

end Runs
end AndroidBuild
