import Mathlib.Tactic

/-!
# Recursive procedures over a state

A procedure enters a call with a state.  It either returns at once, or makes a
list of calls one after the other, collects what they return, and leaves.  `run`
gives up when the call stack gets deeper than a bound, so the procedure
terminates iff `run` has a result for some bound.

* `run_mono`: a greater bound does not change a result.
* `Decreases.run`: a measure of the state that gets smaller with each call that
  makes further calls bounds the depth of the call stack.
-/

namespace AndroidBuild

universe u v w x

/-- A procedure on the state `σ` with arguments in `κ` and results in `ρ`; a call
that it makes is known by its place in `ε`. -/
structure Recursion (σ : Type u) (κ : Type v) (ε : Type w) (ρ : Type x) where
  /-- The result, or what is collected at first and the calls to make. -/
  enter : σ → κ → σ × (ρ ⊕ ρ × List (ε × κ))
  combine : ρ → ε → ρ → ρ
  leave : σ → κ → ρ → σ × ρ

namespace Recursion

variable {σ : Type u} {κ : Type v} {ε : Type w} {ρ : Type x}

section Run

variable (R : Recursion σ κ ε ρ)

/-- The loop over the calls that a call makes. -/
def loop (call : σ → κ → Option (σ × ρ)) : σ → ρ → List (ε × κ) → Option (σ × ρ)
  | s, acc, [] => some (s, acc)
  | s, acc, c :: calls =>
      (call s c.2).bind fun y => loop call y.1 (R.combine acc c.1 y.2) calls

/-- A call; `none` is a call stack that is deeper than the bound. -/
def run : Nat → σ → κ → Option (σ × ρ)
  | 0, _, _ => none
  | depth + 1, s, k =>
      match R.enter s k with
      | (t, .inl r) => some (t, r)
      | (t, .inr (acc, calls)) =>
          (R.loop (run depth) t acc calls).map fun y => R.leave y.1 k y.2

/-- Calls from outside the procedure, one after the other. -/
def runAll (depth : Nat) : σ → List κ → Option σ
  | s, [] => some s
  | s, k :: ks => (R.run depth s k).bind fun y => runAll depth y.1 ks

end Run

section Depth

variable {R : Recursion σ κ ε ρ}

theorem loop_mono
    {call call' : σ → κ → Option (σ × ρ)}
    (h : ∀ s k y, call s k = some y → call' s k = some y) {s : σ} {acc : ρ}
    {calls : List (ε × κ)} {y : σ × ρ} (hloop : R.loop call s acc calls = some y) :
    R.loop call' s acc calls = some y := by
  induction calls generalizing s acc with
  | nil => exact hloop
  | cons c calls ih =>
      rw [loop] at hloop ⊢
      obtain ⟨z, hz, hrest⟩ := Option.bind_eq_some_iff.mp hloop
      rw [h s c.2 z hz]
      exact ih hrest

/-- A call that returns within a bound returns the same within a greater one. -/
theorem run_mono
    {depth depth' : Nat} (h : depth ≤ depth') {s : σ} {k : κ} {y : σ × ρ}
    (hrun : R.run depth s k = some y) :
    R.run depth' s k = some y := by
  induction depth generalizing depth' s k y with
  | zero => simp [run] at hrun
  | succ depth ih =>
      obtain ⟨depth', rfl⟩ : ∃ d, depth' = d + 1 := ⟨depth' - 1, by omega⟩
      rw [run] at hrun ⊢
      split at hrun
      · exact hrun
      · next t acc calls henter =>
          obtain ⟨z, hz, rfl⟩ := Option.map_eq_some_iff.mp hrun
          rw [loop_mono (fun s k y => ih (by omega)) hz]
          rfl

/-- A loop all of whose calls return is a fold over the calls. -/
theorem loop_eq_foldl
    {call : σ → κ → Option (σ × ρ)} {walk : σ → κ → σ × ρ}
    (h : ∀ s k y, call s k = some y → walk s k = y) {s : σ} {acc : ρ} {calls : List (ε × κ)}
    {y : σ × ρ} (hloop : R.loop call s acc calls = some y) :
    calls.foldl (fun x c =>
      let z := walk x.1 c.2
      (z.1, R.combine x.2 c.1 z.2)) (s, acc) = y := by
  induction calls generalizing s acc with
  | nil => exact Option.some.inj hloop
  | cons c calls ih =>
      rw [loop] at hloop
      obtain ⟨z, hz, hrest⟩ := Option.bind_eq_some_iff.mp hloop
      rw [List.foldl_cons, h s c.2 z hz]
      exact ih hrest

/-- The states of a loop all of whose calls return. -/
theorem loop_fst_eq_foldl
    {call : σ → κ → Option (σ × ρ)} (walk : σ → κ → σ)
    (h : ∀ s k y, call s k = some y → walk s k = y.1) {s : σ} {acc : ρ} {calls : List (ε × κ)}
    {y : σ × ρ} (hloop : R.loop call s acc calls = some y) :
    calls.foldl (fun t c => walk t c.2) s = y.1 := by
  induction calls generalizing s acc with
  | nil => exact congrArg Prod.fst (Option.some.inj hloop)
  | cons c calls ih =>
      rw [loop] at hloop
      obtain ⟨z, hz, hrest⟩ := Option.bind_eq_some_iff.mp hloop
      rw [List.foldl_cons, h s c.2 z hz]
      exact ih hrest

theorem runAll_eq_foldl
    {depth : Nat} (walk : σ → κ → σ) (h : ∀ s k y, R.run depth s k = some y → walk s k = y.1)
    {s t : σ} {ks : List κ} (hrun : R.runAll depth s ks = some t) :
    ks.foldl walk s = t := by
  induction ks generalizing s with
  | nil => exact Option.some.inj hrun
  | cons k ks ih =>
      rw [runAll] at hrun
      obtain ⟨y, hy, hrest⟩ := Option.bind_eq_some_iff.mp hrun
      rw [List.foldl_cons, h s k y hy]
      exact ih hrest

end Depth

section Returns

variable {α β : Type*}

/-- The run to a bounded depth returns, as soon as the bound is great enough. -/
def Returns (f : Nat → Option α) (a : α) : Prop :=
  ∃ bound, ∀ depth, bound ≤ depth → f depth = some a

theorem Returns.bind
    {f : Nat → Option α} (g : Nat → α → Option β) {a : α} {b : β} (hf : Returns f a)
    (hg : Returns (fun depth => g depth a) b) :
    Returns (fun depth => (f depth).bind (g depth)) b := by
  obtain ⟨m, hm⟩ := hf
  obtain ⟨n, hn⟩ := hg
  refine ⟨max m n, fun depth hdepth => ?_⟩
  dsimp only
  rw [hm depth (by omega), Option.bind_some]
  exact hn depth (by omega)

theorem Returns.map
    {f : Nat → Option α} {a : α} (hf : Returns f a) (g : α → β) :
    Returns (fun depth => (f depth).map g) (g a) := by
  obtain ⟨m, hm⟩ := hf
  refine ⟨m, fun depth hdepth => ?_⟩
  dsimp only
  rw [hm depth hdepth, Option.map_some]

end Returns

section Termination

/-- A measure that gets smaller with each call that makes further calls. -/
structure Decreases (R : Recursion σ κ ε ρ) (measure : σ → Nat) (Valid : κ → Prop) : Prop where
  returned : ∀ s k t r, Valid k → R.enter s k = (t, .inl r) → measure t ≤ measure s
  called : ∀ s k t acc calls, Valid k → R.enter s k = (t, .inr (acc, calls)) →
    measure t < measure s ∧ ∀ c ∈ calls, Valid c.2
  left : ∀ s k r, measure (R.leave s k r).1 ≤ measure s

variable {R : Recursion σ κ ε ρ} {measure : σ → Nat} {Valid : κ → Prop}

theorem loop_eq_some
    {call : σ → κ → Option (σ × ρ)} {bound : Nat}
    (hcall : ∀ s k, Valid k → measure s < bound →
      ∃ y, call s k = some y ∧ measure y.1 ≤ measure s)
    {s : σ} (hs : measure s < bound) (acc : ρ) {calls : List (ε × κ)}
    (hcalls : ∀ c ∈ calls, Valid c.2) :
    ∃ y, R.loop call s acc calls = some y ∧ measure y.1 ≤ measure s := by
  induction calls generalizing s acc with
  | nil => exact ⟨(s, acc), rfl, Nat.le_refl _⟩
  | cons c calls ih =>
      rw [List.forall_mem_cons] at hcalls
      obtain ⟨y, hy, hle⟩ := hcall s c.2 hcalls.1 hs
      obtain ⟨z, hz, hle'⟩ := ih (Nat.lt_of_le_of_lt hle hs) (R.combine acc c.1 y.2) hcalls.2
      refine ⟨z, ?_, hle'.trans hle⟩
      rw [loop, hy]
      exact hz

/-- The call stack is not deeper than the measure of the state. -/
theorem Decreases.run
    (h : Decreases R measure Valid) {depth : Nat} {s : σ} {k : κ} (hk : Valid k)
    (hs : measure s < depth) :
    ∃ y, R.run depth s k = some y ∧ measure y.1 ≤ measure s := by
  induction depth generalizing s k with
  | zero => omega
  | succ depth ih =>
      rw [Recursion.run]
      rcases henter : R.enter s k with ⟨t, r | ⟨acc, calls⟩⟩
      · exact ⟨(t, r), rfl, h.returned s k t r hk henter⟩
      · obtain ⟨hlt, hvalid⟩ := h.called s k t acc calls hk henter
        have hbound : measure t < depth := by omega
        obtain ⟨y, hy, hle⟩ := loop_eq_some (R := R) (fun _ _ => ih) hbound acc hvalid
        refine ⟨R.leave y.1 k y.2, ?_, (h.left y.1 k y.2).trans (by omega)⟩
        simp only [hy, Option.map_some]

/-- The calls from outside all return. -/
theorem Decreases.runAll
    (h : Decreases R measure Valid) (s : σ) {ks : List κ} (hks : ∀ k ∈ ks, Valid k) :
    ∃ t, Returns (fun depth => R.runAll depth s ks) t := by
  induction ks generalizing s with
  | nil => exact ⟨s, 0, fun _ _ => rfl⟩
  | cons k ks ih =>
      rw [List.forall_mem_cons] at hks
      obtain ⟨y, hy, -⟩ := h.run hks.1 (Nat.lt_succ_self (measure s))
      obtain ⟨t, ht⟩ := ih y.1 hks.2
      have hfirst : Returns (fun depth => R.run depth s k) y :=
        ⟨measure s + 1, fun _ hdepth => run_mono hdepth hy⟩
      exact ⟨t, hfirst.bind (fun depth (y : σ × ρ) => R.runAll depth y.1 ks) ht⟩

end Termination

end Recursion
end AndroidBuild
