import Mathlib.Data.Fintype.Order
import Mathlib.Tactic

/-!
# Following links

A loop that follows links from state to state ends with a result or goes to
one next state.  Over finitely many states it ends exactly when no state that
it reaches lies on a cycle.  A loop that walks along a list ends with the
first result that it finds there.
-/

namespace AndroidBuild
namespace Chain

variable {σ ρ : Type} (step : σ → σ ⊕ ρ)

/-- The loop, for at most `n` rounds. -/
def follow : Nat → σ → Option ρ
  | 0, _ => none
  | n + 1, s =>
      match step s with
      | .inl t => follow n t
      | .inr r => some r

/-- A round goes from `s` to `t`. -/
def Next (s t : σ) : Prop :=
  step s = .inl t

/-- The states that the loop reaches from `s`. -/
def Reaches : σ → σ → Prop :=
  Relation.ReflTransGen (Next step)

/-- The loop from `s` ends after finitely many rounds. -/
def Halts (s : σ) : Prop :=
  ∃ n, (follow step n s).isSome = true

/-- No state comes twice. -/
def Acyclic (s : σ) : Prop :=
  ∀ t, Reaches step s t → ¬ Relation.TransGen (Next step) t t

variable {step}

theorem follow_next
    {s t : σ} (h : Next step s t) (n : Nat) :
    follow step (n + 1) s = follow step n t := by
  rw [follow, h]

/-- A loop ends with `r` when it reaches a state whose round ends with `r`. -/
theorem follow_eq_some_iff
    {s : σ} {r : ρ} :
    (∃ n, follow step n s = some r) ↔ ∃ t, Reaches step s t ∧ step t = .inr r := by
  constructor
  · rintro ⟨n, hn⟩
    induction n generalizing s with
    | zero => cases hn
    | succ n ih =>
        cases hs : step s with
        | inl t =>
            rw [follow_next hs] at hn
            obtain ⟨u, hreach, hu⟩ := ih hn
            exact ⟨u, hreach.head hs, hu⟩
        | inr r' =>
            rw [follow, hs] at hn
            cases hn
            exact ⟨s, .refl, hs⟩
  · rintro ⟨t, hreach, ht⟩
    induction hreach using Relation.ReflTransGen.head_induction_on with
    | refl => exact ⟨1, by rw [follow, ht]⟩
    | head hnext _ ih =>
        obtain ⟨n, hn⟩ := ih
        exact ⟨n + 1, by rw [follow_next hnext, hn]⟩

theorem follow_of_result
    {s : σ} {r : ρ} (h : step s = .inr r) :
    follow step 1 s = some r := by
  rw [follow, h]

theorem halts_of_result
    {s : σ} {r : ρ} (h : step s = .inr r) :
    Halts step s :=
  ⟨1, by rw [follow_of_result h]; rfl⟩

theorem halts_of_next
    {s t : σ} (h : Next step s t) :
    Halts step s ↔ Halts step t := by
  constructor
  · rintro ⟨n, hn⟩
    cases n with
    | zero => cases hn
    | succ n => exact ⟨n, by rwa [follow_next h] at hn⟩
  · rintro ⟨n, hn⟩
    exact ⟨n + 1, by rwa [follow_next h]⟩

theorem Halts.of_reaches
    {s t : σ} (hs : Halts step s) (h : Reaches step s t) :
    Halts step t := by
  induction h with
  | refl => exact hs
  | tail _ hnext ih => exact (halts_of_next hnext).mp ih

/-- From a state on a cycle no number of rounds is enough. -/
theorem follow_of_cycle
    {s : σ} (h : Relation.TransGen (Next step) s s) (n : Nat) :
    follow step n s = none := by
  induction n generalizing s with
  | zero => rfl
  | succ n ih =>
      obtain ⟨t, hnext, hback⟩ := Relation.TransGen.head'_iff.mp h
      rw [follow_next hnext]
      exact ih (Relation.TransGen.tail' hback hnext)

theorem not_halts_of_cycle
    {s : σ} (h : Relation.TransGen (Next step) s s) :
    ¬ Halts step s := by
  rintro ⟨n, hn⟩
  rw [follow_of_cycle h n] at hn
  cases hn

/-- Over finitely many states the loop ends unless it runs into a cycle. -/
theorem halts_iff_acyclic
    [Finite σ] {s : σ} :
    Halts step s ↔ Acyclic step s := by
  constructor
  · intro hs t hreach hcycle
    exact not_halts_of_cycle hcycle (hs.of_reaches hreach)
  · intro hs
    -- the links between the states that are reached
    let back : σ → σ → Prop := fun b a => Reaches step s a ∧ Next step a b
    have hback : ∀ a b, Relation.TransGen back b a →
        Reaches step s a ∧ Relation.TransGen (Next step) a b := by
      intro a b h
      induction h with
      | single h => exact ⟨h.1, .single h.2⟩
      | tail _ h ih => exact ⟨h.1, ih.2.head h.2⟩
    have hirrefl : Std.Irrefl (Relation.TransGen back) :=
      ⟨fun a h => hs a (hback a a h).1 (hback a a h).2⟩
    have hwf : WellFounded (Relation.TransGen back) :=
      Finite.wellFounded_of_trans_of_irrefl _
    suffices H : ∀ t, Reaches step s t → Halts step t from H s .refl
    intro t
    induction t using hwf.induction with
    | _ t ih =>
        intro hreach
        cases ht : step t with
        | inl u =>
            exact (halts_of_next ht).mpr (ih u (.single ⟨hreach, ht⟩) (hreach.tail ht))
        | inr r => exact halts_of_result ht

/-- A longer loop ends with the same result. -/
theorem follow_mono
    {s : σ} {r : ρ} {n : Nat} (h : follow step n s = some r) {k : Nat} (hk : n ≤ k) :
    follow step k s = some r := by
  induction n generalizing s k with
  | zero => cases h
  | succ n ih =>
      obtain ⟨k, rfl⟩ : ∃ j, k = j + 1 := ⟨k - 1, by omega⟩
      cases hs : step s with
      | inl t =>
          rw [follow_next hs] at h ⊢
          exact ih h (by omega)
      | inr r' =>
          rw [follow, hs] at h ⊢
          exact h

theorem follow_unique
    {s : σ} {r r' : ρ} {n k : Nat} (h : follow step n s = some r)
    (h' : follow step k s = some r') :
    r = r' := by
  have hn := follow_mono h (Nat.le_max_left n k)
  have hk := follow_mono h' (Nat.le_max_right n k)
  rw [hn] at hk
  exact Option.some.inj hk

/-- When no state comes twice, a round for each state that has a next one, and one more, are
enough. -/
theorem follow_isSome
    (S : Finset σ) {s : σ} (hS : ∀ t u, Reaches step s t → Next step t u → t ∈ S)
    (hacyclic : Acyclic step s) {n : Nat} (hn : S.card < n) :
    (follow step n s).isSome = true := by
  classical
  induction n generalizing S s with
  | zero => omega
  | succ n ih =>
      cases hs : step s with
      | inr r =>
          rw [follow, hs]
          rfl
      | inl t =>
          have hmem := hS s t .refl hs
          rw [follow_next hs]
          refine ih (S.erase s) (s := t) ?_ ?_ ?_
          · intro u v hreach hnext
            rw [Finset.mem_erase]
            refine ⟨?_, hS u v (hreach.head hs) hnext⟩
            rintro rfl
            exact hacyclic u .refl (Relation.TransGen.head' hs hreach)
          · intro u hreach
            exact hacyclic u (hreach.head hs)
          · rw [Finset.card_erase_of_mem hmem]
            have := Finset.card_pos.mpr ⟨s, hmem⟩
            omega

section Walking

variable {ν : Type}

/-- From `s` on the loop looks at the elements of a list. -/
inductive Walks (step : σ → σ ⊕ ρ) (found : ν → Option ρ) (missing : ρ) : σ → List ν → Prop
  | nil {s : σ} (h : step s = .inr missing) : Walks step found missing s []
  | last {s : σ} {x : ν} (h : step s = .inr ((found x).getD missing)) :
      Walks step found missing s [x]
  | next {s t : σ} {x : ν} {l : List ν}
      (h : step s = (found x).elim (.inl t) .inr) (hrest : Walks step found missing t l) :
      Walks step found missing s (x :: l)

/-- The loop ends with what it finds first. -/
theorem Walks.follow_eq
    {found : ν → Option ρ} {missing : ρ} {s : σ} {l : List ν}
    (h : Walks step found missing s l) {n : Nat} (hn : l.length < n) :
    follow step n s = some ((l.findSome? found).getD missing) := by
  induction h generalizing n with
  | nil h =>
      obtain ⟨n, rfl⟩ : ∃ m, n = m + 1 := ⟨n - 1, by omega⟩
      rw [follow, h]
      rfl
  | @last s x h =>
      obtain ⟨n, rfl⟩ : ∃ m, n = m + 1 := ⟨n - 1, by omega⟩
      rw [follow, h, List.findSome?_cons]
      cases found x <;> rfl
  | @next s t x l h _ ih =>
      rw [List.length_cons] at hn
      obtain ⟨n, rfl⟩ : ∃ m, n = m + 1 := ⟨n - 1, by omega⟩
      rw [follow, h, List.findSome?_cons]
      cases found x with
      | some r => rfl
      | none => exact ih (by omega)

end Walking

end Chain
end AndroidBuild
