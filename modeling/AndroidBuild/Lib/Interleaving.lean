import Mathlib

/-!
# Processes on shared data

A configuration has shared data and a multiset of processes.  In a step one
process acts on the shared data and is replaced by the processes that it leaves:
itself at its next place, those that it starts, or none.  Processes may join at any
time.  The rules of this module lead from what a step of one process does to what
holds in every run, in any order of the steps.
-/

namespace AndroidBuild
namespace Interleaving

variable {S P : Type}

structure Config (S P : Type) where
  shared : S
  procs : Multiset P

section Totals

/-- The sum of a weight over the processes. -/
def total (w : P → Nat) (procs : Multiset P) : Nat :=
  (procs.map w).sum

variable {w : P → Nat} {procs : Multiset P} {p : P}

@[simp] theorem total_cons :
    total w (p ::ₘ procs) = w p + total w procs := by
  rw [total, Multiset.map_cons, Multiset.sum_cons, total]

@[simp] theorem total_coe_add
    (left : List P) :
    total w (left + procs) = (left.map w).sum + total w procs := by
  rw [total, Multiset.map_add, Multiset.sum_add, Multiset.map_coe, Multiset.sum_coe, total]

theorem weight_le_total
    (w : P → Nat) (h : p ∈ procs) :
    w p ≤ total w procs :=
  Multiset.le_sum_of_mem (Multiset.mem_map_of_mem w h)

theorem total_eq_zero
    (h : ∀ p ∈ procs, w p = 0) :
    total w procs = 0 := by
  refine Multiset.sum_eq_zero fun x hx => ?_
  obtain ⟨p, hp, rfl⟩ := Multiset.mem_map.mp hx
  exact h p hp

end Totals

section Runs

variable (next : S → P → Option (S × List P)) (joins : P → Prop)

/-- One process acts. -/
inductive Step : Config S P → Config S P → Prop
  | act {s s' : S} {p : P} {left : List P} {others : Multiset P}
      (h : next s p = some (s', left)) :
      Step ⟨s, p ::ₘ others⟩ ⟨s', left + others⟩

/-- One process acts or joins. -/
inductive Event : Config S P → Config S P → Prop
  | step {c d : Config S P} (h : Step next c d) : Event c d
  | join {s : S} {procs : Multiset P} {p : P} (h : joins p) :
      Event ⟨s, procs⟩ ⟨s, p ::ₘ procs⟩

def Reachable (init : S) : Config S P → Prop :=
  Relation.ReflTransGen (Event next joins) ⟨init, 0⟩

/-- No process can act. -/
def Stuck (c : Config S P) : Prop :=
  ∀ d, ¬ Step next c d

/-- The processes act one after the other; each number is the place of the one that acts, and what
it leaves goes to the front. -/
def runSchedule : List Nat → S × List P → Option (S × List P)
  | [], c => some c
  | i :: schedule, (s, procs) =>
      match procs[i]? with
      | none => none
      | some p =>
          match next s p with
          | none => none
          | some (s', left) => runSchedule schedule (s', left ++ procs.eraseIdx i)

end Runs

section Rules

variable {next : S → P → Option (S × List P)} {joins : P → Prop} {init : S} {c : Config S P}

theorem Stuck.next_eq_none
    (h : Stuck next c) {p : P} (hp : p ∈ c.procs) :
    next c.shared p = none := by
  obtain ⟨s, procs⟩ := c
  obtain ⟨others, rfl⟩ := Multiset.exists_cons_of_mem hp
  cases hnext : next s p with
  | none => rfl
  | some r => exact absurd (.act hnext) (h _)

theorem stuck_of_forall
    {s : S} {procs : Multiset P} (h : ∀ p ∈ procs, next s p = none) :
    Stuck next ⟨s, procs⟩ := by
  intro d hstep
  obtain @⟨s, s', p, left, others, hnext⟩ := hstep
  rw [h p (Multiset.mem_cons_self p others)] at hnext
  cases hnext

theorem reachable_joined
    {procs : List P} (h : ∀ p ∈ procs, joins p) :
    Reachable next joins init ⟨init, procs⟩ := by
  induction procs with
  | nil => exact .refl
  | cons p procs ih =>
      obtain ⟨hp, hprocs⟩ := List.forall_mem_cons.mp h
      exact .tail (ih hprocs) (.join hp)

theorem Reachable.runSchedule
    {schedule : List Nat} {s s' : S} {procs procs' : List P}
    (h : Reachable next joins init ⟨s, procs⟩)
    (hrun : Interleaving.runSchedule next schedule (s, procs) = some (s', procs')) :
    Reachable next joins init ⟨s', procs'⟩ := by
  induction schedule generalizing s procs with
  | nil =>
      cases hrun
      exact h
  | cons i schedule ih =>
      rw [Interleaving.runSchedule] at hrun
      split at hrun
      · cases hrun
      · rename_i p hp
        split at hrun
        · cases hrun
        · rename_i s₁ left hnext
          refine ih (.tail h (.step ?_)) hrun
          obtain ⟨hi, rfl⟩ := List.getElem?_eq_some_iff.mp hp
          rw [← Multiset.coe_eq_coe.mpr (List.getElem_cons_eraseIdx_perm hi),
            ← Multiset.cons_coe, ← Multiset.coe_add]
          exact .act hnext

/-- What a step takes from the processes it gives to the shared data: the weights of the
processes and the credit of the data are the debit of the data in every run. -/
theorem Reachable.account
    (credit debit : S → Nat) (w : P → Nat) (hinit : credit init = debit init)
    (hjoin : ∀ p, joins p → w p = 0)
    (hstep : ∀ s p s' left, next s p = some (s', left) →
      credit s' + (left.map w).sum + debit s = credit s + w p + debit s')
    (h : Reachable next joins init c) :
    credit c.shared + total w c.procs = debit c.shared := by
  induction h with
  | refl => exact hinit
  | tail _ hevent ih =>
      cases hevent with
      | @join s procs p hp =>
          rw [total_cons, hjoin p hp, Nat.zero_add]
          exact ih
      | step hact =>
          obtain @⟨s, s', p, left, others, hnext⟩ := hact
          have hbalance := hstep s p s' left hnext
          simp only [total_cons, total_coe_add] at ih ⊢
          omega

/-- Each process asserts something about the shared data.  A step keeps the assertions of the other
processes and establishes, from its own, the assertions of the processes that it leaves. -/
theorem Reachable.asserted
    (inv : S → Prop) (asserts : S → P → Prop) (hinit : inv init)
    (hjoin : ∀ s p, joins p → asserts s p)
    (hstep : ∀ s p s' left, next s p = some (s', left) → inv s → asserts s p →
      inv s' ∧ (∀ q, asserts s q → asserts s' q) ∧ ∀ q ∈ left, asserts s' q)
    (h : Reachable next joins init c) :
    inv c.shared ∧ ∀ p ∈ c.procs, asserts c.shared p := by
  induction h with
  | refl => exact ⟨hinit, fun p hp => absurd hp (Multiset.notMem_zero p)⟩
  | tail _ hevent ih =>
      cases hevent with
      | @join s procs p hp =>
          exact ⟨ih.1, Multiset.forall_mem_cons.mpr ⟨hjoin s p hp, ih.2⟩⟩
      | step hact =>
          obtain @⟨s, s', p, left, others, hnext⟩ := hact
          obtain ⟨hp, hothers⟩ := Multiset.forall_mem_cons.mp ih.2
          obtain ⟨hinv, hkeeps, hleft⟩ := hstep s p s' left hnext ih.1 hp
          refine ⟨hinv, fun q hq => ?_⟩
          rcases Multiset.mem_add.mp hq with hq | hq
          · exact hleft q hq
          · exact hkeeps q (hothers q hq)

/-- Runs in which no process joins end when every step leaves less to do. -/
theorem wellFounded_step
    (w : P → Nat)
    (hstep : ∀ s p s' left, next s p = some (s', left) → (left.map w).sum < w p) :
    WellFounded fun d c => Step next c d := by
  refine Subrelation.wf ?_ (measure fun c : Config S P => total w c.procs).wf
  rintro _ _ ⟨hnext⟩
  have hless := hstep _ _ _ _ hnext
  change total w _ < total w _
  rw [total_cons, total_coe_add]
  omega

end Rules

end Interleaving
end AndroidBuild
