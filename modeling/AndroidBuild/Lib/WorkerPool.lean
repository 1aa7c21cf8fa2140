import Mathlib.Tactic
import Mathlib.Algebra.BigOperators.Group.Multiset.Basic
import Mathlib.Logic.Relation

/-!
# Worker threads over a shared queue

Workers take jobs from a shared queue, compute without touching shared data,
and then write the results of the job one at a time.  Taking a job and writing
one result are atomic; everything else may be interleaved in any way.  A worker
whose computation or whose write raises an exception stops.

When all workers have left regularly, every job has been taken once and the
shared data is the result of writing all results in some order.
-/

namespace AndroidBuild
namespace WorkerPool

universe u

variable {J E S W : Type u}

inductive Worker (J E : Type u) where
  | ready
  | holding (job : J)
  | writing (todo : List E)
  | left
  | failed

/-- The shared data and the place of every worker; `taken` is the history of the queue. -/
structure Pool (J E S W : Type u) where
  queue : List J
  taken : List J
  worker : W → Worker J E
  shared : S

variable (compute : J → Option (List E)) (write : S → E → Option S)

section Steps

variable [DecidableEq W]

def Pool.move (p : Pool J E S W) (w : W) (s : Worker J E) : Pool J E S W :=
  { p with worker := Function.update p.worker w s }

/-- One step of one worker. -/
inductive Step : Pool J E S W → Pool J E S W → Prop where
  | pop {p : Pool J E S W} {w : W} {j : J} {rest : List J}
      (hw : p.worker w = .ready) (hq : p.queue = j :: rest) :
      Step p { p.move w (.holding j) with queue := rest, taken := p.taken ++ [j] }
  | compute {p : Pool J E S W} {w : W} {j : J} {todo : List E}
      (hw : p.worker w = .holding j) (hj : compute j = some todo) :
      Step p (p.move w (.writing todo))
  | raise {p : Pool J E S W} {w : W} {j : J}
      (hw : p.worker w = .holding j) (hj : compute j = none) :
      Step p (p.move w .failed)
  | write {p : Pool J E S W} {w : W} {e : E} {todo : List E} {s : S}
      (hw : p.worker w = .writing (e :: todo)) (hs : write p.shared e = some s) :
      Step p { p.move w (.writing todo) with shared := s }
  | reject {p : Pool J E S W} {w : W} {e : E} {todo : List E}
      (hw : p.worker w = .writing (e :: todo)) (hs : write p.shared e = none) :
      Step p (p.move w .failed)
  | again {p : Pool J E S W} {w : W} (hw : p.worker w = .writing []) :
      Step p (p.move w .ready)
  | leave {p : Pool J E S W} {w : W} (hw : p.worker w = .ready) (hq : p.queue = []) :
      Step p (p.move w .left)

end Steps

/-- The pool when the threads are started. -/
def start (queue : List J) (shared : S) : Pool J E S W where
  queue := queue
  taken := []
  worker := fun _ => .ready
  shared := shared

section Accounts

/-- The results of a job. -/
def results (j : J) : Multiset E :=
  (compute j).getD []

/-- What a worker has still to write. -/
def pending : Worker J E → Multiset E
  | .holding j => results compute j
  | .writing todo => todo
  | _ => 0

variable {compute} {write}

@[simp] theorem pending_ready :
    pending compute (.ready : Worker J E) = 0 := by
  rfl

@[simp] theorem pending_left :
    pending compute (.left : Worker J E) = 0 := by
  rfl

@[simp] theorem pending_holding
    (j : J) :
    pending compute (.holding j) = results compute j := by
  rfl

@[simp] theorem pending_writing
    (todo : List E) :
    pending compute (.writing todo : Worker J E) = (todo : Multiset E) := by
  rfl

theorem sum_results
    (queue : List J) :
    (queue.map (results compute)).sum =
      ((queue.flatMap (fun j => (compute j).getD []) : List E) : Multiset E) := by
  induction queue with
  | nil => rfl
  | cons j queue ih =>
      rw [List.map_cons, List.sum_cons, ih, List.flatMap_cons, ← Multiset.coe_add]
      rfl

section Moves

variable [DecidableEq W]

theorem not_failed_of_move
    {p : Pool J E S W} {w : W} {s : Worker J E}
    (h : ∀ v, Function.update p.worker w s v ≠ .failed) (hw : p.worker w ≠ .failed) :
    ∀ v, p.worker v ≠ .failed := by
  intro v
  by_cases hv : v = w
  · rw [hv]
    exact hw
  · have := h v
    rwa [Function.update_of_ne hv] at this

/-- The jobs that other workers hold are not touched. -/
theorem computed_move
    {p : Pool J E S W} {w : W} {s : Worker J E}
    (h : ∀ j ∈ p.taken, (∃ v, p.worker v = .holding j) ∨ (compute j).isSome = true)
    (hw : ∀ j, p.worker w = .holding j → (compute j).isSome = true) :
    ∀ j ∈ p.taken, (∃ v, Function.update p.worker w s v = .holding j) ∨
      (compute j).isSome = true := by
  intro j hj
  rcases h j hj with ⟨v, hv⟩ | hsome
  · by_cases hvw : v = w
    · exact Or.inr (hw j (hvw ▸ hv))
    · exact Or.inl ⟨v, by rw [Function.update_of_ne hvw]; exact hv⟩
  · exact Or.inr hsome

/-- A worker that has not left leaves only when the queue is empty. -/
theorem left_move
    {p : Pool J E S W} {w : W} {s : Worker J E} {queue : List J}
    (h : ∀ v, p.worker v = .left → p.queue = []) (hs : s ≠ .left)
    (hqueue : p.queue = [] → queue = []) :
    ∀ v, Function.update p.worker w s v = .left → queue = [] := by
  intro v hv
  by_cases hvw : v = w
  · subst hvw
    rw [Function.update_self] at hv
    exact absurd hv hs
  · rw [Function.update_of_ne hvw] at hv
    exact hqueue (h v hv)

end Moves

variable [Fintype W]

theorem sum_update
    {f : Worker J E → Multiset E} [DecidableEq W] (worker : W → Worker J E) (w : W)
    (s : Worker J E) :
    ∑ v, f (Function.update worker w s v) + f (worker w) = ∑ v, f (worker v) + f s := by
  have hrest : ∑ v ∈ Finset.univ.erase w, f (Function.update worker w s v) =
      ∑ v ∈ Finset.univ.erase w, f (worker v) := by
    apply Finset.sum_congr rfl
    intro v hv
    rw [Function.update_of_ne (Finset.ne_of_mem_erase hv)]
  rw [← Finset.add_sum_erase Finset.univ _ (Finset.mem_univ w),
    ← Finset.add_sum_erase Finset.univ (fun v => f (worker v)) (Finset.mem_univ w), hrest,
    Function.update_self, add_right_comm, add_comm (f s), add_right_comm]

variable (compute write) in
/-- While no worker has failed, all results are written, pending or still in the queue. -/
structure Account (queue₀ : List J) (shared₀ : S) (p : Pool J E S W) : Prop where
  taken : p.taken ++ p.queue = queue₀
  left : ∀ w, p.worker w = .left → p.queue = []
  computed : (∀ w, p.worker w ≠ .failed) →
    ∀ j ∈ p.taken, (∃ w, p.worker w = .holding j) ∨ (compute j).isSome = true
  written : (∀ w, p.worker w ≠ .failed) → ∃ trace : List E,
    trace.foldlM write shared₀ = some p.shared ∧
    (trace : Multiset E) + ∑ w, pending compute (p.worker w) +
        (p.queue.map (results compute)).sum =
      (queue₀.map (results compute)).sum

theorem account_start
    (queue : List J) (shared : S) :
    Account compute write queue shared (start queue shared : Pool J E S W) where
  taken := by simp [start]
  left := by
    intro w hw
    cases hw
  computed := by simp [start]
  written := by
    intro _
    exact ⟨[], rfl, by simp [start, pending]⟩

variable [DecidableEq W] {queue₀ : List J} {shared₀ : S}

/-- A move that keeps the shared data and what is pending. -/
theorem written_move
    {p : Pool J E S W} (h : Account compute write queue₀ shared₀ p) {w : W} {s : Worker J E}
    (hw : p.worker w ≠ .failed) (hpending : pending compute s = pending compute (p.worker w))
    (hfailed : ∀ v, Function.update p.worker w s v ≠ .failed) :
    ∃ trace : List E, trace.foldlM write shared₀ = some p.shared ∧
      (trace : Multiset E) + ∑ v, pending compute (Function.update p.worker w s v) +
          (p.queue.map (results compute)).sum =
        (queue₀.map (results compute)).sum := by
  obtain ⟨trace, htrace, hsum⟩ := h.written (not_failed_of_move hfailed hw)
  have hupdate := sum_update (f := pending compute) p.worker w s
  rw [hpending, add_left_inj] at hupdate
  exact ⟨trace, htrace, by rw [hupdate, hsum]⟩

/-- A worker that fails. -/
theorem Account.fail
    {p : Pool J E S W} (h : Account compute write queue₀ shared₀ p) (w : W) :
    Account compute write queue₀ shared₀ (p.move w .failed) where
  taken := h.taken
  left := left_move h.left (by simp) id
  computed := by
    intro hfailed
    exact absurd (by simp [Pool.move]) (hfailed w)
  written := by
    intro hfailed
    exact absurd (by simp [Pool.move]) (hfailed w)

theorem Account.step
    {p p' : Pool J E S W} (h : Account compute write queue₀ shared₀ p)
    (hstep : Step compute write p p') :
    Account compute write queue₀ shared₀ p' := by
  cases hstep with
  | @pop w j rest hw hq =>
      refine ⟨?_, ?_, ?_, ?_⟩
      · rw [← h.taken, hq]
        simp
      · refine left_move h.left (by simp) ?_
        intro hnil
        rw [hq] at hnil
        cases hnil
      · intro hfailed k hk
        have hcomputed := h.computed (not_failed_of_move hfailed (by rw [hw]; simp))
        rcases List.mem_append.mp hk with hk | hk
        · exact computed_move hcomputed (by rw [hw]; simp) k hk
        · rw [List.mem_singleton.mp hk]
          exact Or.inl ⟨w, Function.update_self _ _ _⟩
      · intro hfailed
        obtain ⟨trace, htrace, hsum⟩ := h.written (not_failed_of_move hfailed (by rw [hw]; simp))
        refine ⟨trace, htrace, ?_⟩
        have hupdate := sum_update (f := pending compute) p.worker w (.holding j)
        rw [hw] at hupdate
        rw [pending_ready, add_zero, pending_holding] at hupdate
        rw [← hsum, hq, List.map_cons, List.sum_cons]
        simp only [Pool.move]
        rw [hupdate, ← add_assoc, ← add_assoc]
  | @compute w j todo hw hj =>
      refine ⟨h.taken, left_move h.left (by simp) id, ?_, ?_⟩
      · intro hfailed
        refine computed_move (h.computed (not_failed_of_move hfailed (by rw [hw]; simp))) ?_
        intro k hk
        rw [hw] at hk
        cases hk
        rw [hj]
        rfl
      · intro hfailed
        exact written_move h (by rw [hw]; simp) (by rw [hw]; simp [pending, results, hj]) hfailed
  | @raise w j hw hj => exact h.fail w
  | @write w e todo s hw hs =>
      refine ⟨h.taken, left_move h.left (by simp) id, ?_, ?_⟩
      · intro hfailed
        exact computed_move (h.computed (not_failed_of_move hfailed (by rw [hw]; simp)))
          (by rw [hw]; simp)
      · intro hfailed
        obtain ⟨trace, htrace, hsum⟩ := h.written (not_failed_of_move hfailed (by rw [hw]; simp))
        refine ⟨trace ++ [e], ?_, ?_⟩
        · rw [List.foldlM_append, htrace]
          simpa using hs
        · have hupdate := sum_update (f := pending compute) p.worker w (.writing todo)
          rw [hw] at hupdate
          rw [pending_writing, pending_writing, ← Multiset.cons_coe, ← Multiset.singleton_add,
            ← add_assoc, add_left_inj] at hupdate
          rw [← hsum, ← hupdate, ← Multiset.coe_add, Multiset.coe_singleton]
          simp only [Pool.move]
          rw [add_assoc (trace : Multiset E), add_comm ({e} : Multiset E)]
  | @reject w e todo hw hs => exact h.fail w
  | @again w hw =>
      refine ⟨h.taken, left_move h.left (by simp) id, ?_, ?_⟩
      · intro hfailed
        exact computed_move (h.computed (not_failed_of_move hfailed (by rw [hw]; simp)))
          (by rw [hw]; simp)
      · intro hfailed
        exact written_move h (by rw [hw]; simp) (by rw [hw]; simp [pending]) hfailed
  | @leave w hw hq =>
      refine ⟨h.taken, fun _ _ => hq, ?_, ?_⟩
      · intro hfailed
        exact computed_move (h.computed (not_failed_of_move hfailed (by rw [hw]; simp)))
          (by rw [hw]; simp)
      · intro hfailed
        exact written_move h (by rw [hw]; simp) (by rw [hw]; simp [pending]) hfailed

/-- Every run keeps the account. -/
theorem Account.run
    {p p' : Pool J E S W} (h : Account compute write queue₀ shared₀ p)
    (hrun : Relation.ReflTransGen (Step compute write) p p') :
    Account compute write queue₀ shared₀ p' := by
  induction hrun with
  | refl => exact h
  | tail _ hstep ih => exact ih.step hstep

/-- When all workers have left, every job was taken once and computed, and the shared data
comes from writing all results in some order. -/
theorem run_left
    [Nonempty W] {p : Pool J E S W}
    (hrun : Relation.ReflTransGen (Step compute write) (start queue₀ shared₀) p)
    (hleft : ∀ w, p.worker w = .left) :
    p.taken = queue₀ ∧ (∀ j ∈ queue₀, (compute j).isSome = true) ∧
      ∃ trace : List E, trace.foldlM write shared₀ = some p.shared ∧
        trace.Perm (queue₀.flatMap (fun j => (compute j).getD [])) := by
  have h : Account compute write queue₀ shared₀ p := (account_start queue₀ shared₀).run hrun
  have hfailed : ∀ w, p.worker w ≠ .failed := by
    intro w
    rw [hleft w]
    simp
  have hqueue : p.queue = [] := h.left (Classical.arbitrary W) (hleft _)
  have htaken : p.taken = queue₀ := by
    have := h.taken
    rwa [hqueue, List.append_nil] at this
  refine ⟨htaken, ?_, ?_⟩
  · intro j hj
    rw [← htaken] at hj
    rcases h.computed hfailed j hj with ⟨w, hw⟩ | hsome
    · rw [hleft w] at hw
      cases hw
    · exact hsome
  · obtain ⟨trace, htrace, hsum⟩ := h.written hfailed
    refine ⟨trace, htrace, ?_⟩
    rw [← Multiset.coe_eq_coe]
    have hpending : ∑ w, pending compute (p.worker w) = 0 := by
      simp [hleft]
    rw [hpending, hqueue] at hsum
    simp only [add_zero, List.map_nil, List.sum_nil] at hsum
    rw [hsum, sum_results]

end Accounts

section Sequential

variable {compute} {write} [DecidableEq W]

/-- One worker writes all results of its job. -/
theorem run_writes
    {p : Pool J E S W} {w : W} {todo : List E} {s : S} (hw : p.worker w = .writing todo)
    (hs : todo.foldlM write p.shared = some s) :
    Relation.ReflTransGen (Step compute write) p { p.move w .ready with shared := s } := by
  induction todo generalizing p with
  | nil =>
      cases hs
      exact Relation.ReflTransGen.single (Step.again hw)
  | cons e todo ih =>
      rw [List.foldlM_cons] at hs
      obtain ⟨s₁, hs₁, hrest⟩ := Option.bind_eq_some_iff.mp hs
      refine Relation.ReflTransGen.head (Step.write hw hs₁) ?_
      have hnext := ih (p := { p.move w (.writing todo) with shared := s₁ })
        (by simp [Pool.move]) hrest
      simpa [Pool.move] using hnext

/-- One worker works off the queue. -/
theorem run_queue
    {p : Pool J E S W} {w : W} {s : S} (hw : p.worker w = .ready)
    (hcompute : ∀ j ∈ p.queue, (compute j).isSome = true)
    (hs : (p.queue.flatMap (fun j => (compute j).getD [])).foldlM write p.shared = some s) :
    Relation.ReflTransGen (Step compute write) p
      { p with queue := [], taken := p.taken ++ p.queue, shared := s } := by
  obtain ⟨queue, taken, worker, shared⟩ := p
  simp only at hw hcompute hs ⊢
  induction queue generalizing taken shared with
  | nil =>
      cases hs
      rw [List.append_nil]
  | cons j queue ih =>
      rw [List.forall_mem_cons] at hcompute
      obtain ⟨todo, htodo⟩ := Option.isSome_iff_exists.mp hcompute.1
      rw [List.flatMap_cons, List.foldlM_append, htodo] at hs
      obtain ⟨s₁, hs₁, hrest⟩ := Option.bind_eq_some_iff.mp hs
      refine Relation.ReflTransGen.head (Step.pop (w := w) hw rfl) ?_
      refine Relation.ReflTransGen.head (Step.compute (w := w) (Function.update_self _ _ _) htodo) ?_
      refine (run_writes (w := w) (Function.update_self _ _ _) hs₁).trans ?_
      have hworker : Function.update worker w .ready = worker := by
        rw [← hw, Function.update_eq_self]
      have hnext := ih (taken ++ [j]) s₁ hcompute.2 hrest
      simpa [Pool.move, hworker] using hnext

/-- All workers leave an empty queue. -/
theorem run_leave
    [Fintype W] {p : Pool J E S W} (hqueue : p.queue = []) (hready : ∀ w, p.worker w = .ready) :
    Relation.ReflTransGen (Step compute write) p { p with worker := fun _ => .left } := by
  suffices H : ∀ ws : Finset W, Relation.ReflTransGen (Step compute write) p
      { p with worker := fun w => if w ∈ ws then .left else .ready } by
    simpa using H Finset.univ
  intro ws
  induction ws using Finset.induction_on with
  | empty =>
      have hworker : p.worker = fun _ => .ready := funext hready
      simp only [Finset.notMem_empty, if_false, ← hworker]
      exact Relation.ReflTransGen.refl
  | insert w ws hw ih =>
      refine ih.tail ?_
      have hready' : (if w ∈ ws then (Worker.left : Worker J E) else .ready) = .ready := if_neg hw
      have hstep : Step compute write
          { p with worker := fun v => if v ∈ ws then Worker.left else Worker.ready } _ :=
        Step.leave hready' hqueue
      have hworker : (fun v => if v ∈ insert w ws then Worker.left else Worker.ready) =
          Function.update (fun v => if v ∈ ws then (Worker.left : Worker J E) else Worker.ready)
            w .left := by
        funext v
        by_cases hv : v = w
        · simp [hv]
        · simp [hv, Finset.mem_insert]
      rw [hworker]
      exact hstep

/-- A run in which one worker does all jobs. -/
theorem exists_run
    [Fintype W] (w : W) {queue : List J} (shared : S) {s : S}
    (hcompute : ∀ j ∈ queue, (compute j).isSome = true)
    (hs : (queue.flatMap (fun j => (compute j).getD [])).foldlM write shared = some s) :
    ∃ p : Pool J E S W, Relation.ReflTransGen (Step compute write) (start queue shared) p ∧
      (∀ v, p.worker v = .left) ∧ p.shared = s := by
  refine ⟨⟨[], queue, fun _ => .left, s⟩, ?_, fun _ => rfl, rfl⟩
  refine (run_queue (p := start queue shared) (w := w) rfl hcompute hs).trans ?_
  exact run_leave rfl (fun _ => rfl)

end Sequential

end WorkerPool
end AndroidBuild
