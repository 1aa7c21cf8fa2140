import Mathlib.Tactic

/-!
# Depth-first visits of an acyclic graph

`postOrder` lists the visits of a depth-first search that does not remember
the nodes it has seen, every node after its children.  `visitAll` runs a step
for the first visit of each node.  A numbering `rank` that decreases along the
edges witnesses that the graph is acyclic.
-/

namespace AndroidBuild
namespace PostOrder

universe u v

variable {α : Type u} {σ : Type v}

section PostOrder

variable (children : α → List α)

/-- The visits below a node, down to the given depth. -/
def postOrder : Nat → α → List α
  | 0, n => [n]
  | k + 1, n => (children n).flatMap (postOrder k) ++ [n]

/-- A numbering that decreases along every edge. -/
def Ranked (rank : α → Nat) : Prop :=
  ∀ n, ∀ c ∈ children n, rank c < rank n

variable {children} {rank : α → Nat}

/-- From the rank of the node on, the depth does not matter. -/
theorem postOrder_eq
    (h : Ranked children rank) {k : Nat} {n : α} (hk : rank n ≤ k) :
    postOrder children k n = (children n).flatMap (postOrder children k) ++ [n] := by
  induction k generalizing n with
  | zero =>
      have hnil : children n = [] := by
        rw [List.eq_nil_iff_forall_not_mem]
        intro c hc
        have := h n c hc
        omega
      rw [hnil]
      rfl
  | succ k ih =>
      rw [postOrder, List.append_left_inj]
      refine List.flatMap_congr ?_
      intro c hc
      have := h n c hc
      rw [ih (by omega), postOrder]

theorem self_mem_postOrder (k : Nat) (n : α) :
    n ∈ postOrder children k n := by
  cases k with
  | zero => simp [postOrder]
  | succ k => simp [postOrder]

/-- Every visited node has its children visited. -/
theorem children_mem_postOrder
    (h : Ranked children rank) {k : Nat} {n m : α} (hk : rank n ≤ k)
    (hm : m ∈ postOrder children k n) {c : α} (hc : c ∈ children m) :
    c ∈ postOrder children k n := by
  induction k generalizing n m with
  | zero =>
      rw [postOrder, List.mem_singleton] at hm
      subst hm
      have := h m c hc
      omega
  | succ k ih =>
      rw [postOrder, List.mem_append, List.mem_singleton, List.mem_flatMap] at hm ⊢
      rcases hm with ⟨d, hd, hmd⟩ | rfl
      · have := h n d hd
        exact Or.inl ⟨d, hd, ih (by omega) hmd hc⟩
      · exact Or.inl ⟨c, hc, self_mem_postOrder k c⟩

/-- What is closed under children and has a node has everything below it. -/
theorem postOrder_subset
    {P : α → Prop} (hclosed : ∀ m, P m → ∀ c ∈ children m, P c) {k : Nat} {n : α} (hn : P n) :
    ∀ m ∈ postOrder children k n, P m := by
  induction k generalizing n with
  | zero =>
      intro m hm
      rw [postOrder, List.mem_singleton] at hm
      exact hm ▸ hn
  | succ k ih =>
      intro m hm
      rw [postOrder, List.mem_append, List.mem_singleton, List.mem_flatMap] at hm
      rcases hm with ⟨c, hc, hmc⟩ | rfl
      · exact ih (hclosed n hn c hc) m hmc
      · exact hn

variable (children) in
/-- The children of every node come before it. -/
def ChildrenFirst (l : List α) : Prop :=
  ∀ before m after, l = before ++ m :: after → ∀ c ∈ children m, c ∈ before

theorem ChildrenFirst.append
    {l l' : List α} (h : ChildrenFirst children l)
    (h' : ∀ before m after, l' = before ++ m :: after → ∀ c ∈ children m, c ∈ l ∨ c ∈ before) :
    ChildrenFirst children (l ++ l') := by
  intro before m after hsplit c hc
  rw [List.append_eq_append_iff] at hsplit
  rcases hsplit with ⟨rest, hbefore, hrest⟩ | ⟨rest, hfirst, hrest⟩
  · rw [hbefore, List.mem_append]
    exact h' rest m after hrest c hc
  · cases rest with
    | nil =>
        rw [List.append_nil] at hfirst
        rcases h' [] m after hrest.symm c hc with hmem | hmem
        · exact hfirst ▸ hmem
        · cases hmem
    | cons x rest =>
        rw [List.cons_append, List.cons.injEq] at hrest
        obtain ⟨rfl, _⟩ := hrest
        exact h before m rest hfirst c hc

/-- The children of a node are visited before it. -/
theorem childrenFirst_postOrder
    (h : Ranked children rank) {k : Nat} {n : α} (hk : rank n ≤ k) :
    ChildrenFirst children (postOrder children k n) := by
  induction k generalizing n with
  | zero =>
      intro before m after hsplit c hc
      have hm : m ∈ postOrder children 0 n := by simp [hsplit]
      rw [postOrder, List.mem_singleton] at hm
      subst hm
      have := h m c hc
      omega
  | succ k ih =>
      have hlist : ∀ l : List α, (∀ d ∈ l, rank d ≤ k) →
          ChildrenFirst children (l.flatMap (postOrder children k)) := by
        intro l
        induction l with
        | nil =>
            intro _ before m after hsplit
            simp at hsplit
        | cons d l ihl =>
            intro hranks
            rw [List.forall_mem_cons] at hranks
            rw [List.flatMap_cons]
            refine (ih hranks.1).append ?_
            intro before m after hsplit c hc
            exact Or.inr (ihl hranks.2 before m after hsplit c hc)
      have hranks : ∀ d ∈ children n, rank d ≤ k := by
        intro d hd
        have := h n d hd
        omega
      rw [postOrder]
      refine (hlist (children n) hranks).append ?_
      intro before m after hsplit c hc
      have hm : m ∈ [n] := by simp [hsplit]
      rw [List.mem_singleton] at hm
      subst hm
      exact Or.inl (List.mem_flatMap.mpr ⟨c, hc, self_mem_postOrder k c⟩)

/-- A node below another has a smaller rank. -/
theorem rank_le_of_mem_postOrder
    (h : Ranked children rank) {k : Nat} {n m : α} (hm : m ∈ postOrder children k n) :
    rank m ≤ rank n := by
  induction k generalizing n with
  | zero =>
      rw [postOrder, List.mem_singleton] at hm
      rw [hm]
  | succ k ih =>
      rw [postOrder, List.mem_append, List.mem_singleton, List.mem_flatMap] at hm
      rcases hm with ⟨c, hc, hmc⟩ | rfl
      · exact (ih hmc).trans (le_of_lt (h n c hc))
      · exact le_refl _

end PostOrder

section Visit

variable [DecidableEq α]

/-- Visit a node: the step runs the first time. -/
def visit (step : σ → α → σ) (s : List α × σ) (n : α) : List α × σ :=
  if n ∈ s.1 then s else (n :: s.1, step s.2 n)

def visitAll (step : σ → α → σ) (s : List α × σ) (l : List α) : List α × σ :=
  l.foldl (visit step) s

variable {step : σ → α → σ} {s : List α × σ}

@[simp] theorem visitAll_nil :
    visitAll step s [] = s := by
  rfl

@[simp] theorem visitAll_append (l l' : List α) :
    visitAll step s (l ++ l') = visitAll step (visitAll step s l) l' := by
  simp [visitAll]

theorem visitAll_singleton (n : α) :
    visitAll step s [n] = visit step s n := by
  rfl

theorem mem_visit
    {n m : α} :
    m ∈ (visit step s n).1 ↔ m = n ∨ m ∈ s.1 := by
  unfold visit
  split_ifs with h
  · constructor
    · exact Or.inr
    · rintro (rfl | hm)
      · exact h
      · exact hm
  · simp

theorem mem_visitAll
    {l : List α} {m : α} :
    m ∈ (visitAll step s l).1 ↔ m ∈ l ∨ m ∈ s.1 := by
  induction l generalizing s with
  | nil => simp
  | cons n l ih =>
      show m ∈ (visitAll step (visit step s n) l).1 ↔ _
      rw [ih, mem_visit, List.mem_cons]
      tauto

/-- Nodes that have been visited are skipped. -/
theorem visitAll_of_subset
    {l : List α} (h : ∀ n ∈ l, n ∈ s.1) :
    visitAll step s l = s := by
  induction l with
  | nil => rfl
  | cons n l ih =>
      rw [List.forall_mem_cons] at h
      show visitAll step (visit step s n) l = s
      rw [visit, if_pos h.1]
      exact ih h.2

/-- What every step keeps holds after all visits. -/
theorem visitAll_induction
    (P : List α → σ → Prop) (hs : P s.1 s.2) {l : List α}
    (hstep : ∀ n ∈ l, ∀ done t, n ∉ done → P done t → P (n :: done) (step t n)) :
    P (visitAll step s l).1 (visitAll step s l).2 := by
  induction l generalizing s with
  | nil => exact hs
  | cons n l ih =>
      show P (visitAll step (visit step s n) l).1 (visitAll step (visit step s n) l).2
      rw [List.forall_mem_cons] at hstep
      refine ih ?_ hstep.2
      unfold visit
      split_ifs with h
      · exact hs
      · exact hstep.1 s.1 s.2 h hs

/-- A part of the state that the steps compute from itself. -/
theorem visitAll_map
    {τ : Type*} {step' : τ → α → τ} (g : σ → τ) (hg : ∀ t n, g (step t n) = step' (g t) n)
    (l : List α) :
    g (visitAll step s l).2 = (visitAll step' (s.1, g s.2) l).2 := by
  induction l generalizing s with
  | nil => rfl
  | cons n l ih =>
      show g (visitAll step (visit step s n) l).2 =
        (visitAll step' (visit step' (s.1, g s.2) n) l).2
      rw [ih]
      unfold visit
      split_ifs
      · rfl
      · rw [hg]

end Visit

section Simulation

variable {β : Type*} {τ : Type*} [DecidableEq α] [DecidableEq β]

omit [DecidableEq α] [DecidableEq β] in
/-- The visits of a renamed graph are the renamed visits. -/
theorem postOrder_map
    {children : α → List α} {children' : β → List β} {f : α → β} {k : Nat} {n : α}
    (h : ∀ m ∈ postOrder children k n, children' (f m) = (children m).map f) :
    postOrder children' k (f n) = (postOrder children k n).map f := by
  induction k generalizing n with
  | zero => rfl
  | succ k ih =>
      have hbelow : ∀ c ∈ children n, ∀ m ∈ postOrder children k c,
          children' (f m) = (children m).map f := by
        intro c hc m hm
        refine h m ?_
        rw [postOrder, List.mem_append, List.mem_flatMap]
        exact Or.inl ⟨c, hc, hm⟩
      rw [postOrder, postOrder, h n (self_mem_postOrder (k + 1) n), List.flatMap_map,
        List.map_append, List.map_flatMap]
      congr 1
      refine List.flatMap_congr ?_
      intro c hc
      exact ih (hbelow c hc)

/-- Two runs over the same visits, up to renaming, stay related.  A step sees
which nodes have been visited and which are still to come. -/
theorem visitAll_simulation
    {f : α → β} (hf : Function.Injective f) {step : σ → α → σ} {step' : τ → β → τ}
    (R : List α → σ → τ → Prop) {s : σ} {t : τ} (hinit : R [] s t) {l : List α}
    (hstep : ∀ before n after done s t, l = before ++ n :: after →
      (∀ m, m ∈ done ↔ m ∈ before) → n ∉ done → R done s t →
      R (n :: done) (step s n) (step' t (f n))) :
    (visitAll step' ([], t) (l.map f)).1 = (visitAll step ([], s) l).1.map f ∧
      R (visitAll step ([], s) l).1 (visitAll step ([], s) l).2
        (visitAll step' ([], t) (l.map f)).2 := by
  suffices H : ∀ (after before done : List α) (s : σ) (t : τ), l = before ++ after →
      (∀ m, m ∈ done ↔ m ∈ before) → R done s t →
      (visitAll step' (done.map f, t) (after.map f)).1 =
          (visitAll step (done, s) after).1.map f ∧
        R (visitAll step (done, s) after).1 (visitAll step (done, s) after).2
          (visitAll step' (done.map f, t) (after.map f)).2 from
    H l [] [] s t rfl (by simp) hinit
  intro after
  induction after with
  | nil =>
      intro before done s t _ _ hR
      exact ⟨rfl, hR⟩
  | cons n after ih =>
      intro before done s t hsplit hdone hR
      have hsplit' : l = (before ++ [n]) ++ after := by simp [hsplit]
      show (visitAll step' (visit step' (done.map f, t) (f n)) (after.map f)).1 =
          (visitAll step (visit step (done, s) n) after).1.map f ∧
        R (visitAll step (visit step (done, s) n) after).1
          (visitAll step (visit step (done, s) n) after).2
          (visitAll step' (visit step' (done.map f, t) (f n)) (after.map f)).2
      have hmem : f n ∈ done.map f ↔ n ∈ done := List.mem_map_of_injective hf
      by_cases hn : n ∈ done
      · rw [visit, if_pos (hmem.mpr hn), visit, if_pos hn]
        refine ih (before ++ [n]) done s t hsplit' ?_ hR
        intro m
        rw [List.mem_append, List.mem_singleton, ← hdone]
        exact (or_iff_left_of_imp (fun he => he ▸ hn)).symm
      · rw [visit, if_neg (fun h => hn (hmem.mp h)), visit, if_neg hn]
        refine ih (before ++ [n]) (n :: done) _ _ hsplit' ?_
          (hstep before n after done s t hsplit hdone hn hR)
        intro m
        rw [List.mem_cons, List.mem_append, List.mem_singleton, hdone, or_comm]

end Simulation

end PostOrder
end AndroidBuild
