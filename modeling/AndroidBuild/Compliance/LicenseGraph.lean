import Mathlib.Tactic

/-!
# License graphs

A license graph has an edge from each target to each of its dependencies.  An
edge is a derivation unless it is annotated as a dynamic link or as a
toolchain dependency.  `walkTopDown` follows every path from the root files, as
long as the visitor asks for it.
-/

namespace AndroidBuild
namespace Compliance

inductive LicenseCondition where
  | unencumbered
  | permissive
  | notice
  | reciprocal
  | restricted
  | weaklyRestricted
  | proprietary
  | byExceptionOnly
  | notAllowed
  deriving DecidableEq, Repr

/-- The bits of `LicenseConditionMask`. -/
abbrev LicenseConditionSet := Finset LicenseCondition

structure TargetEdge where
  target : String
  dependency : String
  annotations : List String
  deriving DecidableEq, Repr

/-- The targets are given by their names. -/
structure LicenseGraph where
  rootFiles : List String
  edges : String → List TargetEdge
  isContainer : String → Bool
  edges_target : ∀ n, ∀ e ∈ edges n, e.target = n

def edgeIsDynamicLink (e : TargetEdge) : Bool :=
  e.annotations.contains "dynamic"

def edgeIsDerivation (e : TargetEdge) : Bool :=
  !e.annotations.contains "dynamic" && !e.annotations.contains "toolchain"

def conditionsAttachingAcrossEdge (e : TargetEdge) (univ : LicenseConditionSet) :
    LicenseConditionSet :=
  if edgeIsDerivation e then univ
  else if !edgeIsDynamicLink e then ∅
  else univ ∩ {.restricted}

theorem conditionsAttachingAcrossEdge_subset
    (e : TargetEdge) (univ : LicenseConditionSet) :
    conditionsAttachingAcrossEdge e univ ⊆ univ := by
  unfold conditionsAttachingAcrossEdge
  split_ifs
  · exact Finset.Subset.refl _
  · exact Finset.empty_subset _
  · exact Finset.inter_subset_left

/-- `TargetEdgePath`: the edges from a root, with their contexts. -/
abbrev TargetEdgePath (γ : Type) := List (TargetEdge × γ)

namespace LicenseGraph

variable (lg : LicenseGraph) {σ γ : Type}

/-- The inner function of `WalkTopDown`, to the given depth of the call stack. -/
def walk (context : TargetEdgePath γ → TargetEdge → γ)
    (visit : σ → String → TargetEdgePath γ → σ × Bool) :
    Nat → σ → TargetEdgePath γ → String → σ
  | 0, s, _, _ => s
  | depth + 1, s, path, fnode =>
      let r := visit s fnode path
      if r.2 then
        (lg.edges fnode).foldl (fun s edge =>
          walk context visit depth s (path ++ [(edge, context path edge)]) edge.dependency) r.1
      else r.1

def walkTopDown (depth : Nat) (context : TargetEdgePath γ → TargetEdge → γ)
    (visit : σ → String → TargetEdgePath γ → σ × Bool) (s : σ) : σ :=
  lg.rootFiles.foldl (fun s r => lg.walk context visit depth s [] r) s

/-- The visitor of `ShippedNodes`. -/
def visitShipped (tset : List String) (tn : String) (path : TargetEdgePath Unit) :
    List String × Bool :=
  if tn ∈ tset then (tset, false)
  else
    match path.getLast? with
    | some p => if edgeIsDerivation p.1 then (tn :: tset, true) else (tset, false)
    | none => (tn :: tset, true)

def shippedNodes (depth : Nat) : List String :=
  lg.walkTopDown depth (fun _ _ => ()) visitShipped []

/-- A rank that decreases along the edges: the graph has no cycles. -/
def Acyclic (rank : String → Nat) : Prop :=
  ∀ n, ∀ e ∈ lg.edges n, rank e.dependency < rank n

/-- A target that is distributed, or that a distributed target is derived from. -/
inductive Shipped : String → Prop
  | root {r : String} :
      r ∈ lg.rootFiles →
      Shipped r
  | derivation {n : String} {e : TargetEdge} :
      Shipped n →
      e ∈ lg.edges n →
      edgeIsDerivation e →
      Shipped e.dependency

end LicenseGraph

section Shipped

variable {lg : LicenseGraph} {rank : String → Nat}

open LicenseGraph

/-- The walk of `ShippedNodes` enters a node at a root or across a derivation. -/
def Entered (path : TargetEdgePath Unit) : Prop :=
  ∀ p, path.getLast? = some p → edgeIsDerivation p.1

/-- What a walk adds is shipped, and so are the targets it derives from. -/
structure ShippedStep (lg : LicenseGraph) (tset tset' : List String) : Prop where
  kept : ∀ m ∈ tset, m ∈ tset'
  sound : ∀ m ∈ tset', m ∈ tset ∨ lg.Shipped m
  closed : ∀ m ∈ tset', m ∈ tset ∨
    ∀ e ∈ lg.edges m, edgeIsDerivation e → e.dependency ∈ tset'

theorem ShippedStep.refl (tset : List String) :
    ShippedStep lg tset tset :=
  ⟨fun _ h => h, fun _ h => Or.inl h, fun _ h => Or.inl h⟩

theorem ShippedStep.trans
    {t t' t'' : List String} (h : ShippedStep lg t t') (h' : ShippedStep lg t' t'') :
    ShippedStep lg t t'' := by
  constructor
  · intro m hm
    exact h'.kept m (h.kept m hm)
  · intro m hm
    rcases h'.sound m hm with hm' | hm'
    · exact h.sound m hm'
    · exact Or.inr hm'
  · intro m hm
    rcases h'.closed m hm with hm' | hm'
    · rcases h.closed m hm' with hm'' | hm''
      · exact Or.inl hm''
      · exact Or.inr (fun e he hd => h'.kept _ (hm'' e he hd))
    · exact Or.inr hm'

/-- One walk of `ShippedNodes`. -/
theorem walk_shipped
    (hacyclic : lg.Acyclic rank) {depth : Nat} {n : String} (hdepth : rank n < depth)
    (path : TargetEdgePath Unit) (tset : List String) (hentered : Entered path → lg.Shipped n) :
    ShippedStep lg tset (lg.walk (fun _ _ => ()) visitShipped depth tset path n) ∧
      (Entered path → n ∈ lg.walk (fun _ _ => ()) visitShipped depth tset path n) := by
  induction depth generalizing n path tset with
  | zero => omega
  | succ depth ih =>
      rw [LicenseGraph.walk]
      by_cases hmem : n ∈ tset
      · have hvisit : visitShipped tset n path = (tset, false) := if_pos hmem
        rw [hvisit]
        exact ⟨ShippedStep.refl tset, fun _ => hmem⟩
      · by_cases henter : Entered path
        · have hvisit : visitShipped tset n path = (n :: tset, true) := by
            unfold visitShipped
            rw [if_neg hmem]
            cases hlast : path.getLast? with
            | none => rfl
            | some p => simp only [henter p hlast, if_true]
          simp only [hvisit, if_true]
          have hloop : ∀ (es : List TargetEdge) (t : List String), (∀ e ∈ es, e ∈ lg.edges n) →
              ShippedStep lg t (es.foldl (fun s edge => lg.walk (fun _ _ => ()) visitShipped depth s
                (path ++ [(edge, ())]) edge.dependency) t) ∧
              ∀ e ∈ es, edgeIsDerivation e → e.dependency ∈ es.foldl (fun s edge =>
                lg.walk (fun _ _ => ()) visitShipped depth s (path ++ [(edge, ())])
                  edge.dependency) t := by
            intro es
            induction es with
            | nil =>
                intro t _
                exact ⟨ShippedStep.refl t, by simp⟩
            | cons e es ihes =>
                intro t hes
                rw [List.forall_mem_cons] at hes
                have hlt := hacyclic n e hes.1
                have hlast : Entered (path ++ [(e, ())]) ↔ edgeIsDerivation e := by
                  simp [Entered]
                obtain ⟨hstep, hin⟩ := ih (by omega) (path ++ [(e, ())]) t
                  (fun h => .derivation (hentered henter) hes.1 (hlast.mp h))
                obtain ⟨hsteps, hins⟩ := ihes _ hes.2
                rw [List.foldl_cons]
                refine ⟨hstep.trans hsteps, ?_⟩
                rw [List.forall_mem_cons]
                exact ⟨fun hd => hsteps.kept _ (hin (hlast.mpr hd)), hins⟩
          obtain ⟨hstep, hin⟩ := hloop (lg.edges n) (n :: tset) (fun _ he => he)
          have hself := hstep.kept n List.mem_cons_self
          refine ⟨⟨?_, ?_, ?_⟩, fun _ => hself⟩
          · intro m hm
            exact hstep.kept m (List.mem_cons_of_mem _ hm)
          · intro m hm
            rcases hstep.sound m hm with hm' | hm'
            · rcases List.mem_cons.mp hm' with rfl | hm''
              · exact Or.inr (hentered henter)
              · exact Or.inl hm''
            · exact Or.inr hm'
          · intro m hm
            rcases hstep.closed m hm with hm' | hm'
            · rcases List.mem_cons.mp hm' with rfl | hm''
              · exact Or.inr hin
              · exact Or.inl hm''
            · exact Or.inr hm'
        · have hvisit : visitShipped tset n path = (tset, false) := by
            unfold visitShipped
            rw [if_neg hmem]
            cases hlast : path.getLast? with
            | none =>
                refine absurd ?_ henter
                intro p hp
                rw [hlast] at hp
                cases hp
            | some p =>
                have hp : ¬ edgeIsDerivation p.1 := by
                  intro hd
                  refine henter ?_
                  intro q hq
                  rw [hlast, Option.some.injEq] at hq
                  exact hq ▸ hd
                simp only [if_neg hp]
          rw [hvisit]
          exact ⟨ShippedStep.refl tset, fun h => absurd h henter⟩

/-- `ShippedNodes` finds the shipped targets. -/
theorem mem_shippedNodes
    (hacyclic : lg.Acyclic rank) {depth : Nat} (hdepth : ∀ r ∈ lg.rootFiles, rank r < depth)
    {n : String} :
    n ∈ lg.shippedNodes depth ↔ lg.Shipped n := by
  have hloop : ∀ (roots : List String) (t : List String), (∀ r ∈ roots, r ∈ lg.rootFiles) →
      ShippedStep lg t (roots.foldl (fun s r =>
        lg.walk (fun _ _ => ()) visitShipped depth s [] r) t) ∧
      ∀ r ∈ roots, r ∈ roots.foldl (fun s r =>
        lg.walk (fun _ _ => ()) visitShipped depth s [] r) t := by
    intro roots
    induction roots with
    | nil =>
        intro t _
        exact ⟨ShippedStep.refl t, by simp⟩
    | cons r roots ih =>
        intro t hroots
        rw [List.forall_mem_cons] at hroots
        have hentered : Entered [] := by simp [Entered]
        obtain ⟨hstep, hin⟩ := walk_shipped hacyclic (hdepth r hroots.1) [] t
          (fun _ => .root hroots.1)
        obtain ⟨hsteps, hins⟩ := ih _ hroots.2
        rw [List.foldl_cons]
        refine ⟨hstep.trans hsteps, ?_⟩
        rw [List.forall_mem_cons]
        exact ⟨hsteps.kept _ (hin hentered), hins⟩
  obtain ⟨hstep, hroots⟩ := hloop lg.rootFiles [] (fun _ hr => hr)
  constructor
  · intro hn
    rcases hstep.sound n hn with h | h
    · cases h
    · exact h
  · intro hn
    induction hn with
    | root hr => exact hroots _ hr
    | derivation hm he hd ih =>
        rcases hstep.closed _ ih with h | h
        · cases h
        · exact h _ he hd

end Shipped

end Compliance
end AndroidBuild
