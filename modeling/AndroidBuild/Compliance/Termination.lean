import AndroidBuild.Lib.Recursion
import AndroidBuild.Compliance.TopDownConditions
import AndroidBuild.Compliance.WalkResolutions
import Mathlib

/-!
# The walks over a license graph terminate

None of the walks looks for a cycle, and the graph may have some.  Each walk is
a recursive procedure whose call stack is bounded by a measure of its state:
the targets that are not walked yet and the pure flags for the walk up, the
conditions that are still missing as well for the walk down, and the pairs of a
target and a set of conditions for the resolutions.
-/

namespace AndroidBuild
namespace Compliance

/-- A license graph with finitely many targets. -/
structure FiniteLicenseGraph extends LicenseGraph where
  targets : Finset String
  rootFiles_mem : ∀ r ∈ rootFiles, r ∈ targets
  edges_mem : ∀ n ∈ targets, ∀ e ∈ edges n, e.dependency ∈ targets

/-- All bits of `LicenseConditionMask`. -/
def licenseConditionMask : LicenseConditionSet :=
  {.unencumbered, .permissive, .notice, .reciprocal, .restricted, .weaklyRestricted,
    .proprietary, .byExceptionOnly, .notAllowed}

theorem mem_licenseConditionMask
    (c : LicenseCondition) :
    c ∈ licenseConditionMask := by
  cases c <;> decide

namespace LicenseGraph

variable (lg : LicenseGraph)

section Walks

variable (conditionsFn : String → LicenseConditionSet)

/-- The function `walk` of `TraceBottomUpConditions`, of a target and `treatAsAggregate`. -/
def bottomUpWalk : Recursion TraceState (String × Bool) TargetEdge LicenseConditionSet where
  enter s k :=
    let prior := priorWalkResults conditionsFn s k.1 k.2
    let cs := prior.1.resolution k.1
    (prior.1,
      if prior.2 then .inl cs
      else .inr (cs, (lg.edges k.1).map fun edge =>
        (edge, (edge.dependency, k.2 && lg.isContainer edge.dependency))))
  combine cs edge dcs := cs ∪ depConditionsPropagatingToTarget edge dcs
  leave s k cs :=
    let resolution := s.resolution k.1 ∪ cs
    ({ s with resolution := Function.update s.resolution k.1 resolution }, resolution)

/-- `TraceBottomUpConditions`; `none` is a call stack that is deeper than the bound. -/
def boundedBottomUp (depth : Nat) : Option TraceState :=
  (lg.bottomUpWalk conditionsFn).runAll depth ⟨[], fun _ => ∅, fun _ => false⟩
    (lg.rootFiles.map fun rname => (rname, lg.isContainer rname))

/-- The function `walk` of `TraceTopDownConditions`, of a target, the conditions and
`treatAsAggregate`. -/
def topDownWalk : Recursion TraceState (String × LicenseConditionSet × Bool) Unit Unit where
  enter s k :=
    let call : TopDownCall := ⟨s, k.1, k.2.1, k.2.2⟩
    let r := call.continueWalk conditionsFn
    (r.1,
      if r.2 then .inr ((), (lg.edges k.1).map fun edge =>
        ((), (edge.dependency,
          targetConditionsPropagatingToDep edge (r.1.resolution k.1) k.2.2 conditionsFn,
          k.2.2 && lg.isContainer edge.dependency)))
      else .inl ())
  combine _ _ _ := ()
  leave s _ _ := (s, ())

/-- `TraceTopDownConditions`, with the walk up before it. -/
def boundedTopDown (depth : Nat) : Option TraceState :=
  (lg.boundedBottomUp conditionsFn depth).bind fun s =>
    (lg.topDownWalk conditionsFn).runAll depth { s with amap := [] }
      (lg.rootFiles.map fun rname => (rname, ∅, lg.isContainer rname))

/-- The inner function of `WalkTopDown`, of a path and a target. -/
def visitWalk {σ γ : Type} (context : TargetEdgePath γ → TargetEdge → γ)
    (visit : σ → String → TargetEdgePath γ → σ × Bool) :
    Recursion σ (TargetEdgePath γ × String) Unit Unit where
  enter s k :=
    let r := visit s k.2 k.1
    (r.1,
      if r.2 then .inr ((), (lg.edges k.2).map fun edge =>
        ((), (k.1 ++ [(edge, context k.1 edge)], edge.dependency)))
      else .inl ())
  combine _ _ _ := ()
  leave s _ _ := (s, ())

/-- `WalkTopDown`. -/
def boundedTopDownVisit {σ γ : Type} (depth : Nat) (context : TargetEdgePath γ → TargetEdge → γ)
    (visit : σ → String → TargetEdgePath γ → σ × Bool) (s : σ) : Option σ :=
  (lg.visitWalk context visit).runAll depth s (lg.rootFiles.map fun r => ([], r))

/-- `WalkResolutionsForCondition`, with the walk of `ShippedNodes` before it. -/
def boundedResolutions (depth : Nat) (resolution : String → LicenseConditionSet)
    (conditions : LicenseConditionSet) : Option ResolutionSet :=
  (lg.boundedTopDownVisit depth (fun _ _ => ()) visitShipped []).bind fun shipped =>
    (lg.boundedTopDownVisit depth (applicableConditions conditions)
      (lg.visitResolution shipped resolution conditions)
      ⟨fun _ => none, [], fun _ => none⟩).map WalkState.result

end Walks

end LicenseGraph

section SameWalks

variable {lg : LicenseGraph} {conditionsFn : String → LicenseConditionSet}

open LicenseGraph

/-- A walk up that returns is the walk of the model to the same depth. -/
theorem walkBottomUp_of_run
    {depth : Nat} {s : TraceState} {k : String × Bool} {y : TraceState × LicenseConditionSet}
    (h : (lg.bottomUpWalk conditionsFn).run depth s k = some y) :
    lg.walkBottomUp conditionsFn depth s k.1 k.2 = y := by
  induction depth generalizing s k y with
  | zero => simp [Recursion.run] at h
  | succ depth ih =>
      rw [Recursion.run] at h
      rw [walkBottomUp]
      simp only [bottomUpWalk] at h
      dsimp only
      split_ifs at h ⊢ with hprior
      · exact Option.some.inj h
      · obtain ⟨z, hz, rfl⟩ := Option.map_eq_some_iff.mp h
        have hloop := Recursion.loop_eq_foldl (fun _ _ _ hy => ih hy) hz
        rw [List.foldl_map] at hloop
        rw [← hloop]

theorem traceBottomUpConditions_of_bounded
    {depth : Nat} {t : TraceState} (h : lg.boundedBottomUp conditionsFn depth = some t) :
    lg.traceBottomUpConditions conditionsFn depth = t := by
  have hroots := Recursion.runAll_eq_foldl
    (fun s k => (lg.walkBottomUp conditionsFn depth s k.1 k.2).1)
    (fun _ _ _ hy => congrArg Prod.fst (walkBottomUp_of_run hy)) h
  rwa [List.foldl_map] at hroots

/-- A walk down that returns is the walk of the model to the same depth. -/
theorem walkConditionsDown_of_run
    {depth : Nat} {s : TraceState} {k : String × LicenseConditionSet × Bool}
    {y : TraceState × Unit} (h : (lg.topDownWalk conditionsFn).run depth s k = some y) :
    lg.walkConditionsDown conditionsFn depth ⟨s, k.1, k.2.1, k.2.2⟩ = y.1 := by
  induction depth generalizing s k y with
  | zero => simp [Recursion.run] at h
  | succ depth ih =>
      rw [Recursion.run] at h
      rw [walkConditionsDown]
      simp only [topDownWalk] at h
      dsimp only
      split_ifs at h ⊢ with hcontinue
      · obtain ⟨z, hz, rfl⟩ := Option.map_eq_some_iff.mp h
        have hloop := Recursion.loop_fst_eq_foldl (fun s k => lg.walkConditionsDown conditionsFn
          depth ⟨s, k.1, k.2.1, k.2.2⟩) (fun _ _ _ hy => ih hy) hz
        rwa [List.foldl_map] at hloop
      · rw [← Option.some.inj h]

theorem traceTopDownConditions_of_bounded
    {depth : Nat} {t : TraceState} (h : lg.boundedTopDown conditionsFn depth = some t) :
    lg.traceTopDownConditions conditionsFn depth = t := by
  obtain ⟨s, hs, hwalk⟩ := Option.bind_eq_some_iff.mp h
  have hroots := Recursion.runAll_eq_foldl (fun s k => lg.walkConditionsDown conditionsFn depth
    ⟨s, k.1, k.2.1, k.2.2⟩) (fun _ _ _ hy => walkConditionsDown_of_run hy) hwalk
  rw [List.foldl_map] at hroots
  rw [traceTopDownConditions, traceBottomUpConditions_of_bounded hs]
  exact hroots

section Visits

variable {σ γ : Type} {context : TargetEdgePath γ → TargetEdge → γ}
  {visit : σ → String → TargetEdgePath γ → σ × Bool}

/-- A walk with a visitor that returns is the walk of the model to the same depth. -/
theorem walk_of_run
    {depth : Nat} {s : σ} {k : TargetEdgePath γ × String} {y : σ × Unit}
    (h : (lg.visitWalk context visit).run depth s k = some y) :
    lg.walk context visit depth s k.1 k.2 = y.1 := by
  induction depth generalizing s k y with
  | zero => simp [Recursion.run] at h
  | succ depth ih =>
      rw [Recursion.run] at h
      rw [LicenseGraph.walk]
      simp only [visitWalk] at h
      split_ifs at h ⊢ with hvisit
      · obtain ⟨z, hz, rfl⟩ := Option.map_eq_some_iff.mp h
        have hloop := Recursion.loop_fst_eq_foldl (fun s k => lg.walk context visit depth s k.1 k.2)
          (fun _ _ _ hy => ih hy) hz
        rwa [List.foldl_map] at hloop
      · rw [← Option.some.inj h]

theorem walkTopDown_of_bounded
    {depth : Nat} {s t : σ} (h : lg.boundedTopDownVisit depth context visit s = some t) :
    lg.walkTopDown depth context visit s = t := by
  have hroots := Recursion.runAll_eq_foldl (fun s k => lg.walk context visit depth s k.1 k.2)
    (fun _ _ _ hy => walk_of_run hy) h
  rwa [List.foldl_map] at hroots

end Visits

theorem walkResolutions_of_bounded
    {depth : Nat} {resolution : String → LicenseConditionSet} {conditions : LicenseConditionSet}
    {t : ResolutionSet} (h : lg.boundedResolutions depth resolution conditions = some t) :
    lg.walkResolutionsForCondition depth resolution conditions = t := by
  obtain ⟨shipped, hshipped, hwalk⟩ := Option.bind_eq_some_iff.mp h
  obtain ⟨st, hst, rfl⟩ := Option.map_eq_some_iff.mp hwalk
  rw [walkResolutionsForCondition, shippedNodes, walkTopDown_of_bounded hshipped,
    walkTopDown_of_bounded hst]

end SameWalks

section Measures

/-- Two for a target that is not walked, and one for a target that is pure. -/
def flagWeight (s : TraceState) (n : String) : Nat :=
  (if n ∈ s.amap then 0 else 2) + if s.pure n then 1 else 0

/-- The flags and, twice, the conditions that are missing at a target. -/
def topDownWeight (s : TraceState) (n : String) : Nat :=
  flagWeight s n + 2 * (licenseConditionMask \ s.resolution n).card

/-- The pairs of a target and a set of conditions that are not walked. -/
def openKeys (targets : Finset String) (st : WalkState) : Finset ResolutionKey :=
  (targets ×ˢ licenseConditionMask.powerset).filter fun key => key ∉ st.cmap

variable {targets : Finset String}

/-- A sum gets smaller when the weight of one target does. -/
theorem sum_lt_of_changed
    {f g : String → Nat} {n : String} (hn : n ∈ targets) (hother : ∀ m, m ≠ n → f m = g m)
    (hlt : f n < g n) :
    ∑ m ∈ targets, f m < ∑ m ∈ targets, g m := by
  refine Finset.sum_lt_sum (fun m _ => ?_) ⟨n, hn, hlt⟩
  by_cases hm : m = n
  · rw [hm]
    exact hlt.le
  · exact (hother m hm).le

theorem flagWeight_congr
    {s t : TraceState} {n : String} (hamap : n ∈ t.amap ↔ n ∈ s.amap)
    (hpure : t.pure n = s.pure n) :
    flagWeight t n = flagWeight s n := by
  unfold flagWeight
  rw [hpure]
  simp only [hamap]

theorem card_missing_le
    {old new : LicenseConditionSet} (h : old ⊆ new) :
    (licenseConditionMask \ new).card ≤ (licenseConditionMask \ old).card :=
  Finset.card_le_card (Finset.sdiff_subset_sdiff (Finset.Subset.refl _) h)

theorem card_missing_lt
    {old new : LicenseConditionSet} (h : old ⊆ new) {c : LicenseCondition} (hold : c ∉ old)
    (hnew : c ∈ new) :
    (licenseConditionMask \ new).card < (licenseConditionMask \ old).card := by
  refine Finset.card_lt_card ⟨Finset.sdiff_subset_sdiff (Finset.Subset.refl _) h, fun hsub => ?_⟩
  have hmem := hsub (Finset.mem_sdiff.mpr ⟨mem_licenseConditionMask c, hold⟩)
  exact (Finset.mem_sdiff.mp hmem).2 hnew

end Measures

section Terminate

open LicenseGraph

variable (lg : FiniteLicenseGraph) (conditionsFn : String → LicenseConditionSet)

theorem priorWalkResults_weight
    (s : TraceState) (n : String) (treatAsAggregate : Bool) :
    (priorWalkResults conditionsFn s n treatAsAggregate).2 = true ∧
        (priorWalkResults conditionsFn s n treatAsAggregate).1 = s ∨
      (priorWalkResults conditionsFn s n treatAsAggregate).2 = false ∧
        (∀ m, m ≠ n →
          flagWeight (priorWalkResults conditionsFn s n treatAsAggregate).1 m = flagWeight s m) ∧
        flagWeight (priorWalkResults conditionsFn s n treatAsAggregate).1 n < flagWeight s n := by
  unfold priorWalkResults
  split_ifs with hmem hagg hpure
  · exact Or.inl ⟨rfl, rfl⟩
  · exact Or.inl ⟨rfl, rfl⟩
  · -- a pure aggregate that is now walked elsewhere
    refine Or.inr ⟨rfl, fun m hm => flagWeight_congr Iff.rfl (Function.update_of_ne hm _ _), ?_⟩
    simp only [Bool.not_eq_true', Bool.not_eq_false] at hpure
    simp [flagWeight, hmem, hpure, hagg]
  · -- a target that is walked for the first time
    refine Or.inr ⟨rfl, fun m hm => flagWeight_congr ?_ (Function.update_of_ne hm _ _), ?_⟩
    · simp [hm]
    · simp only [flagWeight, List.mem_cons_self, if_true, hmem, if_false, Function.update_self]
      split_ifs <;> omega

/-- Each target is walked up at most twice: as a pure aggregate, and then elsewhere. -/
theorem bottomUpWalk_decreases :
    (lg.bottomUpWalk conditionsFn).Decreases (fun s => ∑ n ∈ lg.targets, flagWeight s n)
      (fun k => k.1 ∈ lg.targets) := by
  constructor
  · intro s k t r hk henter
    simp only [bottomUpWalk, Prod.mk.injEq] at henter
    rcases priorWalkResults_weight conditionsFn s k.1 k.2 with ⟨_, hsame⟩ | ⟨hwalk, _⟩
    · rw [← henter.1, hsame]
    · simp [hwalk] at henter
  · intro s k t acc calls hk henter
    simp only [bottomUpWalk, Prod.mk.injEq] at henter
    rcases priorWalkResults_weight conditionsFn s k.1 k.2 with ⟨hprior, _⟩ | ⟨hwalk, hother, hlt⟩
    · simp [hprior] at henter
    · rw [hwalk] at henter
      simp only [Bool.false_eq_true, if_false, Sum.inr.injEq, Prod.mk.injEq] at henter
      obtain ⟨rfl, _, rfl⟩ := henter
      refine ⟨sum_lt_of_changed hk hother hlt, ?_⟩
      simp only [List.forall_mem_map]
      exact fun e he => lg.edges_mem k.1 hk e he
  · intro s k cs
    exact Nat.le_refl _

theorem continueWalk_weight
    (call : TopDownCall) :
    (call.continueWalk conditionsFn).2 = false ∧
        (call.continueWalk conditionsFn).1 = call.state ∨
      (call.continueWalk conditionsFn).2 = true ∧
        (∀ m, m ≠ call.fnode →
          topDownWeight (call.continueWalk conditionsFn).1 m = topDownWeight call.state m) ∧
        topDownWeight (call.continueWalk conditionsFn).1 call.fnode <
          topDownWeight call.state call.fnode := by
  have hother : ∀ own m, m ≠ call.fnode →
      topDownWeight (call.accepted own) m = topDownWeight call.state m := by
    intro own m hm
    unfold topDownWeight
    rw [flagWeight_congr (t := call.accepted own) (s := call.state)
      (by simp [TopDownCall.accepted, hm]) (Function.update_of_ne hm _ _)]
    simp [TopDownCall.accepted, Function.update_of_ne hm]
  have hresolution : ∀ own, (call.accepted own).resolution call.fnode =
      call.state.resolution call.fnode ∪ own ∪ call.cs := fun _ => Function.update_self ..
  have hkept : ∀ own, call.state.resolution call.fnode ⊆
      (call.accepted own).resolution call.fnode := by
    intro own
    rw [hresolution, Finset.union_assoc]
    exact Finset.subset_union_left
  have hflag : ∀ own, flagWeight (call.accepted own) call.fnode =
      if call.treatAsAggregate then 1 else 0 := by
    intro own
    simp [flagWeight, TopDownCall.accepted]
  unfold TopDownCall.continueWalk
  split_ifs with hmem hcs hnew hagg hpure
  · exact Or.inl ⟨rfl, rfl⟩
  · exact Or.inl ⟨rfl, rfl⟩
  · exact Or.inl ⟨rfl, rfl⟩
  · -- a pure aggregate that is now walked elsewhere
    refine Or.inr ⟨rfl, hother ∅, ?_⟩
    have hmissing := card_missing_le (hkept ∅)
    have hwas : flagWeight call.state call.fnode = 1 := by
      simp only [Bool.not_eq_true', Bool.not_eq_false] at hpure
      simp [flagWeight, hmem, hpure]
    have hnow := hflag ∅
    rw [if_neg hagg] at hnow
    simp only [topDownWeight]
    omega
  · -- new conditions
    refine Or.inr ⟨rfl, hother ∅, ?_⟩
    obtain ⟨c, hc⟩ := Finset.nonempty_iff_ne_empty.mpr hnew
    rw [Finset.mem_sdiff] at hc
    have hmissing := card_missing_lt (hkept ∅) hc.2 (by
      rw [hresolution]
      exact Finset.mem_union_right _ hc.1)
    have hnow : flagWeight (call.accepted ∅) call.fnode ≤ 1 := by
      rw [hflag]
      split_ifs <;> omega
    simp only [topDownWeight]
    omega
  · -- a target that is walked for the first time
    refine Or.inr ⟨rfl, hother _, ?_⟩
    have hmissing := card_missing_le (hkept (conditionsFn call.fnode))
    have hwas : 2 ≤ flagWeight call.state call.fnode := by
      simp [flagWeight, hmem]
    have hnow : flagWeight (call.accepted (conditionsFn call.fnode)) call.fnode ≤ 1 := by
      rw [hflag]
      split_ifs <;> omega
    simp only [topDownWeight]
    omega

/-- A target is walked down again only with new conditions, or once it was pure and is
walked elsewhere; only new conditions make it pure again. -/
theorem topDownWalk_decreases :
    (lg.topDownWalk conditionsFn).Decreases (fun s => ∑ n ∈ lg.targets, topDownWeight s n)
      (fun k => k.1 ∈ lg.targets) := by
  constructor
  · intro s k t r hk henter
    simp only [topDownWalk, Prod.mk.injEq] at henter
    rcases continueWalk_weight conditionsFn ⟨s, k.1, k.2.1, k.2.2⟩ with ⟨_, hsame⟩ | ⟨hwalk, _⟩
    · rw [← henter.1, hsame]
    · simp [hwalk] at henter
  · intro s k t acc calls hk henter
    simp only [topDownWalk, Prod.mk.injEq] at henter
    rcases continueWalk_weight conditionsFn ⟨s, k.1, k.2.1, k.2.2⟩ with
      ⟨hreturn, _⟩ | ⟨hwalk, hother, hlt⟩
    · simp [hreturn] at henter
    · rw [hwalk] at henter
      simp only [if_true, Sum.inr.injEq, Prod.mk.injEq] at henter
      obtain ⟨rfl, _, rfl⟩ := henter
      refine ⟨sum_lt_of_changed hk hother hlt, ?_⟩
      simp only [List.forall_mem_map]
      exact fun e he => lg.edges_mem k.1 hk e he
  · intro s k cs
    exact Nat.le_refl _

/-- A visitor that asks for the dependencies only when its measure gets smaller. -/
theorem visitWalk_decreases
    {σ γ : Type} (context : TargetEdgePath γ → TargetEdge → γ)
    {visit : σ → String → TargetEdgePath γ → σ × Bool} {measure : σ → Nat}
    (hle : ∀ s n path, measure (visit s n path).1 ≤ measure s)
    (hlt : ∀ s n path, n ∈ lg.targets → (visit s n path).2 = true →
      measure (visit s n path).1 < measure s) :
    (lg.visitWalk context visit).Decreases measure (fun k => k.2 ∈ lg.targets) := by
  constructor
  · intro s k t r hk henter
    simp only [visitWalk, Prod.mk.injEq] at henter
    rw [← henter.1]
    exact hle s k.2 k.1
  · intro s k t acc calls hk henter
    simp only [visitWalk, Prod.mk.injEq] at henter
    cases hvisit : (visit s k.2 k.1).2 with
    | false => simp [hvisit] at henter
    | true =>
        rw [hvisit] at henter
        simp only [if_true, Sum.inr.injEq, Prod.mk.injEq] at henter
        obtain ⟨rfl, _, rfl⟩ := henter
        refine ⟨hlt s k.2 k.1 hk hvisit, ?_⟩
        simp only [List.forall_mem_map]
        exact fun e he => lg.edges_mem k.2 hk e he
  · intro s k cs
    exact Nat.le_refl _

theorem shippedWalk_decreases :
    (lg.visitWalk (fun _ _ => ()) visitShipped).Decreases
      (fun tset => (lg.targets.filter fun n => n ∉ tset).card) (fun k => k.2 ∈ lg.targets) := by
  have hsub : ∀ (tset : List String) (n : String),
      (lg.targets.filter fun m => m ∉ n :: tset) ⊆ lg.targets.filter fun m => m ∉ tset := by
    intro tset n m hm
    simp only [Finset.mem_filter, List.mem_cons, not_or] at hm ⊢
    exact ⟨hm.1, hm.2.2⟩
  apply visitWalk_decreases
  · intro tset n path
    unfold visitShipped
    split_ifs with hmem
    · exact Nat.le_refl _
    · cases path.getLast? with
      | none => exact Finset.card_le_card (hsub tset n)
      | some p =>
          dsimp only
          split_ifs
          · exact Finset.card_le_card (hsub tset n)
          · exact Nat.le_refl _
  · intro tset n path hn hvisit
    have hadded : n ∉ tset ∧ (visitShipped tset n path).1 = n :: tset := by
      unfold visitShipped at hvisit ⊢
      split_ifs at hvisit ⊢ with hmem
      refine ⟨hmem, ?_⟩
      cases hlast : path.getLast? with
      | none => rfl
      | some p =>
          rw [hlast] at hvisit
          dsimp only at hvisit ⊢
          split_ifs at hvisit ⊢ with hderivation
          rfl
    rw [hadded.2]
    refine Finset.card_lt_card ⟨hsub tset n, fun hback => ?_⟩
    have hmem := hback (Finset.mem_filter.mpr ⟨hn, hadded.1⟩)
    simp at hmem

section Resolutions

variable (shipped : List String) (resolution : String → LicenseConditionSet)
  (conditions : LicenseConditionSet)

theorem cmap_attachPrior
    (key : ResolutionKey) (s : WalkState × Bool) (p : TargetEdge × LicenseConditionSet) :
    (lg.attachPrior key s p).1.cmap = s.1.cmap := by
  unfold attachPrior
  dsimp only
  split
  · split_ifs <;> rfl
  · rfl

theorem cmap_attachNew
    (key : ResolutionKey) (s : WalkState × Bool) (p : TargetEdge × LicenseConditionSet) :
    (lg.attachNew resolution key s p).1.cmap = s.1.cmap := by
  unfold attachNew
  dsimp only
  split_ifs <;> rfl

theorem cmap_foldl
    {f : WalkState × Bool → TargetEdge × LicenseConditionSet → WalkState × Bool}
    (h : ∀ s p, (f s p).1.cmap = s.1.cmap) (path : TargetEdgePath LicenseConditionSet)
    (s : WalkState × Bool) :
    (path.foldl f s).1.cmap = s.1.cmap := by
  induction path generalizing s with
  | nil => rfl
  | cons p path ih => rw [List.foldl_cons, ih, h]

theorem cmap_visitAgain
    (key : ResolutionKey) (st : WalkState) (path : TargetEdgePath LicenseConditionSet) :
    (lg.visitAgain key st path).cmap = st.cmap := by
  have hloop := cmap_foldl (cmap_attachPrior lg key) path (st, true)
  unfold visitAgain
  dsimp only
  split_ifs <;> exact hloop

theorem cmap_visitFirst
    (key : ResolutionKey) (st : WalkState) (path : TargetEdgePath LicenseConditionSet) :
    (lg.visitFirst resolution key st path).cmap = key :: st.cmap := by
  unfold visitFirst
  dsimp only
  split_ifs
  · rfl
  · exact cmap_foldl (cmap_attachNew lg resolution key) path _
  · exact cmap_foldl (cmap_attachNew lg resolution key) path _

/-- A target is walked once with each set of remaining conditions. -/
theorem resolutionWalk_decreases :
    (lg.visitWalk (applicableConditions conditions)
      (lg.visitResolution shipped resolution conditions)).Decreases
      (fun st => (openKeys lg.targets st).card) (fun k => k.2 ∈ lg.targets) := by
  have hsub : ∀ (st st' : WalkState) (key : ResolutionKey), st'.cmap = key :: st.cmap →
      openKeys lg.targets st' ⊆ openKeys lg.targets st := by
    intro st st' key hcmap k hk
    simp only [openKeys, Finset.mem_filter, hcmap, List.mem_cons, not_or] at hk ⊢
    exact ⟨hk.1, hk.2.2⟩
  have hsame : ∀ (st st' : WalkState), st'.cmap = st.cmap →
      openKeys lg.targets st' = openKeys lg.targets st := by
    intro st st' hcmap
    unfold openKeys
    rw [hcmap]
  apply visitWalk_decreases
  · intro st n path
    unfold visitResolution
    dsimp only
    split_ifs
    · exact Nat.le_refl _
    · rw [hsame st _ (cmap_visitAgain lg _ st path)]
    · exact Finset.card_le_card (hsub st _ _ (cmap_visitFirst lg resolution _ st path))
    · exact Nat.le_refl _
  · intro st n path hn hvisit
    unfold visitResolution at hvisit ⊢
    dsimp only at hvisit ⊢
    split_ifs at hvisit ⊢ with hempty hwalked hshipped
    have hcmap := cmap_visitFirst lg resolution (n, remaining conditions path) st path
    refine Finset.card_lt_card ⟨hsub st _ _ hcmap, fun hback => ?_⟩
    have hopen : (n, remaining conditions path) ∈ openKeys lg.targets st := by
      simp only [openKeys, Finset.mem_filter, Finset.mem_product, Finset.mem_powerset]
      exact ⟨⟨hn, fun c _ => mem_licenseConditionMask c⟩, hwalked⟩
    have hmem := hback hopen
    simp [openKeys, hcmap] at hmem

end Resolutions

open Recursion

theorem boundedBottomUp_returns :
    ∃ s, Returns (lg.boundedBottomUp conditionsFn) s := by
  refine (bottomUpWalk_decreases lg conditionsFn).runAll _ ?_
  simpa using lg.rootFiles_mem

theorem boundedTopDown_returns :
    ∃ s, Returns (lg.boundedTopDown conditionsFn) s := by
  obtain ⟨s, hs⟩ := boundedBottomUp_returns lg conditionsFn
  have hroots : ∀ k ∈ lg.rootFiles.map fun r =>
      (r, (∅ : LicenseConditionSet), lg.isContainer r), k.1 ∈ lg.targets := by
    simpa using lg.rootFiles_mem
  obtain ⟨t, ht⟩ := (topDownWalk_decreases lg conditionsFn).runAll { s with amap := [] } hroots
  exact ⟨t, hs.bind (fun depth (s : TraceState) =>
    (lg.topDownWalk conditionsFn).runAll depth { s with amap := [] }
      (lg.rootFiles.map fun rname => (rname, ∅, lg.isContainer rname))) ht⟩

theorem boundedTopDownVisit_returns
    {σ γ : Type} {context : TargetEdgePath γ → TargetEdge → γ}
    {visit : σ → String → TargetEdgePath γ → σ × Bool} {measure : σ → Nat}
    (h : (lg.visitWalk context visit).Decreases measure (fun k => k.2 ∈ lg.targets)) (s : σ) :
    ∃ t, Returns (fun depth => lg.boundedTopDownVisit depth context visit s) t := by
  refine h.runAll s ?_
  simpa using lg.rootFiles_mem

theorem boundedResolutions_returns
    (resolution : String → LicenseConditionSet) (conditions : LicenseConditionSet) :
    ∃ r, Returns (fun depth => lg.boundedResolutions depth resolution conditions) r := by
  obtain ⟨shipped, hshipped⟩ := boundedTopDownVisit_returns lg (shippedWalk_decreases lg) []
  obtain ⟨st, hst⟩ := boundedTopDownVisit_returns lg
    (resolutionWalk_decreases lg shipped resolution conditions) ⟨fun _ => none, [], fun _ => none⟩
  exact ⟨st.result, hshipped.bind _ (hst.map WalkState.result)⟩

/-- On every finite license graph, with or without cycles, the walks return as soon as the
call stack may be deep enough, and what they return does not depend on it. -/
theorem walks_terminate
    (resolution : String → LicenseConditionSet) (conditions : LicenseConditionSet) :
    (∃ bound s, ∀ depth, bound ≤ depth →
      lg.boundedBottomUp conditionsFn depth = some s ∧
        lg.traceBottomUpConditions conditionsFn depth = s) ∧
    (∃ bound s, ∀ depth, bound ≤ depth →
      lg.boundedTopDown conditionsFn depth = some s ∧
        lg.traceTopDownConditions conditionsFn depth = s) ∧
    ∃ bound r, ∀ depth, bound ≤ depth →
      lg.boundedResolutions depth resolution conditions = some r ∧
        lg.walkResolutionsForCondition depth resolution conditions = r := by
  obtain ⟨s, bound, hs⟩ := boundedBottomUp_returns lg conditionsFn
  obtain ⟨t, bound', ht⟩ := boundedTopDown_returns lg conditionsFn
  obtain ⟨r, bound'', hr⟩ := boundedResolutions_returns lg resolution conditions
  refine ⟨⟨bound, s, fun depth hdepth => ?_⟩, ⟨bound', t, fun depth hdepth => ?_⟩,
    ⟨bound'', r, fun depth hdepth => ?_⟩⟩
  · exact ⟨hs depth hdepth, traceBottomUpConditions_of_bounded (hs depth hdepth)⟩
  · exact ⟨ht depth hdepth, traceTopDownConditions_of_bounded (ht depth hdepth)⟩
  · exact ⟨hr depth hdepth, walkResolutions_of_bounded (hr depth hdepth)⟩

/-- An image and a library that depend on each other. -/
def ring : FiniteLicenseGraph where
  rootFiles := ["image"]
  edges := fun n =>
    if n = "image" then [⟨"image", "lib", []⟩]
    else if n = "lib" then [⟨"lib", "image", []⟩]
    else []
  isContainer := fun n => n = "image"
  edges_target := by
    intro n e he
    split_ifs at he with himage hlib <;> simp at he
    · rw [he, himage]
    · rw [he, hlib]
  targets := {"image", "lib"}
  rootFiles_mem := by simp
  edges_mem := by
    intro n _ e he
    split_ifs at he <;> simp at he <;> simp [he]

/-- The walks of the ring, where the library has a notice. -/
theorem walks_terminate_ring :
    (∃ bound s, ∀ depth, bound ≤ depth →
      ring.boundedBottomUp (fun n => if n = "lib" then {.notice} else ∅) depth = some s) ∧
    (∃ bound s, ∀ depth, bound ≤ depth →
      ring.boundedTopDown (fun n => if n = "lib" then {.notice} else ∅) depth = some s) ∧
    ∃ bound r, ∀ depth, bound ≤ depth →
      ring.boundedResolutions depth (fun _ => {.notice}) {.notice} = some r := by
  obtain ⟨⟨bound, s, hs⟩, ⟨bound', t, ht⟩, bound'', r, hr⟩ := walks_terminate ring
    (fun n => if n = "lib" then {.notice} else ∅) (fun _ => {.notice}) {.notice}
  exact ⟨⟨bound, s, fun depth hdepth => (hs depth hdepth).1⟩,
    ⟨bound', t, fun depth hdepth => (ht depth hdepth).1⟩,
    bound'', r, fun depth hdepth => (hr depth hdepth).1⟩

end Terminate

end Compliance
end AndroidBuild
