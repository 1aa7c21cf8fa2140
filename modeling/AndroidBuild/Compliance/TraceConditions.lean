import AndroidBuild.Compliance.LicenseGraph

/-!
# Tracing conditions up the graph

`TraceBottomUpConditions` walks the graph from the roots and collects for each
target the conditions that propagate up from its dependencies.  The walk also
keeps whether a target was only met in pure aggregates, and a target that was
is walked a second time when it is met elsewhere.
-/

namespace AndroidBuild
namespace Compliance

def impliesRestricted : LicenseConditionSet :=
  {.restricted, .weaklyRestricted}

/-- `depConditionsPropagatingToTarget`; it does not look at `treatAsAggregate`. -/
def depConditionsPropagatingToTarget (e : TargetEdge) (depConditions : LicenseConditionSet) :
    LicenseConditionSet :=
  if edgeIsDerivation e then depConditions ∩ impliesRestricted
  else if !edgeIsDynamicLink e then ∅
  else depConditions ∩ {.restricted}

/-- The condition propagates up the edge. -/
def PropagatesUp (e : TargetEdge) (c : LicenseCondition) : Prop :=
  c ∈ depConditionsPropagatingToTarget e {c}

theorem mem_depConditionsPropagatingToTarget
    {e : TargetEdge} {cs : LicenseConditionSet} {c : LicenseCondition} :
    c ∈ depConditionsPropagatingToTarget e cs ↔ c ∈ cs ∧ PropagatesUp e c := by
  rw [PropagatesUp, depConditionsPropagatingToTarget, depConditionsPropagatingToTarget]
  split_ifs <;> simp

/-- What the walks keep for each target. -/
structure TraceState where
  amap : List String
  resolution : String → LicenseConditionSet
  pure : String → Bool

namespace LicenseGraph

variable (lg : LicenseGraph)

section Paths

/-- A path from a root. -/
inductive PathTo : List String → String → Prop
  | root {r : String} :
      r ∈ lg.rootFiles →
      PathTo [r] r
  | edge {path : List String} {n : String} {e : TargetEdge} :
      PathTo path n →
      e ∈ lg.edges n →
      PathTo (path ++ [e.dependency]) e.dependency

/-- Reachable from the roots. -/
def Reachable (n : String) : Prop :=
  ∃ path, lg.PathTo path n

/-- Every path from a root consists of containers only. -/
def PureAggregate (n : String) : Prop :=
  ∀ path, lg.PathTo path n → ∀ m ∈ path, lg.isContainer m = true

/-- The condition reaches the target over a path of dependencies. -/
inductive Reaches (conditionsFn : String → LicenseConditionSet) (c : LicenseCondition) :
    String → Prop
  | self {n : String} :
      c ∈ conditionsFn n →
      Reaches conditionsFn c n
  | edge {n : String} {e : TargetEdge} :
      e ∈ lg.edges n →
      PropagatesUp e c →
      Reaches conditionsFn c e.dependency →
      Reaches conditionsFn c n

end Paths

section BottomUp

variable (conditionsFn : String → LicenseConditionSet)

/-- `priorWalkResults`: the state, and whether the target was walked already. -/
def priorWalkResults (s : TraceState) (target : String) (treatAsAggregate : Bool) :
    TraceState × Bool :=
  if target ∈ s.amap then
    if treatAsAggregate then (s, true)
    else if !s.pure target then (s, true)
    else ({ s with pure := Function.update s.pure target treatAsAggregate }, false)
  else
    ({ amap := target :: s.amap
       resolution := Function.update s.resolution target
         (s.resolution target ∪ conditionsFn target)
       pure := Function.update s.pure target treatAsAggregate }, false)

/-- The function `walk` of `TraceBottomUpConditions`, to the given depth of the call stack. -/
def walkBottomUp : Nat → TraceState → String → Bool → TraceState × LicenseConditionSet
  | 0, s, target, _ => (s, s.resolution target)
  | depth + 1, s, target, treatAsAggregate =>
      let prior := priorWalkResults conditionsFn s target treatAsAggregate
      if prior.2 then (prior.1, prior.1.resolution target)
      else
        let r := (lg.edges target).foldl (fun r edge =>
          let dep := walkBottomUp depth r.1 edge.dependency
            (treatAsAggregate && lg.isContainer edge.dependency)
          (dep.1, r.2 ∪ depConditionsPropagatingToTarget edge dep.2))
          (prior.1, prior.1.resolution target)
        let resolution := r.1.resolution target ∪ r.2
        ({ r.1 with resolution := Function.update r.1.resolution target resolution }, resolution)

/-- `TraceBottomUpConditions`, from a graph that was not walked before. -/
def traceBottomUpConditions (depth : Nat) : TraceState :=
  lg.rootFiles.foldl (fun s rname =>
    (lg.walkBottomUp conditionsFn depth s rname (lg.isContainer rname)).1) ⟨[], fun _ => ∅, fun _ => false⟩

end BottomUp

end LicenseGraph

section PureTargets

variable {lg : LicenseGraph} {stack : List String} {s t : TraceState}

namespace LicenseGraph

/-- Some path from a root has a target that is not a container. -/
def Mixed (lg : LicenseGraph) (n : String) : Prop :=
  ∃ path, lg.PathTo path n ∧ ∃ m ∈ path, lg.isContainer m = false

theorem Mixed.edge
    {n : String} {e : TargetEdge} (h : lg.Mixed n) (he : e ∈ lg.edges n) :
    lg.Mixed e.dependency := by
  obtain ⟨path, hpath, m, hm, hc⟩ := h
  exact ⟨_, hpath.edge he, m, List.mem_append_left _ hm, hc⟩

theorem Reachable.edge
    {n : String} {e : TargetEdge} (h : lg.Reachable n) (he : e ∈ lg.edges n) :
    lg.Reachable e.dependency := by
  obtain ⟨path, hpath⟩ := h
  exact ⟨_, hpath.edge he⟩

theorem Reachable.mixed
    {n : String} (h : lg.Reachable n) (hc : lg.isContainer n = false) :
    lg.Mixed n := by
  obtain ⟨path, hpath⟩ := h
  refine ⟨path, hpath, n, ?_, hc⟩
  cases hpath <;> simp

theorem pureAggregate_iff_not_mixed
    {n : String} :
    lg.PureAggregate n ↔ ¬ lg.Mixed n := by
  constructor
  · rintro h ⟨path, hpath, m, hm, hc⟩
    rw [h path hpath m hm] at hc
    cases hc
  · intro h path hpath m hm
    by_contra hc
    exact h ⟨path, hpath, m, hm, Bool.eq_false_of_not_eq_true hc⟩

end LicenseGraph

/-- A walk is called for a target it can reach, and as an aggregate only for a
container. -/
structure CallContext (lg : LicenseGraph) (n : String) (agg : Bool) : Prop where
  reachable : lg.Reachable n
  container : agg = true → lg.isContainer n = true
  mixed : agg = false → lg.Mixed n

theorem CallContext.root
    {r : String} (hr : r ∈ lg.rootFiles) :
    CallContext lg r (lg.isContainer r) :=
  ⟨⟨_, .root hr⟩, id, LicenseGraph.Reachable.mixed ⟨_, .root hr⟩⟩

theorem CallContext.edge
    {n : String} {agg : Bool} {e : TargetEdge} (h : CallContext lg n agg) (he : e ∈ lg.edges n) :
    CallContext lg e.dependency (agg && lg.isContainer e.dependency) := by
  refine ⟨h.reachable.edge he, fun hagg => ((Bool.and_eq_true _ _).mp hagg).2, ?_⟩
  intro hagg
  rcases (Bool.and_eq_false_iff).mp hagg with hagg | hc
  · exact (h.mixed hagg).edge he
  · exact (h.reachable.edge he).mixed hc

/-- The pure flags of the targets walked, where those on the call stack still
lack the walk of some dependencies. -/
structure PureInv (lg : LicenseGraph) (stack : List String) (s : TraceState) : Prop where
  container : ∀ m ∈ s.amap, lg.isContainer m = false → s.pure m = false
  mixed : ∀ m ∈ s.amap, s.pure m = false → lg.Mixed m
  edges : ∀ m ∈ s.amap, m ∉ stack → ∀ e ∈ lg.edges m,
    e.dependency ∈ s.amap ∧ (s.pure m = false → s.pure e.dependency = false)

/-- What a walk keeps. -/
structure TraceStep (stack : List String) (s t : TraceState) : Prop where
  kept : ∀ m ∈ s.amap, m ∈ t.amap
  mixed : ∀ m ∈ s.amap, s.pure m = false → t.pure m = false
  stack_pure : ∀ m ∈ stack, t.pure m = s.pure m
  stack_resolution : ∀ m ∈ stack, t.resolution m = s.resolution m

theorem TraceStep.refl
    (stack : List String) (s : TraceState) :
    TraceStep stack s s :=
  ⟨fun _ h => h, fun _ _ h => h, fun _ _ => rfl, fun _ _ => rfl⟩

theorem TraceStep.trans
    {u : TraceState} (h : TraceStep stack s t) (h' : TraceStep stack t u) :
    TraceStep stack s u := by
  constructor
  · intro m hm
    exact h'.kept m (h.kept m hm)
  · intro m hm hp
    exact h'.mixed m (h.kept m hm) (h.mixed m hm hp)
  · intro m hm
    rw [h'.stack_pure m hm, h.stack_pure m hm]
  · intro m hm
    rw [h'.stack_resolution m hm, h.stack_resolution m hm]

/-- A target is walked for the first time. -/
theorem PureInv.enter
    (h : PureInv lg stack s) {n : String} {agg : Bool} (hctx : CallContext lg n agg)
    (hn : n ∉ s.amap) (resolution : String → LicenseConditionSet) :
    PureInv lg (n :: stack) ⟨n :: s.amap, resolution, Function.update s.pure n agg⟩ := by
  constructor
  · intro m hm hc
    rcases eq_or_ne m n with rfl | hne
    · cases agg with
      | false => exact Function.update_self ..
      | true => rw [hctx.container rfl] at hc; cases hc
    · simp only [Function.update_of_ne hne]
      exact h.container m ((List.mem_cons.mp hm).resolve_left hne) hc
  · intro m hm hp
    rcases eq_or_ne m n with rfl | hne
    · simp only [Function.update_self] at hp
      exact hctx.mixed hp
    · simp only [Function.update_of_ne hne] at hp
      exact h.mixed m ((List.mem_cons.mp hm).resolve_left hne) hp
  · intro m hm hstack e he
    rw [List.mem_cons, not_or] at hstack
    have hm' := (List.mem_cons.mp hm).resolve_left hstack.1
    obtain ⟨hdep, hpure⟩ := h.edges m hm' hstack.2 e he
    have hne : e.dependency ≠ n := ne_of_mem_of_not_mem hdep hn
    simp only [Function.update_of_ne hstack.1, Function.update_of_ne hne]
    exact ⟨List.mem_cons_of_mem _ hdep, hpure⟩

/-- A target that was walked already loses its flag. -/
theorem PureInv.lose
    (h : PureInv lg stack s) {n : String} (hmixed : lg.Mixed n)
    (resolution : String → LicenseConditionSet) :
    PureInv lg (n :: stack) ⟨s.amap, resolution, Function.update s.pure n false⟩ := by
  have hlost : ∀ m, s.pure m = false → Function.update s.pure n false m = false := by
    intro m hm
    rcases eq_or_ne m n with rfl | hne
    · exact Function.update_self ..
    · rw [Function.update_of_ne hne, hm]
  constructor
  · intro m hm hc
    exact hlost m (h.container m hm hc)
  · intro m hm hp
    rcases eq_or_ne m n with rfl | hne
    · exact hmixed
    · simp only [Function.update_of_ne hne] at hp
      exact h.mixed m hm hp
  · intro m hm hstack e he
    rw [List.mem_cons, not_or] at hstack
    obtain ⟨hdep, hpure⟩ := h.edges m hm hstack.2 e he
    refine ⟨hdep, ?_⟩
    intro hp
    simp only [Function.update_of_ne hstack.1] at hp
    exact hlost _ (hpure hp)

theorem PureInv.push
    (h : PureInv lg stack s) (n : String) (resolution : String → LicenseConditionSet) :
    PureInv lg (n :: stack) ⟨s.amap, resolution, s.pure⟩ := by
  refine ⟨h.container, h.mixed, ?_⟩
  intro m hm hstack
  exact h.edges m hm (List.not_mem_of_not_mem_cons hstack)

theorem PureInv.leave
    {n : String} (h : PureInv lg (n :: stack) s)
    (hedges : ∀ e ∈ lg.edges n,
      e.dependency ∈ s.amap ∧ (s.pure n = false → s.pure e.dependency = false))
    (resolution : String → LicenseConditionSet) :
    PureInv lg stack ⟨s.amap, resolution, s.pure⟩ := by
  refine ⟨h.container, h.mixed, ?_⟩
  intro m hm hstack
  rcases eq_or_ne m n with rfl | hne
  · exact hedges
  · exact h.edges m hm (List.not_mem_cons_of_ne_of_not_mem hne hstack)

/-- Once every root is walked, the flags are right. -/
theorem PureInv.pure_iff
    (h : PureInv lg [] s) (hroots : ∀ r ∈ lg.rootFiles, r ∈ s.amap)
    {n : String} (hn : lg.Reachable n) :
    n ∈ s.amap ∧ (s.pure n = true ↔ lg.PureAggregate n) := by
  have hpath : ∀ path m, lg.PathTo path m →
      m ∈ s.amap ∧ ((∃ x ∈ path, lg.isContainer x = false) → s.pure m = false) := by
    intro path m hpath
    induction hpath with
    | root hr =>
        refine ⟨hroots _ hr, ?_⟩
        rintro ⟨x, hx, hc⟩
        rw [List.mem_singleton] at hx
        subst hx
        exact h.container _ (hroots _ hr) hc
    | edge hpath he ih =>
        obtain ⟨hdep, hpure⟩ := h.edges _ ih.1 List.not_mem_nil _ he
        refine ⟨hdep, ?_⟩
        rintro ⟨x, hx, hc⟩
        rcases List.mem_append.mp hx with hx | hx
        · exact hpure (ih.2 ⟨x, hx, hc⟩)
        · rw [List.mem_singleton] at hx
          subst hx
          exact h.container _ hdep hc
  obtain ⟨path, hn⟩ := hn
  have hmem := (hpath path n hn).1
  refine ⟨hmem, ?_⟩
  rw [LicenseGraph.pureAggregate_iff_not_mixed]
  constructor
  · rintro hp ⟨path', hpath', hx⟩
    rw [(hpath path' n hpath').2 hx] at hp
    cases hp
  · intro hnot
    by_contra hp
    exact hnot (h.mixed n hmem (Bool.eq_false_of_not_eq_true hp))

end PureTargets

section BottomUp

variable {lg : LicenseGraph} {conditionsFn : String → LicenseConditionSet}
  {stack : List String} {s : TraceState} {n : String} {agg : Bool}

/-- The targets walked, apart from those on the call stack, have their conditions. -/
structure BottomUpInv (lg : LicenseGraph) (conditionsFn : String → LicenseConditionSet)
    (stack : List String) (s : TraceState) : Prop where
  flags : PureInv lg stack s
  unwalked : ∀ m, m ∉ s.amap → s.resolution m = ∅
  resolved : ∀ m ∈ s.amap, m ∉ stack → ∀ c, c ∈ s.resolution m ↔ lg.Reaches conditionsFn c m

/-- What a call of `walk` does. -/
structure BottomUpWalk (lg : LicenseGraph) (conditionsFn : String → LicenseConditionSet)
    (stack : List String) (s : TraceState) (n : String) (agg : Bool)
    (r : TraceState × LicenseConditionSet) : Prop where
  inv : BottomUpInv lg conditionsFn stack r.1
  step : TraceStep stack s r.1
  walked : n ∈ r.1.amap
  mixed : agg = false → r.1.pure n = false
  result : ∀ c, c ∈ r.2 ↔ lg.Reaches conditionsFn c n

/-- The state in which the dependencies of a target are walked. -/
structure BottomUpEntry (lg : LicenseGraph) (conditionsFn : String → LicenseConditionSet)
    (stack : List String) (s : TraceState) (n : String) (agg : Bool) (t : TraceState) : Prop where
  inv : BottomUpInv lg conditionsFn (n :: stack) t
  step : TraceStep stack s t
  walked : n ∈ t.amap
  context : t.pure n = agg
  own : ∀ c ∈ conditionsFn n, c ∈ t.resolution n
  sound : ∀ c ∈ t.resolution n, lg.Reaches conditionsFn c n

theorem LicenseGraph.reaches_iff
    {c : LicenseCondition} :
    lg.Reaches conditionsFn c n ↔ c ∈ conditionsFn n ∨
      ∃ e ∈ lg.edges n, PropagatesUp e c ∧ lg.Reaches conditionsFn c e.dependency := by
  constructor
  · intro h
    cases h with
    | self hc => exact Or.inl hc
    | edge he hup h => exact Or.inr ⟨_, he, hup, h⟩
  · rintro (hc | ⟨e, he, hup, h⟩)
    · exact .self hc
    · exact .edge he hup h

/-- A target met for the first time. -/
theorem BottomUpInv.enter
    (h : BottomUpInv lg conditionsFn stack s) (hctx : CallContext lg n agg)
    (hstack : n ∉ stack) (hn : n ∉ s.amap) :
    BottomUpEntry lg conditionsFn stack s n agg
      { amap := n :: s.amap
        resolution := Function.update s.resolution n (s.resolution n ∪ conditionsFn n)
        pure := Function.update s.pure n agg } := by
  have hown : s.resolution n ∪ conditionsFn n = conditionsFn n := by
    rw [h.unwalked n hn, Finset.empty_union]
  refine ⟨⟨h.flags.enter hctx hn _, ?_, ?_⟩, ⟨?_, ?_, ?_, ?_⟩, List.mem_cons_self,
    Function.update_self .., ?_, ?_⟩
  · intro m hm
    rw [List.mem_cons, not_or] at hm
    simp only [Function.update_of_ne hm.1]
    exact h.unwalked m hm.2
  · intro m hm hms
    rw [List.mem_cons, not_or] at hms
    simp only [Function.update_of_ne hms.1]
    exact h.resolved m ((List.mem_cons.mp hm).resolve_left hms.1) hms.2
  · intro m hm
    exact List.mem_cons_of_mem _ hm
  · intro m hm hp
    simp only [Function.update_of_ne (ne_of_mem_of_not_mem hm hn), hp]
  · intro m hm
    exact Function.update_of_ne (ne_of_mem_of_not_mem hm hstack) ..
  · intro m hm
    exact Function.update_of_ne (ne_of_mem_of_not_mem hm hstack) ..
  · intro c hc
    simp only [Function.update_self]
    exact Finset.mem_union_right _ hc
  · intro c hc
    simp only [Function.update_self, hown] at hc
    exact .self hc

/-- A target that was met in pure aggregates only, and now elsewhere. -/
theorem BottomUpInv.enterAgain
    (h : BottomUpInv lg conditionsFn stack s) (hmixed : lg.Mixed n)
    (hstack : n ∉ stack) (hn : n ∈ s.amap) :
    BottomUpEntry lg conditionsFn stack s n false
      { s with pure := Function.update s.pure n false } := by
  refine ⟨⟨h.flags.lose hmixed _, h.unwalked, ?_⟩, ⟨fun _ hm => hm, ?_, ?_, fun _ _ => rfl⟩, hn,
    Function.update_self .., ?_, ?_⟩
  · intro m hm hms
    rw [List.mem_cons, not_or] at hms
    exact h.resolved m hm hms.2
  · intro m _ hp
    rcases eq_or_ne m n with rfl | hne
    · exact Function.update_self ..
    · simp only [Function.update_of_ne hne, hp]
  · intro m hm
    exact Function.update_of_ne (ne_of_mem_of_not_mem hm hstack) ..
  · intro c hc
    exact (h.resolved n hn hstack c).mpr (.self hc)
  · intro c hc
    exact (h.resolved n hn hstack c).mp hc

/-- A target is walked again only where it was pure and the context is not. -/
theorem BottomUpInv.priorWalkResults
    (h : BottomUpInv lg conditionsFn stack s) (hctx : CallContext lg n agg) (hstack : n ∉ stack) :
    (LicenseGraph.priorWalkResults conditionsFn s n agg = (s, true) ∧ n ∈ s.amap ∧
      (agg = false → s.pure n = false)) ∨
    ∃ t, LicenseGraph.priorWalkResults conditionsFn s n agg = (t, false) ∧
      BottomUpEntry lg conditionsFn stack s n agg t := by
  unfold LicenseGraph.priorWalkResults
  by_cases hn : n ∈ s.amap
  · rw [if_pos hn]
    cases agg with
    | true => exact Or.inl ⟨rfl, hn, by simp⟩
    | false =>
        cases hp : s.pure n with
        | false => exact Or.inl ⟨rfl, hn, fun _ => rfl⟩
        | true => exact Or.inr ⟨_, rfl, h.enterAgain (hctx.mixed rfl) hstack hn⟩
  · rw [if_neg hn]
    exact Or.inr ⟨_, rfl, h.enter hctx hstack hn⟩

/-- All dependencies are walked, and the target gets what propagates up. -/
theorem BottomUpEntry.leave
    {t u : TraceState} {cs : LicenseConditionSet}
    (h : BottomUpEntry lg conditionsFn stack s n agg t) (hstack : n ∉ stack)
    (hinv : BottomUpInv lg conditionsFn (n :: stack) u) (hstep : TraceStep (n :: stack) t u)
    (hcs : ∀ c, c ∈ cs ↔ c ∈ t.resolution n ∨
      ∃ e ∈ lg.edges n, PropagatesUp e c ∧ lg.Reaches conditionsFn c e.dependency)
    (hedges : ∀ e ∈ lg.edges n,
      e.dependency ∈ u.amap ∧ (agg = false → u.pure e.dependency = false)) :
    BottomUpWalk lg conditionsFn stack s n agg
      ({ u with resolution := Function.update u.resolution n (u.resolution n ∪ cs) },
        u.resolution n ∪ cs) := by
  have hpure : u.pure n = agg := (hstep.stack_pure n List.mem_cons_self).trans h.context
  have hres : u.resolution n = t.resolution n := hstep.stack_resolution n List.mem_cons_self
  have hresult : ∀ c, c ∈ u.resolution n ∪ cs ↔ lg.Reaches conditionsFn c n := by
    intro c
    rw [Finset.mem_union, hres, hcs, or_self_left, LicenseGraph.reaches_iff]
    constructor
    · rintro (hc | hc)
      · exact LicenseGraph.reaches_iff.mp (h.sound c hc)
      · exact Or.inr hc
    · exact Or.imp_left (h.own c)
  have hnu : n ∈ u.amap := hstep.kept n h.walked
  refine ⟨⟨hinv.flags.leave ?_ _, ?_, ?_⟩, ⟨?_, ?_, ?_, ?_⟩, hnu, fun hagg => hpure.trans hagg,
    hresult⟩
  · rw [hpure]
    exact hedges
  · intro m hm
    have hne : m ≠ n := by
      rintro rfl
      exact hm hnu
    simp only [Function.update_of_ne hne]
    exact hinv.unwalked m hm
  · intro m hm hms
    rcases eq_or_ne m n with rfl | hne
    · simp only [Function.update_self]
      exact hresult
    · simp only [Function.update_of_ne hne]
      exact hinv.resolved m hm (List.not_mem_cons_of_ne_of_not_mem hne hms)
  · intro m hm
    exact hstep.kept m (h.step.kept m hm)
  · intro m hm hp
    exact hstep.mixed m (h.step.kept m hm) (h.step.mixed m hm hp)
  · intro m hm
    rw [hstep.stack_pure m (List.mem_cons_of_mem _ hm), h.step.stack_pure m hm]
  · intro m hm
    simp only [Function.update_of_ne (ne_of_mem_of_not_mem hm hstack)]
    rw [hstep.stack_resolution m (List.mem_cons_of_mem _ hm), h.step.stack_resolution m hm]

variable {rank : String → Nat}

/-- A call of `walk`, for a target whose rank is less than those on the call stack. -/
theorem walkBottomUp_spec
    (hacyclic : lg.Acyclic rank) {depth : Nat} (hdepth : rank n < depth)
    (hstack : ∀ m ∈ stack, rank n < rank m) (hctx : CallContext lg n agg)
    (h : BottomUpInv lg conditionsFn stack s) :
    BottomUpWalk lg conditionsFn stack s n agg (lg.walkBottomUp conditionsFn depth s n agg) := by
  induction depth generalizing n agg stack s with
  | zero => omega
  | succ depth ih =>
      have hnot : n ∉ stack := fun hn => lt_irrefl _ (hstack n hn)
      rw [LicenseGraph.walkBottomUp]
      rcases h.priorWalkResults hctx hnot with ⟨hprior, hn, hpure⟩ | ⟨t, hprior, hentry⟩
      · simp only [hprior, if_true]
        exact ⟨h, TraceStep.refl stack s, hn, hpure, h.resolved n hn hnot⟩
      · simp only [hprior, Bool.false_eq_true, if_false]
        have hloop : ∀ (es : List TargetEdge) (r : TraceState × LicenseConditionSet),
            (∀ e ∈ es, e ∈ lg.edges n) → BottomUpInv lg conditionsFn (n :: stack) r.1 →
            let r' := es.foldl (fun r edge =>
              let dep := lg.walkBottomUp conditionsFn depth r.1 edge.dependency
                (agg && lg.isContainer edge.dependency)
              (dep.1, r.2 ∪ depConditionsPropagatingToTarget edge dep.2)) r
            BottomUpInv lg conditionsFn (n :: stack) r'.1 ∧ TraceStep (n :: stack) r.1 r'.1 ∧
              (∀ c, c ∈ r'.2 ↔ c ∈ r.2 ∨
                ∃ e ∈ es, PropagatesUp e c ∧ lg.Reaches conditionsFn c e.dependency) ∧
              ∀ e ∈ es, e.dependency ∈ r'.1.amap ∧
                (agg = false → r'.1.pure e.dependency = false) := by
          intro es
          induction es with
          | nil =>
              intro r _ hr
              exact ⟨hr, TraceStep.refl _ _, by simp, by simp⟩
          | cons e es ihes =>
              intro r hes hr
              rw [List.forall_mem_cons] at hes
              have hlt := hacyclic n e hes.1
              have hbelow : ∀ m ∈ n :: stack, rank e.dependency < rank m := by
                rw [List.forall_mem_cons]
                exact ⟨hlt, fun m hm => hlt.trans (hstack m hm)⟩
              have hwalk := ih (by omega) hbelow (hctx.edge hes.1) hr
              rw [List.foldl_cons]
              generalize lg.walkBottomUp conditionsFn depth r.1 e.dependency
                (agg && lg.isContainer e.dependency) = dep at hwalk ⊢
              obtain ⟨hinv, hstep, hcs, hdeps⟩ :=
                ihes (dep.1, r.2 ∪ depConditionsPropagatingToTarget e dep.2) hes.2 hwalk.inv
              refine ⟨hinv, hwalk.step.trans hstep, ?_, ?_⟩
              · intro c
                rw [hcs, Finset.mem_union, mem_depConditionsPropagatingToTarget, hwalk.result,
                  List.exists_mem_cons_iff, or_assoc, and_comm (a := lg.Reaches _ _ _)]
              · rw [List.forall_mem_cons]
                refine ⟨⟨hstep.kept _ hwalk.walked, ?_⟩, hdeps⟩
                intro hagg
                exact hstep.mixed _ hwalk.walked (hwalk.mixed (by rw [hagg, Bool.false_and]))
        obtain ⟨hinv, hstep, hcs, hdeps⟩ :=
          hloop (lg.edges n) (t, t.resolution n) (fun _ he => he) hentry.inv
        exact hentry.leave hnot hinv hstep hcs hdeps

theorem traceBottomUpConditions_inv
    (conditionsFn : String → LicenseConditionSet) (hacyclic : lg.Acyclic rank)
    {depth : Nat} (hdepth : ∀ r ∈ lg.rootFiles, rank r < depth) :
    BottomUpInv lg conditionsFn [] (lg.traceBottomUpConditions conditionsFn depth) ∧
      ∀ r ∈ lg.rootFiles, r ∈ (lg.traceBottomUpConditions conditionsFn depth).amap := by
  have hloop : ∀ (roots : List String) (s : TraceState), (∀ r ∈ roots, r ∈ lg.rootFiles) →
      BottomUpInv lg conditionsFn [] s →
      let s' := roots.foldl (fun s rname =>
        (lg.walkBottomUp conditionsFn depth s rname (lg.isContainer rname)).1) s
      BottomUpInv lg conditionsFn [] s' ∧ TraceStep [] s s' ∧ ∀ r ∈ roots, r ∈ s'.amap := by
    intro roots
    induction roots with
    | nil =>
        intro s _ hs
        exact ⟨hs, TraceStep.refl _ _, by simp⟩
    | cons r roots ih =>
        intro s hroots hs
        rw [List.forall_mem_cons] at hroots
        have hwalk := walkBottomUp_spec hacyclic (hdepth r hroots.1) (by simp)
          (CallContext.root hroots.1) hs
        obtain ⟨hinv, hstep, hmem⟩ := ih _ hroots.2 hwalk.inv
        rw [List.foldl_cons]
        refine ⟨hinv, hwalk.step.trans hstep, ?_⟩
        rw [List.forall_mem_cons]
        exact ⟨hstep.kept r hwalk.walked, hmem⟩
  have hempty : BottomUpInv lg conditionsFn [] ⟨[], fun _ => ∅, fun _ => false⟩ :=
    ⟨⟨by simp, by simp, by simp⟩, by simp, by simp⟩
  obtain ⟨hinv, _, hmem⟩ := hloop lg.rootFiles _ (fun _ hr => hr) hempty
  exact ⟨hinv, hmem⟩

/-- After `TraceBottomUpConditions` each target that the roots reach has its own
conditions and those that propagate up from its dependencies, and is pure when
only containers lead to it. -/
theorem traceBottomUpConditions_spec
    (hacyclic : lg.Acyclic rank) {depth : Nat} (hdepth : ∀ r ∈ lg.rootFiles, rank r < depth)
    (hn : lg.Reachable n) :
    let s := lg.traceBottomUpConditions conditionsFn depth
    s.resolution n = conditionsFn n ∪ (lg.edges n).toFinset.biUnion (fun e =>
        depConditionsPropagatingToTarget e (s.resolution e.dependency)) ∧
      (∀ c, c ∈ s.resolution n ↔ lg.Reaches conditionsFn c n) ∧
      (s.pure n = true ↔ lg.PureAggregate n) := by
  intro s
  obtain ⟨hinv, hroots⟩ := traceBottomUpConditions_inv conditionsFn hacyclic hdepth
  obtain ⟨hmem, hpure⟩ := hinv.flags.pure_iff hroots hn
  have hres := hinv.resolved n hmem List.not_mem_nil
  refine ⟨?_, hres, hpure⟩
  ext c
  rw [hres, LicenseGraph.reaches_iff, Finset.mem_union, Finset.mem_biUnion]
  refine or_congr_right (exists_congr fun e => ?_)
  rw [List.mem_toFinset, and_congr_right_iff]
  intro he
  have hdep := (hinv.flags.edges n hmem List.not_mem_nil e he).1
  rw [mem_depConditionsPropagatingToTarget, hinv.resolved _ hdep List.not_mem_nil, and_comm]

/-- An image and a binary that both depend on a package with a library. -/
def sharedPackage (roots : List String) : LicenseGraph where
  rootFiles := roots
  edges n :=
    if n = "image" ∨ n = "binary" then [⟨n, "package", []⟩]
    else if n = "package" then [⟨n, "library", []⟩]
    else []
  isContainer n := n = "image" ∨ n = "package"
  edges_target := by
    intro n e he
    split_ifs at he <;> simp_all

def sharedPackageRank (n : String) : Nat :=
  if n = "image" ∨ n = "binary" then 2 else if n = "package" then 1 else 0

theorem sharedPackage_acyclic
    (roots : List String) :
    (sharedPackage roots).Acyclic sharedPackageRank := by
  intro n e he
  simp only [sharedPackage] at he
  split_ifs at he with h h'
  · simp_all [sharedPackageRank]
  · simp_all [sharedPackageRank]
  · cases he

theorem sharedPackage_reachable
    {roots : List String} (h : "image" ∈ roots) :
    (sharedPackage roots).Reachable "package" :=
  LicenseGraph.Reachable.edge (e := ⟨"image", "package", []⟩) ⟨_, .root h⟩ List.mem_cons_self

/-- The package is walked as an aggregate in the image, and again in the binary. -/
theorem traceBottomUpConditions_spec_sharedPackage :
    let lg := sharedPackage ["image", "binary"]
    let f := fun n => if n = "library" then {LicenseCondition.restricted} else ∅
    let s := lg.traceBottomUpConditions f 3
    s.resolution "package" = {LicenseCondition.restricted} ∧ s.pure "package" = false ∧
      (∀ c, c ∈ s.resolution "package" ↔ lg.Reaches f c "package") ∧
      (s.pure "package" = true ↔ lg.PureAggregate "package") := by
  intro lg f s
  have hdepth : ∀ r ∈ lg.rootFiles, sharedPackageRank r < 3 := by decide +kernel
  have h : s.resolution "package" = _ ∧ _ :=
    traceBottomUpConditions_spec (sharedPackage_acyclic _) hdepth
      (sharedPackage_reachable List.mem_cons_self)
  exact ⟨by decide +kernel, by decide +kernel, h.2.1, h.2.2⟩

end BottomUp

end Compliance
end AndroidBuild
