import AndroidBuild.Compliance.TraceConditions

/-!
# Tracing conditions down the graph

`TraceTopDownConditions` starts from the conditions that were traced up the
graph and hands them down to the dependencies.  A target is walked as often as
new conditions arrive, and each walk sets the flag for pure aggregates anew.
-/

namespace AndroidBuild
namespace Compliance

def targetConditionsPropagatingToDep (e : TargetEdge) (targetConditions : LicenseConditionSet)
    (treatAsAggregate : Bool) (conditionsFn : String → LicenseConditionSet) :
    LicenseConditionSet :=
  let result := targetConditions \
    {.unencumbered, .permissive, .notice, .reciprocal, .proprietary, .byExceptionOnly}
  if !edgeIsDerivation e && !edgeIsDynamicLink e then result \ impliesRestricted
  else if treatAsAggregate then
    if conditionsFn e.target ∩ impliesRestricted = ∅ then result \ impliesRestricted
    else result
  else if edgeIsDerivation e then result
  else result \ {.weaklyRestricted}

/-- A call of `walk` in `TraceTopDownConditions`, with the state it starts in. -/
structure TopDownCall where
  state : TraceState
  fnode : String
  cs : LicenseConditionSet
  treatAsAggregate : Bool

namespace TopDownCall

variable (conditionsFn : String → LicenseConditionSet) (call : TopDownCall)

def accepted (own : LicenseConditionSet) : TraceState where
  amap := call.state.amap.insert call.fnode
  resolution := Function.update call.state.resolution call.fnode
    (call.state.resolution call.fnode ∪ own ∪ call.cs)
  pure := Function.update call.state.pure call.fnode call.treatAsAggregate

/-- `continueWalk`, with the state it leaves. -/
def continueWalk : TraceState × Bool :=
  if call.fnode ∈ call.state.amap then
    if call.cs = ∅ then (call.state, false)
    else if call.cs \ call.state.resolution call.fnode = ∅ then
      if call.treatAsAggregate then (call.state, false)
      else if !call.state.pure call.fnode then (call.state, false)
      else (call.accepted ∅, true)
    else (call.accepted ∅, true)
  else (call.accepted (conditionsFn call.fnode), true)

/-- The flag after the call is the one for all contexts up to then. -/
def FlagKept : Prop :=
  (call.continueWalk conditionsFn).1.pure call.fnode =
    if call.fnode ∈ call.state.amap then
      call.state.pure call.fnode && call.treatAsAggregate
    else call.treatAsAggregate

/-- No new conditions come to a target that is not pure in a pure aggregate, and
a target that is pure does not come without conditions elsewhere. -/
def Good : Prop :=
  call.fnode ∈ call.state.amap →
    (call.state.pure call.fnode = false → call.treatAsAggregate = true →
      call.cs ⊆ call.state.resolution call.fnode) ∧
    (call.state.pure call.fnode = true → call.treatAsAggregate = false → call.cs ≠ ∅)

instance : Decidable call.Good :=
  inferInstanceAs (Decidable (_ → (_ → _ → _) ∧ (_ → _ → _)))

end TopDownCall

namespace LicenseGraph

variable (lg : LicenseGraph) (conditionsFn : String → LicenseConditionSet)

def dependencyCall (s : TraceState) (cs : LicenseConditionSet) (treatAsAggregate : Bool)
    (edge : TargetEdge) : TopDownCall where
  state := s
  fnode := edge.dependency
  cs := targetConditionsPropagatingToDep edge cs treatAsAggregate conditionsFn
  treatAsAggregate := treatAsAggregate && lg.isContainer edge.dependency

def rootCall (s : TraceState) (rname : String) : TopDownCall where
  state := s
  fnode := rname
  cs := ∅
  treatAsAggregate := lg.isContainer rname

/-- The function `walk` of `TraceTopDownConditions`, to the given depth of the call stack. -/
def walkConditionsDown : Nat → TopDownCall → TraceState
  | 0, call => call.state
  | depth + 1, call =>
      let r := call.continueWalk conditionsFn
      if r.2 then
        let cs := r.1.resolution call.fnode
        (lg.edges call.fnode).foldl (fun s edge => walkConditionsDown depth
          (lg.dependencyCall conditionsFn s cs call.treatAsAggregate edge)) r.1
      else r.1

def traceTopDownConditions (depth : Nat) : TraceState :=
  lg.rootFiles.foldl (fun s rname => lg.walkConditionsDown conditionsFn depth (lg.rootCall s rname))
    { lg.traceBottomUpConditions conditionsFn depth with amap := [] }

section Calls

/-- A loop over walks, with the calls made in it. -/
def callsOf {α : Type} (walk : TopDownCall → TraceState) (calls : TopDownCall → List TopDownCall)
    (next : TraceState → α → TopDownCall) : TraceState → List α → List TopDownCall
  | _, [] => []
  | s, x :: xs => calls (next s x) ++ callsOf walk calls next (walk (next s x)) xs

/-- The calls of `walk` from a call on, in their order. -/
def callsFrom : Nat → TopDownCall → List TopDownCall
  | 0, _ => []
  | depth + 1, call =>
      let r := call.continueWalk conditionsFn
      call :: if r.2 then
        callsOf (lg.walkConditionsDown conditionsFn depth) (callsFrom depth)
          (fun s edge => lg.dependencyCall conditionsFn s (r.1.resolution call.fnode)
            call.treatAsAggregate edge) r.1 (lg.edges call.fnode)
      else []

/-- The calls of `walk` in `TraceTopDownConditions`. -/
def topDownCalls (depth : Nat) : List TopDownCall :=
  callsOf (lg.walkConditionsDown conditionsFn depth) (lg.callsFrom conditionsFn depth) lg.rootCall
    { lg.traceBottomUpConditions conditionsFn depth with amap := [] } lg.rootFiles

end Calls

end LicenseGraph

section Flags

variable {lg : LicenseGraph} {conditionsFn : String → LicenseConditionSet} {stack : List String}
  {call : TopDownCall}

/-- The condition is exact for one call. -/
theorem TopDownCall.flagKept_iff :
    call.FlagKept conditionsFn ↔ call.Good := by
  obtain ⟨s, n, cs, agg⟩ := call
  simp only [TopDownCall.FlagKept, TopDownCall.continueWalk, TopDownCall.Good,
    TopDownCall.accepted]
  by_cases hn : n ∈ s.amap
  · by_cases hcs : cs = ∅
    · cases agg <;> cases hp : s.pure n <;> simp [hn, hcs, hp]
    · by_cases hsub : cs ⊆ s.resolution n
      · have hdiff := Finset.sdiff_eq_empty_iff_subset.mpr hsub
        cases agg <;> cases hp : s.pure n <;> simp [hn, hcs, hsub, hdiff, hp]
      · have hdiff : cs \ s.resolution n ≠ ∅ := mt Finset.sdiff_eq_empty_iff_subset.mp hsub
        cases agg <;> cases hp : s.pure n <;> simp [hn, hcs, hsub, hdiff]
  · simp [hn]

/-- The state in which the dependencies of a target are walked. -/
structure TopDownEntry (lg : LicenseGraph) (stack : List String) (call : TopDownCall)
    (t : TraceState) : Prop where
  inv : PureInv lg (call.fnode :: stack) t
  step : TraceStep stack call.state t
  walked : call.fnode ∈ t.amap
  context : t.pure call.fnode = call.treatAsAggregate

/-- What a call of `walk` does to the flags. -/
structure TopDownWalk (lg : LicenseGraph) (stack : List String) (call : TopDownCall)
    (t : TraceState) : Prop where
  inv : PureInv lg stack t
  step : TraceStep stack call.state t
  walked : call.fnode ∈ t.amap
  mixed : call.treatAsAggregate = false → t.pure call.fnode = false

/-- The target gets the flag of the call, unless it lost it before. -/
theorem TopDownCall.accepted_entry
    (hinv : PureInv lg stack call.state)
    (hctx : CallContext lg call.fnode call.treatAsAggregate) (hstack : call.fnode ∉ stack)
    (hlost : call.fnode ∈ call.state.amap → call.treatAsAggregate = true →
      call.state.pure call.fnode = true)
    (own : LicenseConditionSet) :
    TopDownEntry lg stack call (call.accepted own) := by
  obtain ⟨s, n, cs, agg⟩ := call
  simp only at hinv hctx hstack hlost
  refine ⟨?_, ⟨?_, ?_, ?_, ?_⟩, ?_, Function.update_self ..⟩
  · by_cases hn : n ∈ s.amap
    · simp only [TopDownCall.accepted, List.insert_of_mem hn]
      cases agg with
      | false => exact hinv.lose (hctx.mixed rfl) _
      | true =>
          rw [← hlost hn rfl, Function.update_eq_self]
          exact hinv.push n _
    · simp only [TopDownCall.accepted, List.insert_of_not_mem hn]
      exact hinv.enter hctx hn _
  · intro m hm
    exact List.mem_insert_of_mem hm
  · intro m hm hp
    rcases eq_or_ne m n with rfl | hne
    · cases agg with
      | false => exact Function.update_self ..
      | true =>
          simp only at hp hm
          rw [hlost hm rfl] at hp
          cases hp
    · exact (Function.update_of_ne hne ..).trans hp
  · intro m hm
    exact Function.update_of_ne (ne_of_mem_of_not_mem hm hstack) ..
  · intro m hm
    exact Function.update_of_ne (ne_of_mem_of_not_mem hm hstack) ..
  · exact List.mem_insert_self

/-- A call that is good either leaves its target as it is or walks it. -/
theorem TopDownCall.Good.continueWalk
    (conditionsFn : String → LicenseConditionSet) (hgood : call.Good)
    (hinv : PureInv lg stack call.state)
    (hctx : CallContext lg call.fnode call.treatAsAggregate) (hstack : call.fnode ∉ stack) :
    (call.continueWalk conditionsFn = (call.state, false) ∧ call.fnode ∈ call.state.amap ∧
      (call.treatAsAggregate = false → call.state.pure call.fnode = false)) ∨
    ∃ t, call.continueWalk conditionsFn = (t, true) ∧ TopDownEntry lg stack call t := by
  unfold TopDownCall.continueWalk
  by_cases hn : call.fnode ∈ call.state.amap
  · rw [if_pos hn]
    obtain ⟨hnew, hnone⟩ := hgood hn
    by_cases hcs : call.cs = ∅
    · rw [if_pos hcs]
      refine Or.inl ⟨rfl, hn, ?_⟩
      intro hagg
      by_contra hp
      exact hnone (Bool.eq_true_of_not_eq_false hp) hagg hcs
    · rw [if_neg hcs]
      split_ifs with hsub hagg hp
      · exact Or.inl ⟨rfl, hn, fun h => absurd (hagg.symm.trans h) (by decide)⟩
      · exact Or.inl ⟨rfl, hn, fun _ => by simpa using hp⟩
      · exact Or.inr ⟨_, rfl, call.accepted_entry hinv hctx hstack
          (fun _ h => absurd h hagg) ∅⟩
      · refine Or.inr ⟨_, rfl, call.accepted_entry hinv hctx hstack ?_ ∅⟩
        intro _ hagg
        by_contra hp
        exact hsub (Finset.sdiff_eq_empty_iff_subset.mpr
          (hnew (Bool.eq_false_of_not_eq_true hp) hagg))
  · rw [if_neg hn]
    exact Or.inr ⟨_, rfl, call.accepted_entry hinv hctx hstack (fun h => absurd h hn) _⟩

theorem TopDownEntry.leave
    {t u : TraceState} (h : TopDownEntry lg stack call t)
    (hinv : PureInv lg (call.fnode :: stack) u) (hstep : TraceStep (call.fnode :: stack) t u)
    (hedges : ∀ e ∈ lg.edges call.fnode, e.dependency ∈ u.amap ∧
      (call.treatAsAggregate = false → u.pure e.dependency = false)) :
    TopDownWalk lg stack call u := by
  have hpure := (hstep.stack_pure _ List.mem_cons_self).trans h.context
  refine ⟨hinv.leave ?_ u.resolution, h.step.trans ⟨hstep.kept, hstep.mixed, ?_, ?_⟩,
    hstep.kept _ h.walked, hpure.trans⟩
  · rw [hpure]
    exact hedges
  · intro m hm
    exact hstep.stack_pure m (List.mem_cons_of_mem _ hm)
  · intro m hm
    exact hstep.stack_resolution m (List.mem_cons_of_mem _ hm)

/-- A loop of walks, each of which keeps the flags when its calls are good. -/
theorem foldl_walks
    {α : Type} {walk : TopDownCall → TraceState} {calls : TopDownCall → List TopDownCall}
    {next : TraceState → α → TopDownCall} {xs : List α}
    (hstate : ∀ s x, (next s x).state = s)
    (hwalk : ∀ x ∈ xs, ∀ s, PureInv lg stack s → (∀ c ∈ calls (next s x), c.Good) →
      TopDownWalk lg stack (next s x) (walk (next s x)))
    {s : TraceState} (hinv : PureInv lg stack s)
    (hgood : ∀ c ∈ LicenseGraph.callsOf walk calls next s xs, c.Good) :
    let t := xs.foldl (fun s x => walk (next s x)) s
    PureInv lg stack t ∧ TraceStep stack s t ∧ ∀ x ∈ xs, ∃ u, (next u x).fnode ∈ t.amap ∧
      ((next u x).treatAsAggregate = false → t.pure (next u x).fnode = false) := by
  induction xs generalizing s with
  | nil => exact ⟨hinv, TraceStep.refl _ _, by simp⟩
  | cons x xs ih =>
      rw [List.forall_mem_cons] at hwalk
      rw [LicenseGraph.callsOf, List.forall_mem_append] at hgood
      have hw := hwalk.1 s hinv hgood.1
      obtain ⟨hinv', hstep, hall⟩ := ih hwalk.2 hw.inv hgood.2
      have hfirst := hw.step
      rw [hstate] at hfirst
      refine ⟨hinv', hfirst.trans hstep, ?_⟩
      rw [List.forall_mem_cons]
      exact ⟨⟨s, hstep.kept _ hw.walked, fun h => hstep.mixed _ hw.walked (hw.mixed h)⟩, hall⟩

variable {rank : String → Nat}

/-- A call of `walk` all of whose calls are good. -/
theorem walkConditionsDown_spec
    (hacyclic : lg.Acyclic rank) {depth : Nat} (hdepth : rank call.fnode < depth)
    (hstack : ∀ m ∈ stack, rank call.fnode < rank m)
    (hctx : CallContext lg call.fnode call.treatAsAggregate)
    (hgood : ∀ c ∈ lg.callsFrom conditionsFn depth call, c.Good)
    (hinv : PureInv lg stack call.state) :
    TopDownWalk lg stack call (lg.walkConditionsDown conditionsFn depth call) := by
  induction depth generalizing call stack with
  | zero => omega
  | succ depth ih =>
      have hnot : call.fnode ∉ stack := fun hn => lt_irrefl _ (hstack _ hn)
      rw [LicenseGraph.callsFrom, List.forall_mem_cons] at hgood
      rw [LicenseGraph.walkConditionsDown]
      rcases hgood.1.continueWalk conditionsFn hinv hctx hnot with ⟨hcont, hn, hpure⟩ | ⟨t, hcont, hentry⟩
      · simp only [hcont, Bool.false_eq_true, if_false]
        exact ⟨hinv, TraceStep.refl _ _, hn, hpure⟩
      · simp only [hcont, if_true] at hgood ⊢
        have hwalk : ∀ e ∈ lg.edges call.fnode, ∀ s, PureInv lg (call.fnode :: stack) s →
            let next := lg.dependencyCall conditionsFn s (t.resolution call.fnode)
              call.treatAsAggregate e
            (∀ c ∈ lg.callsFrom conditionsFn depth next, c.Good) →
            TopDownWalk lg (call.fnode :: stack) next
              (lg.walkConditionsDown conditionsFn depth next) := by
          intro e he s hs next hnext
          have hlt : rank next.fnode < rank call.fnode := hacyclic _ e he
          have hbelow : ∀ m ∈ call.fnode :: stack, rank next.fnode < rank m := by
            rw [List.forall_mem_cons]
            exact ⟨hlt, fun m hm => hlt.trans (hstack m hm)⟩
          exact ih (by omega) hbelow (hctx.edge he) hnext hs
        obtain ⟨hinv', hstep, hall⟩ := foldl_walks (fun _ _ => rfl) hwalk hentry.inv hgood.2
        refine hentry.leave hinv' hstep ?_
        intro e he
        obtain ⟨u, hmem, hmixed⟩ := hall e he
        exact ⟨hmem, fun hagg => hmixed (by simp [LicenseGraph.dependencyCall, hagg])⟩

/-- The flags of a run in which all calls are good. -/
theorem traceTopDownConditions_inv
    (hacyclic : lg.Acyclic rank) {depth : Nat} (hdepth : ∀ r ∈ lg.rootFiles, rank r < depth)
    (hgood : ∀ call ∈ lg.topDownCalls conditionsFn depth, call.Good) :
    PureInv lg [] (lg.traceTopDownConditions conditionsFn depth) ∧
      ∀ r ∈ lg.rootFiles, r ∈ (lg.traceTopDownConditions conditionsFn depth).amap := by
  have hwalk : ∀ r ∈ lg.rootFiles, ∀ s, PureInv lg [] s →
      (∀ c ∈ lg.callsFrom conditionsFn depth (lg.rootCall s r), c.Good) →
      TopDownWalk lg [] (lg.rootCall s r)
        (lg.walkConditionsDown conditionsFn depth (lg.rootCall s r)) := by
    intro r hr s hs hcalls
    exact walkConditionsDown_spec hacyclic (hdepth r hr) (fun _ h => absurd h List.not_mem_nil)
      (CallContext.root hr) hcalls hs
  have hstart : PureInv lg []
      { lg.traceBottomUpConditions conditionsFn depth with amap := [] } :=
    ⟨by simp, by simp, by simp⟩
  obtain ⟨hinv, _, hall⟩ := foldl_walks (fun _ _ => rfl) hwalk hstart hgood
  refine ⟨hinv, ?_⟩
  intro r hr
  obtain ⟨_, hmem, _⟩ := hall r hr
  exact hmem

/-- Exactly the calls that are good keep the flag of their target right, and
after a run of such calls a target is pure when only containers lead to it. -/
theorem traceTopDownConditions_pure
    (hacyclic : lg.Acyclic rank) {depth : Nat} (hdepth : ∀ r ∈ lg.rootFiles, rank r < depth) :
    ((∀ call ∈ lg.topDownCalls conditionsFn depth, call.FlagKept conditionsFn) ↔
      ∀ call ∈ lg.topDownCalls conditionsFn depth, call.Good) ∧
    ((∀ call ∈ lg.topDownCalls conditionsFn depth, call.Good) → ∀ n, lg.Reachable n →
      ((lg.traceTopDownConditions conditionsFn depth).pure n = true ↔ lg.PureAggregate n)) := by
  constructor
  · exact forall₂_congr fun call _ => TopDownCall.flagKept_iff
  · intro hgood n hn
    obtain ⟨hinv, hroots⟩ := traceTopDownConditions_inv hacyclic hdepth hgood
    exact (hinv.pure_iff hroots hn).2

/-- The binary makes the package lose its flag, and the image leaves it so. -/
theorem traceTopDownConditions_pure_sharedPackage :
    let lg := sharedPackage ["binary", "image"]
    let f := fun n => if n = "library" then {LicenseCondition.restricted} else ∅
    (∀ call ∈ lg.topDownCalls f 3, call.Good) ∧ lg.Reachable "package" ∧
      (∀ call ∈ lg.topDownCalls f 3, call.FlagKept f) ∧
      ((lg.traceTopDownConditions f 3).pure "package" = true ↔ lg.PureAggregate "package") := by
  intro lg f
  have hdepth : ∀ r ∈ lg.rootFiles, sharedPackageRank r < 3 := by decide +kernel
  have hgood : ∀ call ∈ lg.topDownCalls f 3, call.Good := by decide +kernel
  have hn : lg.Reachable "package" := sharedPackage_reachable (by decide)
  obtain ⟨hkept, hpure⟩ := traceTopDownConditions_pure (sharedPackage_acyclic _) hdepth
  exact ⟨hgood, hn, hkept.mpr hgood, hpure hgood _ hn⟩

/-- A package in a binary is pure again when a restricted image brings new
conditions, and stays pure when the binary comes last and brings none. -/
theorem traceTopDownConditions_pure_fails :
    (let lg := sharedPackage ["binary", "image"]
     let f := fun n => if n = "image" then {LicenseCondition.restricted} else ∅
     lg.Acyclic sharedPackageRank ∧ lg.Reachable "package" ∧
      (lg.traceTopDownConditions f 3).pure "package" = true ∧ ¬ lg.PureAggregate "package") ∧
    (let lg := sharedPackage ["image", "binary"]
     let f := fun _ => (∅ : LicenseConditionSet)
     lg.Acyclic sharedPackageRank ∧ lg.Reachable "package" ∧
      (lg.traceTopDownConditions f 3).pure "package" = true ∧ ¬ lg.PureAggregate "package") := by
  have hmixed : ∀ roots : List String, "binary" ∈ roots →
      ¬ (sharedPackage roots).PureAggregate "package" := by
    intro roots hr
    rw [LicenseGraph.pureAggregate_iff_not_mixed, not_not]
    have hbinary : (sharedPackage roots).Reachable "binary" := ⟨_, .root hr⟩
    exact (hbinary.mixed (by simp [sharedPackage])).edge (e := ⟨"binary", "package", []⟩) List.mem_cons_self
  refine ⟨⟨sharedPackage_acyclic _, sharedPackage_reachable (by decide), ?_, hmixed _ (by decide)⟩,
    ⟨sharedPackage_acyclic _, sharedPackage_reachable (by decide), ?_, hmixed _ (by decide)⟩⟩
  · decide +kernel
  · decide +kernel

end Flags

end Compliance
end AndroidBuild
