import AndroidBuild.Compliance.LicenseGraph

/-!
# `WalkResolutionsForCondition`

The walk attaches the conditions of a target to the targets above it, from the
root down to and including the first one that is not a container.  A target
that has been walked with the same remaining conditions is not walked again:
the actions attached to it are copied to the targets above it instead.
-/

namespace AndroidBuild
namespace Compliance

/-- The targets to act on, and the conditions that the action resolves. -/
abbrev ActionSet := String → Option LicenseConditionSet

def noActions : ActionSet :=
  fun _ => none

/-- Copy the actions of `new` into `old`. -/
def copyActions (old new : ActionSet) : ActionSet :=
  fun t => (new t).or (old t)

abbrev ResolutionSet := String → Option ActionSet

/-- `resolutionKey`: a target and the remaining conditions. -/
abbrev ResolutionKey := String × LicenseConditionSet

instance : LawfulBEq ResolutionKey :=
  inferInstance

structure WalkState where
  rmap : ResolutionKey → Option ActionSet
  cmap : List ResolutionKey
  result : ResolutionSet

/-- `result[attachesTo][actsOn] = cs`. -/
def ResolutionSet.insert (result : ResolutionSet) (attachesTo actsOn : String)
    (cs : LicenseConditionSet) : ResolutionSet :=
  Function.update result attachesTo
    (some (Function.update ((result attachesTo).getD noActions) actsOn (some cs)))

def remaining (conditions : LicenseConditionSet) (path : TargetEdgePath LicenseConditionSet) :
    LicenseConditionSet :=
  match path.getLast? with
  | some p => p.2
  | none => conditions

/-- `ApplicableConditionsContext.Context`. -/
def applicableConditions (conditions : LicenseConditionSet)
    (path : TargetEdgePath LicenseConditionSet) (edge : TargetEdge) : LicenseConditionSet :=
  conditionsAttachingAcrossEdge edge (remaining conditions path)

namespace LicenseGraph

variable (lg : LicenseGraph)

/-- One ancestor of a target that has been walked before; the flag is `pure`. -/
def attachPrior (key : ResolutionKey) (s : WalkState × Bool)
    (p : TargetEdge × LicenseConditionSet) : WalkState × Bool :=
  let target := p.1.target
  let tkey := (target, key.2)
  let actions := copyActions ((s.1.rmap tkey).getD noActions) ((s.1.rmap key).getD noActions)
  let st := { s.1 with rmap := Function.update s.1.rmap tkey (some actions) }
  match st.result key.1 with
  | some prior =>
      let copied := copyActions ((st.result target).getD noActions) prior
      if s.2 then
        ({ st with result := Function.update st.result target (some copied) },
          lg.isContainer target)
      else (st, s.2)
  | none => (st, s.2)

def attachNew (resolution : String → LicenseConditionSet) (key : ResolutionKey)
    (s : WalkState × Bool) (p : TargetEdge × LicenseConditionSet) : WalkState × Bool :=
  let target := p.1.target
  let tkey := (target, key.2)
  let actions := Function.update ((s.1.rmap tkey).getD noActions) key.1 (some (resolution key.1))
  let st := { s.1 with rmap := Function.update s.1.rmap tkey (some actions) }
  let cs := resolution key.1 ∩ key.2
  if s.2 ∧ cs ≠ ∅ then
    ({ st with result := st.result.insert target key.1 cs }, lg.isContainer target)
  else (st, s.2)

def visitAgain (key : ResolutionKey) (st : WalkState)
    (path : TargetEdgePath LicenseConditionSet) : WalkState :=
  let r := path.foldl (lg.attachPrior key) (st, true)
  let cs := (((r.1.rmap key).getD noActions key.1).getD ∅) ∩ key.2
  if r.2 ∧ cs ≠ ∅ then { r.1 with result := r.1.result.insert key.1 key.1 cs } else r.1

def visitFirst (resolution : String → LicenseConditionSet) (key : ResolutionKey) (st : WalkState)
    (path : TargetEdgePath LicenseConditionSet) : WalkState :=
  let actions := Function.update ((st.rmap key).getD noActions) key.1 (some (resolution key.1))
  let st := { st with
    rmap := Function.update st.rmap key (some actions)
    cmap := key :: st.cmap }
  if resolution key.1 = ∅ then st
  else
    let r := path.foldl (lg.attachNew resolution key) (st, true)
    let cs := resolution key.1 ∩ key.2
    if r.2 ∧ cs ≠ ∅ then { r.1 with result := r.1.result.insert key.1 key.1 cs } else r.1

/-- The visitor of `WalkResolutionsForCondition`. -/
def visitResolution (shipped : List String) (resolution : String → LicenseConditionSet)
    (conditions : LicenseConditionSet) (st : WalkState) (tn : String)
    (path : TargetEdgePath LicenseConditionSet) : WalkState × Bool :=
  let univ := remaining conditions path
  if univ = ∅ then (st, false)
  else if (tn, univ) ∈ st.cmap then (lg.visitAgain (tn, univ) st path, false)
  else if tn ∉ shipped then (st, false)
  else (lg.visitFirst resolution (tn, univ) st path, true)

def walkResolutionsForCondition (depth : Nat) (resolution : String → LicenseConditionSet)
    (conditions : LicenseConditionSet) : ResolutionSet :=
  (lg.walkTopDown depth (applicableConditions conditions)
    (lg.visitResolution (lg.shippedNodes depth) resolution conditions)
    ⟨fun _ => none, [], fun _ => none⟩).result

end LicenseGraph

section AttachPoints

variable (isContainer : String → Bool)

/-- The nodes of a path down to and including the first one that is not a container. -/
def attachPoints : List String → List String
  | [] => []
  | n :: l => n :: if isContainer n then attachPoints l else []

variable {isContainer}

theorem mem_attachPoints
    {l : List String} {a : String} :
    a ∈ attachPoints isContainer l ↔
      ∃ above below, l = above ++ a :: below ∧ ∀ m ∈ above, isContainer m := by
  induction l with
  | nil => simp [attachPoints]
  | cons n l ih =>
      rw [attachPoints, List.mem_cons]
      constructor
      · rintro (rfl | h)
        · exact ⟨[], l, rfl, by simp⟩
        · split_ifs at h with hn
          · obtain ⟨above, below, rfl, habove⟩ := ih.mp h
            refine ⟨n :: above, below, rfl, ?_⟩
            rw [List.forall_mem_cons]
            exact ⟨hn, habove⟩
          · cases h
      · rintro ⟨above, below, hsplit, habove⟩
        cases above with
        | nil =>
            rw [List.nil_append, List.cons.injEq] at hsplit
            exact Or.inl hsplit.1.symm
        | cons m above =>
            rw [List.cons_append, List.cons.injEq] at hsplit
            obtain ⟨rfl, hl⟩ := hsplit
            rw [List.forall_mem_cons] at habove
            rw [if_pos habove.1]
            exact Or.inr (ih.mpr ⟨above, below, hl, habove.2⟩)

theorem mem_of_mem_attachPoints
    {l : List String} {a : String} (h : a ∈ attachPoints isContainer l) :
    a ∈ l := by
  obtain ⟨above, below, rfl, _⟩ := mem_attachPoints.mp h
  simp

theorem attachPoints_append
    (l l' : List String) :
    attachPoints isContainer (l ++ l') =
      if ∀ m ∈ l, isContainer m then l ++ attachPoints isContainer l'
      else attachPoints isContainer l := by
  induction l with
  | nil => simp
  | cons n l ih =>
      rw [List.cons_append, attachPoints, attachPoints, ih]
      by_cases hn : isContainer n
      · simp only [hn, if_true, List.forall_mem_cons, true_and]
        split_ifs <;> rfl
      · simp [hn]

theorem attachPoints_of_containers
    {l : List String} (h : ∀ m ∈ l, isContainer m) :
    attachPoints isContainer l = l := by
  induction l with
  | nil => rfl
  | cons n l ih =>
      rw [List.forall_mem_cons] at h
      rw [attachPoints, if_pos h.1, ih h.2]

end AttachPoints

end Compliance
end AndroidBuild
