import AndroidBuild.Compliance.WalkResolutions
import Mathlib

/-!
# Resolutions path by path

Every root path attaches the conditions of its last target, as far as they
are left at its end, to the targets above.  The walk follows the paths in the
same order, and reuses what it attached before when it reaches a target again.
The condition `WalkOk` says when this reuse is right.
-/

namespace AndroidBuild
namespace Compliance

/-- A root path: the targets above a node, the node and the conditions left. -/
structure Visit where
  above : List String
  node : String
  left : LicenseConditionSet
  deriving DecidableEq

def Visit.nodes (p : Visit) : List String :=
  p.above ++ [p.node]

section Attached

variable (lg : LicenseGraph) (resolution : String → LicenseConditionSet)

/-- What the paths of a list attach to `a` to act on `t`. -/
def attachedBy : List Visit → String → String → LicenseConditionSet
  | [], _, _ => ∅
  | p :: ps, a, t =>
      (if p.node = t ∧ a ∈ attachPoints lg.isContainer p.nodes then resolution t ∩ p.left else ∅) ∪
        attachedBy ps a t

/-- What the paths of a list find at `t`. -/
def foundBy : List Visit → String → LicenseConditionSet
  | [], _ => ∅
  | p :: ps, t => (if p.node = t then resolution t ∩ p.left else ∅) ∪ foundBy ps t

variable {lg resolution}

theorem mem_attachedBy
    {ps : List Visit} {a t : String} {c : LicenseCondition} :
    c ∈ attachedBy lg resolution ps a t ↔
      ∃ p ∈ ps, p.node = t ∧ a ∈ attachPoints lg.isContainer p.nodes ∧
        c ∈ resolution t ∩ p.left := by
  induction ps with
  | nil => simp [attachedBy]
  | cons p ps ih =>
      rw [attachedBy, Finset.mem_union, ih, List.exists_mem_cons_iff]
      refine or_congr_left ?_
      split_ifs with h
      · simp [h.1, h.2]
      · simp only [Finset.notMem_empty, false_iff]
        rintro ⟨hnode, ha, _⟩
        exact h ⟨hnode, ha⟩

theorem mem_foundBy
    {ps : List Visit} {t : String} {c : LicenseCondition} :
    c ∈ foundBy resolution ps t ↔ ∃ p ∈ ps, p.node = t ∧ c ∈ resolution t ∩ p.left := by
  induction ps with
  | nil => simp [foundBy]
  | cons p ps ih =>
      rw [foundBy, Finset.mem_union, ih, List.exists_mem_cons_iff]
      refine or_congr_left ?_
      split_ifs with h
      · simp [h]
      · simp [h]

theorem attachedBy_append
    (ps qs : List Visit) (a t : String) :
    attachedBy lg resolution (ps ++ qs) a t =
      attachedBy lg resolution ps a t ∪ attachedBy lg resolution qs a t := by
  induction ps with
  | nil => simp [attachedBy]
  | cons p ps ih => rw [List.cons_append, attachedBy, attachedBy, ih, Finset.union_assoc]

theorem attachedBy_subset_foundBy
    (ps : List Visit) (a t : String) :
    attachedBy lg resolution ps a t ⊆ foundBy resolution ps t := by
  intro c hc
  obtain ⟨p, hp, hnode, _, hc⟩ := mem_attachedBy.mp hc
  exact mem_foundBy.mpr ⟨p, hp, hnode, hc⟩

/-- Every path of the list attaches to `a`. -/
theorem attachedBy_eq_foundBy
    {ps : List Visit} {a t : String}
    (h : ∀ p ∈ ps, p.node = t → a ∈ attachPoints lg.isContainer p.nodes) :
    attachedBy lg resolution ps a t = foundBy resolution ps t := by
  refine Finset.Subset.antisymm (attachedBy_subset_foundBy ps a t) ?_
  intro c hc
  obtain ⟨p, hp, hnode, hc⟩ := mem_foundBy.mp hc
  exact mem_attachedBy.mpr ⟨p, hp, hnode, h p hp hnode, hc⟩

theorem attachedBy_eq_empty
    {ps : List Visit} {a t : String} (h : ∀ p ∈ ps, p.node ≠ t) :
    attachedBy lg resolution ps a t = ∅ := by
  rw [Finset.eq_empty_iff_forall_notMem]
  intro c hc
  obtain ⟨p, hp, hnode, _⟩ := mem_attachedBy.mp hc
  exact h p hp hnode

theorem foundBy_eq_empty
    {ps : List Visit} {t : String} (h : ∀ p ∈ ps, p.node ≠ t) :
    foundBy resolution ps t = ∅ := by
  rw [Finset.eq_empty_iff_forall_notMem]
  intro c hc
  obtain ⟨p, hp, hnode, _⟩ := mem_foundBy.mp hc
  exact h p hp hnode

end Attached

section Condition

variable (lg : LicenseGraph) (shipped : List String) (resolution : String → LicenseConditionSet)

def visits : Nat → List String → String → LicenseConditionSet → List Visit
  | 0, _, _, _ => []
  | depth + 1, above, n, left =>
      if left = ∅ ∨ n ∉ shipped then []
      else ⟨above, n, left⟩ :: (lg.edges n).flatMap (fun e =>
        visits depth (above ++ [n]) e.dependency (conditionsAttachingAcrossEdge e left))

def walkedAfter : Nat → List ResolutionKey → String → LicenseConditionSet → List ResolutionKey
  | 0, walked, _, _ => walked
  | depth + 1, walked, n, left =>
      if left = ∅ ∨ (n, left) ∈ walked ∨ n ∉ shipped then walked
      else (lg.edges n).foldl (fun walked e =>
        walkedAfter depth walked e.dependency (conditionsAttachingAcrossEdge e left))
        ((n, left) :: walked)

/-- The target has been attached exactly what is found below it, and no target
above it has been attached more for one of these. -/
def Reusable (ps below : List Visit) (above : List String) (n : String) : Prop :=
  (∀ p ∈ ps ++ below, attachedBy lg resolution ps n p.node = foundBy resolution below p.node) ∧
  (∀ a ∈ attachPoints lg.isContainer above, ∀ p ∈ below, foundBy resolution below p.node = ∅ ∨
    attachedBy lg resolution ps a p.node ⊆ foundBy resolution below p.node) ∧
  ∀ p ∈ below, ∀ a ∈ attachPoints lg.isContainer p.nodes, a ∈ above ∨
    resolution p.node ∩ p.left ⊆ attachedBy lg resolution ps a p.node

/-- The target has been attached nothing, and what is found below it has been
attached everywhere else.  It does not match itself unless it is below
containers only. -/
def Covered (ps below : List Visit) (above : List String) (n : String)
    (left : LicenseConditionSet) : Prop :=
  (∀ p ∈ ps, attachedBy lg resolution ps n p.node = ∅) ∧
  (resolution n ∩ left = ∅ ∨ ∀ m ∈ above, lg.isContainer m) ∧
  ∀ p ∈ below, ∀ a ∈ attachPoints lg.isContainer p.nodes, (a = n ∧ p.node = n) ∨
    resolution p.node ∩ p.left ⊆ attachedBy lg resolution ps a p.node

/-- A new action does not replace a larger one. -/
def Growing (ps : List Visit) (above : List String) (n : String) (left : LicenseConditionSet) :
    Prop :=
  resolution n ∩ left = ∅ ∨ ∀ a ∈ attachPoints lg.isContainer (above ++ [n]),
    attachedBy lg resolution ps a n ⊆ resolution n ∩ left

/-- A condition on the edges of a node, each with the targets walked and the
paths followed before it. -/
def EdgesOk (depth : Nat) (P : List ResolutionKey → List Visit → TargetEdge → Prop)
    (above : List String) (left : LicenseConditionSet) :
    List ResolutionKey → List Visit → List TargetEdge → Prop
  | _, _, [] => True
  | walked, ps, e :: es =>
      P walked ps e ∧
        EdgesOk depth P above left
          (walkedAfter lg shipped depth walked e.dependency (conditionsAttachingAcrossEdge e left))
          (ps ++ visits lg shipped depth above e.dependency (conditionsAttachingAcrossEdge e left))
          es

/-- The walk from a node reuses only what is right, and replaces no action by a
smaller one; `walked` are the targets walked and `ps` the paths followed before. -/
def WalkOk : Nat → List ResolutionKey → List Visit → List String → String →
    LicenseConditionSet → Prop
  | 0, _, _, _, _, _ => True
  | depth + 1, walked, ps, above, n, left =>
      if left = ∅ then True
      else if (n, left) ∈ walked then
        Reusable lg resolution ps (visits lg shipped (depth + 1) above n left) above n ∨
          Covered lg resolution ps (visits lg shipped (depth + 1) above n left) above n left
      else if n ∉ shipped then True
      else
        Growing lg resolution ps above n left ∧
          EdgesOk lg shipped depth (fun walked ps e => WalkOk depth walked ps (above ++ [n])
            e.dependency (conditionsAttachingAcrossEdge e left)) (above ++ [n]) left
            ((n, left) :: walked) (ps ++ [⟨above, n, left⟩]) (lg.edges n)

/-- The condition for the walk from all roots. -/
def RootsOk (depth : Nat) (conditions : LicenseConditionSet) :
    List ResolutionKey → List Visit → List String → Prop
  | _, _, [] => True
  | walked, ps, r :: roots =>
      WalkOk lg shipped resolution depth walked ps [] r conditions ∧
        RootsOk depth conditions (walkedAfter lg shipped depth walked r conditions)
          (ps ++ visits lg shipped depth [] r conditions) roots

instance (ps below : List Visit) (above : List String) (n : String) :
    Decidable (Reusable lg resolution ps below above n) :=
  inferInstanceAs (Decidable (_ ∧ _ ∧ _))

instance (ps below : List Visit) (above : List String) (n : String) (left : LicenseConditionSet) :
    Decidable (Covered lg resolution ps below above n left) :=
  inferInstanceAs (Decidable (_ ∧ _ ∧ _))

instance (ps : List Visit) (above : List String) (n : String) (left : LicenseConditionSet) :
    Decidable (Growing lg resolution ps above n left) :=
  inferInstanceAs (Decidable (_ ∨ _))

instance decidableEdgesOk (depth : Nat) (P : List ResolutionKey → List Visit → TargetEdge → Prop)
    [hP : ∀ walked ps e, Decidable (P walked ps e)] (above : List String)
    (left : LicenseConditionSet) :
    ∀ walked ps es, Decidable (EdgesOk lg shipped depth P above left walked ps es)
  | _, _, [] => inferInstanceAs (Decidable True)
  | walked, ps, e :: es =>
      have := hP walked ps e
      have := decidableEdgesOk depth P above left
        (walkedAfter lg shipped depth walked e.dependency (conditionsAttachingAcrossEdge e left))
        (ps ++ visits lg shipped depth above e.dependency (conditionsAttachingAcrossEdge e left)) es
      inferInstanceAs (Decidable (_ ∧ _))

instance decidableWalkOk : ∀ depth walked ps above n left,
    Decidable (WalkOk lg shipped resolution depth walked ps above n left)
  | 0, _, _, _, _, _ => inferInstanceAs (Decidable True)
  | depth + 1, walked, ps, above, n, left =>
      have := decidableWalkOk depth
      inferInstanceAs (Decidable (if left = ∅ then True
        else if (n, left) ∈ walked then
          Reusable lg resolution ps (visits lg shipped (depth + 1) above n left) above n ∨
            Covered lg resolution ps (visits lg shipped (depth + 1) above n left) above n left
        else if n ∉ shipped then True
        else Growing lg resolution ps above n left ∧
          EdgesOk lg shipped depth (fun walked ps e =>
            WalkOk lg shipped resolution depth walked ps (above ++ [n]) e.dependency
              (conditionsAttachingAcrossEdge e left)) (above ++ [n]) left
            ((n, left) :: walked) (ps ++ [⟨above, n, left⟩]) (lg.edges n)))

instance decidableRootsOk (depth : Nat) (conditions : LicenseConditionSet) :
    ∀ walked ps roots, Decidable (RootsOk lg shipped resolution depth conditions walked ps roots)
  | _, _, [] => inferInstanceAs (Decidable True)
  | walked, ps, r :: roots =>
      have := decidableRootsOk depth conditions (walkedAfter lg shipped depth walked r conditions)
        (ps ++ visits lg shipped depth [] r conditions) roots
      inferInstanceAs (Decidable (_ ∧ _))

end Condition

section Below

variable {lg : LicenseGraph} {shipped : List String} {resolution : String → LicenseConditionSet}
variable {depth : Nat} {above : List String} {n : String} {left : LicenseConditionSet}

/-- The paths below a node go through it. -/
theorem visits_through
    {p : Visit} (hp : p ∈ visits lg shipped depth above n left) :
    (∃ rest, p.nodes = above ++ n :: rest) ∧ p.left ⊆ left := by
  induction depth generalizing above n left with
  | zero => cases hp
  | succ depth ih =>
      rw [visits] at hp
      split_ifs at hp with h
      · cases hp
      · rcases List.mem_cons.mp hp with rfl | hp
        · exact ⟨⟨[], rfl⟩, Finset.Subset.refl _⟩
        · obtain ⟨e, _, hp⟩ := List.mem_flatMap.mp hp
          obtain ⟨⟨rest, hrest⟩, hleft⟩ := ih hp
          refine ⟨⟨e.dependency :: rest, ?_⟩,
            hleft.trans (conditionsAttachingAcrossEdge_subset e left)⟩
          rw [hrest, List.append_assoc]
          rfl

theorem attachPoints_visits
    {p : Visit} (hp : p ∈ visits lg shipped depth above n left) {a : String} :
    a ∈ attachPoints lg.isContainer above → a ∈ attachPoints lg.isContainer p.nodes := by
  obtain ⟨rest, hrest⟩ := (visits_through hp).1
  rw [hrest, attachPoints_append]
  intro ha
  split_ifs with h
  · exact List.mem_append_left _ (mem_of_mem_attachPoints ha)
  · exact ha

theorem self_attachPoints_visits
    {p : Visit} (hp : p ∈ visits lg shipped depth above n left)
    (hpure : ∀ m ∈ above, lg.isContainer m) :
    n ∈ attachPoints lg.isContainer p.nodes := by
  obtain ⟨rest, hrest⟩ := (visits_through hp).1
  rw [hrest, attachPoints_append, if_pos hpure, attachPoints]
  simp

theorem attachPoints_of_above
    {p : Visit} (hp : p ∈ visits lg shipped depth above n left) {a : String}
    (ha : a ∈ attachPoints lg.isContainer p.nodes) (hmem : a ∈ above) :
    a ∈ attachPoints lg.isContainer above := by
  obtain ⟨rest, hrest⟩ := (visits_through hp).1
  rw [hrest, attachPoints_append] at ha
  split_ifs at ha with h
  · rw [attachPoints_of_containers h]
    exact hmem
  · exact ha

theorem foundBy_self
    (hleft : left ≠ ∅) (hn : n ∈ shipped) :
    foundBy resolution (visits lg shipped (depth + 1) above n left) n = resolution n ∩ left := by
  refine Finset.Subset.antisymm ?_ ?_
  · intro c hc
    obtain ⟨p, hp, _, hc⟩ := mem_foundBy.mp hc
    exact Finset.inter_subset_inter (Finset.Subset.refl _) (visits_through hp).2 hc
  · intro c hc
    refine mem_foundBy.mpr ⟨⟨above, n, left⟩, ?_, rfl, hc⟩
    rw [visits, if_neg (by simp [hleft, hn])]
    exact List.mem_cons_self

end Below

section Result

/-- `result[a][t]`. -/
def ResolutionSet.look (result : ResolutionSet) (a t : String) : Option LicenseConditionSet :=
  (result a).bind (fun actions => actions t)

/-- A target with actions has at least one. -/
def ResolutionSet.Proper (result : ResolutionSet) : Prop :=
  ∀ a actions, result a = some actions → ∃ t, actions t ≠ none

variable {result : ResolutionSet} {a t : String}

theorem getD_noActions :
    (result a).getD noActions t = result.look a t := by
  unfold ResolutionSet.look
  cases result a with
  | none => rfl
  | some actions => rfl

theorem look_insert
    {target actsOn : String} {cs : LicenseConditionSet} :
    (result.insert target actsOn cs).look a t =
      if a = target ∧ t = actsOn then some cs else result.look a t := by
  by_cases ha : a = target
  · subst ha
    have hself : (result.insert a actsOn cs).look a t =
        Function.update ((result a).getD noActions) actsOn (some cs) t := by
      simp [ResolutionSet.insert, ResolutionSet.look]
    rw [hself]
    by_cases ht : t = actsOn
    · subst ht
      simp
    · rw [Function.update_of_ne ht, getD_noActions, if_neg (by simp [ht])]
  · rw [if_neg (by simp [ha])]
    simp [ResolutionSet.insert, ResolutionSet.look, ha]

theorem ResolutionSet.Proper.insert
    (h : result.Proper) (target actsOn : String) (cs : LicenseConditionSet) :
    (result.insert target actsOn cs).Proper := by
  intro a actions ha
  by_cases hat : a = target
  · subst hat
    rw [ResolutionSet.insert, Function.update_self, Option.some.injEq] at ha
    refine ⟨actsOn, ?_⟩
    rw [← ha, Function.update_self]
    exact Option.some_ne_none _
  · rw [ResolutionSet.insert, Function.update_of_ne hat] at ha
    exact h a actions ha

theorem look_copy
    {target : String} {prior : ActionSet} :
    ResolutionSet.look (Function.update result target
        (some (copyActions ((result target).getD noActions) prior))) a t =
      if a = target then (prior t).or (result.look a t) else result.look a t := by
  by_cases ha : a = target
  · subst ha
    have hself : ResolutionSet.look (Function.update result a
        (some (copyActions ((result a).getD noActions) prior))) a t =
        (prior t).or ((result a).getD noActions t) := by
      simp [ResolutionSet.look, copyActions]
    rw [hself, getD_noActions, if_pos rfl]
  · rw [if_neg ha]
    simp [ResolutionSet.look, ha]

theorem copy_self
    {target n : String} {prior : ActionSet} (hprior : result n = some prior) :
    Function.update result target (some (copyActions ((result target).getD noActions) prior)) n =
      some prior := by
  by_cases heq : n = target
  · subst heq
    rw [Function.update_self, hprior, Option.some.injEq]
    funext t
    exact Option.or_self
  · rw [Function.update_of_ne heq, hprior]

theorem ResolutionSet.Proper.copy
    (h : result.Proper) (target : String) {n : String} {prior : ActionSet}
    (hprior : result n = some prior) :
    ResolutionSet.Proper (Function.update result target
      (some (copyActions ((result target).getD noActions) prior))) := by
  intro a actions ha
  by_cases hat : a = target
  · subst hat
    rw [Function.update_self, Option.some.injEq] at ha
    obtain ⟨t, ht⟩ := h n prior hprior
    refine ⟨t, ?_⟩
    rw [← ha, copyActions, Ne, Option.or_eq_none_iff]
    exact fun hnone => ht hnone.1
  · rw [Function.update_of_ne hat] at ha
    exact h a actions ha

end Result

section Loops

variable {lg : LicenseGraph} {resolution : String → LicenseConditionSet} {key : ResolutionKey}

/-- `rmap` holds the resolutions of targets, and those of the targets walked. -/
structure RmapInv (resolution : String → LicenseConditionSet) (st : WalkState) : Prop where
  entries : ∀ key actions, st.rmap key = some actions →
    ∀ t cs, actions t = some cs → cs = resolution t
  walked : ∀ key ∈ st.cmap, ∃ actions, st.rmap key = some actions ∧ actions key.1 ≠ none

theorem RmapInv.getD
    {st : WalkState} (h : RmapInv resolution st) (key : ResolutionKey) {t : String}
    {cs : LicenseConditionSet} (hcs : (st.rmap key).getD noActions t = some cs) :
    cs = resolution t := by
  cases hkey : st.rmap key with
  | none =>
      rw [hkey] at hcs
      cases hcs
  | some actions =>
      rw [hkey] at hcs
      exact h.entries key actions hkey t cs hcs

/-- More resolutions are added for a key. -/
theorem RmapInv.update
    {st : WalkState} (h : RmapInv resolution st) {tkey : ResolutionKey} {actions : ActionSet}
    (hactions : ∀ t cs, actions t = some cs → cs = resolution t)
    (hkept : ∀ t, (st.rmap tkey).getD noActions t ≠ none → actions t ≠ none)
    {result : ResolutionSet} :
    RmapInv resolution
      { st with rmap := Function.update st.rmap tkey (some actions), result := result } := by
  constructor
  · intro key' actions' hkey
    by_cases heq : key' = tkey
    · subst heq
      change Function.update st.rmap key' (some actions) key' = some actions' at hkey
      rw [Function.update_self, Option.some.injEq] at hkey
      exact hkey ▸ hactions
    · change Function.update st.rmap tkey (some actions) key' = some actions' at hkey
      rw [Function.update_of_ne heq] at hkey
      exact h.entries key' actions' hkey
  · intro key' hkey'
    obtain ⟨actions', hrmap, hself⟩ := h.walked key' hkey'
    by_cases heq : key' = tkey
    · subst heq
      refine ⟨actions, Function.update_self .., hkept key'.1 ?_⟩
      rw [hrmap]
      exact hself
    · exact ⟨actions', (Function.update_of_ne heq ..).trans hrmap, hself⟩

theorem RmapInv.copy
    {st : WalkState} (h : RmapInv resolution st) (key tkey : ResolutionKey)
    {result : ResolutionSet} :
    RmapInv resolution
      { st with
        rmap := Function.update st.rmap tkey
          (some (copyActions ((st.rmap tkey).getD noActions) ((st.rmap key).getD noActions)))
        result := result } := by
  refine h.update ?_ ?_
  · intro t cs hcs
    rcases Option.or_eq_some_iff.mp hcs with hnew | ⟨_, hold⟩
    · exact h.getD key hnew
    · exact h.getD tkey hold
  · intro t ht
    rw [copyActions, Ne, Option.or_eq_none_iff]
    exact fun hnone => ht hnone.2

theorem RmapInv.set
    {st : WalkState} (h : RmapInv resolution st) (n : String) (tkey : ResolutionKey)
    {result : ResolutionSet} :
    RmapInv resolution
      { st with
        rmap := Function.update st.rmap tkey
          (some (Function.update ((st.rmap tkey).getD noActions) n (some (resolution n))))
        result := result } := by
  refine h.update ?_ ?_
  · intro t cs hcs
    by_cases ht : t = n
    · subst ht
      rw [Function.update_self, Option.some.injEq] at hcs
      exact hcs.symm
    · rw [Function.update_of_ne ht] at hcs
      exact h.getD tkey hcs
  · intro t ht
    by_cases htn : t = n
    · subst htn
      simp
    · rwa [Function.update_of_ne htn]

/-- The ancestors of a path: `attach` is done for them as long as the flag is set. -/
theorem attach_loop
    {step : WalkState × Bool → TargetEdge × LicenseConditionSet → WalkState × Bool}
    {attach : String → Option LicenseConditionSet → Option LicenseConditionSet}
    (hattach : ∀ t x, attach t (attach t x) = attach t x) {I : WalkState → Prop}
    (hstep : ∀ s p, I s.1 → I (step s p).1 ∧ (step s p).1.cmap = s.1.cmap ∧
      ((step s p).2 = true ↔ s.2 = true ∧ lg.isContainer p.1.target) ∧
      ∀ a t, (step s p).1.result.look a t =
        if s.2 = true ∧ a = p.1.target then attach t (s.1.result.look a t)
        else s.1.result.look a t)
    (path : TargetEdgePath LicenseConditionSet) (s : WalkState × Bool) (hs : I s.1) :
    I (path.foldl step s).1 ∧ (path.foldl step s).1.cmap = s.1.cmap ∧
      ((path.foldl step s).2 = true ↔
        s.2 = true ∧ ∀ m ∈ path.map (fun p => p.1.target), lg.isContainer m) ∧
      ∀ a t, (path.foldl step s).1.result.look a t =
        if s.2 = true ∧ a ∈ attachPoints lg.isContainer (path.map (fun p => p.1.target)) then
          attach t (s.1.result.look a t)
        else s.1.result.look a t := by
  induction path generalizing s with
  | nil =>
      refine ⟨hs, rfl, by simp, ?_⟩
      intro a t
      simp [attachPoints]
  | cons p path ih =>
      obtain ⟨hI, hcmap, hflag, hlook⟩ := hstep s p hs
      obtain ⟨hI', hcmap', hflag', hlook'⟩ := ih (step s p) hI
      rw [List.foldl_cons]
      refine ⟨hI', hcmap'.trans hcmap, ?_, ?_⟩
      · rw [hflag', hflag, List.map_cons, List.forall_mem_cons, and_assoc]
      · intro a t
        rw [hlook', hlook, List.map_cons, attachPoints]
        simp only [hflag, List.mem_cons]
        by_cases hpure : s.2 = true
        · by_cases ha : a = p.1.target
          · simp only [hpure, ha, true_and, if_true, true_or, hattach, ite_self]
          · by_cases hp : lg.isContainer p.1.target = true
            · simp only [hpure, ha, hp, true_and, if_true, if_false, false_or]
            · simp [hpure, ha, hp]
        · simp [hpure]

variable (lg) (key) in
/-- The ancestors of a target that has no actions of its own. -/
theorem attachPrior_none
    {st : WalkState} (hinv : RmapInv resolution st) (hnone : st.result key.1 = none)
    (path : TargetEdgePath LicenseConditionSet) :
    RmapInv resolution (path.foldl (lg.attachPrior key) (st, true)).1 ∧
      (path.foldl (lg.attachPrior key) (st, true)).1.cmap = st.cmap ∧
      (path.foldl (lg.attachPrior key) (st, true)).1.result = st.result ∧
      (path.foldl (lg.attachPrior key) (st, true)).2 = true := by
  have hloop : ∀ (path : TargetEdgePath LicenseConditionSet) (s : WalkState × Bool),
      RmapInv resolution s.1 → s.1.result key.1 = none →
      RmapInv resolution (path.foldl (lg.attachPrior key) s).1 ∧
        (path.foldl (lg.attachPrior key) s).1.cmap = s.1.cmap ∧
        (path.foldl (lg.attachPrior key) s).1.result = s.1.result ∧
        (path.foldl (lg.attachPrior key) s).2 = s.2 := by
    intro path
    induction path with
    | nil =>
        intro s hs _
        exact ⟨hs, rfl, rfl, rfl⟩
    | cons p path ih =>
        intro s hs hsnone
        rw [List.foldl_cons]
        have hstep : RmapInv resolution (lg.attachPrior key s p).1 ∧
            (lg.attachPrior key s p).1.cmap = s.1.cmap ∧
            (lg.attachPrior key s p).1.result = s.1.result ∧
            (lg.attachPrior key s p).2 = s.2 := by
          unfold LicenseGraph.attachPrior
          simp only [hsnone]
          exact ⟨hs.copy key (p.1.target, key.2), trivial, trivial, trivial⟩
        obtain ⟨hrmap, hcmap, hresult, hflag⟩ := hstep
        obtain ⟨hrmap', hcmap', hresult', hflag'⟩ :=
          ih (lg.attachPrior key s p) hrmap (hresult ▸ hsnone)
        exact ⟨hrmap', hcmap'.trans hcmap, hresult'.trans hresult, hflag'.trans hflag⟩
  exact hloop path (st, true) hinv hnone

variable (lg) (key) in
/-- The ancestors of a target that has actions: these are copied. -/
theorem attachPrior_some
    {st : WalkState} {prior : ActionSet} (hinv : RmapInv resolution st)
    (hproper : st.result.Proper) (hprior : st.result key.1 = some prior)
    (path : TargetEdgePath LicenseConditionSet) {r : WalkState × Bool}
    (hr : path.foldl (lg.attachPrior key) (st, true) = r) :
    (RmapInv resolution r.1 ∧ r.1.result.Proper ∧ r.1.result key.1 = some prior) ∧
      r.1.cmap = st.cmap ∧
      (r.2 = true ↔ ∀ m ∈ path.map (fun p => p.1.target), lg.isContainer m) ∧
      ∀ a t, r.1.result.look a t =
        if a ∈ attachPoints lg.isContainer (path.map (fun p => p.1.target)) then
          (prior t).or (st.result.look a t)
        else st.result.look a t := by
  subst hr
  let I := fun st : WalkState =>
    RmapInv resolution st ∧ st.result.Proper ∧ st.result key.1 = some prior
  have hattach : ∀ (t : String) (x : Option LicenseConditionSet),
      (prior t).or ((prior t).or x) = (prior t).or x := by
    intro t x
    cases prior t <;> rfl
  have hstep : ∀ (s : WalkState × Bool) (p : TargetEdge × LicenseConditionSet), I s.1 →
      I (lg.attachPrior key s p).1 ∧ (lg.attachPrior key s p).1.cmap = s.1.cmap ∧
      ((lg.attachPrior key s p).2 = true ↔ s.2 = true ∧ lg.isContainer p.1.target) ∧
      ∀ a t, (lg.attachPrior key s p).1.result.look a t =
        if s.2 = true ∧ a = p.1.target then (prior t).or (s.1.result.look a t)
        else s.1.result.look a t := by
    rintro s p ⟨hrmap, hsproper, hsprior⟩
    unfold LicenseGraph.attachPrior
    simp only [hsprior]
    by_cases hpure : s.2 = true
    · simp only [hpure, if_true, true_and]
      exact ⟨⟨hrmap.copy key (p.1.target, key.2), hsproper.copy p.1.target hsprior,
        copy_self hsprior⟩, fun a t => look_copy⟩
    · simp only [hpure, if_false, false_and, Bool.false_eq_true]
      exact ⟨⟨hrmap.copy key (p.1.target, key.2), hsproper, hsprior⟩, by simp⟩
  have hloop := attach_loop hattach hstep path (st, true) ⟨hinv, hproper, hprior⟩
  simpa using hloop

/-- The ancestors of a target that is walked for the first time. -/
theorem attachNew_spec
    {st : WalkState} (hinv : RmapInv resolution st) (hproper : st.result.Proper)
    (path : TargetEdgePath LicenseConditionSet) {r : WalkState × Bool}
    (hr : path.foldl (lg.attachNew resolution key) (st, true) = r) :
    (RmapInv resolution r.1 ∧ r.1.result.Proper) ∧ r.1.cmap = st.cmap ∧
      (resolution key.1 ∩ key.2 ≠ ∅ →
        (r.2 = true ↔ ∀ m ∈ path.map (fun p => p.1.target), lg.isContainer m)) ∧
      ∀ a t, r.1.result.look a t =
        if resolution key.1 ∩ key.2 ≠ ∅ ∧
            a ∈ attachPoints lg.isContainer (path.map (fun p => p.1.target)) ∧ t = key.1 then
          some (resolution key.1 ∩ key.2)
        else st.result.look a t := by
  subst hr
  by_cases hcs : resolution key.1 ∩ key.2 = ∅
  · have hloop : ∀ (path : TargetEdgePath LicenseConditionSet) (s : WalkState × Bool),
        RmapInv resolution s.1 →
        RmapInv resolution (path.foldl (lg.attachNew resolution key) s).1 ∧
          (path.foldl (lg.attachNew resolution key) s).1.cmap = s.1.cmap ∧
          (path.foldl (lg.attachNew resolution key) s).1.result = s.1.result := by
      intro path
      induction path with
      | nil =>
          intro s hs
          exact ⟨hs, rfl, rfl⟩
      | cons p path ih =>
          intro s hs
          rw [List.foldl_cons]
          have hstep : RmapInv resolution (lg.attachNew resolution key s p).1 ∧
              (lg.attachNew resolution key s p).1.cmap = s.1.cmap ∧
              (lg.attachNew resolution key s p).1.result = s.1.result := by
            unfold LicenseGraph.attachNew
            simp only [hcs, ne_eq, not_true_eq_false, and_false, if_false]
            exact ⟨hs.set key.1 (p.1.target, key.2), trivial, trivial⟩
          obtain ⟨hrmap, hcmap, hresult⟩ := hstep
          obtain ⟨hrmap', hcmap', hresult'⟩ := ih (lg.attachNew resolution key s p) hrmap
          exact ⟨hrmap', hcmap'.trans hcmap, hresult'.trans hresult⟩
    obtain ⟨hrmap, hcmap, hresult⟩ := hloop path (st, true) hinv
    refine ⟨⟨hrmap, hresult ▸ hproper⟩, hcmap, fun h => absurd hcs h, ?_⟩
    intro a t
    rw [hresult, if_neg (by simp [hcs])]
  · let attach := fun (t : String) (x : Option LicenseConditionSet) =>
      if t = key.1 then some (resolution key.1 ∩ key.2) else x
    have hattach : ∀ t x, attach t (attach t x) = attach t x := by
      intro t x
      simp only [attach]
      split_ifs <;> rfl
    have hstep : ∀ (s : WalkState × Bool) (p : TargetEdge × LicenseConditionSet),
        (RmapInv resolution s.1 ∧ s.1.result.Proper) →
        (RmapInv resolution (lg.attachNew resolution key s p).1 ∧
          (lg.attachNew resolution key s p).1.result.Proper) ∧
        (lg.attachNew resolution key s p).1.cmap = s.1.cmap ∧
        ((lg.attachNew resolution key s p).2 = true ↔ s.2 = true ∧ lg.isContainer p.1.target) ∧
        ∀ a t, (lg.attachNew resolution key s p).1.result.look a t =
          if s.2 = true ∧ a = p.1.target then attach t (s.1.result.look a t)
          else s.1.result.look a t := by
      rintro s p ⟨hrmap, hsproper⟩
      unfold LicenseGraph.attachNew
      by_cases hpure : s.2 = true
      · simp only [hpure, ne_eq, hcs, not_false_eq_true, and_self, if_true, true_and]
        refine ⟨⟨hrmap.set key.1 (p.1.target, key.2), hsproper.insert _ _ _⟩, ?_⟩
        intro a t
        rw [look_insert]
        by_cases ha : a = p.1.target
        · simp [ha, attach]
        · simp [ha]
      · simp only [hpure, if_false, false_and, Bool.false_eq_true]
        exact ⟨⟨hrmap.set key.1 (p.1.target, key.2), hsproper⟩, by simp⟩
    have hloop := attach_loop (I := fun st => RmapInv resolution st ∧ st.result.Proper)
      hattach hstep path (st, true) ⟨hinv, hproper⟩
    obtain ⟨hI, hcmap, hflag, hlook⟩ := hloop
    refine ⟨hI, hcmap, fun _ => by simpa using hflag, ?_⟩
    intro a t
    rw [hlook]
    by_cases ha : a ∈ attachPoints lg.isContainer (path.map (fun p => p.1.target))
    · simp [ha, hcs, attach]
    · simp [ha]

end Loops

section Visits

variable {lg : LicenseGraph} {shipped : List String} {resolution : String → LicenseConditionSet}

def action (cs : LicenseConditionSet) : Option LicenseConditionSet :=
  if cs = ∅ then none else some cs

@[simp] theorem action_eq_none
    {cs : LicenseConditionSet} :
    action cs = none ↔ cs = ∅ := by
  unfold action
  split_ifs with h <;> simp [h]

theorem action_of_ne
    {cs : LicenseConditionSet} (h : cs ≠ ∅) :
    action cs = some cs :=
  if_neg h

/-- The walk has attached what the paths of `ps` attach. -/
structure Agrees (lg : LicenseGraph) (shipped : List String)
    (resolution : String → LicenseConditionSet) (walked : List ResolutionKey) (ps : List Visit)
    (st : WalkState) : Prop where
  cmap : st.cmap = walked
  shipped : ∀ key ∈ walked, key.1 ∈ shipped
  rmap : RmapInv resolution st
  proper : st.result.Proper
  look : ∀ a t, st.result.look a t = action (attachedBy lg resolution ps a t)

variable {walked : List ResolutionKey} {ps : List Visit} {st : WalkState}
variable {above : List String} {n : String} {left : LicenseConditionSet}

theorem mem_attachPoints_snoc
    {a : String} :
    a ∈ attachPoints lg.isContainer (above ++ [n]) ↔
      a ∈ attachPoints lg.isContainer above ∨ (∀ m ∈ above, lg.isContainer m) ∧ a = n := by
  rw [attachPoints_append]
  split_ifs with h
  · rw [attachPoints_of_containers h, List.mem_append, and_iff_right h]
    simp [attachPoints]
  · rw [or_iff_left (fun hself => h hself.1)]

theorem attachedBy_single
    (a t : String) :
    attachedBy lg resolution [⟨above, n, left⟩] a t =
      if n = t ∧ a ∈ attachPoints lg.isContainer (above ++ [n]) then resolution t ∩ left else ∅ := by
  rw [attachedBy, attachedBy, Finset.union_empty]
  rfl

theorem RmapInv.walk
    (h : RmapInv resolution st) (key : ResolutionKey) :
    RmapInv resolution { st with
      rmap := Function.update st.rmap key
        (some (Function.update ((st.rmap key).getD noActions) key.1 (some (resolution key.1))))
      cmap := key :: st.cmap } := by
  have hset : RmapInv resolution { st with
      rmap := Function.update st.rmap key
        (some (Function.update ((st.rmap key).getD noActions) key.1 (some (resolution key.1)))) } :=
    h.set key.1 key
  refine ⟨hset.entries, ?_⟩
  intro key' hkey'
  rcases List.mem_cons.mp hkey' with rfl | hmem
  · exact ⟨_, Function.update_self .., by simp⟩
  · exact hset.walked key' hmem

/-- A target that is walked for the first time. -/
theorem Agrees.visitFirst
    (h : Agrees lg shipped resolution walked ps st) (hn : n ∈ shipped)
    {path : TargetEdgePath LicenseConditionSet} (hpath : path.map (fun p => p.1.target) = above)
    (hgrow : Growing lg resolution ps above n left) :
    Agrees lg shipped resolution ((n, left) :: walked) (ps ++ [⟨above, n, left⟩])
      (lg.visitFirst resolution (n, left) st path) := by
  have hshipped : ∀ key ∈ (n, left) :: walked, key.1 ∈ shipped := by
    rw [List.forall_mem_cons]
    exact ⟨hn, h.shipped⟩
  have hvalue : ∀ a t, action (attachedBy lg resolution (ps ++ [⟨above, n, left⟩]) a t) =
      if (resolution n ∩ left ≠ ∅ ∧ a ∈ attachPoints lg.isContainer (above ++ [n])) ∧ t = n then
        some (resolution n ∩ left)
      else st.result.look a t := by
    intro a t
    rw [attachedBy_append, attachedBy_single, h.look]
    by_cases ht : t = n
    · subst ht
      by_cases hcs : resolution t ∩ left = ∅
      · simp [hcs]
      · by_cases ha : a ∈ attachPoints lg.isContainer (above ++ [t])
        · have hsub := (hgrow.resolve_left hcs) a ha
          rw [if_pos ⟨rfl, ha⟩, if_pos ⟨⟨hcs, ha⟩, rfl⟩, Finset.union_eq_right.mpr hsub,
            action_of_ne hcs]
        · simp [ha]
    · simp [ht, Ne.symm ht]
  have hrmap := h.rmap.walk (n, left)
  unfold LicenseGraph.visitFirst
  by_cases hempty : resolution n = ∅
  · -- the target has no conditions at all
    simp only [hempty, if_true]
    refine ⟨congrArg _ h.cmap, hshipped, hempty ▸ hrmap, h.proper, ?_⟩
    intro a t
    rw [hvalue]
    simp [hempty]
  · simp only [hempty, if_false]
    obtain ⟨⟨hrmap', hproper⟩, hcmap, hflag, hlook⟩ := attachNew_spec hrmap h.proper path rfl
    rw [hpath] at hflag hlook
    split_ifs with hpure
    · have hall := (hflag hpure.2).mp hpure.1
      refine ⟨hcmap.trans (congrArg _ h.cmap), hshipped, ⟨hrmap'.entries, hrmap'.walked⟩,
        hproper.insert n n _, ?_⟩
      intro a t
      rw [hvalue, look_insert, hlook]
      simp only [mem_attachPoints_snoc, ne_eq, hpure.2, not_false_eq_true, true_and,
        and_iff_right hall]
      by_cases ht : t = n
      · by_cases ha : a = n
        · simp [ht, ha]
        · simp [ht, ha]
      · simp [ht]
    · refine ⟨hcmap.trans (congrArg _ h.cmap), hshipped, hrmap', hproper, ?_⟩
      intro a t
      rw [hvalue, hlook]
      by_cases hcs : resolution n ∩ left = ∅
      · simp [hcs]
      · have hall : ¬ ∀ m ∈ above, lg.isContainer m :=
          fun hall => hpure ⟨(hflag hcs).mpr hall, hcs⟩
        simp only [mem_attachPoints_snoc, hall, false_and, or_false, and_assoc]

theorem attachedBy_eq_foundBy_of_nodes
    {below : List Visit}
    (h : ∀ p ∈ ps ++ below,
      attachedBy lg resolution ps n p.node = foundBy resolution below p.node) (t : String) :
    attachedBy lg resolution ps n t = foundBy resolution below t := by
  by_cases ht : ∃ p ∈ ps ++ below, p.node = t
  · obtain ⟨p, hp, rfl⟩ := ht
    exact h p hp
  · push Not at ht
    rw [attachedBy_eq_empty (fun p hp => ht p (List.mem_append_left _ hp)),
      foundBy_eq_empty (fun p hp => ht p (List.mem_append_right _ hp))]

/-- Copying the actions of a target with actions is right. -/
theorem Reusable.attachedBy_append
    {depth : Nat} {below : List Visit} (hbelow : visits lg shipped depth above n left = below)
    (h : Reusable lg resolution ps below above n) (a t : String) :
    attachedBy lg resolution (ps ++ below) a t =
      if a ∈ attachPoints lg.isContainer above ∧ foundBy resolution below t ≠ ∅ then
        foundBy resolution below t
      else attachedBy lg resolution ps a t := by
  subst hbelow
  rw [Compliance.attachedBy_append]
  by_cases ha : a ∈ attachPoints lg.isContainer above
  · rw [attachedBy_eq_foundBy (fun p hp _ => attachPoints_visits hp ha)]
    by_cases hfound : foundBy resolution (visits lg shipped depth above n left) t = ∅
    · simp [hfound]
    · rw [if_pos ⟨ha, hfound⟩]
      refine Finset.union_eq_right.mpr ?_
      have hnode : ∃ p ∈ visits lg shipped depth above n left, p.node = t := by
        by_contra hnone
        push Not at hnone
        exact hfound (foundBy_eq_empty hnone)
      obtain ⟨p, hp, rfl⟩ := hnode
      exact (h.2.1 a ha p hp).resolve_left hfound
  · rw [if_neg (fun hand => ha hand.1)]
    refine Finset.union_eq_left.mpr ?_
    intro c hc
    obtain ⟨p, hp, rfl, hap, hc⟩ := mem_attachedBy.mp hc
    rcases h.2.2 p hp a hap with habove | hsub
    · exact absurd (attachPoints_of_above hp hap habove) ha
    · exact hsub hc

/-- Nothing is copied for a target without actions. -/
theorem attachedBy_append_of_empty
    {depth : Nat} {below : List Visit} (hbelow : visits lg shipped depth above n left = below)
    (hfound : foundBy resolution below n = resolution n ∩ left)
    (hempty : ∀ t, attachedBy lg resolution ps n t = ∅)
    (h : Reusable lg resolution ps below above n ∨ Covered lg resolution ps below above n left)
    (a t : String) :
    attachedBy lg resolution (ps ++ below) a t =
      if a = n ∧ t = n then resolution n ∩ left else attachedBy lg resolution ps a t := by
  rw [Compliance.attachedBy_append]
  rcases h with h | ⟨_, hown, hcovered⟩
  · have hnone : ∀ t, foundBy resolution below t = ∅ := by
      intro t
      rw [← attachedBy_eq_foundBy_of_nodes h.1, hempty]
    have hattached : attachedBy lg resolution below a t = ∅ :=
      Finset.subset_empty.mp (hnone t ▸ attachedBy_subset_foundBy below a t)
    rw [hattached, Finset.union_empty, ← hfound, hnone]
    split_ifs with hself
    · rw [hself.1, hempty]
    · rfl
  · split_ifs with hself
    · obtain ⟨rfl, rfl⟩ := hself
      rw [hempty, Finset.empty_union]
      rcases hown with hnone | hpure
      · rw [hnone] at hfound ⊢
        exact Finset.subset_empty.mp (hfound ▸ attachedBy_subset_foundBy below t t)
      · subst hbelow
        rw [attachedBy_eq_foundBy (fun p hp _ => self_attachPoints_visits hp hpure), hfound]
    · refine Finset.union_eq_left.mpr ?_
      intro c hc
      obtain ⟨p, hp, rfl, hap, hc⟩ := mem_attachedBy.mp hc
      exact (hcovered p hp a hap).resolve_left hself hc

/-- A target that has been walked with the same conditions. -/
theorem Agrees.visitAgain
    (h : Agrees lg shipped resolution walked ps st) (hkey : (n, left) ∈ walked) (hleft : left ≠ ∅)
    {path : TargetEdgePath LicenseConditionSet} (hpath : path.map (fun p => p.1.target) = above)
    {depth : Nat}
    (hok : Reusable lg resolution ps (visits lg shipped (depth + 1) above n left) above n ∨
      Covered lg resolution ps (visits lg shipped (depth + 1) above n left) above n left) :
    Agrees lg shipped resolution walked
      (ps ++ visits lg shipped (depth + 1) above n left) (lg.visitAgain (n, left) st path) := by
  have hfound : foundBy resolution (visits lg shipped (depth + 1) above n left) n =
      resolution n ∩ left := foundBy_self hleft (h.shipped _ hkey)
  have hcs : ∀ r : WalkState, RmapInv resolution r → r.cmap = walked →
      ((r.rmap (n, left)).getD noActions n).getD ∅ = resolution n := by
    intro r hr hcmap
    obtain ⟨actions, hactions, hsome⟩ := hr.walked (n, left) (hcmap ▸ hkey)
    obtain ⟨cs, hcs⟩ := Option.ne_none_iff_exists'.mp hsome
    rw [hactions, Option.getD_some, hcs, Option.getD_some]
    exact hr.entries _ _ hactions _ _ hcs
  generalize hbelow : visits lg shipped (depth + 1) above n left = below at hok hfound ⊢
  unfold LicenseGraph.visitAgain
  cases hprior : st.result n with
  | none =>
      have hempty : ∀ t, attachedBy lg resolution ps n t = ∅ := by
        intro t
        rw [← action_eq_none, ← h.look, ResolutionSet.look, hprior]
        rfl
      obtain ⟨hrmap, hcmap, hresult, hflag⟩ :=
        attachPrior_none lg (n, left) h.rmap hprior path
      have hcmap' := hcmap.trans h.cmap
      simp only [hflag, hcs _ hrmap hcmap', true_and]
      have hvalue := attachedBy_append_of_empty hbelow hfound hempty hok
      split_ifs with hmatch
      · refine ⟨hcmap', h.shipped, ⟨hrmap.entries, hrmap.walked⟩, ?_, ?_⟩
        · exact (hresult ▸ h.proper).insert n n _
        · intro a t
          rw [hvalue, look_insert, hresult, h.look]
          split_ifs
          · exact (action_of_ne hmatch).symm
          · rfl
      · refine ⟨hcmap', h.shipped, hrmap, hresult ▸ h.proper, ?_⟩
        intro a t
        rw [hvalue, hresult, h.look]
        split_ifs with hself
        · rw [hself.1, hempty, not_not.mp hmatch]
        · rfl
  | some prior =>
      obtain ⟨⟨hrmap, hproper, hprior'⟩, hcmap, hflag, hlook⟩ :=
        attachPrior_some lg (n, left) h.rmap h.proper hprior path rfl
      have hcmap' := hcmap.trans h.cmap
      rw [hpath] at hflag hlook
      obtain ⟨t₀, ht₀⟩ := h.proper n prior hprior
      have hpriorlook : ∀ t, prior t = action (attachedBy lg resolution ps n t) := by
        intro t
        rw [← h.look, ResolutionSet.look, hprior]
        rfl
      have hreuse : Reusable lg resolution ps below above n := by
        refine hok.resolve_right ?_
        rintro ⟨hnone, _⟩
        rw [hpriorlook, Ne, action_eq_none] at ht₀
        refine ht₀ ?_
        by_cases hnode : ∃ p ∈ ps, p.node = t₀
        · obtain ⟨p, hp, rfl⟩ := hnode
          exact hnone p hp
        · push Not at hnode
          exact attachedBy_eq_empty hnode
      have hsame := attachedBy_eq_foundBy_of_nodes hreuse.1
      have hvalue := hreuse.attachedBy_append hbelow
      have hcopied : ∀ a t, ResolutionSet.look
          (path.foldl (lg.attachPrior (n, left)) (st, true)).1.result a t =
            action (attachedBy lg resolution (ps ++ below) a t) := by
        intro a t
        rw [hlook, hvalue, hpriorlook, hsame, h.look]
        by_cases ha : a ∈ attachPoints lg.isContainer above
        · by_cases hnone : foundBy resolution below t = ∅
          · simp [ha, hnone, action]
          · simp [ha, hnone, action_of_ne hnone]
        · simp [ha]
      have hself : attachedBy lg resolution (ps ++ below) n n = resolution n ∩ left := by
        rw [hvalue, hsame, hfound]
        split_ifs <;> rfl
      simp only [hcs _ hrmap hcmap']
      split_ifs with hmatch
      · refine ⟨hcmap', h.shipped, ⟨hrmap.entries, hrmap.walked⟩, hproper.insert n n _, ?_⟩
        intro a t
        rw [look_insert, hcopied]
        split_ifs with heq
        · rw [heq.1, heq.2, hself, action_of_ne hmatch.2]
        · rfl
      · exact ⟨hcmap', h.shipped, hrmap, hproper, hcopied⟩

end Visits

section Walk

variable {lg : LicenseGraph} {shipped : List String} {resolution : String → LicenseConditionSet}
variable {conditions : LicenseConditionSet} {depth : Nat}

/-- The edges of a node, if every walk from a dependency agrees. -/
theorem Agrees.edges
    {n : String} {above : List String} {left : LicenseConditionSet}
    {P : List ResolutionKey → List Visit → TargetEdge → Prop}
    {step : WalkState → TargetEdge → WalkState}
    (hstep : ∀ walked ps st, ∀ e ∈ lg.edges n, Agrees lg shipped resolution walked ps st →
      P walked ps e →
      Agrees lg shipped resolution
        (walkedAfter lg shipped depth walked e.dependency (conditionsAttachingAcrossEdge e left))
        (ps ++ visits lg shipped depth above e.dependency (conditionsAttachingAcrossEdge e left))
        (step st e))
    {es : List TargetEdge} (hes : ∀ e ∈ es, e ∈ lg.edges n) {walked : List ResolutionKey}
    {ps : List Visit} {st : WalkState} (h : Agrees lg shipped resolution walked ps st)
    (hok : EdgesOk lg shipped depth P above left walked ps es) :
    Agrees lg shipped resolution
      (es.foldl (fun walked e => walkedAfter lg shipped depth walked e.dependency
        (conditionsAttachingAcrossEdge e left)) walked)
      (ps ++ es.flatMap (fun e => visits lg shipped depth above e.dependency
        (conditionsAttachingAcrossEdge e left)))
      (es.foldl step st) := by
  induction es generalizing walked ps st with
  | nil => simpa using h
  | cons e es ih =>
      rw [List.forall_mem_cons] at hes
      rw [List.foldl_cons, List.foldl_cons, List.flatMap_cons, ← List.append_assoc]
      exact ih hes.2 (hstep walked ps st e hes.1 h hok.1) hok.2

/-- The walk from a node follows the paths below it. -/
theorem Agrees.walk
    {walked : List ResolutionKey} {ps : List Visit} {st : WalkState} {above : List String}
    {n : String} {left : LicenseConditionSet} {path : TargetEdgePath LicenseConditionSet}
    (h : Agrees lg shipped resolution walked ps st)
    (hpath : path.map (fun p => p.1.target) = above) (hleft : remaining conditions path = left)
    (hok : WalkOk lg shipped resolution depth walked ps above n left) :
    Agrees lg shipped resolution (walkedAfter lg shipped depth walked n left)
      (ps ++ visits lg shipped depth above n left)
      (lg.walk (applicableConditions conditions)
        (lg.visitResolution shipped resolution conditions) depth st path n) := by
  induction depth generalizing walked ps st above n left path with
  | zero => simpa [walkedAfter, visits, LicenseGraph.walk] using h
  | succ depth ih =>
      rw [WalkOk] at hok
      rw [walkedAfter, LicenseGraph.walk, LicenseGraph.visitResolution]
      simp only [hleft, h.cmap]
      by_cases hempty : left = ∅
      · rw [visits, if_pos (Or.inl hempty), if_pos (Or.inl hempty), List.append_nil]
        simpa [hempty] using h
      rw [if_neg hempty] at hok
      by_cases hkey : (n, left) ∈ walked
      · rw [if_pos hkey] at hok
        rw [if_pos (Or.inr (Or.inl hkey))]
        simpa [hempty, hkey] using h.visitAgain hkey hempty hpath hok
      rw [if_neg hkey] at hok
      by_cases hn : n ∈ shipped
      · rw [if_neg (not_not.mpr hn)] at hok
        have hfirst := h.visitFirst hn hpath hok.1
        have hvisits : visits lg shipped (depth + 1) above n left =
            [⟨above, n, left⟩] ++ (lg.edges n).flatMap (fun e =>
              visits lg shipped depth (above ++ [n]) e.dependency
                (conditionsAttachingAcrossEdge e left)) := by
          rw [visits, if_neg (by simp [hempty, hn])]
          rfl
        rw [hvisits, if_neg (by simp [hempty, hkey, hn]), ← List.append_assoc]
        simp only [hempty, hkey, hn, not_true_eq_false, if_false, if_true]
        refine hfirst.edges ?_ (fun _ he => he) hok.2
        intro walked' ps' st' e he hagrees hokWalk
        refine ih hagrees ?_ ?_ hokWalk
        · rw [List.map_append, hpath, List.map_singleton, lg.edges_target n e he]
        · rw [remaining, List.getLast?_concat, applicableConditions, hleft]
      · rw [visits, if_pos (Or.inr hn), if_pos (Or.inr (Or.inr hn)), List.append_nil]
        simpa [hempty, hkey, hn] using h

theorem Agrees.roots
    {roots : List String} {walked : List ResolutionKey} {ps : List Visit} {st : WalkState}
    (h : Agrees lg shipped resolution walked ps st)
    (hok : RootsOk lg shipped resolution depth conditions walked ps roots) :
    ∃ walked', Agrees lg shipped resolution walked'
      (ps ++ roots.flatMap (fun r => visits lg shipped depth [] r conditions))
      (roots.foldl (fun s r => lg.walk (applicableConditions conditions)
        (lg.visitResolution shipped resolution conditions) depth s [] r) st) := by
  induction roots generalizing walked ps st with
  | nil => exact ⟨walked, by simpa using h⟩
  | cons r roots ih =>
      have hpath : ([] : TargetEdgePath LicenseConditionSet).map (fun p => p.1.target) = [] := rfl
      have hwalk := h.walk hpath rfl hok.1
      rw [List.flatMap_cons, ← List.append_assoc, List.foldl_cons]
      exact ih hwalk hok.2

end Walk

section Paths

/-- A root path of shipped targets, with conditions left at each of them: the
targets above, the last target and the conditions left there. -/
inductive RootPath (lg : LicenseGraph) (conditions : LicenseConditionSet) :
    List String → String → LicenseConditionSet → Prop
  | root {r : String} :
      r ∈ lg.rootFiles →
      conditions ≠ ∅ →
      lg.Shipped r →
      RootPath lg conditions [] r conditions
  | edge {above : List String} {n : String} {left : LicenseConditionSet} {e : TargetEdge} :
      RootPath lg conditions above n left →
      e ∈ lg.edges n →
      conditionsAttachingAcrossEdge e left ≠ ∅ →
      lg.Shipped e.dependency →
      RootPath lg conditions (above ++ [n]) e.dependency (conditionsAttachingAcrossEdge e left)

variable {lg : LicenseGraph} {rank : String → Nat} {shipped : List String}
variable {conditions : LicenseConditionSet} {depth : Nat}

theorem rootPath_of_visits
    (hshipped : ∀ n, n ∈ shipped ↔ lg.Shipped n) {above : List String} {n : String}
    {left : LicenseConditionSet}
    (h : left ≠ ∅ → lg.Shipped n → RootPath lg conditions above n left) {p : Visit}
    (hp : p ∈ visits lg shipped depth above n left) :
    RootPath lg conditions p.above p.node p.left := by
  induction depth generalizing above n left with
  | zero => cases hp
  | succ depth ih =>
      rw [visits] at hp
      split_ifs at hp with hcond
      · cases hp
      · rw [not_or, not_not] at hcond
        have hself := h hcond.1 ((hshipped n).mp hcond.2)
        rcases List.mem_cons.mp hp with rfl | hp
        · exact hself
        · obtain ⟨e, he, hp⟩ := List.mem_flatMap.mp hp
          exact ih (fun hleft hdep => .edge hself he hleft hdep) hp

/-- A path is continued along every edge. -/
theorem visits_edge
    (hacyclic : lg.Acyclic rank) {above : List String} {n : String} {left : LicenseConditionSet}
    (hdepth : rank n < depth) {p : Visit} (hp : p ∈ visits lg shipped depth above n left)
    {e : TargetEdge} (he : e ∈ lg.edges p.node)
    (hleft : conditionsAttachingAcrossEdge e p.left ≠ ∅) (hdep : e.dependency ∈ shipped) :
    (⟨p.above ++ [p.node], e.dependency, conditionsAttachingAcrossEdge e p.left⟩ : Visit) ∈
      visits lg shipped depth above n left := by
  induction depth generalizing above n left with
  | zero => omega
  | succ depth ih =>
      rw [visits] at hp ⊢
      split_ifs at hp ⊢ with hcond
      · cases hp
      · rw [List.mem_cons, List.mem_flatMap]
        refine Or.inr ?_
        rcases List.mem_cons.mp hp with rfl | hp
        · have hlt := hacyclic n e he
          obtain ⟨d, rfl⟩ : ∃ d, depth = d + 1 := ⟨depth - 1, by omega⟩
          refine ⟨e, he, ?_⟩
          rw [visits, if_neg (by simp [hleft, hdep])]
          exact List.mem_cons_self
        · obtain ⟨d, hd, hp⟩ := List.mem_flatMap.mp hp
          have hlt := hacyclic n d hd
          exact ⟨d, hd, ih (by omega) hp⟩

/-- The walk follows exactly the root paths. -/
theorem mem_visits_iff
    (hacyclic : lg.Acyclic rank) (hdepth : ∀ r ∈ lg.rootFiles, rank r < depth)
    (hshipped : ∀ n, n ∈ shipped ↔ lg.Shipped n) {p : Visit} :
    p ∈ lg.rootFiles.flatMap (fun r => visits lg shipped depth [] r conditions) ↔
      RootPath lg conditions p.above p.node p.left := by
  constructor
  · intro hp
    obtain ⟨r, hr, hp⟩ := List.mem_flatMap.mp hp
    exact rootPath_of_visits hshipped (fun hleft hn => .root hr hleft hn) hp
  · suffices H : ∀ above n left, RootPath lg conditions above n left → (⟨above, n, left⟩ : Visit) ∈
        lg.rootFiles.flatMap (fun r => visits lg shipped depth [] r conditions) from
      H p.above p.node p.left
    intro above n left hpath
    induction hpath with
    | @root r hr hleft hn =>
        have hlt := hdepth r hr
        obtain ⟨d, rfl⟩ : ∃ d, depth = d + 1 := ⟨depth - 1, by omega⟩
        refine List.mem_flatMap.mpr ⟨r, hr, ?_⟩
        rw [visits, if_neg (by simp [hleft, (hshipped r).mpr hn])]
        exact List.mem_cons_self
    | edge _ he hleft hdep ih =>
        obtain ⟨r, hr, hp⟩ := List.mem_flatMap.mp ih
        exact List.mem_flatMap.mpr ⟨r, hr,
          visits_edge hacyclic (hdepth r hr) hp he hleft ((hshipped _).mpr hdep)⟩

/-- The walk attaches to `a` the action on `t` that the root paths through `a` ask for. -/
theorem walkResolutionsForCondition_paths
    (hacyclic : lg.Acyclic rank) (hdepth : ∀ r ∈ lg.rootFiles, rank r < depth)
    {resolution : String → LicenseConditionSet}
    (hok : RootsOk lg (lg.shippedNodes depth) resolution depth conditions [] [] lg.rootFiles)
    (a t : String) (cs : LicenseConditionSet) :
    (lg.walkResolutionsForCondition depth resolution conditions).look a t = some cs ↔
      cs ≠ ∅ ∧ ∀ c, c ∈ cs ↔ ∃ above left, RootPath lg conditions above t left ∧
        (∃ before after, above ++ [t] = before ++ a :: after ∧ ∀ m ∈ before, lg.isContainer m) ∧
        c ∈ resolution t ∩ left := by
  have hshipped : ∀ n, n ∈ lg.shippedNodes depth ↔ lg.Shipped n :=
    fun n => mem_shippedNodes hacyclic hdepth
  have hinit : Agrees lg (lg.shippedNodes depth) resolution [] []
      ⟨fun _ => none, [], fun _ => none⟩ := by
    refine ⟨rfl, by simp, ⟨by simp, by simp⟩, ?_, ?_⟩
    · intro b actions hb
      cases hb
    · intro b u
      rfl
  obtain ⟨walked, hagrees⟩ := hinit.roots hok
  rw [List.nil_append] at hagrees
  have hmem : ∀ c, c ∈ attachedBy lg resolution (lg.rootFiles.flatMap (fun r =>
      visits lg (lg.shippedNodes depth) depth [] r conditions)) a t ↔
      ∃ above left, RootPath lg conditions above t left ∧
        (∃ before after, above ++ [t] = before ++ a :: after ∧ ∀ m ∈ before, lg.isContainer m) ∧
        c ∈ resolution t ∩ left := by
    intro c
    rw [mem_attachedBy]
    constructor
    · rintro ⟨p, hp, rfl, ha, hc⟩
      exact ⟨p.above, p.left, (mem_visits_iff hacyclic hdepth hshipped).mp hp,
        mem_attachPoints.mp ha, hc⟩
    · rintro ⟨above, left, hpath, ha, hc⟩
      exact ⟨⟨above, t, left⟩, (mem_visits_iff hacyclic hdepth hshipped).mpr hpath, rfl,
        mem_attachPoints.mpr ha, hc⟩
  have hlook := hagrees.look a t
  change (lg.walkResolutionsForCondition depth resolution conditions).look a t = _ at hlook
  rw [hlook, action]
  simp only [← hmem]
  split_ifs with hempty
  · rw [hempty]
    constructor
    · intro h
      cases h
    · rintro ⟨hne, hcs⟩
      exact absurd (Finset.ext hcs) hne
  · rw [Option.some.injEq]
    constructor
    · rintro rfl
      exact ⟨hempty, fun c => Iff.rfl⟩
    · rintro ⟨_, hcs⟩
      exact (Finset.ext hcs).symm

/-- An image with a binary and the library that the binary links, and a second image
with the library. -/
def images : LicenseGraph where
  rootFiles := ["image1", "image2"]
  edges := fun n =>
    if n = "image1" then [⟨"image1", "bin", []⟩, ⟨"image1", "lib", []⟩]
    else if n = "image2" then [⟨"image2", "lib", []⟩]
    else if n = "bin" then [⟨"bin", "lib", []⟩]
    else []
  isContainer := fun n => n = "image1" || n = "image2"
  edges_target := by
    intro n e he
    split_ifs at he with h1 h2 h3 <;> simp at he
    · rcases he with rfl | rfl <;> exact h1.symm
    · rw [he, h2]
    · rw [he, h3]

/-- Two binaries that link the same library. -/
def binaries : LicenseGraph where
  rootFiles := ["bin1", "bin2"]
  edges := fun n =>
    if n = "bin1" then [⟨"bin1", "lib", []⟩]
    else if n = "bin2" then [⟨"bin2", "lib", []⟩]
    else []
  isContainer := fun _ => false
  edges_target := by
    intro n e he
    split_ifs at he with h1 h2 <;> simp at he
    · rw [he, h1]
    · rw [he, h2]

/-- Only the library has a condition. -/
def libNotice (n : String) : LicenseConditionSet :=
  if n = "lib" then {.notice} else ∅

def depthRank (n : String) : Nat :=
  if n = "lib" then 0 else if n = "bin" then 1 else 2

theorem images_acyclic :
    images.Acyclic depthRank := by
  intro n e he
  simp only [images] at he
  split_ifs at he with h1 h2 h3 <;> simp at he
  · rcases he with rfl | rfl <;> subst h1 <;> decide
  · subst he h2
    decide
  · subst he h3
    decide

theorem binaries_acyclic :
    binaries.Acyclic depthRank := by
  intro n e he
  simp only [binaries] at he
  split_ifs at he with h1 h2 <;> simp at he
  · subst he h1
    decide
  · subst he h2
    decide

theorem walkResolutionsForCondition_paths_images :
    (images.walkResolutionsForCondition 3 libNotice {.notice}).look "image2" "lib" =
      some {.notice} ∧
    ∃ above left, RootPath images {.notice} above "lib" left ∧
      (∃ before after, above ++ ["lib"] = before ++ "image2" :: after ∧
        ∀ m ∈ before, images.isContainer m) ∧
      LicenseCondition.notice ∈ libNotice "lib" ∩ left := by
  have hlook : (images.walkResolutionsForCondition 3 libNotice {.notice}).look "image2" "lib" =
      some {.notice} := by decide +kernel
  have hok : RootsOk images (images.shippedNodes 3) libNotice 3 {.notice} [] [] images.rootFiles := by
    decide +kernel
  refine ⟨hlook, ?_⟩
  exact (((walkResolutionsForCondition_paths images_acyclic (by decide) hok "image2" "lib" _).mp
    hlook).2 .notice).mp (by decide)

/-- The second binary does not get the library that it links, and the library
is attached to itself, although it is below binaries only. -/
theorem walkResolutionsForCondition_missing :
    binaries.Acyclic depthRank ∧
    RootPath binaries {.notice} ["bin2"] "lib" {.notice} ∧
    LicenseCondition.notice ∈ libNotice "lib" ∩ {.notice} ∧
    (binaries.walkResolutionsForCondition 3 libNotice {.notice}).look "bin2" "lib" = none ∧
    (binaries.walkResolutionsForCondition 3 libNotice {.notice}).look "lib" "lib" =
      some {.notice} := by
  have hroot : RootPath binaries {.notice} [] "bin2" {.notice} :=
    .root (by decide) (by decide) (.root (by decide))
  have hedge : (⟨"bin2", "lib", []⟩ : TargetEdge) ∈ binaries.edges "bin2" := by decide
  have hlib : RootPath binaries {.notice} ["bin2"] "lib" {.notice} :=
    .edge hroot hedge (by decide) (.derivation (.root (by decide)) hedge (by decide))
  exact ⟨binaries_acyclic, hlib, by decide, by decide +kernel, by decide +kernel⟩

end Paths

end Compliance
end AndroidBuild
