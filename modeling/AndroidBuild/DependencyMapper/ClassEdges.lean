import AndroidBuild.DependencyMapper.BuildMaps

/-!
# What the maps of classes hold

The first loop registers every analysis under the name of its class.  The loop
over the constants then removes each class that uses a constant from the
declarations of that constant, so a class is a dependency of the users that are
visited before it, and of no user that is visited after it.
-/

namespace AndroidBuild
namespace DependencyMapper

universe u

section Names

variable {Constant : Type u}

def HasDependency (analyses : List (ClassDependencyData Constant)) (C D : String) : Prop :=
  ∃ a ∈ analyses, a.qualifiedName = C ∧ D ∈ a.classDependencies

def Defines (analyses : List (ClassDependencyData Constant)) (D : String) (c : Constant) : Prop :=
  ∃ a ∈ analyses, a.qualifiedName = D ∧ c ∈ a.constantsDefined

def Uses (analyses : List (ClassDependencyData Constant)) (C : String) (c : Constant) : Prop :=
  ∃ a ∈ analyses, a.qualifiedName = C ∧ c ∈ a.inlinedUsages

/-- The class `C` has been analysed and comes from the source file `F`. -/
def ClassOf (analyses : List (ClassDependencyData Constant)) (sources : List JavaSourceData)
    (F C : String) : Prop :=
  ∃ a ∈ analyses, a.qualifiedName = C ∧
    ∃ s ∈ sources, s.packagePrependedFileName = a.packagePrependedClassSource ∧ s.filePath = F

end Names

section Analyses

variable {Constant : Type u} {visitors : List (String × ClassDependenciesVisitor Constant)}

theorem packagePart_append
    (package : String) {name : String} (h : '.' ∉ name.toList) :
    packagePart (package ++ "." ++ name) = package ++ "." := by
  have hname : ∀ c ∈ name.toList.reverse, decide (c ≠ '.') = true := by
    intro c hc
    refine decide_eq_true ?_
    rintro rfl
    exact h (List.mem_reverse.mp hc)
  rw [packagePart, ← String.toList_inj, String.toList_ofList, String.toList_append,
    List.reverse_append, List.dropWhile_append_of_pos hname, String.toList_append,
    show ".".toList = ['.'] from rfl, List.reverse_append, List.reverse_singleton,
    List.singleton_append, List.dropWhile_cons_of_neg (by simp)]
  simp

/-- A class comes from the source with its package and the name of the file it was compiled
from. -/
theorem classOf_analyze
    (hnames : (visitors.map Prod.fst).Nodup) {package name : String} (hname : '.' ∉ name.toList)
    {visitor : ClassDependenciesVisitor Constant}
    (hmem : (package ++ "." ++ name, visitor) ∈ visitors) {source : String}
    (hsource : visitor.source = some source) (sources : List JavaSourceData) (F : String) :
    ClassOf (visitors.map fun v => analyze v.1 v.2) sources F (package ++ "." ++ name) ↔
      ∃ s ∈ sources, s.packagePrependedFileName = package ++ "." ++ source ∧ s.filePath = F := by
  have hfile : (analyze (package ++ "." ++ name) visitor).packagePrependedClassSource =
      package ++ "." ++ source := by
    change packagePart _ ++ visitor.source.getD "null" = _
    rw [packagePart_append package hname, hsource, Option.getD_some]
  constructor
  · rintro ⟨a, ha, hname', hs⟩
    obtain ⟨⟨name', visitor'⟩, hv, rfl⟩ := List.mem_map.mp ha
    change name' = _ at hname'
    subst hname'
    cases List.inj_on_of_nodup_map hnames hv hmem rfl
    rwa [hfile] at hs
  · intro hs
    exact ⟨_, List.mem_map_of_mem hmem, rfl, hfile ▸ hs⟩

/-- No class is analysed as a dependency of itself. -/
theorem not_hasDependency_self
    (C : String) :
    ¬ HasDependency (visitors.map fun v => analyze v.1 v.2) C C := by
  rintro ⟨a, ha, rfl, hdep⟩
  obtain ⟨v, -, rfl⟩ := List.mem_map.mp ha
  exact Finset.notMem_erase _ _ hdep

end Analyses

section ClassMaps

variable {Constant : Type u} [DecidableEq Constant] (orders : Orders Constant)
variable {analyses : List (ClassDependencyData Constant)} {sources : List JavaSourceData}
variable (sourcePaths : OrderedDict String String) (m : ClassMaps Constant)

theorem classToSource_foldl :
    (analyses.foldl (addAnalysis orders sourcePaths) m).classToSource =
      analyses.foldl (fun d a => d.set a.qualifiedName
        (sourcePaths.get? a.packagePrependedClassSource)) m.classToSource := by
  induction analyses generalizing m with
  | nil => rfl
  | cons a l ih => exact ih _

theorem classDependencies_foldl :
    (analyses.foldl (addAnalysis orders sourcePaths) m).classDependencies =
      analyses.foldl (fun d a => d.addAll a.qualifiedName a.classDependencies)
        m.classDependencies := by
  induction analyses generalizing m with
  | nil => rfl
  | cons a l ih => exact ih _

theorem mem_values_foldl_add
    {cs : List Constant} {registry : SetMap Constant String} {D D' : String} {c : Constant} :
    D' ∈ (cs.foldl (fun registry c => registry.add c D) registry).values c ↔
      D' ∈ registry.values c ∨ D' = D ∧ c ∈ cs := by
  refine (SetMap.mem_values_foldl_addAll id (fun _ => {D}) cs registry).trans ?_
  constructor
  · rintro (h | ⟨c', hmem, rfl, hD⟩)
    · exact Or.inl h
    · exact Or.inr ⟨Finset.mem_singleton.mp hD, hmem⟩
  · rintro (h | ⟨rfl, hmem⟩)
    · exact Or.inl h
    · exact Or.inr ⟨c, hmem, rfl, Finset.mem_singleton_self D'⟩

theorem mem_constantRegistry_foldl
    {D : String} {c : Constant} :
    D ∈ (analyses.foldl (addAnalysis orders sourcePaths) m).constantRegistry.values c ↔
      D ∈ m.constantRegistry.values c ∨ Defines analyses D c := by
  induction analyses generalizing m with
  | nil => simp [Defines]
  | cons a l ih =>
      rw [List.foldl_cons, ih]
      unfold Defines
      rw [List.exists_mem_cons_iff, ← or_assoc]
      refine or_congr_left (mem_values_foldl_add.trans ?_)
      rw [HashOrder.mem_iterate, eq_comm]

theorem mem_inlinedUsages_foldl
    {C : String} {c : Constant} :
    C ∈ (analyses.foldl (addAnalysis orders sourcePaths) m).inlinedUsages.values c ↔
      C ∈ m.inlinedUsages.values c ∨ Uses analyses C c := by
  induction analyses generalizing m with
  | nil => simp [Uses]
  | cons a l ih =>
      rw [List.foldl_cons, ih]
      unfold Uses
      rw [List.exists_mem_cons_iff, ← or_assoc]
      refine or_congr_left (mem_values_foldl_add.trans ?_)
      rw [HashOrder.mem_iterate, eq_comm]

theorem mem_constantRegistry
    {D : String} {c : Constant} :
    D ∈ (classMaps orders analyses sources).constantRegistry.values c ↔
      Defines analyses D c := by
  rw [classMaps, mem_constantRegistry_foldl]
  simp [ClassMaps.init]

theorem mem_inlinedUsages
    {C : String} {c : Constant} :
    C ∈ (classMaps orders analyses sources).inlinedUsages.values c ↔ Uses analyses C c := by
  rw [classMaps, mem_inlinedUsages_foldl]
  simp [ClassMaps.init]

theorem mem_classDependencies
    {C D : String} :
    D ∈ (classMaps orders analyses sources).classDependencies.values C ↔
      HasDependency analyses C D := by
  rw [classMaps, classDependencies_foldl, SetMap.mem_values_foldl_addAll]
  simp [ClassMaps.init, HasDependency]

theorem mem_keys_classDependencies
    {C : String} :
    C ∈ (classMaps orders analyses sources).classDependencies.keys ↔
      ∃ a ∈ analyses, a.qualifiedName = C := by
  rw [classMaps, classDependencies_foldl, SetMap.mem_keys_foldl_addAll]
  simp [ClassMaps.init]

/-- A class has one source at most, the last one under its name. -/
theorem sourceOf_eq_some
    (hclasses : (analyses.map ClassDependencyData.qualifiedName).Nodup)
    (hsources : (sources.map JavaSourceData.packagePrependedFileName).Nodup) {C F : String} :
    sourceOf (classMaps orders analyses sources).classToSource C = some F ↔
      ClassOf analyses sources F C := by
  have hpath : ∀ {k F}, (generateSourcePaths sources).get? k = some F ↔
      ∃ s ∈ sources, s.packagePrependedFileName = k ∧ s.filePath = F :=
    OrderedDict.get?_foldl_set_empty JavaSourceData.packagePrependedFileName
      JavaSourceData.filePath hsources
  have hclass : ∀ {p}, (classMaps orders analyses sources).classToSource.get? C = some p ↔
      ∃ a ∈ analyses, a.qualifiedName = C ∧
        (generateSourcePaths sources).get? a.packagePrependedClassSource = p := by
    intro p
    rw [classMaps, classToSource_foldl]
    exact OrderedDict.get?_foldl_set_empty ClassDependencyData.qualifiedName
      (fun a => (generateSourcePaths sources).get? a.packagePrependedClassSource) hclasses
  rw [sourceOf, Option.join_eq_some_iff, hclass]
  simp only [hpath, ClassOf]

theorem mem_keys_classToSource
    {C : String} :
    C ∈ (classMaps orders analyses sources).classToSource.keys ↔
      ∃ a ∈ analyses, a.qualifiedName = C := by
  rw [classMaps, classToSource_foldl]
  have hkeys : ∀ d : OrderedDict String (Option String),
      C ∈ (analyses.foldl (fun d a => d.set a.qualifiedName
        ((generateSourcePaths sources).get? a.packagePrependedClassSource)) d).keys ↔
      C ∈ d.keys ∨ ∃ a ∈ analyses, a.qualifiedName = C := by
    induction analyses with
    | nil => simp
    | cons a l ih =>
        intro d
        rw [List.foldl_cons, ih, OrderedDict.mem_keys_set, List.exists_mem_cons_iff, eq_comm]
        tauto
  rw [hkeys]
  simp [ClassMaps.init]

end ClassMaps

section Constants

variable {Constant : Type u} [DecidableEq Constant]

/-- `C` is visited, and `D` is neither `C` nor visited before. -/
def VisitedBefore (classes : List String) (C D : String) : Prop :=
  ∃ front back, classes = front ++ C :: back ∧ D ∉ front ∧ D ≠ C

theorem visitedBefore_cons
    {c : String} {classes : List String} {C D : String} :
    VisitedBefore (c :: classes) C D ↔ D ≠ c ∧ (C = c ∨ VisitedBefore classes C D) := by
  constructor
  · rintro ⟨front, back, hsplit, hD, hne⟩
    cases front with
    | nil =>
        rw [List.nil_append, List.cons.injEq] at hsplit
        exact ⟨hsplit.1 ▸ hne, Or.inl hsplit.1.symm⟩
    | cons c' front =>
        rw [List.cons_append, List.cons.injEq] at hsplit
        rw [List.mem_cons, not_or] at hD
        exact ⟨hsplit.1 ▸ hD.1, Or.inr ⟨front, back, hsplit.2, hD.2, hne⟩⟩
  · rintro ⟨hne, rfl | ⟨front, back, rfl, hD, hne'⟩⟩
    · exact ⟨[], classes, rfl, List.not_mem_nil, hne⟩
    · refine ⟨c :: front, back, rfl, ?_, hne'⟩
      rw [List.mem_cons, not_or]
      exact ⟨hne, hD⟩

/-- A class that is visited at all is before each one that is not. -/
theorem visitedBefore_of_notMem
    {classes : List String} {C D : String} (hC : C ∈ classes) (hD : D ∉ classes) :
    VisitedBefore classes C D := by
  obtain ⟨front, back, rfl⟩ := List.append_of_mem hC
  rw [List.mem_append, List.mem_cons, not_or, not_or] at hD
  exact ⟨front, back, rfl, hD.1, hD.2.1⟩

theorem VisitedBefore.mem
    {classes : List String} {C D : String} (h : VisitedBefore classes C D) :
    C ∈ classes := by
  obtain ⟨front, back, rfl, _, _⟩ := h
  exact List.mem_append_right front List.mem_cons_self

variable {usage : Constant} {s : SetMap Constant String × SetMap String String}

theorem mem_registry_addUsageClass
    (classes : List String) {c : Constant} {D : String} :
    D ∈ (classes.foldl (addUsageClass usage) s).1.values c ↔
      D ∈ s.1.values c ∧ ¬ (c = usage ∧ D ∈ classes) := by
  induction classes generalizing s with
  | nil => simp
  | cons d classes ih =>
      rw [List.foldl_cons, ih]
      change D ∈ (s.1.remove usage d).values c ∧ _ ↔ _
      rw [SetMap.mem_values_remove, List.mem_cons]
      tauto

/-- A user of a constant gets the declarations that are left when it is visited. -/
theorem mem_values_addUsageClass
    (classes : List String) {C D : String} :
    D ∈ (classes.foldl (addUsageClass usage) s).2.values C ↔
      D ∈ s.2.values C ∨ D ∈ s.1.values usage ∧ VisitedBefore classes C D := by
  induction classes generalizing s with
  | nil => simp [VisitedBefore]
  | cons d classes ih =>
      rw [List.foldl_cons, ih, visitedBefore_cons]
      change D ∈ (s.2.addAll d ((s.1.remove usage d).values usage)).values C ∨
        D ∈ (s.1.remove usage d).values usage ∧ _ ↔ _
      rw [SetMap.mem_values_addAll, SetMap.mem_values_remove]
      tauto

variable (orders : Orders Constant) (inlinedUsages : SetMap Constant String)

/-- The constants are independent of each other. -/
theorem mem_values_addUsage
    (usages : List Constant) (husages : usages.Nodup) {C D : String} :
    D ∈ (usages.foldl (addUsage orders inlinedUsages) s).2.values C ↔
      D ∈ s.2.values C ∨ ∃ c ∈ usages, D ∈ s.1.values c ∧
        VisitedBefore ((orders.usageClasses c).iterate (inlinedUsages.values c)) C D := by
  induction usages generalizing s with
  | nil => simp
  | cons d usages ih =>
      rw [List.nodup_cons] at husages
      rw [List.foldl_cons, ih husages.2, List.exists_mem_cons_iff, ← or_assoc, addUsage]
      have hother : ∀ c ∈ usages, c ≠ d := fun c hc hcd => husages.1 (hcd ▸ hc)
      split_ifs with hkey
      · rw [mem_values_addUsageClass]
        refine or_congr_right (exists_congr fun c => and_congr_right fun hc => ?_)
        rw [mem_registry_addUsageClass]
        simp only [hother c hc, false_and, not_false_eq_true, and_true]
      · have hnone : D ∉ s.1.values d := fun h => hkey (SetMap.mem_keys_of_mem h)
        simp only [hnone, false_and, or_false]

theorem mem_values_buildConstantDependencies
    {constantRegistry : SetMap Constant String} {C D : String} :
    D ∈ (buildConstantDependencies orders inlinedUsages constantRegistry).values C ↔
      ∃ c, D ∈ constantRegistry.values c ∧
        VisitedBefore ((orders.usageClasses c).iterate (inlinedUsages.values c)) C D := by
  rw [buildConstantDependencies, mem_values_addUsage _ _ _ (orders.usages.nodup _)]
  constructor
  · rintro (h | ⟨c, _, h⟩)
    · exact absurd h (Finset.notMem_empty D)
    · exact ⟨c, h⟩
  · rintro ⟨c, h⟩
    refine Or.inr ⟨c, ?_, h⟩
    rw [HashOrder.mem_iterate]
    refine SetMap.mem_keys_of_mem (v := C) ?_
    rw [← HashOrder.mem_iterate (orders.usageClasses c)]
    exact h.2.mem

end Constants

end DependencyMapper
end AndroidBuild
