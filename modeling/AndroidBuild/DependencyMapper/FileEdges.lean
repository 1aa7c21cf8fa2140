import AndroidBuild.DependencyMapper.ClassEdges
import AndroidBuild.Lib.Loop

/-!
# The dependencies between source files

An entry for each source file with an analysed class, whatever the orders of
the loops are.  Its dependencies through classes are complete.  A dependency
through a constant depends on the order as soon as the class that declares the
constant also uses it: it is lost for the users that are visited later.
-/

namespace AndroidBuild
namespace DependencyMapper

universe u

section Statements

variable {Constant : Type u}
variable (analyses : List (ClassDependencyData Constant)) (sources : List JavaSourceData)

/-- A class of `F` refers to a class of `G`, or uses a constant of another class that is
in `G`. -/
def DependsOn (F G : String) : Prop :=
  ∃ C D, ClassOf analyses sources F C ∧ ClassOf analyses sources G D ∧
    (HasDependency analyses C D ∨ D ≠ C ∧ ∃ c, Uses analyses C c ∧ Defines analyses D c)

/-- The same, with a constant that its declaring class does not use. -/
def KeepsDependency (F G : String) : Prop :=
  ∃ C D, ClassOf analyses sources F C ∧ ClassOf analyses sources G D ∧
    (HasDependency analyses C D ∨
      D ≠ C ∧ ∃ c, Uses analyses C c ∧ Defines analyses D c ∧ ¬ Uses analyses D c)

/-- Each source file of an analysed class has one entry, with its classes. -/
structure ListsFiles (entries : List FileDependency) : Prop where
  nodup : (entries.map FileDependency.filePath).Nodup
  mem_iff : ∀ F, F ∈ entries.map FileDependency.filePath ↔ ∃ C, ClassOf analyses sources F C
  classes_nodup : ∀ e ∈ entries, e.generatedClasses.Nodup
  mem_classes_iff : ∀ e ∈ entries, ∀ path, path ∈ e.generatedClasses ↔
    ∃ C, ClassOf analyses sources e.filePath C ∧ convertClassToFileBasedPath C = path

/-- The entry of `F` has `G` among its dependencies. -/
def Lists (entries : List FileDependency) (F G : String) : Prop :=
  ∃ e ∈ entries, e.filePath = F ∧ G ∈ e.fileDependencies

end Statements

section Files

variable {Constant : Type u} (orders : Orders Constant)
variable (classToSource : OrderedDict String (Option String))

theorem mem_keys_addDependency
    (dependencies : List String) (files : SetMap String String) {F F' : String} :
    F' ∈ (dependencies.foldl (addDependency classToSource F) files).keys →
      F' ∈ files.keys ∨ F' = F := by
  induction dependencies generalizing files with
  | nil => exact Or.inl
  | cons d dependencies ih =>
      intro h
      rcases ih _ h with hkey | heq
      · rw [addDependency] at hkey
        split at hkey
        · exact Or.inl hkey
        · split_ifs at hkey
          · rw [SetMap.mem_keys_add] at hkey
            exact hkey.symm
          · exact Or.inl hkey
      · exact Or.inr heq

theorem keys_subset_addDependency
    (dependencies : List String) (files : SetMap String String) {F F' : String}
    (h : F' ∈ files.keys) :
    F' ∈ (dependencies.foldl (addDependency classToSource F) files).keys := by
  induction dependencies generalizing files with
  | nil => exact h
  | cons d dependencies ih =>
      refine ih _ ?_
      rw [addDependency]
      split
      · exact h
      · split_ifs
        · rw [SetMap.mem_keys_add]
          exact Or.inr h
        · exact h

theorem mem_values_addDependency
    (dependencies : List String) (files : SetMap String String) {F F' G : String} :
    G ∈ (dependencies.foldl (addDependency classToSource F) files).values F' ↔
      G ∈ files.values F' ∨
        F' = F ∧ F ≠ G ∧ ∃ D ∈ dependencies, sourceOf classToSource D = some G := by
  induction dependencies generalizing files with
  | nil => simp
  | cons d dependencies ih =>
      rw [List.foldl_cons, ih, List.exists_mem_cons_iff]
      have hstep : G ∈ (addDependency classToSource F files d).values F' ↔
          G ∈ files.values F' ∨ F' = F ∧ F ≠ G ∧ sourceOf classToSource d = some G := by
        unfold addDependency
        split
        next hnone => simp [hnone]
        next source hsource =>
          rw [hsource, Option.some.injEq]
          split_ifs with hne
          · rw [SetMap.mem_values_add]
            constructor
            · rintro (h | ⟨rfl, rfl⟩)
              · exact Or.inl h
              · exact Or.inr ⟨rfl, hne, rfl⟩
            · rintro (h | ⟨rfl, _, rfl⟩)
              · exact Or.inl h
              · exact Or.inr ⟨rfl, rfl⟩
          · constructor
            · exact Or.inl
            · rintro (h | ⟨_, hFG, rfl⟩)
              · exact h
              · exact absurd hFG hne
      rw [hstep]
      tauto

theorem mem_keys_addClass
    (combined : SetMap String String) (classes : List String) (files : SetMap String String)
    {F : String} :
    F ∈ (classes.foldl (addClass orders classToSource combined) files).keys ↔
      F ∈ files.keys ∨ ∃ C ∈ classes, sourceOf classToSource C = some F := by
  induction classes generalizing files with
  | nil => simp
  | cons c classes ih =>
      rw [List.foldl_cons, ih, List.exists_mem_cons_iff, ← or_assoc]
      refine or_congr_left ?_
      unfold addClass
      split
      next hnone => simp [hnone]
      next source hsource =>
        rw [hsource, Option.some.injEq]
        constructor
        · intro h
          rcases mem_keys_addDependency classToSource _ _ h with hkey | rfl
          · rw [SetMap.mem_keys_addAll] at hkey
            exact hkey.symm.imp_right Eq.symm
          · exact Or.inr rfl
        · intro h
          refine keys_subset_addDependency classToSource _ _ ?_
          rw [SetMap.mem_keys_addAll]
          exact h.symm.imp_left Eq.symm

theorem mem_values_addClass
    (combined : SetMap String String) (classes : List String) (files : SetMap String String)
    {F G : String} :
    G ∈ (classes.foldl (addClass orders classToSource combined) files).values F ↔
      G ∈ files.values F ∨ F ≠ G ∧ ∃ C ∈ classes, sourceOf classToSource C = some F ∧
        ∃ D ∈ combined.values C, sourceOf classToSource D = some G := by
  induction classes generalizing files with
  | nil => simp
  | cons c classes ih =>
      rw [List.foldl_cons, ih, List.exists_mem_cons_iff]
      have hstep : G ∈ (addClass orders classToSource combined files c).values F ↔
          G ∈ files.values F ∨ F ≠ G ∧ sourceOf classToSource c = some F ∧
            ∃ D ∈ combined.values c, sourceOf classToSource D = some G := by
        unfold addClass
        split
        next hnone => simp [hnone]
        next source hsource =>
          rw [mem_values_addDependency, SetMap.mem_values_addAll, hsource, Option.some.injEq]
          simp only [HashOrder.mem_iterate, Finset.notMem_empty, and_false, or_false]
          constructor
          · rintro (h | ⟨rfl, hne, hD⟩)
            · exact Or.inl h
            · exact Or.inr ⟨hne, rfl, hD⟩
          · rintro (h | ⟨hne, rfl, hD⟩)
            · exact Or.inl h
            · exact Or.inr ⟨rfl, hne, hD⟩
      rw [hstep, or_assoc, ← and_or_left]

theorem mem_values_buildSourceToClassMap
    {p : Option String} {path : String} :
    path ∈ (buildSourceToClassMap orders classToSource).values p ↔
      ∃ C ∈ classToSource.keys, sourceOf classToSource C = p ∧
        convertClassToFileBasedPath C = path := by
  refine (SetMap.mem_values_foldl_addAll (sourceOf classToSource)
    (fun C => {convertClassToFileBasedPath C}) _ _).trans ?_
  simp only [SetMap.values_empty, Finset.notMem_empty, false_or, HashOrder.mem_iterate,
    List.mem_toFinset, Finset.mem_singleton, eq_comm]

theorem mem_keys_buildSourceToClassMap
    {p : Option String} :
    p ∈ (buildSourceToClassMap orders classToSource).keys ↔
      ∃ C ∈ classToSource.keys, sourceOf classToSource C = p := by
  refine (SetMap.mem_keys_foldl_addAll (sourceOf classToSource)
    (fun C => {convertClassToFileBasedPath C}) _ _).trans ?_
  simp only [SetMap.keys_empty, Finset.notMem_empty, false_or, HashOrder.mem_iterate,
    List.mem_toFinset]

def entryOf (m : ClassMaps Constant) (fileDependencies : SetMap String String)
    (sourceToClasses : SetMap (Option String) String) (file : String) : FileDependency where
  filePath := file
  isDependencyToAll := some file ∈ m.dependencyToAll
  generatedClasses :=
    (orders.generatedClassesOf file).iterate (sourceToClasses.values (some file))
  fileDependencies := (orders.fileDependenciesOf file).iterate (fileDependencies.values file)
  crossModuleClassDeps := (orders.crossModuleClassDepsOf file).iterate
    ((m.crossModuleClassDependencies.get? (some file)).getD ∅)

/-- No set of classes is null when each file has a class. -/
theorem createFileDependencies_eq
    {m : ClassMaps Constant} {fileDependencies : SetMap String String}
    {sourceToClasses : SetMap (Option String) String}
    (h : ∀ F ∈ fileDependencies.keys, some F ∈ sourceToClasses.keys) :
    createFileDependencies orders m fileDependencies sourceToClasses =
      .ok ((orders.fileDependencies.iterate fileDependencies.keys).map
        (entryOf orders m fileDependencies sourceToClasses)) := by
  rw [createFileDependencies, Loop.mapM_eq_ok, List.forall₂_map_right_iff, List.forall₂_same]
  intro F hF
  rw [HashOrder.mem_iterate] at hF
  rw [createFileDependency, SetMap.get?_of_mem (h F hF)]
  rfl

end Files

section Run

variable {Constant : Type u} [DecidableEq Constant] (orders : Orders Constant)
variable {analyses : List (ClassDependencyData Constant)} {sources : List JavaSourceData}

/-- The order in which the users of a constant are visited. -/
def userOrder (analyses : List (ClassDependencyData Constant)) (sources : List JavaSourceData)
    (c : Constant) : List String :=
  (orders.usageClasses c).iterate ((classMaps orders analyses sources).inlinedUsages.values c)

theorem mem_userOrder
    {C : String} {c : Constant} :
    C ∈ userOrder orders analyses sources c ↔ Uses analyses C c := by
  rw [userOrder, HashOrder.mem_iterate, mem_inlinedUsages]

def combinedDependencies (analyses : List (ClassDependencyData Constant))
    (sources : List JavaSourceData) : SetMap String String :=
  let m := classMaps orders analyses sources
  combineDependencies orders m.classDependencies m.inlinedUsages m.constantRegistry

theorem mem_values_combinedDependencies
    {C D : String} :
    D ∈ (combinedDependencies orders analyses sources).values C ↔
      HasDependency analyses C D ∨ ∃ c, Defines analyses D c ∧
        VisitedBefore (userOrder orders analyses sources c) C D := by
  refine (SetMap.mem_values_foldl_addAll id _ _ _).trans ?_
  simp only [mem_values_buildConstantDependencies, mem_constantRegistry, HashOrder.mem_iterate]
  rw [or_comm]
  refine or_congr_left ?_
  constructor
  · rintro ⟨_, _, rfl, hD⟩
    exact (mem_classDependencies orders).mp hD
  · intro h
    have hD : D ∈ (classMaps orders analyses sources).classDependencies.values C :=
      (mem_classDependencies orders).mpr h
    exact ⟨C, SetMap.mem_keys_of_mem hD, rfl, hD⟩

theorem mem_keys_combinedDependencies
    {C : String} (h : ∃ a ∈ analyses, a.qualifiedName = C) :
    C ∈ (combinedDependencies orders analyses sources).keys := by
  refine (SetMap.mem_keys_foldl_addAll id _ _ _).mpr (Or.inr ⟨C, ?_, rfl⟩)
  rw [HashOrder.mem_iterate]
  exact (mem_keys_classDependencies orders).mpr h

def fileEdges (analyses : List (ClassDependencyData Constant)) (sources : List JavaSourceData) :
    SetMap String String :=
  buildFileDependencies orders (classMaps orders analyses sources).classToSource
    (combinedDependencies orders analyses sources)

theorem buildDependencyMaps_eq :
    buildDependencyMaps orders analyses sources =
      createFileDependencies orders (classMaps orders analyses sources)
        (fileEdges orders analyses sources)
        (buildSourceToClassMap orders (classMaps orders analyses sources).classToSource) := by
  rfl

theorem mem_keys_fileEdges
    (hclasses : (analyses.map ClassDependencyData.qualifiedName).Nodup)
    (hsources : (sources.map JavaSourceData.packagePrependedFileName).Nodup) {F : String} :
    F ∈ (fileEdges orders analyses sources).keys ↔ ∃ C, ClassOf analyses sources F C := by
  rw [fileEdges, buildFileDependencies, mem_keys_addClass]
  simp only [SetMap.keys_empty, Finset.notMem_empty, false_or, HashOrder.mem_iterate,
    sourceOf_eq_some orders hclasses hsources]
  constructor
  · rintro ⟨C, _, hC⟩
    exact ⟨C, hC⟩
  · rintro ⟨C, hC⟩
    obtain ⟨a, ha, hname, _⟩ := id hC
    exact ⟨C, mem_keys_combinedDependencies orders ⟨a, ha, hname⟩, hC⟩

/-- What a file is listed with, for given orders. -/
theorem mem_values_fileEdges
    (hclasses : (analyses.map ClassDependencyData.qualifiedName).Nodup)
    (hsources : (sources.map JavaSourceData.packagePrependedFileName).Nodup) {F G : String} :
    G ∈ (fileEdges orders analyses sources).values F ↔
      F ≠ G ∧ ∃ C D, ClassOf analyses sources F C ∧ ClassOf analyses sources G D ∧
        (HasDependency analyses C D ∨ ∃ c, Defines analyses D c ∧
          VisitedBefore (userOrder orders analyses sources c) C D) := by
  rw [fileEdges, buildFileDependencies, mem_values_addClass]
  simp only [SetMap.values_empty, Finset.notMem_empty, false_or, HashOrder.mem_iterate,
    sourceOf_eq_some orders hclasses hsources, mem_values_combinedDependencies]
  refine and_congr_right fun _ => ?_
  constructor
  · rintro ⟨C, _, hC, D, hD, hG⟩
    exact ⟨C, D, hC, hG, hD⟩
  · rintro ⟨C, D, hC, hG, hD⟩
    obtain ⟨a, ha, hname, _⟩ := id hC
    exact ⟨C, mem_keys_combinedDependencies orders ⟨a, ha, hname⟩, hC, D, hD, hG⟩

/-- A run writes an entry for each file. -/
theorem buildDependencyMaps_entries
    (hclasses : (analyses.map ClassDependencyData.qualifiedName).Nodup)
    (hsources : (sources.map JavaSourceData.packagePrependedFileName).Nodup) :
    ∃ entries, buildDependencyMaps orders analyses sources = .ok entries ∧
      ListsFiles analyses sources entries ∧
      ∀ F G, Lists entries F G ↔ G ∈ (fileEdges orders analyses sources).values F := by
  have hsource : ∀ {C F}, sourceOf (classMaps orders analyses sources).classToSource C = some F ↔
      ClassOf analyses sources F C := sourceOf_eq_some orders hclasses hsources
  have hclass : ∀ {F C}, ClassOf analyses sources F C →
      C ∈ (classMaps orders analyses sources).classToSource.keys := by
    rintro F C ⟨a, ha, hname, _⟩
    exact (mem_keys_classToSource orders).mpr ⟨a, ha, hname⟩
  have hmem : ∀ F, F ∈ orders.fileDependencies.iterate (fileEdges orders analyses sources).keys ↔
      ∃ C, ClassOf analyses sources F C := by
    intro F
    rw [HashOrder.mem_iterate, mem_keys_fileEdges orders hclasses hsources]
  rw [buildDependencyMaps_eq]
  refine ⟨_, createFileDependencies_eq orders ?_, ⟨?_, ?_, ?_, ?_⟩, ?_⟩
  · intro F hF
    obtain ⟨C, hC⟩ := (mem_keys_fileEdges orders hclasses hsources).mp hF
    rw [mem_keys_buildSourceToClassMap]
    exact ⟨C, hclass hC, hsource.mpr hC⟩
  · rw [List.map_map]
    exact (List.map_id'' (fun _ => rfl) _).symm ▸ orders.fileDependencies.nodup _
  · intro F
    rw [← hmem, List.map_map]
    exact (List.map_id'' (fun _ => rfl) _).symm ▸ Iff.rfl
  · intro e he
    obtain ⟨F, _, rfl⟩ := List.mem_map.mp he
    exact (orders.generatedClassesOf F).nodup _
  · intro e he path
    obtain ⟨F, _, rfl⟩ := List.mem_map.mp he
    refine ((orders.generatedClassesOf F).mem_iterate _ _).trans ?_
    rw [mem_values_buildSourceToClassMap]
    constructor
    · rintro ⟨C, _, hC, hpath⟩
      exact ⟨C, hsource.mp hC, hpath⟩
    · rintro ⟨C, hC, hpath⟩
      exact ⟨C, hclass hC, hsource.mpr hC, hpath⟩
  · intro F G
    constructor
    · rintro ⟨e, he, rfl, hG⟩
      obtain ⟨F, _, rfl⟩ := List.mem_map.mp he
      exact ((orders.fileDependenciesOf F).mem_iterate _ _).mp hG
    · intro hG
      refine ⟨_, List.mem_map_of_mem ((hmem F).mpr ?_), rfl, ?_⟩
      · exact (mem_keys_fileEdges orders hclasses hsources).mp (SetMap.mem_keys_of_mem hG)
      · exact ((orders.fileDependenciesOf F).mem_iterate _ _).mpr hG

end Run

section Lost

variable {Constant : Type u} [DecidableEq Constant]
variable {analyses : List (ClassDependencyData Constant)} {sources : List JavaSourceData}

theorem dependsOn_of_mem
    (orders : Orders Constant)
    (hclasses : (analyses.map ClassDependencyData.qualifiedName).Nodup)
    (hsources : (sources.map JavaSourceData.packagePrependedFileName).Nodup) {F G : String}
    (h : G ∈ (fileEdges orders analyses sources).values F) :
    DependsOn analyses sources F G := by
  rw [mem_values_fileEdges orders hclasses hsources] at h
  obtain ⟨_, C, D, hC, hD, hdirect | ⟨c, hdefines, hvisited⟩⟩ := h
  · exact ⟨C, D, hC, hD, Or.inl hdirect⟩
  · obtain ⟨_, _, _, _, hne⟩ := id hvisited
    exact ⟨C, D, hC, hD, Or.inr ⟨hne, c, (mem_userOrder orders).mp hvisited.mem, hdefines⟩⟩

/-- A declaring class that does not use the constant is never removed. -/
theorem mem_of_keepsDependency
    (orders : Orders Constant)
    (hclasses : (analyses.map ClassDependencyData.qualifiedName).Nodup)
    (hsources : (sources.map JavaSourceData.packagePrependedFileName).Nodup) {F G : String}
    (hne : F ≠ G) (h : KeepsDependency analyses sources F G) :
    G ∈ (fileEdges orders analyses sources).values F := by
  rw [mem_values_fileEdges orders hclasses hsources]
  obtain ⟨C, D, hC, hD, hdirect | ⟨_, c, huses, hdefines, hnot⟩⟩ := h
  · exact ⟨hne, C, D, hC, hD, Or.inl hdirect⟩
  · refine ⟨hne, C, D, hC, hD, Or.inr ⟨c, hdefines, visitedBefore_of_notMem ?_ ?_⟩⟩
    · exact (mem_userOrder orders).mpr huses
    · exact fun hmem => hnot ((mem_userOrder orders).mp hmem)

/-- Orders in which the users of a constant that are in `G` come first. -/
noncomputable def ordersFor (analyses : List (ClassDependencyData Constant))
    (sources : List JavaSourceData) (G : String) : Orders Constant :=
  open Classical in
  { (default : Orders Constant) with
    usageClasses := fun _ => HashOrder.preferring (fun C => ClassOf analyses sources G C) }

/-- With these orders nothing else is listed. -/
theorem keepsDependency_of_mem
    (hclasses : (analyses.map ClassDependencyData.qualifiedName).Nodup)
    (hsources : (sources.map JavaSourceData.packagePrependedFileName).Nodup) {F G : String}
    (h : G ∈ (fileEdges (ordersFor analyses sources G) analyses sources).values F) :
    KeepsDependency analyses sources F G := by
  classical
  rw [mem_values_fileEdges _ hclasses hsources] at h
  obtain ⟨hfiles, C, D, hC, hD, hdirect | ⟨c, hdefines, hvisited⟩⟩ := h
  · exact ⟨C, D, hC, hD, Or.inl hdirect⟩
  · have huses := (mem_userOrder _).mp hvisited.mem
    obtain ⟨front, back, hsplit, hfront, hne⟩ := hvisited
    refine ⟨C, D, hC, hD, Or.inr ⟨hne, c, huses, hdefines, fun hDuses => hfront ?_⟩⟩
    have hCG : ¬ ClassOf analyses sources G C := by
      intro hCG
      have hsource := @sourceOf_eq_some _ _ default _ _ hclasses hsources C
      have heq := (hsource.mpr hC).symm.trans (hsource.mpr hCG)
      exact hfiles (Option.some.inj heq)
    exact HashOrder.preferring_before _ ((mem_inlinedUsages _).mpr hDuses) hD hCG hsplit

/-- Each file has its entry; no dependency is lost, whatever the orders are, iff each is kept
by a class dependency or by a constant that its declaring class does not use itself. -/
theorem buildDependencyMaps_iff
    (analyses : List (ClassDependencyData Constant)) (sources : List JavaSourceData)
    (hclasses : (analyses.map ClassDependencyData.qualifiedName).Nodup)
    (hsources : (sources.map JavaSourceData.packagePrependedFileName).Nodup) :
    (∀ orders, ∃ entries, buildDependencyMaps orders analyses sources = .ok entries ∧
      ListsFiles analyses sources entries) ∧
    ((∀ orders entries, buildDependencyMaps orders analyses sources = .ok entries →
        ∀ F G, F ≠ G → (Lists entries F G ↔ DependsOn analyses sources F G)) ↔
      ∀ F G, F ≠ G → DependsOn analyses sources F G → KeepsDependency analyses sources F G) := by
  refine ⟨fun orders => ?_, ?_, ?_⟩
  · obtain ⟨entries, hrun, hfiles, _⟩ := buildDependencyMaps_entries orders hclasses hsources
    exact ⟨entries, hrun, hfiles⟩
  · intro hcomplete F G hne hdepends
    obtain ⟨entries, hrun, _, hlists⟩ :=
      buildDependencyMaps_entries (ordersFor analyses sources G) hclasses hsources
    have hlisted := (hcomplete _ entries hrun F G hne).mpr hdepends
    rw [hlists] at hlisted
    exact keepsDependency_of_mem hclasses hsources hlisted
  · intro hkeeps orders entries hrun F G hne
    obtain ⟨entries', hrun', _, hlists⟩ := buildDependencyMaps_entries orders hclasses hsources
    cases hrun.symm.trans hrun'
    rw [hlists]
    constructor
    · exact dependsOn_of_mem orders hclasses hsources
    · intro hdepends
      exact mem_of_keepsDependency orders hclasses hsources hne (hkeeps F G hne hdepends)

end Lost

section Samples

def sampleSources : List JavaSourceData :=
  [⟨"a/A.java", "p.A.java"⟩, ⟨"b/B.java", "p.B.java"⟩]

/-- `p.A` declares the constant 1 and `p.B` uses it; `own` are the constants that `p.A` uses. -/
def sampleAnalyses (own : Finset Nat) : List (ClassDependencyData Nat) :=
  [⟨"p.A.java", "p.A", ∅, false, {1}, own, ∅⟩, ⟨"p.B.java", "p.B", ∅, false, ∅, {1}, ∅⟩]

def sortedOrders : Orders Nat :=
  ⟨fun _ => .sorted, fun _ => .sorted, .sorted, fun _ => .sorted, .sorted, .sorted,
    fun _ => .sorted, .sorted, .sorted, fun _ => .sorted, fun _ => .sorted, fun _ => .sorted⟩

theorem sample_classOf
    (own : Finset Nat) :
    ClassOf (sampleAnalyses own) sampleSources "a/A.java" "p.A" ∧
      ClassOf (sampleAnalyses own) sampleSources "b/B.java" "p.B" := by
  refine ⟨⟨_, List.mem_cons_self, rfl, _, List.mem_cons_self, rfl, rfl⟩,
    ⟨_, List.mem_cons_of_mem _ List.mem_cons_self, rfl, _,
      List.mem_cons_of_mem _ List.mem_cons_self, rfl, rfl⟩⟩

theorem sample_constant
    (own : Finset Nat) :
    Uses (sampleAnalyses own) "p.B" 1 ∧ Defines (sampleAnalyses own) "p.A" 1 := by
  exact ⟨⟨_, List.mem_cons_of_mem _ List.mem_cons_self, rfl, Finset.mem_singleton_self 1⟩,
    ⟨_, List.mem_cons_self, rfl, Finset.mem_singleton_self 1⟩⟩

theorem sample_dependsOn
    (own : Finset Nat) :
    DependsOn (sampleAnalyses own) sampleSources "b/B.java" "a/A.java" :=
  ⟨"p.B", "p.A", (sample_classOf own).2, (sample_classOf own).1,
    Or.inr ⟨by decide, 1, (sample_constant own).1, (sample_constant own).2⟩⟩

/-- `p.A` does not use the constant, so `b/B.java` keeps its dependency. -/
theorem buildDependencyMaps_kept :
    DependsOn (sampleAnalyses ∅) sampleSources "b/B.java" "a/A.java" ∧
      ∀ orders entries, buildDependencyMaps orders (sampleAnalyses ∅) sampleSources = .ok entries →
        Lists entries "b/B.java" "a/A.java" := by
  have hiff := (buildDependencyMaps_iff (sampleAnalyses ∅) sampleSources (by decide)
    (by decide)).2
  refine ⟨sample_dependsOn ∅, fun orders entries hrun => ?_⟩
  refine (hiff.mpr ?_ orders entries hrun _ _ (by decide)).mpr (sample_dependsOn ∅)
  rintro F G hne ⟨C, D, hC, hD, hdirect | ⟨hCD, c, huses, hdefines⟩⟩
  · exact ⟨C, D, hC, hD, Or.inl hdirect⟩
  · refine ⟨C, D, hC, hD, Or.inr ⟨hCD, c, huses, hdefines, ?_⟩⟩
    rintro ⟨a, ha, hname, hc⟩
    obtain ⟨a', ha', hname', hc'⟩ := hdefines
    simp only [sampleAnalyses, List.mem_cons, List.not_mem_nil, or_false] at ha ha'
    rcases ha with rfl | rfl
    · exact Finset.notMem_empty c hc
    · rcases ha' with rfl | rfl
      · exact absurd (hname'.trans hname.symm) (by decide)
      · exact Finset.notMem_empty c hc'

/-- `p.A` uses the constant too and is visited before `p.B`. -/
theorem buildDependencyMaps_lost :
    DependsOn (sampleAnalyses {1}) sampleSources "b/B.java" "a/A.java" ∧
      ∃ entries,
        buildDependencyMaps sortedOrders (sampleAnalyses {1}) sampleSources = .ok entries ∧
        ¬ Lists entries "b/B.java" "a/A.java" := by
  have hclasses :
      ((sampleAnalyses {1}).map ClassDependencyData.qualifiedName).Nodup := by
    decide
  have hsources :
      (sampleSources.map JavaSourceData.packagePrependedFileName).Nodup := by
    decide
  obtain ⟨entries, hrun, _, hlists⟩ :=
    buildDependencyMaps_entries sortedOrders hclasses hsources
  refine ⟨sample_dependsOn {1}, entries, hrun, ?_⟩
  rw [hlists]
  decide +kernel

end Samples

end DependencyMapper
end AndroidBuild
