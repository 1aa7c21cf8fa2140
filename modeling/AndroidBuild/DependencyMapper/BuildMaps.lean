import AndroidBuild.Lib.OrderedDict
import AndroidBuild.Lib.SetMap
import Mathlib.Data.String.Basic

/-!
# The dependency maps of Java source files

`ClassDependenciesVisitor.analyze`, the parts of `Utils` that translate the
names of classes, and `DependencyMapper`.  Every loop over a hash set or a hash
map takes its order from an `Orders`.
-/

namespace AndroidBuild
namespace DependencyMapper

universe u

section Analysis

variable (Constant : Type u)

structure ClassDependencyData where
  packagePrependedClassSource : String
  qualifiedName : String
  classDependencies : Finset String
  isDependencyToAll : Bool
  constantsDefined : Finset Constant
  inlinedUsages : Finset Constant
  crossModuleClassDependencies : Finset String

structure JavaSourceData where
  filePath : String
  packagePrependedFileName : String

/-- What the visitor has collected once the class has been read. -/
structure ClassDependenciesVisitor where
  source : Option String
  classTypes : Finset String
  crossModuleClassTypes : Finset String
  constantsDefined : Finset Constant
  inlinedUsages : Finset Constant
  isDependencyToAll : Bool

end Analysis

/-- `substring(0, lastIndexOf(".") + 1)`. -/
def packagePart (qualifiedClassPath : String) : String :=
  String.ofList (qualifiedClassPath.toList.reverse.dropWhile (fun c => c ≠ '.')).reverse

/-- A null source is concatenated as `null`. -/
def buildPackagePrependedClassSource (qualifiedClassPath : String) (classSource : Option String) :
    String :=
  packagePart qualifiedClassPath ++ classSource.getD "null"

def convertClassToFileBasedPath (packageBasedClass : String) : String :=
  packageBasedClass.map (fun c => if c = '.' then '/' else c) ++ ".class"

variable {Constant : Type u}

def analyze (className : String) (visitor : ClassDependenciesVisitor Constant) :
    ClassDependencyData Constant where
  packagePrependedClassSource := buildPackagePrependedClassSource className visitor.source
  qualifiedName := className
  -- a class may refer to itself
  classDependencies := visitor.classTypes.erase className
  isDependencyToAll := visitor.isDependencyToAll
  constantsDefined := visitor.constantsDefined
  inlinedUsages := visitor.inlinedUsages
  crossModuleClassDependencies := visitor.crossModuleClassTypes

inductive JavaException where
  | nullPointer

structure FileDependency where
  filePath : String
  isDependencyToAll : Bool
  generatedClasses : List String
  fileDependencies : List String
  crossModuleClassDeps : List String

/-- The order of each loop. -/
structure Orders (Constant : Type u) where
  constantsDefined : String → HashOrder Constant
  inlinedUsages : String → HashOrder Constant
  usages : HashOrder Constant
  usageClasses : Constant → HashOrder String
  classDependencies : HashOrder String
  combined : HashOrder String
  dependencies : String → HashOrder String
  classToSource : HashOrder String
  fileDependencies : HashOrder String
  generatedClassesOf : String → HashOrder String
  fileDependenciesOf : String → HashOrder String
  crossModuleClassDepsOf : String → HashOrder String

noncomputable instance : Inhabited (Orders Constant) :=
  ⟨⟨default, default, default, default, default, default, default, default, default, default,
    default, default⟩⟩

/-- The maps that the first loop over the analyses fills. -/
structure ClassMaps (Constant : Type u) where
  classToSource : OrderedDict String (Option String)
  classDependencies : SetMap String String
  crossModuleClassDependencies : SetMap (Option String) String
  constantRegistry : SetMap Constant String
  inlinedUsages : SetMap Constant String
  dependencyToAll : Finset (Option String)

def ClassMaps.init : ClassMaps Constant where
  classToSource := OrderedDict.empty
  classDependencies := SetMap.empty
  crossModuleClassDependencies := SetMap.empty
  constantRegistry := SetMap.empty
  inlinedUsages := SetMap.empty
  dependencyToAll := ∅

def generateSourcePaths (sources : List JavaSourceData) : OrderedDict String String :=
  sources.foldl (fun sourcePaths data =>
    sourcePaths.set data.packagePrependedFileName data.filePath) OrderedDict.empty

section Mapper

variable [DecidableEq Constant] (orders : Orders Constant)

def addAnalysis (sourcePaths : OrderedDict String String) (m : ClassMaps Constant)
    (analysis : ClassDependencyData Constant) : ClassMaps Constant :=
  let className := analysis.qualifiedName
  let sourcePath := sourcePaths.get? analysis.packagePrependedClassSource
  { classToSource := m.classToSource.set className sourcePath
    classDependencies := m.classDependencies.addAll className analysis.classDependencies
    crossModuleClassDependencies :=
      m.crossModuleClassDependencies.addAll sourcePath analysis.crossModuleClassDependencies
    constantRegistry :=
      ((orders.constantsDefined className).iterate analysis.constantsDefined).foldl
        (fun registry c => registry.add c className) m.constantRegistry
    inlinedUsages :=
      ((orders.inlinedUsages className).iterate analysis.inlinedUsages).foldl
        (fun usages u => usages.add u className) m.inlinedUsages
    dependencyToAll :=
      if analysis.isDependencyToAll then insert sourcePath m.dependencyToAll
      else m.dependencyToAll }

def classMaps (analyses : List (ClassDependencyData Constant)) (sources : List JavaSourceData) :
    ClassMaps Constant :=
  analyses.foldl (addAnalysis orders (generateSourcePaths sources)) ClassMaps.init

/-- One class that uses the constant.  It is dropped from the declarations of the registry
before the others are added to its dependencies. -/
def addUsageClass (usage : Constant) (s : SetMap Constant String × SetMap String String)
    (usageClass : String) : SetMap Constant String × SetMap String String :=
  let constantRegistry := s.1.remove usage usageClass
  (constantRegistry, s.2.addAll usageClass (constantRegistry.values usage))

def addUsage (inlinedUsages : SetMap Constant String)
    (s : SetMap Constant String × SetMap String String) (usage : Constant) :
    SetMap Constant String × SetMap String String :=
  if usage ∈ s.1.keys then
    ((orders.usageClasses usage).iterate (inlinedUsages.values usage)).foldl
      (addUsageClass usage) s
  else s

def buildConstantDependencies (inlinedUsages constantRegistry : SetMap Constant String) :
    SetMap String String :=
  ((orders.usages.iterate inlinedUsages.keys).foldl (addUsage orders inlinedUsages)
    (constantRegistry, SetMap.empty)).2

def combineDependencies
    (classDependencies : SetMap String String) (inlinedUsages constantRegistry :
      SetMap Constant String) : SetMap String String :=
  (orders.classDependencies.iterate classDependencies.keys).foldl
    (fun combined k => combined.addAll k (classDependencies.values k))
    (buildConstantDependencies orders inlinedUsages constantRegistry)

/-- `mClassToSourceMap.get(className)`, with nothing for null. -/
def sourceOf (classToSource : OrderedDict String (Option String)) (className : String) :
    Option String :=
  (classToSource.get? className).join

def addDependency (classToSource : OrderedDict String (Option String)) (sourceFile : String)
    (fileDependencies : SetMap String String) (dependency : String) : SetMap String String :=
  match sourceOf classToSource dependency with
  | none => fileDependencies
  | some dependencySource =>
      if sourceFile ≠ dependencySource then fileDependencies.add sourceFile dependencySource
      else fileDependencies

def addClass (classToSource : OrderedDict String (Option String))
    (combined fileDependencies : SetMap String String) (className : String) :
    SetMap String String :=
  match sourceOf classToSource className with
  | none => fileDependencies
  | some sourceFile =>
      ((orders.dependencies className).iterate (combined.values className)).foldl
        (addDependency classToSource sourceFile) (fileDependencies.addAll sourceFile ∅)

def buildFileDependencies (classToSource : OrderedDict String (Option String))
    (combined : SetMap String String) : SetMap String String :=
  (orders.combined.iterate combined.keys).foldl (addClass orders classToSource combined)
    SetMap.empty

def buildSourceToClassMap (classToSource : OrderedDict String (Option String)) :
    SetMap (Option String) String :=
  (orders.classToSource.iterate classToSource.keys.toFinset).foldl
    (fun sourceToClasses className =>
      sourceToClasses.add (sourceOf classToSource className)
        (convertClassToFileBasedPath className)) SetMap.empty

/-- The message of one file.  The builder does not take a null list of classes. -/
def createFileDependency (m : ClassMaps Constant) (fileDependencies : SetMap String String)
    (sourceToClasses : SetMap (Option String) String) (file : String) :
    Except JavaException FileDependency :=
  match sourceToClasses.get? (some file) with
  | none => .error .nullPointer
  | some classes => .ok
      { filePath := file
        isDependencyToAll := some file ∈ m.dependencyToAll
        generatedClasses := (orders.generatedClassesOf file).iterate classes
        fileDependencies :=
          (orders.fileDependenciesOf file).iterate (fileDependencies.values file)
        crossModuleClassDeps := (orders.crossModuleClassDepsOf file).iterate
          ((m.crossModuleClassDependencies.get? (some file)).getD ∅) }

def createFileDependencies (m : ClassMaps Constant) (fileDependencies : SetMap String String)
    (sourceToClasses : SetMap (Option String) String) :
    Except JavaException (List FileDependency) :=
  (orders.fileDependencies.iterate fileDependencies.keys).mapM
    (createFileDependency orders m fileDependencies sourceToClasses)

def buildDependencyMaps (analyses : List (ClassDependencyData Constant))
    (sources : List JavaSourceData) : Except JavaException (List FileDependency) :=
  let m := classMaps orders analyses sources
  let combined := combineDependencies orders m.classDependencies m.inlinedUsages
    m.constantRegistry
  createFileDependencies orders m (buildFileDependencies orders m.classToSource combined)
    (buildSourceToClassMap orders m.classToSource)

end Mapper

end DependencyMapper
end AndroidBuild
