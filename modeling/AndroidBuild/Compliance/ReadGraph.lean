import AndroidBuild.Compliance.LicenseGraph

/-!
# Reading license graphs

`ReadLicenseGraph` reads the metadata of the root files and of all their
dependencies.  Each file is read by a goroutine of its own, which holds a token
of the task pool while it reads and afterwards schedules the dependencies that
nobody has scheduled yet.  A last goroutine waits for the others and closes the
channels, and the main goroutine receives the results.

A state has the channels, the counter of the wait group, the map of targets and
the place of every goroutine.  A step is one statement of one goroutine that
touches shared data; what the mutex guards is one step.
-/

namespace AndroidBuild
namespace Compliance

structure AnnotatedDependency where
  file : String
  annotations : List String
  deriving DecidableEq, Repr

/-- The fields of `LicenseMetadata` that the graph is built from. -/
structure LicenseMetadata where
  licenseConditions : List String
  deps : List AnnotatedDependency
  deriving DecidableEq, Repr

/-- A file opens or not, its data can be read or not, and the data are metadata
or not. -/
structure RootFS where
  openFile : String → Except String (Except String String)
  unmarshal : String → Except String LicenseMetadata

inductive ReadError where
  | opening (file err : String)
  | reading (file err : String)
  | license (file err : String)
  deriving DecidableEq, Repr

structure TargetNode where
  name : String
  proto : LicenseMetadata
  edges : List TargetEdge
  licenseConditions : LicenseConditionSet
  deriving DecidableEq

def recognizedAnnotations : List String :=
  ["static", "dynamic", "toolchain"]

def recognizedConditionNames (name : String) : Option LicenseCondition :=
  match name with
  | "unencumbered" => some .unencumbered
  | "permissive" => some .permissive
  | "notice" => some .notice
  | "reciprocal" => some .reciprocal
  | "restricted" => some .restricted
  | "restricted_if_statically_linked" => some .weaklyRestricted
  | "proprietary" => some .proprietary
  | "by_exception_only" => some .byExceptionOnly
  | "not_allowed" => some .notAllowed
  | _ => none

def licenseConditionSetFromNames (names : List String) : LicenseConditionSet :=
  (names.filterMap recognizedConditionNames).toFinset

def RootFS.readMetadata (rootFS : RootFS) (file : String) : Except ReadError LicenseMetadata :=
  match rootFS.openFile file with
  | .error err => .error (.opening file err)
  | .ok (.error err) => .error (.reading file err)
  | .ok (.ok data) =>
      match rootFS.unmarshal data with
      | .error err => .error (.license file err)
      | .ok proto => .ok proto

def LicenseMetadata.files (proto : LicenseMetadata) : List String :=
  proto.deps.map AnnotatedDependency.file

section Goroutines

/-- `result`. -/
structure ReadResult where
  file : String
  target : Except ReadError TargetNode

/-- The goroutine of `readFile`, by the next statement: it opens and parses the
file, sends the result, releases its task, goes through the dependencies, and
in a nested call of `readFile` adds to the wait group and takes a task. -/
inductive Reader where
  | opening (file : String)
  | sending (file : String) (proto : Except ReadError LicenseMetadata)
  | releasing (file : String) (deps : List String)
  | scanning (file : String) (deps : List String)
  | adding (file : String) (dependency : String) (deps : List String)
  | taking (file : String) (dependency : String) (deps : List String)
  | failed (file : String)
  | finished (file : String)

/-- The goroutine of `readFiles`. -/
inductive Starter where
  | marking
  | scheduling (files : List String)
  | taking (file : String) (files : List String)
  | finished

/-- The goroutine that closes the channels. -/
inductive Closer where
  | absent
  | waiting
  | closingTask
  | closingResults
  | finished
  deriving DecidableEq

/-- The loop over the results; `recv.results` is nil after it. -/
inductive MainLoop where
  | looping
  | failed (err : ReadError)
  | complete

structure ReadState where
  /-- The tokens in the channel `task`. -/
  tokens : Nat
  taskClosed : Bool
  /-- What is in the channel `results`. -/
  results : List ReadResult
  resultsClosed : Bool
  /-- The counter of the wait group. -/
  wg : Nat
  /-- The keys of `lg.targets`. -/
  scheduled : Finset String
  /-- The values of `lg.targets`, where `none` is nil. -/
  targets : String → Option TargetNode
  starter : Starter
  readers : Multiset Reader
  closer : Closer
  main : MainLoop
  /-- The files opened up to now. -/
  opened : Multiset String

/-- The state when the goroutine of `readFiles` is started. -/
def ReadState.start (concurrentReaders : Nat) : ReadState where
  tokens := concurrentReaders
  taskClosed := false
  results := []
  resultsClosed := false
  wg := 0
  scheduled := ∅
  targets := fun _ => none
  starter := .marking
  readers := 0
  closer := .absent
  main := .looping
  opened := 0

variable (rootFS : RootFS) (concurrentReaders : Nat) (rootFiles : List String)

def nodeOf (file : String) (proto : LicenseMetadata) : TargetNode :=
  ⟨file, proto, [], ∅⟩

def Reader.sent (file : String) : Except ReadError LicenseMetadata → Reader
  | .error _ => .failed file
  | .ok proto => .releasing file proto.files

/-- One step of one goroutine. -/
inductive ReadStep : ReadState → ReadState → Prop
  | mark {s : ReadState} (hs : s.starter = .marking) :
      ReadStep s
        { s with
          scheduled := s.scheduled ∪ rootFiles.toFinset
          targets := fun f => if f ∈ rootFiles then none else s.targets f
          starter := .scheduling rootFiles }
  | addRoot {s : ReadState} {f : String} {files : List String}
      (hs : s.starter = .scheduling (f :: files)) :
      ReadStep s { s with wg := s.wg + 1, starter := .taking f files }
  | takeRoot {s : ReadState} {f : String} {files : List String}
      (hs : s.starter = .taking f files) (htask : 0 < s.tokens ∨ s.taskClosed = true) :
      ReadStep s
        { s with
          tokens := s.tokens - 1
          starter := .scheduling files
          readers := .opening f ::ₘ s.readers }
  | launch {s : ReadState} (hs : s.starter = .scheduling []) :
      ReadStep s { s with starter := .finished, closer := .waiting }
  | wait {s : ReadState} (hc : s.closer = .waiting) (hwg : s.wg = 0) :
      ReadStep s { s with closer := .closingTask }
  | closeTask {s : ReadState} (hc : s.closer = .closingTask) :
      ReadStep s { s with taskClosed := true, closer := .closingResults }
  | closeResults {s : ReadState} (hc : s.closer = .closingResults) (hmain : s.main = .looping) :
      ReadStep s { s with resultsClosed := true, closer := .finished }
  | read {s : ReadState} {f : String} {readers : Multiset Reader}
      (hr : s.readers = .opening f ::ₘ readers) :
      ReadStep s
        { s with
          readers := .sending f (rootFS.readMetadata f) ::ₘ readers
          opened := f ::ₘ s.opened }
  | send {s : ReadState} {f : String} {proto : Except ReadError LicenseMetadata}
      {readers : Multiset Reader} (hr : s.readers = .sending f proto ::ₘ readers)
      (hmain : s.main = .looping) (hopen : s.resultsClosed = false)
      (hroom : s.results.length < concurrentReaders) :
      ReadStep s
        { s with
          results := s.results ++ [⟨f, proto.map (nodeOf f)⟩]
          readers := .sent f proto ::ₘ readers }
  | release {s : ReadState} {f : String} {deps : List String} {readers : Multiset Reader}
      (hr : s.readers = .releasing f deps ::ₘ readers) (hopen : s.taskClosed = false)
      (hroom : s.tokens < concurrentReaders) :
      ReadStep s { s with tokens := s.tokens + 1, readers := .scanning f deps ::ₘ readers }
  | skip {s : ReadState} {f d : String} {deps : List String} {readers : Multiset Reader}
      (hr : s.readers = .scanning f (d :: deps) ::ₘ readers) (hd : d ∈ s.scheduled) :
      ReadStep s { s with readers := .scanning f deps ::ₘ readers }
  | schedule {s : ReadState} {f d : String} {deps : List String} {readers : Multiset Reader}
      (hr : s.readers = .scanning f (d :: deps) ::ₘ readers) (hd : d ∉ s.scheduled) :
      ReadStep s
        { s with
          scheduled := insert d s.scheduled
          targets := Function.update s.targets d none
          readers := .adding f d deps ::ₘ readers }
  | add {s : ReadState} {f d : String} {deps : List String} {readers : Multiset Reader}
      (hr : s.readers = .adding f d deps ::ₘ readers) :
      ReadStep s { s with wg := s.wg + 1, readers := .taking f d deps ::ₘ readers }
  | take {s : ReadState} {f d : String} {deps : List String} {readers : Multiset Reader}
      (hr : s.readers = .taking f d deps ::ₘ readers)
      (htask : 0 < s.tokens ∨ s.taskClosed = true) :
      ReadStep s
        { s with
          tokens := s.tokens - 1
          readers := .opening d ::ₘ .scanning f deps ::ₘ readers }
  | done {s : ReadState} {f : String} {readers : Multiset Reader}
      (hr : s.readers = .scanning f [] ::ₘ readers) (hwg : 0 < s.wg) :
      ReadStep s { s with wg := s.wg - 1, readers := .finished f ::ₘ readers }
  | receive {s : ReadState} {file : String} {target : TargetNode} {results : List ReadResult}
      (hmain : s.main = .looping) (hresults : s.results = ⟨file, .ok target⟩ :: results) :
      ReadStep s
        { s with
          results := results
          scheduled := insert target.name s.scheduled
          targets := Function.update s.targets target.name (some target) }
  | fail {s : ReadState} {file : String} {err : ReadError} {results : List ReadResult}
      (hmain : s.main = .looping) (hresults : s.results = ⟨file, .error err⟩ :: results) :
      ReadStep s { s with results := results, main := .failed err }
  | finish {s : ReadState} (hmain : s.main = .looping) (hresults : s.results = [])
      (hclosed : s.resultsClosed = true) :
      ReadStep s { s with main := .complete }

/-- The states of the runs from the start. -/
def ReadState.Reachable (s : ReadState) : Prop :=
  Relation.ReflTransGen (ReadStep rootFS concurrentReaders rootFiles)
    (ReadState.start concurrentReaders) s

/-- The next statement of some goroutine panics: a send on a closed channel, the
close of a closed channel or of nil, or a negative counter of the wait group. -/
def ReadState.Panics (s : ReadState) : Prop :=
  (∃ f proto, .sending f proto ∈ s.readers ∧ s.resultsClosed = true) ∨
    (∃ f deps, .releasing f deps ∈ s.readers ∧ s.taskClosed = true) ∨
    (∃ f, .scanning f [] ∈ s.readers ∧ s.wg = 0) ∨
    (s.closer = .closingTask ∧ s.taskClosed = true) ∨
    (s.closer = .closingResults ∧ (s.resultsClosed = true ∨ s.main ≠ .looping))

end Goroutines

section Index

inductive IndexError where
  | missingName
  | unknownName (name : String)
  | nilDependency (name : String)
  | nilTarget
  deriving DecidableEq, Repr

def edgeFor (tn : String) (ad : AnnotatedDependency) : TargetEdge :=
  ⟨tn, ad.file, (ad.annotations.filter (· ∈ recognizedAnnotations)).dedup⟩

/-- The edge for a dependency in `addDependencies`. -/
def addDependency (scheduled : Finset String) (targets : String → Option TargetNode)
    (tn : String) (ad : AnnotatedDependency) : Except IndexError TargetEdge :=
  if ad.file = "" then .error .missingName
  else if ad.file ∉ scheduled then .error (.unknownName ad.file)
  else if (targets ad.file).isNone then .error (.nilDependency ad.file)
  else .ok (edgeFor tn ad)

/-- `addDependencies`, with the edges of the node. -/
def addDependencies (scheduled : Finset String) (targets : String → Option TargetNode)
    (tn : TargetNode) : Except IndexError (List TargetEdge) :=
  tn.proto.deps.mapM (addDependency scheduled targets tn.name)

/-- One round of the last loop of `ReadLicenseGraph`. -/
def indexTarget (scheduled : Finset String) (targets : String → Option TargetNode)
    (name : String) : Except IndexError TargetNode :=
  match targets name with
  | none => .error .nilTarget
  | some tn => do
      let edges ← addDependencies scheduled targets tn
      pure
        { tn with
          edges := edges
          licenseConditions := licenseConditionSetFromNames tn.proto.licenseConditions
          proto := { tn.proto with deps := [] } }

/-- The last loop of `ReadLicenseGraph` over the targets in the given order. -/
def indexTargets (scheduled : Finset String) (targets : String → Option TargetNode)
    (order : List String) : Except IndexError (List TargetNode) :=
  order.mapM (indexTarget scheduled targets)

/-- What `ReadLicenseGraph` returns, when its last loop goes over the targets in
the given order. -/
def ReadState.returned (s : ReadState) (order : List String) :
    Option (Except (ReadError ⊕ IndexError) (List TargetNode)) :=
  match s.main with
  | .looping => none
  | .failed err => some (.error (.inl err))
  | .complete => some ((indexTargets s.scheduled s.targets order).mapError .inr)

end Index

end Compliance
end AndroidBuild
