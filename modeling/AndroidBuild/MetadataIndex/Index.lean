import AndroidBuild.Lib.FilePath
import AndroidBuild.Lib.Interleaving

/-!
# The index of project metadata

`MetadataForProjects` may be called by many goroutines on one `Index`.  A project
that nobody has asked for gets an entry, and the call that stored the entry starts
a goroutine that reads its METADATA file.  A reader holds a token of the task pool
while it reads, and closes the channel `done` of its entry at the end.  Each call
waits for the entries of all its projects.

The shared data are the map of the entries and the channel of the tokens.  A step is
one statement of one goroutine that touches them, or the end of one of its loops.
-/

namespace AndroidBuild
namespace MetadataIndex

open Text (Str)

variable {Metadata : Type}

section Files

/-- `fs.Stat` tells whether a file is regular, a file opens or not, and its data can be read or
not; the data are metadata or not. -/
structure RootFS (Metadata : Type) where
  stat : Str → Option Bool
  openFile : Str → Except Str (Except Str Str)
  unmarshal : Str → Except Str Metadata

/-- The text of an error; `%q` as for texts without special characters. -/
def readError (action kind project path err : Str) : Str :=
  action ++ " project \"".toList ++ project ++ "\" ".toList ++ kind ++ " \"".toList ++ path ++
    "\": ".toList ++ err

def parseAdvice : Str :=
  ("\n\nMETADATA and METADATA.android files must parse as text protobufs\ndefined by\n" ++
    "   build/soong/compliance/project_metadata_proto/project_metadata.proto\n\n" ++
    "* unknown fields don't matter\n* check invalid ENUM names\n* check quoting\n" ++
    "* check unescaped nested quotes\n" ++
    "* check the comment marker for protobuf is '#' not '//'\n\n" ++
    "if importing a library that uses a different sort of METADATA file, add\n" ++
    "a METADATA.android file beside it to parse instead\n").toList

structure ProjectMetadata (Metadata : Type) where
  proto : Metadata
  project : Str

/-- The fields of a `projectIndex` that its reader sets. -/
structure Reading (Metadata : Type) where
  path : Str
  pm : Option (ProjectMetadata Metadata)
  err : Option Str

def Reading.empty : Reading Metadata :=
  ⟨[], none, none⟩

variable (rootFS : RootFS Metadata) (project : Str)

def readMetadataFile (path : Str) : Reading Metadata :=
  match rootFS.openFile path with
  | .error err =>
      ⟨[], none, some (readError "error opening".toList "metadata".toList project path err)⟩
  | .ok (.error err) =>
      ⟨[], none, some (readError "error reading".toList "metadata".toList project path err)⟩
  | .ok (.ok data) =>
      match rootFS.unmarshal data with
      | .error err =>
          ⟨[], none, some (readError "error in".toList "METADATA".toList project path err ++
            parseAdvice)⟩
      | .ok proto => ⟨path, some ⟨proto, project⟩, none⟩

/-- What `findMeta` sets, while it holds its token. -/
def findMeta : Reading Metadata :=
  let android := FilePath.join project "METADATA.android".toList
  let plain := FilePath.join project "METADATA".toList
  if rootFS.stat android = some true then readMetadataFile rootFS project android
  else if rootFS.stat plain = some true then readMetadataFile rootFS project plain
  else Reading.empty

end Files

section Goroutines

/-- `projectIndex`; its project is the key of the map. -/
structure ProjectIndex (Metadata : Type) where
  reading : Reading Metadata
  /-- The channel `done` is closed. -/
  done : Bool

structure Index (Metadata : Type) where
  projects : Str → Option (ProjectIndex Metadata)
  /-- The tokens in the channel `task`. -/
  task : Nat
  /-- The projects whose files were looked for up to now. -/
  searched : List Str

/-- `NewIndex`. -/
def Index.new (concurrentReaders : Nat) : Index Metadata :=
  ⟨fun _ => none, concurrentReaders, []⟩

/-- What `LoadOrStore` stores, or a reader sets. -/
def Index.set (ix : Index Metadata) (p : Str) (pi : ProjectIndex Metadata) : Index Metadata :=
  { ix with projects := Function.update ix.projects p (some pi) }

/-- What a call returns; `none` is a nil slice. -/
abbrev Answer (Metadata : Type) :=
  Except Str (Option (List (ProjectMetadata Metadata)))

/-- The message and the result that a call collects. -/
abbrev Collected (Metadata : Type) :=
  Str × List (ProjectMetadata Metadata)

/-- A call, by its loop: it looks up its projects, starts the readers, and waits. -/
inductive CallPlace (Metadata : Type) where
  | storing (rest projectsToRead : List Str)
  | starting (projectsToRead : List Str)
  | waiting (rest : List Str) (collected : Collected Metadata)
  | returned (answer : Answer Metadata)

/-- `findMeta`, by its next statement: it takes a token, looks for the file and reads it, gives
the token back and closes the channel. -/
inductive ReaderPlace where
  | taking
  | reading
  | releasing
  | finishing

inductive Goroutine (Metadata : Type) where
  | call (projects : List Str) (place : CallPlace Metadata)
  | reader (project : Str) (place : ReaderPlace)

variable (rootFS : RootFS Metadata) (concurrentReaders : Nat)

def noTask : Str :=
  "need at least one task in project metadata pool".toList

/-- The first checks of `MetadataForProjects`. -/
def enter (projects : List Str) : Goroutine Metadata :=
  if concurrentReaders < 1 then .call projects (.returned (.error noTask))
  else if projects = [] then .call projects (.returned (.ok none))
  else .call projects (.storing projects [])

/-- One round of the last loop. -/
def combine (collected : Collected Metadata) (reading : Reading Metadata) : Collected Metadata :=
  match reading.err, reading.pm with
  | some err, _ => (collected.1 ++ "  ".toList ++ err ++ "\n".toList, collected.2)
  | none, some pm => (collected.1, collected.2 ++ [pm])
  | none, none => collected

/-- The end of `MetadataForProjects`. -/
def answer (collected : Collected Metadata) : Answer Metadata :=
  if collected.1 ≠ [] then .error ("error reading project(s):\n".toList ++ collected.1)
  else if collected.2 = [] then .ok none
  else .ok (some collected.2)

/-- The next step of a goroutine: the index and the goroutines after it, none while it waits or
when it has ended, or when it would close a closed channel. -/
def next (ix : Index Metadata) :
    Goroutine Metadata → Option (Index Metadata × List (Goroutine Metadata))
  | .call ps (.storing (p :: rest) toRead) =>
      match ix.projects p with
      | some _ => some (ix, [.call ps (.storing rest toRead)])
      | none => some (ix.set p ⟨Reading.empty, false⟩, [.call ps (.storing rest (toRead ++ [p]))])
  | .call ps (.storing [] toRead) => some (ix, [.call ps (.starting toRead)])
  | .call ps (.starting (p :: toRead)) =>
      some (ix, [.reader p .taking, .call ps (.starting toRead)])
  | .call ps (.starting []) => some (ix, [.call ps (.waiting ps ([], []))])
  | .call ps (.waiting (p :: rest) collected) =>
      match ix.projects p with
      | some ⟨reading, true⟩ => some (ix, [.call ps (.waiting rest (combine collected reading))])
      | _ => none
  | .call ps (.waiting [] collected) => some (ix, [.call ps (.returned (answer collected))])
  | .call _ (.returned _) => none
  | .reader p .taking =>
      if 0 < ix.task then some ({ ix with task := ix.task - 1 }, [.reader p .reading]) else none
  | .reader p .reading =>
      match ix.projects p with
      | some pi =>
          some ({ ix.set p { pi with reading := findMeta rootFS p } with
            searched := p :: ix.searched }, [.reader p .releasing])
      | none => none
  | .reader p .releasing =>
      if ix.task < concurrentReaders then
        some ({ ix with task := ix.task + 1 }, [.reader p .finishing])
      else none
  | .reader p .finishing =>
      match ix.projects p with
      | some ⟨reading, false⟩ => some (ix.set p ⟨reading, true⟩, [])
      | _ => none

/-- The states of all runs of calls with any projects that begin at any time. -/
def Reachable (c : Interleaving.Config (Index Metadata) (Goroutine Metadata)) : Prop :=
  Interleaving.Reachable (next rootFS concurrentReaders)
    (fun g => ∃ projects, g = enter concurrentReaders projects) (.new concurrentReaders) c

/-- What the last loop collects when every project is read by itself. -/
def collect (projects : List Str) : Collected Metadata :=
  projects.foldl (fun collected p => combine collected (findMeta rootFS p)) ([], [])

/-- What `MetadataForProjects` returns when every project is read by itself. -/
def metadataForProjects (projects : List Str) : Answer Metadata :=
  if concurrentReaders < 1 then .error noTask
  else if projects = [] then .ok none
  else answer (collect rootFS projects)

end Goroutines

end MetadataIndex
end AndroidBuild
