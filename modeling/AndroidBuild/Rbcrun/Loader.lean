import AndroidBuild.Lib.OrderedDict
import AndroidBuild.Lib.Script
import AndroidBuild.Rbcrun.ModuleName

/-!
# The Starlark module loader

`loader` implements the `load` statement over a global cache of modules, and
`run` executes an entry file.  A Starlark file is a script that asks for the
globals of the modules it loads.  The state keeps, beside `moduleCache`, the
history of the run: what was executed, what an execution gave, and what every
call of `loader` found in the cache and answered.  `fuel` bounds the depth of
nested loads.
-/

namespace AndroidBuild
namespace Rbcrun

open Text FilePath

/-- `starlark.StringDict`; the value `none` is Starlark's `None`. -/
abbrev StringDict (V : Type) :=
  List (Str × Option V)

/-- A cache entry: the globals of a module, or the error its execution gave. -/
abbrev Modentry (V : Type) :=
  Except LoadError (StringDict V)

/-- What a Starlark file does: it loads modules, and ends with its globals or an error. -/
abbrev Body (V : Type) :=
  Script Str (StringDict V) (StringDict V) LoadError

/-- What stands at a path of the file tree. -/
inductive Node (V : Type)
  | directory
  | symlink (dangling : Bool)
  | file (exec : List String → Body V)

namespace Node

variable {V : Type}

def isDirectory : Node V → Bool
  | directory => true
  | _ => false

def isSymlink : Node V → Bool
  | symlink _ => true
  | _ => false

/-- What `starlark.ExecFile` does with the node, given the predeclared names. -/
def body (node : Node V) (builtins : List String) : Body V :=
  match node with
  | file exec => exec builtins
  | _ => .fail (.eval "cannot read the file".toList)

end Node

/-- A file that loads modules, and defines nothing. -/
def loadAll {V : Type} : List String → Body V
  | [] => .done []
  | label :: labels => .ask label.toList fun _ => loadAll labels

/-- The files a run sees, and the directory it runs in. -/
structure FileTree (V : Type) where
  workDir : Location
  workDir_rooted : workDir.rooted = true
  nodes : List (Location × Node V)
  /-- The working directory and what is above it are no files. -/
  above : ∀ e ∈ nodes, e.1.names <:+ workDir.names → e.2.isDirectory = true

namespace FileTree

variable {V : Type} (tree : FileTree V)

def resolve (path : Str) : Location :=
  if isRooted path then locate path else tree.workDir.follow path

/-- `os.Lstat`. -/
def lstat (path : Str) : Option (Node V) :=
  tree.nodes.lookup (tree.resolve path)

/-- `os.Stat` finds something. -/
def stat (path : Str) : Bool :=
  match tree.lstat path with
  | none => false
  | some (.symlink dangling) => !dangling
  | some _ => true

end FileTree

/-- The locals of a Starlark thread. -/
structure Thread where
  callingFile : Str
  mode : ExecutionMode
  allowExternalEntrypoint : Bool
  deriving DecidableEq

def rbcBuiltins : List String :=
  ["struct", "rblf_find_files", "rblf_shell", "rblf_log", "rblf_wildcard"]

def sclBuiltins : List String :=
  ["struct"]

def builtins : ExecutionMode → List String
  | .rbc => rbcBuiltins
  | .scl => sclBuiltins

def isScl (path : Str) : Bool :=
  ".scl".toList.isSuffixOf path

/-- Scl files switch into scl mode from there on. -/
def childMode (mode : ExecutionMode) (path : Str) : ExecutionMode :=
  if isScl path then .scl else mode

/-- What a call of `loader` asks for: a path, and the symbol behind a `|`. -/
structure Request where
  path : Str
  symbol : Option Str
  deriving DecidableEq

/-- The module and the symbol of a module URI; only rbc files have symbols. -/
def splitSymbol (mode : ExecutionMode) (module : Str) : Str × Option Str :=
  match mode, splitLast '|' module with
  | .rbc, some (front, back) => (front, some back)
  | _, _ => (module, none)

/-- The first part of `loader`: the module URI. -/
def parseModule (thread : Thread) (module : Str) : Except LoadError Request :=
  match cleanModuleName (splitSymbol thread.mode module).1 (dir thread.callingFile)
      thread.allowExternalEntrypoint with
  | .error e => .error e
  | .ok path => .ok ⟨path, (splitSymbol thread.mode module).2⟩

/-- A call of `loader`: what it found in the cache, and what it answered. -/
structure Load (V : Type) where
  thread : Thread
  module : Str
  found : Option (Option (Modentry V))
  result : Modentry V
  deriving DecidableEq

def Load.request {V : Type} (call : Load V) : Except LoadError Request :=
  parseModule call.thread call.module

/-- The call loads the file at a path. -/
def Load.Loads {V : Type} (call : Load V) (path : Str) : Prop :=
  ∃ symbol, call.request = .ok ⟨path, symbol⟩

/-- What happens in a run. -/
inductive Event (V : Type)
  | exec (path : Str) (builtins : List String)
  | finish (path : Str) (result : Modentry V)
  | load (call : Load V)
  deriving DecidableEq

/-- `moduleCache`, with `none` as the placeholder of a load in progress, and the history of the
run, the newest event first. -/
structure State (V : Type) where
  moduleCache : OrderedDict Str (Option (Modentry V))
  history : List (Event V)

namespace State

variable {V : Type}

def start : State V :=
  ⟨.empty, []⟩

def store (s : State V) (path : Str) (entry : Option (Modentry V)) : State V :=
  { s with moduleCache := s.moduleCache.set path entry }

def record (s : State V) (event : Event V) : State V :=
  { s with history := event :: s.history }

def finish (s : State V) (path : Str) (call : Load V) : State V :=
  ((s.store path (some call.result)).record (.finish path call.result)).record (.load call)

def find (s : State V) (thread : Thread) (module : Str) : Option (Option (Modentry V)) :=
  match parseModule thread module with
  | .error _ => none
  | .ok request => s.moduleCache.get? request.path

end State

/-- What `loader` does before a file is executed: it answers, or it executes a script. -/
inductive Decision (V : Type)
  | answer (result : Modentry V) (s : State V)
  | execute (child : Thread) (body : Body V) (s : State V)

section Loader

variable {V : Type} (tree : FileTree V)

/-- Loads a file, or answers with an error; the placeholder is in the cache. -/
def loadFile (thread : Thread) (path : Str) (s : State V) : Decision V :=
  if isScl thread.callingFile && !isScl path then
    .answer (.error (.sclOnly thread.callingFile path)) s
  else
    match tree.lstat path with
    | none => .answer (.error (.lstat path)) s
    | some (.symlink _) => .answer (.error (.symlink path)) s
    | some node =>
        .execute ⟨path, childMode thread.mode path, false⟩
          (node.body (builtins (childMode thread.mode path)))
          (s.record (.exec path (builtins (childMode thread.mode path))))

/-- `loader` up to the execution of a file. -/
def decideLoad (thread : Thread) (module : Str) (s : State V) : Decision V :=
  match parseModule thread module with
  | .error e => .answer (.error e) s
  | .ok ⟨path, symbol⟩ =>
      match s.moduleCache.get? path with
      | some (some e) => .answer e s
      | some none => .answer (.error .cycle) s
      | none =>
          match symbol with
          | none => loadFile tree thread path (s.store path none)
          | some name =>
              if tree.stat path then loadFile tree thread path (s.store path none)
              else .answer (.ok [(name, none)]) (s.store path (some (.ok [(name, none)])))

def loader : Nat → Thread → Str → State V → Option (Modentry V × State V)
  | 0, _, _, _ => none
  | fuel + 1, thread, module, s =>
      match decideLoad tree thread module s with
      | .answer res s₁ => some (res, s₁.record (.load ⟨thread, module, s.find thread module, res⟩))
      | .execute child body s₁ =>
          match body.run (loader fuel child) .cannotLoad s₁ with
          | none => none
          | some (res, s₂) =>
              some (res,
                s₂.finish child.callingFile ⟨thread, module, s.find thread module, res⟩)

/-- What `Run` returns: the globals of the entry file or an error, and the files loaded. -/
structure Outcome (V : Type) where
  result : Modentry V
  loadedStarlarkFiles : List Str
  history : List (Event V)

def entryPath (filename : Str) : Str :=
  rel tree.workDir.render (abs tree.workDir.render filename)

/-- The entry file goes into the cache for cycle detection, and is executed. -/
def State.entry (path : Str) (mode : ExecutionMode) : State V :=
  (State.start.store path none).record (.exec path (builtins mode))

/-- `Run`, with an empty cache. -/
def run (fuel : Nat) (filename : Str) (mode : ExecutionMode) (allowExternalEntrypoint : Bool) :
    Option (Outcome V) :=
  let path := entryPath tree filename
  if !allowExternalEntrypoint && "../".toList.isPrefixOf path then
    some ⟨.error (.outsideRoot path), [], []⟩
  else
    match tree.lstat path with
    | none => some ⟨.error (.lstat path), [], []⟩
    | some (.symlink _) => some ⟨.error (.symlink path), [], []⟩
    | some node =>
        if mode = .scl ∧ isScl path = false then some ⟨.error (.notScl path), [], []⟩
        else
          match (node.body (builtins mode)).run
              (loader tree fuel ⟨path, mode, allowExternalEntrypoint⟩) .cannotLoad
              (State.entry path mode) with
          | none => none
          | some (res, s) =>
              some ⟨res, s.moduleCache.keys.mergeSort (fun a b => !decide (b < a)), s.history⟩

end Loader

section Steps

variable {V : Type} {tree : FileTree V} {thread child : Thread} {module path : Str}
variable {s s₁ : State V} {res : Modentry V} {e : LoadError} {body : Body V}

/-- Why a file is not executed. -/
inductive FileError (tree : FileTree V) (thread : Thread) (path : Str) : LoadError → Prop
  | sclOnly (hcaller : isScl thread.callingFile = true) (hpath : isScl path = false) :
      FileError tree thread path (.sclOnly thread.callingFile path)
  | lstat (hscl : isScl thread.callingFile = true → isScl path = true)
      (hlstat : tree.lstat path = none) : FileError tree thread path (.lstat path)
  | symlink (hscl : isScl thread.callingFile = true → isScl path = true) (dangling : Bool)
      (hlstat : tree.lstat path = some (.symlink dangling)) :
      FileError tree thread path (.symlink path)

/-- A call that is answered at once. -/
inductive Answers (tree : FileTree V) (thread : Thread) (module : Str) (s : State V) :
    Modentry V → State V → Prop
  | refused (e : LoadError) (hparse : parseModule thread module = .error e) :
      Answers tree thread module s (.error e) s
  | cached (request : Request) (hparse : parseModule thread module = .ok request)
      (res : Modentry V) (hfound : s.moduleCache.get? request.path = some (some res)) :
      Answers tree thread module s res s
  | cycle (request : Request) (hparse : parseModule thread module = .ok request)
      (hfound : s.moduleCache.get? request.path = some none) :
      Answers tree thread module s (.error .cycle) s
  | default (path name : Str) (hparse : parseModule thread module = .ok ⟨path, some name⟩)
      (hfound : s.moduleCache.get? path = none) (hstat : tree.stat path = false) :
      Answers tree thread module s (.ok [(name, none)])
        (s.store path (some (.ok [(name, none)])))
  | failed (request : Request) (hparse : parseModule thread module = .ok request)
      (hfound : s.moduleCache.get? request.path = none)
      (hmust : request.symbol = none ∨ tree.stat request.path = true)
      (e : LoadError) (herror : FileError tree thread request.path e) :
      Answers tree thread module s (.error e) (s.store request.path none)

/-- A call that executes a file. -/
structure Executes (tree : FileTree V) (thread : Thread) (module : Str) (s : State V)
    (child : Thread) (body : Body V) (s₁ : State V) : Prop where
  parse : ∃ symbol, parseModule thread module = .ok ⟨child.callingFile, symbol⟩
  found : s.moduleCache.get? child.callingFile = none
  scl : isScl thread.callingFile = true → isScl child.callingFile = true
  mode : child.mode = childMode thread.mode child.callingFile
  external : child.allowExternalEntrypoint = false
  node : ∃ node, tree.lstat child.callingFile = some node ∧ node.isSymlink = false ∧
    body = node.body (builtins child.mode)
  state : s₁ = (s.store child.callingFile none).record
    (.exec child.callingFile (builtins child.mode))

theorem loadFile_answer
    (h : loadFile tree thread path s = .answer res s₁) :
    ∃ e, res = .error e ∧ s₁ = s ∧ FileError tree thread path e := by
  rw [loadFile] at h
  split at h
  · next hscl =>
      rw [Bool.and_eq_true, Bool.not_eq_true'] at hscl
      obtain ⟨rfl, rfl⟩ := Decision.answer.inj h
      exact ⟨_, rfl, rfl, .sclOnly hscl.1 hscl.2⟩
  · next hscl =>
      have hscl' : isScl thread.callingFile = true → isScl path = true := by
        simpa using hscl
      split at h
      · next hlstat =>
          obtain ⟨rfl, rfl⟩ := Decision.answer.inj h
          exact ⟨_, rfl, rfl, .lstat hscl' hlstat⟩
      · next dangling hlstat =>
          obtain ⟨rfl, rfl⟩ := Decision.answer.inj h
          exact ⟨_, rfl, rfl, .symlink hscl' dangling hlstat⟩
      · simp at h

theorem loadFile_execute
    (h : loadFile tree thread path s = .execute child body s₁) :
    child = ⟨path, childMode thread.mode path, false⟩ ∧
      (isScl thread.callingFile = true → isScl path = true) ∧
      (∃ node, tree.lstat path = some node ∧ node.isSymlink = false ∧
        body = node.body (builtins child.mode)) ∧
      s₁ = s.record (.exec path (builtins child.mode)) := by
  rw [loadFile] at h
  split at h
  · simp at h
  · next hscl =>
      split at h
      · simp at h
      · simp at h
      · next node hnode hlstat =>
          obtain ⟨rfl, rfl, rfl⟩ := Decision.execute.inj h
          refine ⟨rfl, by simpa using hscl, ⟨node, hlstat, ?_, rfl⟩, rfl⟩
          cases node with
          | symlink dangling => exact absurd rfl (hnode dangling)
          | directory => rfl
          | file exec => rfl

/-- All a call can do before a file is executed. -/
theorem decideLoad_answer
    (h : decideLoad tree thread module s = .answer res s₁) :
    Answers tree thread module s res s₁ := by
  rw [decideLoad] at h
  split at h
  · next e hparse =>
      obtain ⟨rfl, rfl⟩ := Decision.answer.inj h
      exact .refused e hparse
  · next path symbol hparse =>
      split at h
      · next res' hfound =>
          obtain ⟨rfl, rfl⟩ := Decision.answer.inj h
          exact .cached ⟨path, symbol⟩ hparse _ hfound
      · next hfound =>
          obtain ⟨rfl, rfl⟩ := Decision.answer.inj h
          exact .cycle ⟨path, symbol⟩ hparse hfound
      · next hfound =>
          split at h
          · obtain ⟨e, rfl, rfl, herror⟩ := loadFile_answer h
            exact .failed ⟨path, none⟩ hparse hfound (Or.inl rfl) e herror
          · next name =>
              split at h
              · next hstat =>
                  obtain ⟨e, rfl, rfl, herror⟩ := loadFile_answer h
                  exact .failed ⟨path, some name⟩ hparse hfound (Or.inr hstat) e herror
              · next hstat =>
                  obtain ⟨rfl, rfl⟩ := Decision.answer.inj h
                  exact .default path name hparse hfound (by simpa using hstat)

theorem decideLoad_execute
    (h : decideLoad tree thread module s = .execute child body s₁) :
    Executes tree thread module s child body s₁ := by
  have hload : ∀ path symbol, parseModule thread module = .ok ⟨path, symbol⟩ →
      s.moduleCache.get? path = none →
      loadFile tree thread path (s.store path none) = .execute child body s₁ →
      Executes tree thread module s child body s₁ := by
    intro path symbol hparse hfound h
    obtain ⟨rfl, hscl, hnode, rfl⟩ := loadFile_execute h
    exact ⟨⟨symbol, hparse⟩, hfound, hscl, rfl, rfl, hnode, rfl⟩
  rw [decideLoad] at h
  split at h
  · simp at h
  · next path symbol hparse =>
      split at h
      · simp at h
      · simp at h
      · next hfound =>
          split at h
          · exact hload path none hparse hfound h
          · next name =>
              split at h
              · exact hload path (some name) hparse hfound h
              · simp at h

theorem request_mk
    {thread : Thread} {module : Str} {found : Option (Option (Modentry V))} {result : Modentry V}
    {request : Except LoadError Request} (h : parseModule thread module = request) :
    (⟨thread, module, found, result⟩ : Load V).request = request :=
  h

theorem Load.Loads.path_eq
    {call : Load V} {path' : Str} {symbol : Option Str} (h : call.Loads path')
    (hrequest : call.request = .ok ⟨path, symbol⟩) :
    path' = path := by
  obtain ⟨symbol', h⟩ := h
  rw [hrequest, Except.ok.injEq, Request.mk.injEq] at h
  exact h.1.symm

theorem State.find_ok
    {request : Request} (h : parseModule thread module = .ok request) :
    s.find thread module = s.moduleCache.get? request.path := by
  unfold State.find
  rw [h]

/-- A run that executes its entry file. -/
structure RunsEntry (tree : FileTree V) (fuel : Nat) (path : Str) (mode : ExecutionMode)
    (allowExternalEntrypoint : Bool) (res : Modentry V) (s : State V) : Prop where
  inside : allowExternalEntrypoint = false → "../".toList.isPrefixOf path = false
  scl : mode = .scl → isScl path = true
  node : ∃ node, tree.lstat path = some node ∧ node.isSymlink = false ∧
    (node.body (builtins mode)).run (loader tree fuel ⟨path, mode, allowExternalEntrypoint⟩)
      .cannotLoad (State.entry path mode) = some (res, s)

/-- A run fails before anything is executed, or it executes its entry file. -/
theorem run_cases
    {fuel : Nat} {filename : Str} {mode : ExecutionMode} {allowExternalEntrypoint : Bool}
    {out : Outcome V} (h : run tree fuel filename mode allowExternalEntrypoint = some out) :
    (∃ e, out = ⟨.error e, [], []⟩) ∨
      ∃ s, RunsEntry tree fuel (entryPath tree filename) mode allowExternalEntrypoint out.result s ∧
        out.history = s.history := by
  simp only [run] at h
  split at h
  · exact Or.inl ⟨_, (Option.some.inj h).symm⟩
  · next hup =>
      split at h
      · exact Or.inl ⟨_, (Option.some.inj h).symm⟩
      · exact Or.inl ⟨_, (Option.some.inj h).symm⟩
      · next node hnode hlstat =>
          split at h
          · exact Or.inl ⟨_, (Option.some.inj h).symm⟩
          · next hscl =>
              split at h
              · simp at h
              · next res s hrun =>
                  obtain rfl := Option.some.inj h
                  refine Or.inr ⟨s, ⟨?_, ?_, node, hlstat, ?_, hrun⟩, rfl⟩
                  · rintro rfl
                    rw [Bool.not_false, Bool.true_and] at hup
                    exact Bool.eq_false_of_not_eq_true hup
                  · intro hmode
                    rw [not_and, Bool.not_eq_false] at hscl
                    exact hscl hmode
                  · cases node with
                    | symlink dangling => exact absurd rfl (hnode dangling)
                    | directory => rfl
                    | file exec => rfl

end Steps

section Rule

variable {V : Type} {tree : FileTree V}

/-- Entries of the cache stay, and the history grows. -/
structure State.Extends (s s' : State V) : Prop where
  get? : ∀ path entry, s.moduleCache.get? path = some entry →
    s'.moduleCache.get? path = some entry
  history : s.history <:+ s'.history

namespace State

variable {s s₁ s₂ s' : State V} {path : Str}

theorem Extends.refl (s : State V) :
    s.Extends s :=
  ⟨fun _ _ h => h, List.suffix_refl _⟩

theorem Extends.trans
    (h : s.Extends s₁) (h' : s₁.Extends s₂) :
    s.Extends s₂ :=
  ⟨fun path entry hp => h'.get? path entry (h.get? path entry hp), h.history.trans h'.history⟩

theorem get?_store (s : State V) (path path' : Str) (entry : Option (Modentry V)) :
    (s.store path entry).moduleCache.get? path' =
      if path' = path then some entry else s.moduleCache.get? path' :=
  OrderedDict.get?_set _ _ _ _

theorem extends_record (s : State V) (event : Event V) :
    s.Extends (s.record event) :=
  ⟨fun _ _ h => h, List.suffix_cons _ _⟩

theorem extends_store
    (h : s.moduleCache.get? path = none) (entry : Option (Modentry V)) :
    s.Extends (s.store path entry) := by
  refine ⟨?_, List.suffix_refl _⟩
  intro path' entry' hp
  rw [get?_store, if_neg]
  · exact hp
  · rintro rfl
    rw [h] at hp
    simp at hp

theorem Extends.finish
    (h : s.moduleCache.get? path = none) (h' : s.Extends s₂) (call : Load V) :
    s.Extends (s₂.finish path call) := by
  refine ⟨?_, h'.history.trans ((List.suffix_cons _ _).trans (List.suffix_cons _ _))⟩
  intro path' entry hp
  change (s₂.store path (some call.result)).moduleCache.get? path' = some entry
  rw [get?_store, if_neg]
  · exact h'.get? path' entry hp
  · rintro rfl
    rw [h] at hp
    simp at hp

end State

theorem Answers.extends
    {thread : Thread} {module : Str} {s s₁ : State V} {res : Modentry V}
    (h : Answers tree thread module s res s₁) :
    s.Extends s₁ := by
  cases h with
  | refused e hparse => exact .refl s
  | cached request hparse res hfound => exact .refl s
  | cycle request hparse hfound => exact .refl s
  | default path name hparse hfound hstat => exact State.extends_store hfound _
  | failed request hparse hfound hmust e herror => exact State.extends_store hfound _

theorem Executes.extends
    {thread child : Thread} {module : Str} {s s₁ : State V} {body : Body V}
    (h : Executes tree thread module s child body s₁) :
    s.Extends s₁ := by
  rw [h.state]
  exact (State.extends_store h.found none).trans (State.extends_record _ _)

/-- The placeholder is still there when the execution ends. -/
theorem Executes.get?
    {thread child : Thread} {module : Str} {s s₁ s₂ : State V} {body : Body V}
    (h : Executes tree thread module s child body s₁) (hext : s₁.Extends s₂) :
    s₂.moduleCache.get? child.callingFile = some none := by
  refine hext.get? _ _ ?_
  rw [h.state]
  change (s.store child.callingFile none).moduleCache.get? child.callingFile = some none
  rw [State.get?_store, if_pos rfl]

/-- Properties `P` of calls and `Q` of executions that every run has. -/
structure LoaderRule (tree : FileTree V)
    (P : Thread → Str → State V → Modentry V → State V → Prop)
    (Q : Thread → Body V → State V → Modentry V → State V → Prop) : Prop where
  answers : ∀ thread module s res s₁, Answers tree thread module s res s₁ →
    P thread module s res (s₁.record (.load ⟨thread, module, s.find thread module, res⟩))
  executes : ∀ thread module s child body s₁ res s₂,
    Executes tree thread module s child body s₁ → s₁.Extends s₂ → Q child body s₁ res s₂ →
    P thread module s res
      (s₂.finish child.callingFile ⟨thread, module, s.find thread module, res⟩)
  done : ∀ thread s globals, Q thread (.done globals) s (.ok globals) s
  fail : ∀ thread s e, Q thread (.fail e) s (.error e) s
  refused : ∀ thread module next s e s', P thread module s (.error e) s' →
    Q thread (.ask module next) s (.error (.cannotLoad module e)) s'
  answered : ∀ thread module next s globals s' res s'', s.Extends s' → s'.Extends s'' →
    P thread module s (.ok globals) s' → Q thread (next globals) s' res s'' →
    Q thread (.ask module next) s res s''

/-- What every call within the fuel has, an execution has. -/
theorem body_rule
    {P : Thread → Str → State V → Modentry V → State V → Prop}
    {Q : Thread → Body V → State V → Modentry V → State V → Prop} (rule : LoaderRule tree P Q)
    {fuel : Nat} {thread : Thread}
    (hload : ∀ module s res s', loader tree fuel thread module s = some (res, s') →
      P thread module s res s' ∧ s.Extends s')
    {body : Body V} {s s' : State V} {res : Modentry V}
    (h : body.run (loader tree fuel thread) .cannotLoad s = some (res, s')) :
    Q thread body s res s' ∧ s.Extends s' := by
  refine Script.run_rule (P := fun body s res s' => Q thread body s res s' ∧ s.Extends s')
    ?_ ?_ ?_ ?_ body h
  · intro globals s
    exact ⟨rule.done thread s globals, .refl s⟩
  · intro e s
    exact ⟨rule.fail thread s e, .refl s⟩
  · intro module next s e s' hq
    obtain ⟨hP, hext⟩ := hload module s _ s' hq
    exact ⟨rule.refused thread module next s e s' hP, hext⟩
  · intro module next s globals s' res s'' hq hnext
    obtain ⟨hP, hext⟩ := hload module s _ s' hq
    exact ⟨rule.answered thread module next s globals s' res s'' hext hnext.2 hP hnext.1,
      hext.trans hnext.2⟩

theorem loader_rule
    {P : Thread → Str → State V → Modentry V → State V → Prop}
    {Q : Thread → Body V → State V → Modentry V → State V → Prop} (rule : LoaderRule tree P Q)
    {fuel : Nat} {thread : Thread} {module : Str} {s s' : State V} {res : Modentry V}
    (h : loader tree fuel thread module s = some (res, s')) :
    P thread module s res s' ∧ s.Extends s' := by
  induction fuel generalizing thread module s res s' with
  | zero => simp [loader] at h
  | succ fuel ih =>
      rw [loader] at h
      split at h
      · next res₁ s₁ hdecide =>
          obtain ⟨rfl, rfl⟩ := Prod.mk.inj (Option.some.inj h)
          have hanswers := decideLoad_answer hdecide
          exact ⟨rule.answers thread module s res₁ s₁ hanswers,
            hanswers.extends.trans (State.extends_record _ _)⟩
      · next child body s₁ hdecide =>
          split at h
          · simp at h
          · next res₁ s₂ hbody =>
              obtain ⟨rfl, rfl⟩ := Prod.mk.inj (Option.some.inj h)
              have hexecutes := decideLoad_execute hdecide
              obtain ⟨hQ, hext⟩ := body_rule rule (fun _ _ _ _ => ih) hbody
              exact ⟨rule.executes thread module s child body s₁ res₁ s₂ hexecutes hext hQ,
                State.Extends.finish hexecutes.found (hexecutes.extends.trans hext) _⟩

theorem script_rule
    {P : Thread → Str → State V → Modentry V → State V → Prop}
    {Q : Thread → Body V → State V → Modentry V → State V → Prop} (rule : LoaderRule tree P Q)
    {fuel : Nat} {thread : Thread} {body : Body V} {s s' : State V} {res : Modentry V}
    (h : body.run (loader tree fuel thread) .cannotLoad s = some (res, s')) :
    Q thread body s res s' ∧ s.Extends s' :=
  body_rule rule (fun _ _ _ _ => loader_rule rule) h

end Rule

end Rbcrun
end AndroidBuild
