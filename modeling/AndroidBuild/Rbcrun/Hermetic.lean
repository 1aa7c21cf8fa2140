import AndroidBuild.Rbcrun.Executions
import Mathlib

/-!
# Scl files load scl files only

`loadFile` refuses to load anything else from an `.scl` file, but a path that
is in the cache does not get there: what another file has loaded, or is
loading, an `.scl` file can load as well.  In the runs in which every call of
an `.scl` file for another kind of file gets as far as the check, everything
an `.scl` file loads is an `.scl` file executed with `sclBuiltins`, and such a
call makes the run fail with the error of the check.
-/

namespace AndroidBuild
namespace Rbcrun

open Text FilePath

section Hermetic

variable {V : Type}

/-- A file has loaded a module. -/
def LoadedBy (history : List (Event V)) (path path' : Str) : Prop :=
  ∃ call, .load call ∈ history ∧ call.thread.callingFile = path ∧ call.Loads path' ∧
    ∃ globals, call.result = .ok globals

/-- An scl file calls for something that is no scl file. -/
structure Forbidden (call : Load V) (path : Str) : Prop where
  loads : call.Loads path
  caller : isScl call.thread.callingFile = true
  path : isScl path = false

/-- Scl files are hermetic in a run. -/
structure Hermetic (tree : FileTree V) (out : Outcome V) : Prop where
  modules : ∀ path path', Relation.TransGen (LoadedBy out.history) path path' →
    isScl path = true → isScl path' = true ∧
      (∀ names, .exec path' names ∈ out.history → names = sclBuiltins) ∧
      (tree.stat path' = true → path' ∈ executions out.history)
  fails : ∀ call path, .load call ∈ out.history → Forbidden call path →
    ∃ e, out.result = .error e ∧ e.root = .sclOnly call.thread.callingFile path

/-- The check is reached: the path is not in the cache, and the call must load a file. -/
def ReachesCheck (tree : FileTree V) (call : Load V) : Prop :=
  ∀ path symbol, call.request = .ok ⟨path, symbol⟩ →
    call.found = none ∧ (symbol = none ∨ tree.stat path = true)

end Hermetic

section Calls

variable {V : Type} {tree : FileTree V} {entry path : Str} {s : State V}

/-- What is known of every call of a run. -/
structure CallFacts (tree : FileTree V) (entry : Str) (call : Load V) : Prop where
  checked : ∀ path, Forbidden call path → ReachesCheck tree call →
    call.result = .error (.sclOnly call.thread.callingFile path)
  unchecked : ∀ path, Forbidden call path → ¬ ReachesCheck tree call →
    call.result = .error .cycle ∨ ∃ globals, call.result = .ok globals
  entryFails : call.Loads entry → ∃ e, call.result = .error e

/-- What the state of a run keeps. -/
structure Sound (tree : FileTree V) (entry : Str) (s : State V) : Prop where
  inProgress : s.moduleCache.get? entry = some none
  exec : ∀ path names, .exec path names ∈ s.history →
    path = entry ∨ (isScl path = true → names = sclBuiltins)
  cached : ∀ path res, s.moduleCache.get? path = some (some res) → tree.stat path = true →
    path ∈ executions s.history
  calls : ∀ call, .load call ∈ s.history → CallFacts tree entry call
  executed : ∀ call path, .load call ∈ s.history → call.Loads path →
    (∃ globals, call.result = .ok globals) → tree.stat path = true → path ∈ executions s.history

/-- Nothing has failed. -/
structure Unfailed (s : State V) : Prop where
  cached : ∀ path res, s.moduleCache.get? path = some (some res) → ∃ globals, res = .ok globals
  calls : ∀ call, .load call ∈ s.history → ∃ globals, call.result = .ok globals

/-- The errors of the calls come from one error. -/
def OneError (res : Modentry V) (s : State V) : Prop :=
  ∀ e, res = .error e → ∀ call, .load call ∈ s.history →
    ∀ e', call.result = .error e' → e'.root = e.root

theorem reachesCheck_iff
    {call : Load V} {symbol : Option Str} (h : call.request = .ok ⟨path, symbol⟩) :
    ReachesCheck tree call ↔ call.found = none ∧ (symbol = none ∨ tree.stat path = true) := by
  constructor
  · intro hcheck
    exact hcheck path symbol h
  · intro hcheck path' symbol' h'
    rw [h, Except.ok.injEq, Request.mk.injEq] at h'
    obtain ⟨rfl, rfl⟩ := h'
    exact hcheck

/-- Every call that is answered at once. -/
theorem Answers.callFacts
    {thread : Thread} {module : Str} {res : Modentry V} {s₁ : State V}
    (h : Answers tree thread module s res s₁) (hs : Sound tree entry s) (hclean : Unfailed s) :
    CallFacts tree entry ⟨thread, module, s.find thread module, res⟩ := by
  cases h with
  | refused e hparse =>
      have hnone : ∀ path, ¬ (⟨thread, module, s.find thread module, .error e⟩ : Load V).Loads
          path := by
        rintro path ⟨symbol, hrequest⟩
        rw [request_mk hparse] at hrequest
        simp at hrequest
      exact ⟨fun path h => absurd h.loads (hnone path), fun path h => absurd h.loads (hnone path),
        fun h => absurd h (hnone entry)⟩
  | cached request hparse res hfound =>
      have hfind := (State.find_ok hparse).trans hfound
      refine ⟨?_, fun _ _ _ => Or.inr (hclean.cached _ _ hfound), ?_⟩
      · intro path _ hcheck
        have hnone := ((reachesCheck_iff (request_mk hparse)).mp hcheck).1
        change s.find thread module = none at hnone
        rw [hfind] at hnone
        simp at hnone
      · intro hloads
        obtain rfl := hloads.path_eq (request_mk hparse)
        rw [hs.inProgress] at hfound
        simp at hfound
  | cycle request hparse hfound =>
      have hfind := (State.find_ok hparse).trans hfound
      refine ⟨?_, fun _ _ _ => Or.inl rfl, fun _ => ⟨_, rfl⟩⟩
      intro path _ hcheck
      have hnone := ((reachesCheck_iff (request_mk hparse)).mp hcheck).1
      change s.find thread module = none at hnone
      rw [hfind] at hnone
      simp at hnone
  | default path name hparse hfound hstat =>
      refine ⟨?_, fun _ _ _ => Or.inr ⟨_, rfl⟩, ?_⟩
      · intro path' _ hcheck
        have hmust := ((reachesCheck_iff (request_mk hparse)).mp hcheck).2
        simp [hstat] at hmust
      · intro hloads
        obtain rfl := hloads.path_eq (request_mk hparse)
        rw [hs.inProgress] at hfound
        simp at hfound
  | failed request hparse hfound hmust e herror =>
      refine ⟨?_, ?_, fun _ => ⟨e, rfl⟩⟩
      · intro path hforbidden _
        obtain rfl := hforbidden.loads.path_eq (request_mk hparse)
        have hpath := hforbidden.path
        have hcaller : isScl thread.callingFile = true := hforbidden.caller
        cases herror with
        | sclOnly _ _ => rfl
        | lstat hscl _ =>
            rw [hscl hcaller] at hpath
            simp at hpath
        | symlink hscl dangling _ =>
            rw [hscl hcaller] at hpath
            simp at hpath
      · intro path _ hcheck
        exact absurd ((reachesCheck_iff (request_mk hparse)).mpr
          ⟨(State.find_ok hparse).trans hfound, hmust⟩) hcheck

/-- A call that executes a file is not forbidden. -/
theorem Executes.callFacts
    {thread child : Thread} {module : Str} {body : Body V} {s₁ : State V}
    (h : Executes tree thread module s child body s₁) (hs : Sound tree entry s)
    (res : Modentry V) :
    CallFacts tree entry ⟨thread, module, s.find thread module, res⟩ := by
  obtain ⟨symbol, hparse⟩ := h.parse
  have hallowed : ∀ path,
      ¬ Forbidden (⟨thread, module, s.find thread module, res⟩ : Load V) path := by
    intro path hforbidden
    have hpath := hforbidden.path
    rw [hforbidden.loads.path_eq (request_mk hparse), h.scl hforbidden.caller] at hpath
    simp at hpath
  refine ⟨fun path hpath => absurd hpath (hallowed path),
    fun path hpath => absurd hpath (hallowed path), ?_⟩
  intro hloads
  have hfound := h.found
  rw [← hloads.path_eq (request_mk hparse), hs.inProgress] at hfound
  simp at hfound

theorem mem_calls_record
    {call call' : Load V} {h : List (Event V)} (hmem : .load call' ∈ Event.load call :: h) :
    call' = call ∨ .load call' ∈ h := by
  rcases List.mem_cons.mp hmem with heq | hmem
  · exact Or.inl (Event.load.inj heq)
  · exact Or.inr hmem

theorem Answers.sound
    {thread : Thread} {module : Str} {res : Modentry V} {s₁ : State V}
    (h : Answers tree thread module s res s₁) (hs : Sound tree entry s) (hclean : Unfailed s) :
    Sound tree entry (s₁.record (.load ⟨thread, module, s.find thread module, res⟩)) := by
  have hhistory : s₁.history = s.history := by cases h <;> rfl
  have hfacts := h.callFacts hs hclean
  refine ⟨h.extends.get? _ _ hs.inProgress, ?_, ?_, ?_, ?_⟩
  · intro path names hmem
    refine hs.exec path names ?_
    rw [← hhistory]
    simpa [State.record] using hmem
  · intro path res' hentry hstat
    change path ∈ executions s₁.history
    rw [hhistory]
    refine hs.cached path res' ?_ hstat
    change s₁.moduleCache.get? path = some (some res') at hentry
    cases h with
    | refused e hparse => exact hentry
    | cached request hparse res hfound => exact hentry
    | cycle request hparse hfound => exact hentry
    | default path' name hparse hfound hstat' =>
        rw [State.get?_store] at hentry
        split_ifs at hentry with heq
        · rw [heq, hstat'] at hstat
          simp at hstat
        · exact hentry
    | failed request hparse hfound hmust e herror =>
        rw [State.get?_store] at hentry
        split_ifs at hentry with heq
        · simp at hentry
        · exact hentry
  · intro call hmem
    rcases mem_calls_record hmem with rfl | hmem
    · exact hfacts
    · exact hs.calls call (hhistory ▸ hmem)
  · intro call path hmem hloads hok hstat
    change path ∈ executions s₁.history
    rw [hhistory]
    rcases mem_calls_record hmem with rfl | hmem
    · obtain ⟨globals, hok⟩ := hok
      change res = .ok globals at hok
      subst hok
      cases h with
      | cached request hparse res hfound =>
          obtain rfl := hloads.path_eq (request_mk hparse)
          exact hs.cached _ _ hfound hstat
      | default path' name hparse hfound hstat' =>
          rw [hloads.path_eq (request_mk hparse), hstat'] at hstat
          simp at hstat
    · exact hs.executed call path (hhistory ▸ hmem) hloads hok hstat

theorem Answers.unfailed
    {thread : Thread} {module : Str} {globals : StringDict V} {s₁ : State V}
    (h : Answers tree thread module s (.ok globals) s₁) (hclean : Unfailed s)
    (found : Option (Option (Modentry V))) :
    Unfailed (s₁.record (.load ⟨thread, module, found, .ok globals⟩)) := by
  have hhistory : s₁.history = s.history := by cases h <;> rfl
  constructor
  · intro path res hentry
    change s₁.moduleCache.get? path = some (some res) at hentry
    cases h with
    | cached request hparse res hfound => exact hclean.cached path res hentry
    | default path' name hparse hfound hstat =>
        rw [State.get?_store] at hentry
        split_ifs at hentry with heq
        · exact ⟨_, (Option.some.inj (Option.some.inj hentry)).symm⟩
        · exact hclean.cached path res hentry
  · intro call hmem
    rcases mem_calls_record hmem with rfl | hmem
    · exact ⟨globals, rfl⟩
    · exact hclean.calls call (hhistory ▸ hmem)

theorem Executes.sound
    {thread child : Thread} {module : Str} {body : Body V} {s₁ : State V}
    (h : Executes tree thread module s child body s₁) (hs : Sound tree entry s) :
    Sound tree entry s₁ := by
  refine ⟨h.extends.get? _ _ hs.inProgress, ?_, ?_, ?_, ?_⟩ <;> rw [h.state]
  · intro path names hmem
    rcases List.mem_cons.mp hmem with heq | hmem
    · obtain ⟨rfl, rfl⟩ := Event.exec.inj heq
      right
      intro hscl
      rw [h.mode, childMode, if_pos hscl]
      rfl
    · exact hs.exec path names hmem
  · intro path res hentry hstat
    change (s.store child.callingFile none).moduleCache.get? path = some (some res) at hentry
    rw [State.get?_store] at hentry
    split_ifs at hentry with heq
    · simp at hentry
    · exact List.mem_cons_of_mem _ (hs.cached path res hentry hstat)
  · intro call hmem
    exact hs.calls call (by simpa [State.record, State.store] using hmem)
  · intro call path hmem hloads hok hstat
    have hmem' : .load call ∈ s.history := by simpa [State.record, State.store] using hmem
    exact List.mem_cons_of_mem _ (hs.executed call path hmem' hloads hok hstat)

theorem Executes.unfailed
    {thread child : Thread} {module : Str} {body : Body V} {s₁ : State V}
    (h : Executes tree thread module s child body s₁) (hclean : Unfailed s) :
    Unfailed s₁ := by
  constructor <;> rw [h.state]
  · intro path res hentry
    change (s.store child.callingFile none).moduleCache.get? path = some (some res) at hentry
    rw [State.get?_store] at hentry
    split_ifs at hentry with heq
    · simp at hentry
    · exact hclean.cached path res hentry
  · intro call hmem
    exact hclean.calls call (by simpa [State.record, State.store] using hmem)

theorem mem_executions_execute
    {thread child : Thread} {module : Str} {body : Body V} {s₁ s₂ : State V}
    (h : Executes tree thread module s child body s₁) (hext : s₁.Extends s₂) :
    child.callingFile ∈ executions s₂.history := by
  rw [mem_executions]
  refine ⟨builtins child.mode, hext.history.subset ?_⟩
  rw [h.state]
  exact List.mem_cons_self

theorem Sound.finish
    {call : Load V} {symbol : Option Str} (hs : Sound tree entry s)
    (hcall : call.request = .ok ⟨path, symbol⟩) (hne : path ≠ entry)
    (hexec : path ∈ executions s.history) (hfacts : CallFacts tree entry call) :
    Sound tree entry (s.finish path call) := by
  have hget : ∀ path', (s.finish path call).moduleCache.get? path' =
      if path' = path then some (some call.result) else s.moduleCache.get? path' :=
    fun path' => State.get?_store s path path' _
  have hcalls : ∀ call', .load call' ∈ (s.finish path call).history →
      call' = call ∨ .load call' ∈ s.history := by
    intro call' hmem
    rcases mem_calls_record hmem with heq | hmem
    · exact Or.inl heq
    · exact Or.inr (by simpa [State.store, State.record] using hmem)
  refine ⟨?_, ?_, ?_, ?_, ?_⟩
  · rw [hget, if_neg hne.symm]
    exact hs.inProgress
  · intro path' names hmem
    exact hs.exec path' names (by simpa [State.finish, State.record, State.store] using hmem)
  · intro path' res hentry hstat
    change path' ∈ executions s.history
    rw [hget] at hentry
    split_ifs at hentry with heq
    · exact heq ▸ hexec
    · exact hs.cached path' res hentry hstat
  · intro call' hmem
    rcases hcalls call' hmem with rfl | hmem
    · exact hfacts
    · exact hs.calls call' hmem
  · intro call' path' hmem hloads hok hstat
    change path' ∈ executions s.history
    rcases hcalls call' hmem with rfl | hmem
    · exact hloads.path_eq hcall ▸ hexec
    · exact hs.executed call' path' hmem hloads hok hstat

theorem Unfailed.finish
    {call : Load V} (hclean : Unfailed s) (hok : ∃ globals, call.result = .ok globals) :
    Unfailed (s.finish path call) := by
  constructor
  · intro path' res hentry
    change (s.store path (some call.result)).moduleCache.get? path' = some (some res) at hentry
    rw [State.get?_store] at hentry
    split_ifs at hentry with heq
    · rw [← Option.some.inj (Option.some.inj hentry)]
      exact hok
    · exact hclean.cached path' res hentry
  · intro call' hmem
    rcases mem_calls_record hmem with rfl | hmem
    · exact hok
    · exact hclean.calls call' (by simpa [State.store, State.record] using hmem)

/-- What a run keeps: facts of its calls, and that all errors come from the first one. -/
theorem sound_rule (entry : Str) :
    LoaderRule tree
      (fun _ _ s res s' => Sound tree entry s → Unfailed s →
        Sound tree entry s' ∧ (∀ globals, res = .ok globals → Unfailed s') ∧ OneError res s')
      (fun _ _ s res s' => Sound tree entry s → Unfailed s →
        Sound tree entry s' ∧ (∀ globals, res = .ok globals → Unfailed s') ∧
          OneError res s') where
  answers := by
    intro thread module s res s₁ h hs hclean
    have hhistory : s₁.history = s.history := by cases h <;> rfl
    refine ⟨h.sound hs hclean, ?_, ?_⟩
    · rintro globals rfl
      exact h.unfailed hclean _
    · rintro e rfl call hmem e' he'
      rcases mem_calls_record hmem with rfl | hmem
      · rw [Except.error.inj he']
      · obtain ⟨globals, hok⟩ := hclean.calls call (hhistory ▸ hmem)
        rw [hok] at he'
        simp at he'
  executes := by
    intro thread module s child body s₁ res s₂ h hext hbody hs hclean
    obtain ⟨symbol, hparse⟩ := h.parse
    obtain ⟨hs₂, hclean₂, herror⟩ := hbody (h.sound hs) (h.unfailed hclean)
    have hne : child.callingFile ≠ entry := by
      intro heq
      have hfound := h.found
      rw [heq, hs.inProgress] at hfound
      simp at hfound
    refine ⟨?_, ?_, ?_⟩
    · exact hs₂.finish (request_mk hparse) hne (mem_executions_execute h hext) (h.callFacts hs res)
    · rintro globals rfl
      exact (hclean₂ globals rfl).finish ⟨globals, rfl⟩
    · rintro e rfl call hmem e' he'
      rcases mem_calls_record hmem with rfl | hmem
      · rw [Except.error.inj he']
      · exact herror e rfl call (by simpa [State.store, State.record] using hmem) e' he'
  done := by
    intro thread s globals hs hclean
    refine ⟨hs, fun _ _ => hclean, ?_⟩
    intro e he
    simp at he
  fail := by
    intro thread s e hs hclean
    refine ⟨hs, ?_, ?_⟩
    · intro globals hres
      simp at hres
    · intro e₁ _ call hmem e' he'
      obtain ⟨globals, hok⟩ := hclean.calls call hmem
      rw [hok] at he'
      simp at he'
  refused := by
    intro thread module next s e s' h hs hclean
    obtain ⟨hs', -, herror⟩ := h hs hclean
    refine ⟨hs', ?_, ?_⟩
    · intro globals hres
      simp at hres
    · intro e₁ he₁ call hmem e' he'
      rw [← Except.error.inj he₁]
      exact herror e rfl call hmem e' he'
  answered := by
    intro thread module next s globals s' res s'' _ _ h h' hs hclean
    obtain ⟨hs', hclean', -⟩ := h hs hclean
    exact h' hs' (hclean' globals rfl)

theorem run_sound
    {fuel : Nat} {filename : Str} {mode : ExecutionMode} {allowExternalEntrypoint : Bool}
    {out : Outcome V} (h : run tree fuel filename mode allowExternalEntrypoint = some out) :
    out.history = [] ∨ ∃ s, out.history = s.history ∧
      Sound tree (entryPath tree filename) s ∧
      (∀ globals, out.result = .ok globals → Unfailed s) ∧ OneError out.result s := by
  rcases run_cases h with ⟨e, rfl⟩ | ⟨s, hrun, hhistory⟩
  · exact Or.inl rfl
  · obtain ⟨node, -, -, hbody⟩ := hrun.node
    refine Or.inr ⟨s, hhistory, (script_rule (sound_rule _) hbody).1 ?_ ?_⟩
    · refine ⟨?_, ?_, ?_, ?_, ?_⟩
      · change (State.start.store (entryPath tree filename) none).moduleCache.get? _ = _
        rw [State.get?_store, if_pos rfl]
      · intro path names hmem
        have heq : path = entryPath tree filename ∧ names = builtins mode := by
          simpa [State.entry, State.start, State.store, State.record] using hmem
        exact Or.inl heq.1
      · intro path res hentry
        change (State.start.store (entryPath tree filename) none).moduleCache.get? path = _
          at hentry
        rw [State.get?_store] at hentry
        split_ifs at hentry
        · simp at hentry
        · simp [State.start, OrderedDict.get?, OrderedDict.empty] at hentry
      · intro call hmem
        simp [State.entry, State.start, State.store, State.record] at hmem
      · intro call path hmem
        simp [State.entry, State.start, State.store, State.record] at hmem
    · constructor
      · intro path res hentry
        change (State.start.store (entryPath tree filename) none).moduleCache.get? path = _
          at hentry
        rw [State.get?_store] at hentry
        split_ifs at hentry
        · simp at hentry
        · simp [State.start, OrderedDict.get?, OrderedDict.empty] at hentry
      · intro call hmem
        simp [State.entry, State.start, State.store, State.record] at hmem

theorem isScl_of_loadedBy
    (hs : Sound tree entry s)
    (hcheck : ∀ call path, .load call ∈ s.history → Forbidden call path → ReachesCheck tree call)
    {path' : Str} (h : LoadedBy s.history path path') (hscl : isScl path = true) :
    isScl path' = true := by
  obtain ⟨call, hmem, rfl, hloads, globals, hok⟩ := h
  by_contra hpath
  have hforbidden : Forbidden call path' :=
    ⟨hloads, hscl, Bool.eq_false_of_not_eq_true hpath⟩
  have herror := (hs.calls call hmem).checked path' hforbidden
    (hcheck call path' hmem hforbidden)
  rw [hok] at herror
  simp at herror

theorem modules_of_reachesCheck
    (hs : Sound tree entry s)
    (hcheck : ∀ call path, .load call ∈ s.history → Forbidden call path → ReachesCheck tree call)
    {path' : Str} (h : Relation.TransGen (LoadedBy s.history) path path')
    (hscl : isScl path = true) :
    isScl path' = true ∧ (∀ names, .exec path' names ∈ s.history → names = sclBuiltins) ∧
      (tree.stat path' = true → path' ∈ executions s.history) := by
  have hall : isScl path' = true := by
    induction h with
    | single hstep => exact isScl_of_loadedBy hs hcheck hstep hscl
    | tail _ hstep ih => exact isScl_of_loadedBy hs hcheck hstep ih
  obtain ⟨before, hlast⟩ : ∃ before, LoadedBy s.history before path' := by
    cases h with
    | single hstep => exact ⟨_, hstep⟩
    | tail _ hstep => exact ⟨_, hstep⟩
  obtain ⟨call, hmem, -, hloads, hok⟩ := hlast
  refine ⟨hall, ?_, hs.executed call path' hmem hloads hok⟩
  intro names hexec
  rcases hs.exec path' names hexec with rfl | hnames
  · obtain ⟨e, herror⟩ := (hs.calls call hmem).entryFails hloads
    obtain ⟨globals, hok⟩ := hok
    rw [hok] at herror
    simp at herror
  · exact hnames hall

/-- Scl files are hermetic in exactly the runs in which every call of an scl file for another kind
of file finds nothing in the cache, and must load a file. -/
theorem run_hermetic_iff
    {fuel : Nat} {filename : Str} {mode : ExecutionMode} {allowExternalEntrypoint : Bool}
    {out : Outcome V} (h : run tree fuel filename mode allowExternalEntrypoint = some out) :
    Hermetic tree out ↔
      ∀ call path, .load call ∈ out.history → Forbidden call path → ReachesCheck tree call := by
  rcases run_sound h with hnil | ⟨s, hhistory, hs, hclean, hone⟩
  · constructor
    · intro _ call path hmem
      rw [hnil] at hmem
      simp at hmem
    · intro _
      constructor
      · intro path path' hloads
        rw [hnil] at hloads
        induction hloads with
        | single hstep =>
            obtain ⟨call, hmem, -⟩ := hstep
            simp at hmem
        | tail _ hstep =>
            obtain ⟨call, hmem, -⟩ := hstep
            simp at hmem
      · intro call path hmem
        rw [hnil] at hmem
        simp at hmem
  · constructor
    · rintro ⟨hmodules, hfails⟩ call path hmem hforbidden
      rw [hhistory] at hmem hmodules
      by_contra hcheck
      -- the call was answered: with a module that is no scl file, or with another error
      rcases (hs.calls call hmem).unchecked path hforbidden hcheck with hcycle | hok
      · obtain ⟨e, he, hroot⟩ := hfails call path (hhistory ▸ hmem) hforbidden
        have heq := hone e he call hmem _ hcycle
        rw [hroot] at heq
        simp [LoadError.root] at heq
      · have hloaded : LoadedBy s.history call.thread.callingFile path :=
          ⟨call, hmem, rfl, hforbidden.loads, hok⟩
        have hscl := (hmodules _ _ (.single hloaded) hforbidden.caller).1
        rw [hforbidden.path] at hscl
        simp at hscl
    · intro hcheck
      rw [hhistory] at hcheck
      constructor
      · intro path path' hloads hscl
        rw [hhistory] at hloads ⊢
        exact modules_of_reachesCheck hs hcheck hloads hscl
      · intro call path hmem hforbidden
        rw [hhistory] at hmem
        have herror := (hs.calls call hmem).checked path hforbidden
          (hcheck call path hmem hforbidden)
        cases hresult : out.result with
        | ok globals =>
            obtain ⟨globals', hok⟩ := (hclean globals hresult).calls call hmem
            rw [hok] at herror
            simp at herror
        | error e =>
            refine ⟨e, rfl, ?_⟩
            rw [← hone e hresult call hmem _ herror]
            rfl

end Calls

section CachedModule

/-- An entry file that loads a module, and then an scl file that loads the same module. -/
def sharedTree : FileTree Unit where
  workDir := locate "/w".toList
  workDir_rooted := Eq.refl true
  nodes := [(locate "/w/main.bzl".toList, .file fun _ => loadAll ["//a.bzl", ":b.scl"]),
    (locate "/w/a.bzl".toList, .file fun _ => loadAll []),
    (locate "/w/b.scl".toList, .file fun _ => loadAll ["//a.bzl"])]
  above := by decide +kernel

/-- The call of the scl file finds the module in the cache. -/
def sharedCall : Load Unit :=
  ⟨⟨"b.scl".toList, .scl, false⟩, "//a.bzl".toList, some (some (.ok [])), .ok []⟩

theorem exists_run_sharedTree :
    ∃ out, run sharedTree 4 "main.bzl".toList .rbc false = some out :=
  run_terminates (by decide) _ _

theorem run_hermetic_iff_sharedTree :
    ∃ out, run sharedTree 4 "main.bzl".toList .rbc false = some out ∧
      (Hermetic sharedTree out ↔ ∀ call path, .load call ∈ out.history → Forbidden call path →
        ReachesCheck sharedTree call) := by
  obtain ⟨out, hrun⟩ := exists_run_sharedTree
  exact ⟨out, hrun, run_hermetic_iff hrun⟩

/-- The run succeeds, and the scl file has loaded a module that is no scl file. -/
theorem not_hermetic_sharedTree :
    ∃ out, run sharedTree 4 "main.bzl".toList .rbc false = some out ∧
      out.result = .ok [] ∧ ¬ Hermetic sharedTree out := by
  obtain ⟨out, hrun⟩ := exists_run_sharedTree
  have hout : (run sharedTree 4 "main.bzl".toList .rbc false).map (fun out =>
      (out.result, decide (.load sharedCall ∈ out.history))) = some (.ok [], true) := by
    decide +kernel
  rw [hrun, Option.map_some, Option.some.injEq, Prod.mk.injEq, decide_eq_true_eq] at hout
  refine ⟨out, hrun, hout.1, ?_⟩
  intro hhermetic
  have hloaded : LoadedBy out.history "b.scl".toList "a.bzl".toList :=
    ⟨sharedCall, hout.2, rfl, ⟨none, by decide +kernel⟩, [], rfl⟩
  have hscl := (hhermetic.modules _ _ (.single hloaded) (by decide +kernel)).1
  exact absurd hscl (by decide +kernel)

end CachedModule

end Rbcrun
end AndroidBuild
