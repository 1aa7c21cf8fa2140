import AndroidBuild.Rbcrun.Loader

/-!
# Executions of a run

No file is executed twice in a run, in whatever order the loads come.  With
the entry file inside the working directory a run ends: every nested load
executes a file of the tree that has not been executed, so that the number of
nodes of the tree bounds the depth of the loads.
-/

namespace AndroidBuild
namespace Rbcrun

open Text FilePath

section Once

variable {V : Type} {tree : FileTree V} {s s' : State V}

def executions (history : List (Event V)) : List Str :=
  history.filterMap fun event =>
    match event with
    | .exec path _ => some path
    | _ => none

theorem mem_executions
    {history : List (Event V)} {path : Str} :
    path ∈ executions history ↔ ∃ names, .exec path names ∈ history := by
  unfold executions
  rw [List.mem_filterMap]
  constructor
  · rintro ⟨event, hmem, hevent⟩
    cases event with
    | exec path' names =>
        obtain rfl : path' = path := by simpa using hevent
        exact ⟨names, hmem⟩
    | finish path' result => simp at hevent
    | load call => simp at hevent
  · rintro ⟨names, hmem⟩
    exact ⟨_, hmem, rfl⟩

/-- Every file was executed once, what was executed is in the cache, and so is what it gave. -/
structure Once (s : State V) : Prop where
  nodup : (executions s.history).Nodup
  cached : ∀ path ∈ executions s.history, s.moduleCache.get? path ≠ none
  finished : ∀ path result, .finish path result ∈ s.history →
    s.moduleCache.get? path = some (some result)

theorem Once.execute
    {path : Str} (h : Once s) (hfound : s.moduleCache.get? path = none) (names : List String) :
    Once ((s.store path none).record (.exec path names)) := by
  have hfresh : path ∉ executions s.history := fun hmem => h.cached path hmem hfound
  refine ⟨List.nodup_cons.mpr ⟨hfresh, h.nodup⟩, ?_, ?_⟩
  · intro path' hpath'
    change (s.store path none).moduleCache.get? path' ≠ none
    rw [State.get?_store]
    split_ifs with heq
    · simp
    · rcases List.mem_cons.mp hpath' with hpath' | hpath'
      · exact absurd hpath' heq
      · exact h.cached path' hpath'
  · intro path' result hfinish
    have hentry := h.finished path' result (by simpa [State.store, State.record] using hfinish)
    exact (State.extends_store hfound none).get? path' _ hentry

theorem Once.answer
    {thread : Thread} {module : Str} {res : Modentry V} {s₁ : State V}
    (h : Once s) (hanswers : Answers tree thread module s res s₁) (call : Load V) :
    Once (s₁.record (.load call)) := by
  have hext := hanswers.extends
  have hhistory : s₁.history = s.history := by cases hanswers <;> rfl
  refine ⟨?_, ?_, ?_⟩
  · change (executions s₁.history).Nodup
    rw [hhistory]
    exact h.nodup
  · intro path hpath
    change path ∈ executions s₁.history at hpath
    rw [hhistory] at hpath
    obtain ⟨entry, hentry⟩ := Option.ne_none_iff_exists'.mp (h.cached path hpath)
    change s₁.moduleCache.get? path ≠ none
    rw [hext.get? path entry hentry]
    simp
  · intro path result hfinish
    have hmem : .finish path result ∈ s₁.history := by simpa [State.record] using hfinish
    rw [hhistory] at hmem
    exact hext.get? path _ (h.finished path result hmem)

theorem Once.finish
    {path : Str} (h : Once s) (hfound : s.moduleCache.get? path = some none) (call : Load V) :
    Once (s.finish path call) := by
  refine ⟨h.nodup, ?_, ?_⟩
  · intro path' hpath'
    change (s.store path (some call.result)).moduleCache.get? path' ≠ none
    rw [State.get?_store]
    split_ifs with heq
    · simp
    · exact h.cached path' hpath'
  · intro path' result hfinish
    change (s.store path (some call.result)).moduleCache.get? path' = some (some result)
    rw [State.get?_store]
    have hcases : path' = path ∧ result = call.result ∨ .finish path' result ∈ s.history := by
      simpa [State.finish, State.store, State.record] using hfinish
    rcases hcases with ⟨rfl, rfl⟩ | hmem
    · rw [if_pos rfl]
    · have hentry := h.finished path' result hmem
      rw [if_neg]
      · exact hentry
      · rintro rfl
        rw [hfound] at hentry
        simp at hentry

theorem once_rule :
    LoaderRule tree (fun _ _ s _ s' => Once s → Once s') (fun _ _ s _ s' => Once s → Once s') where
  answers := fun _ _ _ _ _ h hs => hs.answer h _
  executes := by
    intro thread module s child body s₁ res s₂ h hext hbody hs
    have hs₁ : Once s₁ := by
      rw [h.state]
      exact hs.execute h.found _
    exact (hbody hs₁).finish (h.get? hext) _
  done := fun _ _ _ hs => hs
  fail := fun _ _ _ hs => hs
  refused := fun _ _ _ _ _ _ h hs => h hs
  answered := fun _ _ _ _ _ _ _ _ _ _ h h' hs => h' (h hs)

theorem once_entry (path : Str) (mode : ExecutionMode) :
    Once (State.entry (V := V) path mode) := by
  refine Once.execute ⟨?_, ?_, ?_⟩ ?_ _
  · simp [State.start, executions]
  · intro path' hpath'
    simp [State.start, executions] at hpath'
  · intro path' result hfinish
    simp [State.start] at hfinish
  · rfl

/-- What an execution gave is told once. -/
def OneResult (history : List (Event V)) : Prop :=
  ∀ path result result', .finish path result ∈ history → .finish path result' ∈ history →
    result = result'

/-- No file is executed twice in a run. -/
theorem run_once
    {fuel : Nat} {filename : Str} {mode : ExecutionMode} {allowExternalEntrypoint : Bool}
    {out : Outcome V} (h : run tree fuel filename mode allowExternalEntrypoint = some out) :
    (executions out.history).Nodup ∧ OneResult out.history := by
  rcases run_cases h with ⟨e, rfl⟩ | ⟨s, hrun, hhistory⟩
  · refine ⟨by simp [executions], ?_⟩
    intro path result result' hfinish
    simp at hfinish
  · obtain ⟨node, -, -, hbody⟩ := hrun.node
    have hs := (script_rule once_rule hbody).1 (once_entry _ _)
    rw [hhistory]
    refine ⟨hs.nodup, ?_⟩
    intro path result result' hfinish hfinish'
    have hentry := (hs.finished _ _ hfinish).symm.trans (hs.finished _ _ hfinish')
    exact Option.some.inj (Option.some.inj hentry)

end Once

section Termination

variable {V : Type} {tree : FileTree V} {s s' : State V} {path path' : Str}

theorem FileTree.lstat_mem
    {node : Node V} (h : tree.lstat path = some node) :
    (tree.resolve path, node) ∈ tree.nodes := by
  unfold FileTree.lstat at h
  generalize tree.resolve path = l, tree.nodes = nodes at h ⊢
  induction nodes with
  | nil => simp at h
  | cons e nodes ih =>
      obtain ⟨l', node'⟩ := e
      rw [List.lookup_cons] at h
      split at h
      · next heq =>
          obtain rfl : l = l' := by simpa using heq
          obtain rfl : node' = node := by simpa using h
          simp
      · exact List.mem_cons_of_mem _ (ih h)

theorem resolve_inside
    (h : Inside path) :
    tree.resolve path = tree.workDir.follow path := by
  have hroot : isRooted path = false := by
    rw [← h.clean_eq, clean, Location.isRooted_render]
    exact h.rooted
  rw [FileTree.resolve, hroot]
  rfl

theorem resolve_dotDot :
    tree.resolve dotDot = tree.workDir.up :=
  follow_dotDot _

theorem up_names_suffix (l : Location) :
    l.up.names <:+ l.names := by
  cases hnames : l.names with
  | cons name rest =>
      rw [(Location.up_names hnames).1]
      exact List.suffix_cons _ _
  | nil =>
      cases hrooted : l.rooted with
      | true => rw [Location.up_root hnames hrooted, hnames]
      | false => rw [(Location.up_nil hnames hrooted).1]

theorem FileTree.not_file_dotDot
    {exec : List String → Body V} :
    tree.lstat dotDot ≠ some (.file exec) := by
  intro h
  have hmem := tree.lstat_mem h
  rw [resolve_dotDot] at hmem
  have habove := tree.above _ hmem (up_names_suffix _)
  simp [Node.isDirectory] at habove

theorem names_ne_nil_of_file
    (h : Inside path) {exec : List String → Body V} (hfile : tree.lstat path = some (.file exec)) :
    (locate path).names ≠ [] := by
  intro hnil
  have hmem := tree.lstat_mem hfile
  rw [resolve_inside h, h.follow] at hmem
  have habove := tree.above _ hmem (by simp [Location.below, hnil])
  simp [Node.isDirectory] at habove

/-- The keys of the cache are clean paths inside the working directory, or `..`. -/
def KeysInside (s : State V) : Prop :=
  ∀ path, s.moduleCache.get? path ≠ none → Inside path ∨ path = dotDot

/-- A file can be loaded under a single key. -/
theorem eq_of_resolve_eq
    (h : Inside path) {exec : List String → Body V} (hfile : tree.lstat path = some (.file exec))
    (h' : Inside path' ∨ path' = dotDot) (heq : tree.resolve path' = tree.resolve path) :
    path' = path := by
  rcases h' with h' | rfl
  · rw [resolve_inside h, resolve_inside h'] at heq
    exact h'.follow_inj h heq
  · unfold FileTree.lstat at hfile
    rw [← heq] at hfile
    exact absurd hfile FileTree.not_file_dotDot

variable (tree) in
def remaining (s : State V) : Nat :=
  tree.nodes.countP fun e => s.moduleCache.keys.all fun path => tree.resolve path != e.1

theorem remaining_le_of_extends
    (h : s.Extends s') :
    remaining tree s' ≤ remaining tree s := by
  refine List.countP_mono_left ?_
  intro e _ he
  rw [List.all_eq_true] at he ⊢
  intro path hpath
  obtain ⟨entry, hentry⟩ := OrderedDict.mem_keys_iff.mp hpath
  exact he path (OrderedDict.mem_keys_iff.mpr ⟨entry, h.get? path entry hentry⟩)

theorem countP_lt_countP
    {α : Type} {p q : α → Bool} {l : List α} (h : ∀ a ∈ l, p a = true → q a = true)
    {a : α} (ha : a ∈ l) (hp : p a = false) (hq : q a = true) :
    l.countP p < l.countP q := by
  obtain ⟨front, back, rfl⟩ := List.append_of_mem ha
  have hfront : front.countP p ≤ front.countP q :=
    List.countP_mono_left fun b hb => h b (by simp [hb])
  have hback : back.countP p ≤ back.countP q :=
    List.countP_mono_left fun b hb => h b (by simp [hb])
  rw [List.countP_append, List.countP_append, List.countP_cons, List.countP_cons, hp, hq]
  simp
  omega

/-- Executing a file uses up a node of the tree. -/
theorem remaining_lt_of_executes
    {thread child : Thread} {module : Str} {body : Body V} {s₁ : State V}
    (h : Executes tree thread module s child body s₁) (hs : KeysInside s)
    (hinside : Inside child.callingFile) {exec : List String → Body V}
    (hfile : tree.lstat child.callingFile = some (.file exec)) :
    remaining tree s₁ < remaining tree s := by
  refine countP_lt_countP ?_ (tree.lstat_mem hfile) ?_ ?_
  · intro e _ he
    rw [List.all_eq_true] at he ⊢
    intro path hpath
    obtain ⟨entry, hentry⟩ := OrderedDict.mem_keys_iff.mp hpath
    exact he path (OrderedDict.mem_keys_iff.mpr ⟨entry, h.extends.get? path entry hentry⟩)
  · rw [List.all_eq_false]
    refine ⟨child.callingFile, OrderedDict.mem_keys_iff.mpr ⟨none, ?_⟩, by simp⟩
    exact h.get? (.refl s₁)
  · rw [List.all_eq_true]
    intro path hpath
    obtain ⟨entry, hentry⟩ := OrderedDict.mem_keys_iff.mp hpath
    rw [bne_iff_ne]
    intro heq
    obtain rfl := eq_of_resolve_eq hinside hfile (hs path (by simp [hentry])) heq
    rw [h.found] at hentry
    simp at hentry

/-- A thread that executes a file of the tree, and no external entry file. -/
structure InTree (thread : Thread) : Prop where
  inside : Inside thread.callingFile
  file : (locate thread.callingFile).names ≠ []
  external : thread.allowExternalEntrypoint = false

theorem parseModule_inside
    {thread : Thread} (hthread : InTree thread) {module : Str} {request : Request}
    (h : parseModule thread module = .ok request) :
    Inside request.path ∨ request.path = dotDot := by
  unfold parseModule at h
  rw [hthread.external] at h
  split at h
  · simp at h
  · next path hclean =>
      obtain rfl := Except.ok.inj h
      exact (cleanModuleName_ok (.start true) hthread.inside hthread.file hclean).2

theorem keysInside_store
    (h : KeysInside s) (hpath : Inside path ∨ path = dotDot) (entry : Option (Modentry V)) :
    KeysInside (s.store path entry) := by
  intro path' hpath'
  rw [State.get?_store] at hpath'
  split_ifs at hpath' with heq
  · exact heq ▸ hpath
  · exact h path' hpath'

theorem Answers.keysInside
    {thread : Thread} (hthread : InTree thread) {module : Str} {res : Modentry V} {s₁ : State V}
    (h : Answers tree thread module s res s₁) (hs : KeysInside s) :
    KeysInside s₁ := by
  cases h with
  | refused e hparse => exact hs
  | cached request hparse res hfound => exact hs
  | cycle request hparse hfound => exact hs
  | default path name hparse hfound hstat =>
      exact keysInside_store hs (parseModule_inside hthread hparse) _
  | failed request hparse hfound hmust e herror =>
      exact keysInside_store hs (parseModule_inside hthread hparse) _

/-- With fuel for the nodes that are left, a call is answered. -/
theorem loader_terminates
    {fuel : Nat} {thread : Thread} (hthread : InTree thread) (module : Str)
    (hs : KeysInside s) (hfuel : remaining tree s < fuel) :
    ∃ res s', loader tree fuel thread module s = some (res, s') ∧ KeysInside s' ∧
      remaining tree s' ≤ remaining tree s := by
  induction fuel generalizing thread module s with
  | zero => omega
  | succ fuel ih =>
      rw [loader]
      split
      · next res s₁ hdecide =>
          have hanswers := decideLoad_answer hdecide
          refine ⟨_, _, rfl, ?_, ?_⟩
          · exact hanswers.keysInside hthread hs
          · exact remaining_le_of_extends (hanswers.extends.trans (State.extends_record _ _))
      · next child body s₁ hdecide =>
          have hexecutes := decideLoad_execute hdecide
          obtain ⟨symbol, hparse⟩ := hexecutes.parse
          have hpath := parseModule_inside hthread hparse
          have hs₁ : KeysInside s₁ := by
            rw [hexecutes.state]
            exact keysInside_store hs hpath none
          have hle : remaining tree s₁ ≤ remaining tree s :=
            remaining_le_of_extends hexecutes.extends
          obtain ⟨node, hlstat, hsymlink, rfl⟩ := hexecutes.node
          -- only the script of a file loads anything
          have hbody : ∃ res s₂, (node.body (builtins child.mode)).run (loader tree fuel child)
              .cannotLoad s₁ = some (res, s₂) ∧ KeysInside s₂ ∧
                remaining tree s₂ ≤ remaining tree s₁ := by
            cases node with
            | directory => exact ⟨_, s₁, rfl, hs₁, le_refl _⟩
            | symlink dangling => simp [Node.isSymlink] at hsymlink
            | file exec =>
                have hinside : Inside child.callingFile := by
                  refine hpath.resolve_right ?_
                  rintro (hdots : child.callingFile = dotDot)
                  rw [hdots] at hlstat
                  exact FileTree.not_file_dotDot hlstat
                have hchild : InTree child :=
                  ⟨hinside, names_ne_nil_of_file hinside hlstat, hexecutes.external⟩
                have hlt := remaining_lt_of_executes hexecutes hs hinside hlstat
                refine Script.exists_run
                  (I := fun s => KeysInside s ∧ remaining tree s ≤ remaining tree s₁)
                  ?_ _ ⟨hs₁, le_refl _⟩
                rintro module' s ⟨hkeys, hremaining⟩
                obtain ⟨res, s', hload, hkeys', hremaining'⟩ :=
                  ih hchild module' hkeys (by omega)
                exact ⟨res, s', hload, hkeys', by omega⟩
          obtain ⟨res, s₂, hrun, hs₂, hremaining⟩ := hbody
          rw [hrun]
          refine ⟨_, _, rfl, ?_, ?_⟩
          · exact keysInside_store hs₂ hpath _
          · have hext := (script_rule once_rule hrun).2
            refine remaining_le_of_extends (State.Extends.finish hexecutes.found ?_ _)
            exact hexecutes.extends.trans hext

variable (tree) in
theorem entryPath_inside
    {filename : Str} (h : "../".toList.isPrefixOf (entryPath tree filename) = false) :
    Inside (entryPath tree filename) ∨ entryPath tree filename = dotDot := by
  obtain ⟨l, hrooted, hrel, -⟩ := rel_eq_render tree.workDir.render
    (rooted_abs tree.workDir_rooted filename)
  change entryPath tree filename = l.render at hrel
  rw [hrel] at h ⊢
  refine inside_or_dotDot (clean_render l) h ?_
  rw [← hrooted, ← Location.isRooted_render (l := l)]
  cases l.render with
  | nil => rfl
  | cons c text => simp [isRooted, List.isPrefixOf, eq_comm]

theorem keysInside_entry
    (h : Inside path ∨ path = dotDot) (mode : ExecutionMode) :
    KeysInside (State.entry (V := V) path mode) := by
  refine keysInside_store ?_ h none
  intro path' hpath'
  exact absurd rfl hpath'

variable (tree) in
theorem remaining_le_length (s : State V) :
    remaining tree s ≤ tree.nodes.length :=
  List.countP_le_length

theorem body_terminates
    {fuel : Nat} {thread : Thread} (hthread : InTree thread) (hs : KeysInside s)
    (hfuel : tree.nodes.length < fuel) (body : Body V) :
    ∃ res s', body.run (loader tree fuel thread) .cannotLoad s = some (res, s') := by
  have hload : ∀ module (s : State V), KeysInside s →
      ∃ res s', loader tree fuel thread module s = some (res, s') ∧ KeysInside s' := by
    intro module s hs
    have hremaining := (remaining_le_length tree s).trans_lt hfuel
    obtain ⟨res, s', hload, hs', -⟩ := loader_terminates hthread module hs hremaining
    exact ⟨res, s', hload, hs'⟩
  obtain ⟨res, s', hrun, -⟩ := Script.exists_run hload body hs
  exact ⟨res, s', hrun⟩

/-- A run without an external entry file ends. -/
theorem run_terminates
    {fuel : Nat} (hfuel : tree.nodes.length < fuel) (filename : Str) (mode : ExecutionMode) :
    ∃ out, run tree fuel filename mode false = some out := by
  simp only [run, Bool.not_false, Bool.true_and]
  split
  · exact ⟨_, rfl⟩
  · next hup =>
      have hpath := entryPath_inside tree (Bool.eq_false_of_not_eq_true hup)
      split
      · exact ⟨_, rfl⟩
      · exact ⟨_, rfl⟩
      · next node hnode hlstat =>
          split
          · exact ⟨_, rfl⟩
          · have hrun : ∃ res s, (node.body (builtins mode)).run
                (loader tree fuel ⟨entryPath tree filename, mode, false⟩) .cannotLoad
                (State.entry (entryPath tree filename) mode) = some (res, s) := by
              cases node with
              | directory => exact ⟨_, _, rfl⟩
              | symlink dangling => exact absurd rfl (hnode dangling)
              | file exec =>
                  have hinside : Inside (entryPath tree filename) := by
                    refine hpath.resolve_right ?_
                    intro hdots
                    rw [hdots] at hlstat
                    exact FileTree.not_file_dotDot hlstat
                  exact body_terminates ⟨hinside, names_ne_nil_of_file hinside hlstat, rfl⟩
                    (keysInside_entry hpath mode) hfuel _
            obtain ⟨res, s, hrun⟩ := hrun
            rw [hrun]
            exact ⟨_, rfl⟩

end Termination

end Rbcrun
end AndroidBuild
