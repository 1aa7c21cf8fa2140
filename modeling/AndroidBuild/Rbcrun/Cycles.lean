import AndroidBuild.Rbcrun.Executions
import Mathlib

/-!
# Load cycles

In a tree of modules that load existing files and end normally, a run fails
exactly when its entry file reaches a load cycle, and the error is the one of
the placeholder.  The graph of the loads has the files of the tree as nodes,
and its edges are what the labels name; no path text occurs in it.  The
placeholders in the cache are the files on the way from the entry file to the
one that is executed, and below a file that was executed there is no cycle.
-/

namespace AndroidBuild
namespace Rbcrun

open Text FilePath

section Graph

universe u

variable {α : Type u} {r : α → α → Prop}

theorem not_rel_self_of_acc
    {a : α} (h : Acc r a) :
    ¬ r a a := by
  induction h with
  | intro a _ ih => exact fun haa => ih a haa haa

theorem not_cycle_of_acc
    {a b : α} (h : Acc (fun x y => r y x) a) (hab : Relation.ReflTransGen r a b) :
    ¬ Relation.TransGen r b b := by
  have hb : Acc (fun x y => r y x) b := by
    induction hab with
    | refl => exact h
    | tail _ hstep ih => exact ih.inv hstep
  intro hcycle
  have hswap : Relation.TransGen (fun x y => r y x) b b := Relation.transGen_swap.mpr hcycle
  exact not_rel_self_of_acc hb.transGen hswap

end Graph

section Modules

variable {V : Type}

/-- The script loads the labels in their order, whatever it gets, and ends normally. -/
def Asks : List Str → Body V → Prop
  | [], .done _ => True
  | label :: labels, .ask module next => module = label ∧ ∀ globals, Asks labels (next globals)
  | _, _ => False

/-- There is a Starlark file at a location. -/
def IsFile (tree : FileTree V) (l : Location) : Prop :=
  ∃ exec, tree.nodes.lookup l = some (.file exec)

/-- The mode in which a file is executed in a run with the given entry file. -/
def fileMode (entry : Location) (mode : ExecutionMode) (l : Location) : ExecutionMode :=
  if l = entry then mode else childMode mode l.render

/-- A label of a file names another file. -/
def Edge (workDir : Location) (labels : Location → List Str) (modeOf : Location → ExecutionMode)
    (l l' : Location) : Prop :=
  ∃ label ∈ labels l, labelTarget workDir l (splitSymbol (modeOf l) label).1 = some l'

/-- A tree of modules that load modules of the tree, and end normally. -/
structure Modules (tree : FileTree V) (labels : Location → List Str)
    (modeOf : Location → ExecutionMode) : Prop where
  asks : ∀ l exec, tree.nodes.lookup l = some (.file exec) → ∀ names,
    Asks (labels l) (exec names)
  accepted : ∀ l, IsFile tree l → ∀ label ∈ labels l, ∀ callerDir,
    ∃ path, cleanModuleName (splitSymbol (modeOf l) label).1 callerDir false = .ok path
  target : ∀ l l', IsFile tree l → Edge tree.workDir labels modeOf l l' → IsFile tree l'
  scl : ∀ l l', IsFile tree l → Edge tree.workDir labels modeOf l l' →
    isScl l.render = true → isScl l'.render = true

/-- Labels that name one file are turned into one path. -/
def OnePath (tree : FileTree V) : Prop :=
  ∀ thread thread' module module' request request', InTree thread → InTree thread' →
    parseModule thread module = .ok request → parseModule thread' module' = .ok request' →
    IsFile tree (tree.resolve request.path) →
    labelTarget tree.workDir (tree.resolve thread.callingFile)
        (splitSymbol thread.mode module).1 =
      labelTarget tree.workDir (tree.resolve thread'.callingFile)
        (splitSymbol thread'.mode module').1 →
    request.path = request'.path

end Modules

section Paths

variable {V : Type} {tree : FileTree V} {l : Location} {path name : Str}

theorem isScl_append
    (front name : Str) :
    isScl (front ++ '/' :: name) = isScl name := by
  rw [Bool.eq_iff_iff]
  unfold isScl
  rw [List.isSuffixOf_iff_suffix, List.isSuffixOf_iff_suffix]
  constructor
  · intro h
    rcases List.suffix_or_suffix_of_suffix h (List.suffix_append front ('/' :: name)) with h' | h'
    · rcases List.suffix_cons_iff.mp h' with heq | hsuffix
      · simp at heq
      · exact hsuffix
    · -- the slash would be a character of the suffix
      have hslash : '/' ∈ ".scl".toList := h'.subset List.mem_cons_self
      exact absurd hslash (by decide)
  · intro h
    exact h.trans ((List.suffix_cons _ _).trans (List.suffix_append _ _))

/-- The last name tells whether a file is an scl file. -/
theorem isScl_render
    {rest : List Str} (h : l.names = name :: rest) :
    isScl l.render = isScl name := by
  have hparts : l.parts = (List.replicate l.ups dotDot ++ rest.reverse) ++ [name] := by
    simp [Location.parts, h]
  have htext : isScl (['/'].intercalate l.parts) = isScl name ∧
      isScl ('/' :: ['/'].intercalate l.parts) = isScl name := by
    rw [hparts]
    by_cases hinit : List.replicate l.ups dotDot ++ rest.reverse = []
    · rw [hinit, List.nil_append, List.intercalate_singleton]
      exact ⟨rfl, isScl_append [] name⟩
    · rw [intercalate_concat hinit]
      exact ⟨isScl_append _ name, isScl_append ('/' :: _) name⟩
  unfold Location.render
  split_ifs with hrooted hnil
  · exact htext.2
  · rw [hparts] at hnil
    simp at hnil
  · exact htext.1

theorem names_ne_nil
    (h : Inside path) (hfile : IsFile tree (tree.resolve path)) :
    (locate path).names ≠ [] := by
  obtain ⟨exec, hexec⟩ := hfile
  exact names_ne_nil_of_file h hexec

theorem isScl_resolve
    (h : Inside path) (hfile : IsFile tree (tree.resolve path)) :
    isScl (tree.resolve path).render = isScl path := by
  obtain ⟨name, rest, hnames⟩ := List.exists_cons_of_ne_nil (names_ne_nil h hfile)
  have hpath : isScl path = isScl name := by
    rw [← isScl_render hnames]
    exact congrArg isScl h.clean_eq.symm
  have hfollow : (tree.resolve path).names = name :: (rest ++ tree.workDir.names) := by
    rw [resolve_inside h, h.follow]
    simp [Location.below, hnames]
  rw [hpath, isScl_render hfollow]

theorem resolve_eq_follow
    (h : Inside path ∨ path = dotDot) :
    tree.resolve path = tree.workDir.follow path := by
  rcases h with h | rfl
  · exact resolve_inside h
  · rfl

theorem inside_of_isFile
    (h : Inside path ∨ path = dotDot) (hfile : IsFile tree (tree.resolve path)) :
    Inside path := by
  refine h.resolve_right ?_
  rintro rfl
  obtain ⟨exec, hexec⟩ := hfile
  exact FileTree.not_file_dotDot hexec

/-- A label names the file at the path it is turned into. -/
theorem labelTarget_of_parse
    (tree : FileTree V) {thread : Thread} (hthread : InTree thread) {module : Str}
    {request : Request}
    (h : parseModule thread module = .ok request) :
    labelTarget tree.workDir (tree.resolve thread.callingFile)
      (splitSymbol thread.mode module).1 = some (tree.resolve request.path) := by
  have hpath := parseModule_inside hthread h
  rw [resolve_eq_follow hpath, resolve_inside hthread.inside]
  unfold parseModule at h
  rw [hthread.external] at h
  split at h
  · simp at h
  · next path hclean =>
      obtain rfl := Except.ok.inj h
      exact (cleanModuleName_ok tree.workDir hthread.inside hthread.file hclean).1

theorem onePath (tree : FileTree V) :
    OnePath tree := by
  intro thread thread' module module' request request' hthread hthread' hparse hparse' hfile heq
  rw [labelTarget_of_parse tree hthread hparse, labelTarget_of_parse tree hthread' hparse',
    Option.some.injEq] at heq
  have hinside := inside_of_isFile (parseModule_inside hthread hparse) hfile
  have hinside' := inside_of_isFile (parseModule_inside hthread' hparse') (heq ▸ hfile)
  rw [resolve_inside hinside, resolve_inside hinside'] at heq
  exact hinside.follow_inj hinside' heq

end Paths

section Search

variable {V : Type} {tree : FileTree V} {labels : Location → List Str} {entry : Location}
variable {mode : ExecutionMode} {s s' : State V} {path : Str}

/-- The thread that executes a file of the tree. -/
structure ThreadOf (tree : FileTree V) (entry : Location) (mode : ExecutionMode)
    (thread : Thread) : Prop where
  inside : Inside thread.callingFile
  file : IsFile tree (tree.resolve thread.callingFile)
  mode : thread.mode = fileMode entry mode (tree.resolve thread.callingFile)
  external : thread.allowExternalEntrypoint = false

theorem ThreadOf.inTree
    {thread : Thread} (h : ThreadOf tree entry mode thread) :
    InTree thread :=
  ⟨h.inside, names_ne_nil h.inside h.file, h.external⟩

/-- No cycle can be reached. -/
def Ends (tree : FileTree V) (labels : Location → List Str) (entry : Location)
    (mode : ExecutionMode) : Location → Prop :=
  Acc fun l' l => Edge tree.workDir labels (fileMode entry mode) l l'

/-- A cycle can be reached. -/
def ReachesCycle (tree : FileTree V) (labels : Location → List Str) (entry : Location)
    (mode : ExecutionMode) (l : Location) : Prop :=
  ∃ l', Relation.ReflTransGen (Edge tree.workDir labels (fileMode entry mode)) l l' ∧
    Relation.TransGen (Edge tree.workDir labels (fileMode entry mode)) l' l'

/-- The cache while nothing has failed: the entry file is in progress, and what was loaded reaches
no cycle. -/
structure Searched (tree : FileTree V) (labels : Location → List Str) (entry : Location)
    (mode : ExecutionMode) (s : State V) : Prop where
  inProgress : ∀ path, Inside path → tree.resolve path = entry →
    s.moduleCache.get? path = some none
  ends : ∀ path res, s.moduleCache.get? path = some (some res) →
    (∃ globals, res = .ok globals) ∧ Ends tree labels entry mode (tree.resolve path)

/-- The files in progress lead to the file that is executed. -/
def Leads (tree : FileTree V) (labels : Location → List Str) (entry : Location)
    (mode : ExecutionMode) (s : State V) (l : Location) : Prop :=
  ∀ path, s.moduleCache.get? path = some none →
    Relation.ReflTransGen (Edge tree.workDir labels (fileMode entry mode)) (tree.resolve path) l

/-- The same files are in progress. -/
def SameProgress (s s' : State V) : Prop :=
  ∀ path, s'.moduleCache.get? path = some none ↔ s.moduleCache.get? path = some none

/-- What a call for a file does. -/
structure Visit (tree : FileTree V) (labels : Location → List Str) (entry : Location)
    (mode : ExecutionMode) (targets : Location → Prop) (s : State V) (res : Modentry V)
    (s' : State V) : Prop where
  executions : (∀ path ∈ executions s.history, Inside path) →
    ∀ path ∈ executions s'.history, Inside path
  ok : ∀ globals, res = .ok globals → Searched tree labels entry mode s' ∧ SameProgress s s' ∧
    ∀ l, targets l → Ends tree labels entry mode l
  error : ∀ e, res = .error e → e.root = .cycle ∧
    ∃ l, targets l ∧ ReachesCycle tree labels entry mode l

/-- What a label of a file names. -/
def Target (tree : FileTree V) (thread : Thread) (module : Str) (l : Location) : Prop :=
  labelTarget tree.workDir (tree.resolve thread.callingFile)
    (splitSymbol thread.mode module).1 = some l

/-- What is known of the call for a label. -/
structure Names (tree : FileTree V) (labels : Location → List Str) (entry : Location)
    (mode : ExecutionMode) (thread : Thread) (module : Str) (request : Request) : Prop where
  parse : parseModule thread module = .ok request
  inside : Inside request.path
  file : IsFile tree (tree.resolve request.path)
  edge : Edge tree.workDir labels (fileMode entry mode) (tree.resolve thread.callingFile)
    (tree.resolve request.path)
  scl : isScl thread.callingFile = true → isScl request.path = true
  target : ∀ l, Target tree thread module l ↔ l = tree.resolve request.path

theorem exists_names
    (hmodules : Modules tree labels (fileMode entry mode)) {thread : Thread} {module : Str}
    (hthread : ThreadOf tree entry mode thread)
    (hlabel : module ∈ labels (tree.resolve thread.callingFile)) :
    ∃ request, Names tree labels entry mode thread module request := by
  obtain ⟨path, hclean⟩ := hmodules.accepted _ hthread.file module hlabel (dir thread.callingFile)
  rw [← hthread.mode] at hclean
  have hparse : parseModule thread module =
      .ok ⟨path, (splitSymbol thread.mode module).2⟩ := by
    rw [parseModule, hthread.external, hclean]
  have htarget := labelTarget_of_parse tree hthread.inTree hparse
  have hedge : Edge tree.workDir labels (fileMode entry mode) (tree.resolve thread.callingFile)
      (tree.resolve path) := by
    refine ⟨module, hlabel, ?_⟩
    rw [← hthread.mode]
    exact htarget
  have hfile := hmodules.target _ _ hthread.file hedge
  have hinside : Inside path := inside_of_isFile (parseModule_inside hthread.inTree hparse) hfile
  refine ⟨_, hparse, hinside, hfile, hedge, ?_, ?_⟩
  · intro hscl
    rw [← isScl_resolve hthread.inside hthread.file] at hscl
    rw [← isScl_resolve hinside hfile]
    exact hmodules.scl _ _ hthread.file hedge hscl
  · intro l
    rw [Target, htarget, Option.some.injEq]
    exact eq_comm

/-- A file that is not in the cache is executed as its place in the run says. -/
theorem ThreadOf.child
    {thread child : Thread} {module : Str} {request : Request} {body : Body V} {s₁ : State V}
    (h : Executes tree thread module s child body s₁) (hthread : ThreadOf tree entry mode thread)
    (hnames : Names tree labels entry mode thread module request)
    (hpath : child.callingFile = request.path) (hs : Searched tree labels entry mode s) :
    ThreadOf tree entry mode child := by
  have hne : tree.resolve child.callingFile ≠ entry := by
    intro heq
    have hfound := h.found
    rw [hs.inProgress _ (hpath ▸ hnames.inside) heq] at hfound
    simp at hfound
  have hinside : Inside child.callingFile := hpath ▸ hnames.inside
  have hfile : IsFile tree (tree.resolve child.callingFile) := hpath ▸ hnames.file
  refine ⟨hinside, hfile, ?_, h.external⟩
  rw [h.mode, fileMode, if_neg hne, childMode, childMode, isScl_resolve hinside hfile]
  split_ifs with hscl
  · rfl
  · -- the caller is no scl file either, and has the mode of the run
    rw [hthread.mode, fileMode, childMode, isScl_resolve hthread.inside hthread.file]
    split_ifs with hentry hcaller
    · rfl
    · exact absurd (h.scl hcaller) hscl
    · rfl

theorem Searched.execute
    {thread child : Thread} {module : Str} {body : Body V} {s₁ : State V}
    (h : Executes tree thread module s child body s₁) (hs : Searched tree labels entry mode s) :
    Searched tree labels entry mode s₁ := by
  constructor
  · intro path hpath heq
    exact h.extends.get? _ _ (hs.inProgress path hpath heq)
  · intro path res hentry
    rw [h.state] at hentry
    change (s.store child.callingFile none).moduleCache.get? path = some (some res) at hentry
    rw [State.get?_store] at hentry
    split_ifs at hentry
    · simp at hentry
    · exact hs.ends path res hentry

theorem Leads.execute
    {thread child : Thread} {module : Str} {body : Body V} {s₁ : State V} {l : Location}
    (h : Executes tree thread module s child body s₁)
    (hleads : Leads tree labels entry mode s l)
    (hedge : Edge tree.workDir labels (fileMode entry mode) l
      (tree.resolve child.callingFile)) :
    Leads tree labels entry mode s₁ (tree.resolve child.callingFile) := by
  intro path hentry
  rw [h.state] at hentry
  change (s.store child.callingFile none).moduleCache.get? path = some none at hentry
  rw [State.get?_store] at hentry
  split_ifs at hentry with heq
  · rw [heq]
  · exact (hleads path hentry).tail hedge

theorem Searched.finish
    {globals : StringDict V} {call : Load V} (hs : Searched tree labels entry mode s)
    (hresult : call.result = .ok globals) (hne : tree.resolve path ≠ entry)
    (hends : Ends tree labels entry mode (tree.resolve path)) :
    Searched tree labels entry mode (s.finish path call) := by
  have hget : ∀ path', (s.finish path call).moduleCache.get? path' =
      if path' = path then some (some call.result) else s.moduleCache.get? path' :=
    fun path' => State.get?_store s path path' _
  constructor
  · intro path' hpath' heq
    rw [hget, if_neg]
    · exact hs.inProgress path' hpath' heq
    · rintro rfl
      exact hne heq
  · intro path' res hentry
    rw [hget] at hentry
    split_ifs at hentry with heq
    · refine ⟨⟨globals, ?_⟩, heq ▸ hends⟩
      rw [← hresult]
      exact (Option.some.inj (Option.some.inj hentry)).symm
    · exact hs.ends path' res hentry

theorem SameProgress.finish
    {thread child : Thread} {module : Str} {body : Body V} {s₁ s₂ : State V}
    (h : Executes tree thread module s child body s₁) (hsame : SameProgress s₁ s₂)
    (call : Load V) :
    SameProgress s (s₂.finish child.callingFile call) := by
  intro path
  change (s₂.store child.callingFile (some call.result)).moduleCache.get? path = some none ↔ _
  rw [State.get?_store]
  split_ifs with heq
  · rw [heq, h.found]
    simp
  · have hpath := hsame path
    rw [h.state] at hpath
    change s₂.moduleCache.get? path = some none ↔
      (s.store child.callingFile none).moduleCache.get? path = some none at hpath
    rwa [State.get?_store, if_neg heq] at hpath

/-- A call that is answered at once: from the cache, or with a cycle. -/
theorem Answers.visit
    {thread : Thread} {module : Str} {request : Request} {res : Modentry V} {s₁ : State V}
    (h : Answers tree thread module s res s₁)
    (hnames : Names tree labels entry mode thread module request)
    (hs : Searched tree labels entry mode s)
    (hleads : Leads tree labels entry mode s (tree.resolve thread.callingFile))
    (call : Load V) :
    Visit tree labels entry mode (Target tree thread module) s res
      (s₁.record (.load call)) := by
  obtain ⟨exec, hexec⟩ := hnames.file
  have hlstat : tree.lstat request.path = some (.file exec) := hexec
  have hrequest : ∀ request', parseModule thread module = .ok request' → request' = request := by
    intro request' hparse
    rw [hnames.parse] at hparse
    exact (Except.ok.inj hparse).symm
  cases h with
  | refused e hparse =>
      rw [hnames.parse] at hparse
      simp at hparse
  | cached request' hparse res hfound =>
      obtain rfl := hrequest request' hparse
      obtain ⟨⟨globals, rfl⟩, hends⟩ := hs.ends _ _ hfound
      refine ⟨fun hinside => hinside, ?_, ?_⟩
      · intro globals' _
        refine ⟨⟨hs.inProgress, hs.ends⟩, fun _ => Iff.rfl, ?_⟩
        intro l hl
        rw [(hnames.target l).mp hl]
        exact hends
      · intro e he
        simp at he
  | cycle request' hparse hfound =>
      obtain rfl := hrequest request' hparse
      refine ⟨fun hinside => hinside, ?_, ?_⟩
      · intro globals hres
        simp at hres
      · intro e he
        obtain rfl := Except.error.inj he
        refine ⟨rfl, _, (hnames.target _).mpr rfl, _, .refl, ?_⟩
        exact Relation.TransGen.tail' (hleads _ hfound) hnames.edge
  | default path name hparse hfound hstat =>
      have hpath := hrequest _ hparse
      rw [← hpath] at hlstat
      simp [FileTree.stat, hlstat] at hstat
  | failed request' hparse hfound hmust e herror =>
      obtain rfl := hrequest request' hparse
      cases herror with
      | sclOnly hcaller hpath =>
          rw [hnames.scl hcaller] at hpath
          simp at hpath
      | lstat hscl hnone =>
          rw [hlstat] at hnone
          simp at hnone
      | symlink hscl dangling hlink =>
          rw [hlstat] at hlink
          simp at hlink

/-- The search for a cycle that a run makes. -/
theorem visit_rule (hmodules : Modules tree labels (fileMode entry mode)) :
    LoaderRule tree
      (fun thread module s res s' => ThreadOf tree entry mode thread →
        module ∈ labels (tree.resolve thread.callingFile) →
        Searched tree labels entry mode s →
        Leads tree labels entry mode s (tree.resolve thread.callingFile) →
        Visit tree labels entry mode (Target tree thread module) s res s')
      (fun thread body s res s' => ThreadOf tree entry mode thread →
        ∀ modules, modules ⊆ labels (tree.resolve thread.callingFile) → Asks modules body →
        Searched tree labels entry mode s →
        Leads tree labels entry mode s (tree.resolve thread.callingFile) →
        Visit tree labels entry mode
          (fun l => ∃ module ∈ modules, Target tree thread module l) s res s') where
  answers := by
    intro thread module s res s₁ h hthread hlabel hs hleads
    obtain ⟨request, hnames⟩ := exists_names hmodules hthread hlabel
    exact h.visit hnames hs hleads _
  executes := by
    intro thread module s child body s₁ res s₂ h hext hbody hthread hlabel hs hleads
    obtain ⟨request, hnames⟩ := exists_names hmodules hthread hlabel
    have hpath : child.callingFile = request.path := by
      obtain ⟨symbol, hparse⟩ := h.parse
      rw [hnames.parse] at hparse
      rw [Except.ok.inj hparse]
    have hchild := ThreadOf.child h hthread hnames hpath hs
    have hedge : Edge tree.workDir labels (fileMode entry mode)
        (tree.resolve thread.callingFile) (tree.resolve child.callingFile) :=
      hpath ▸ hnames.edge
    have hasks : Asks (labels (tree.resolve child.callingFile)) body := by
      obtain ⟨node, hlstat, -, rfl⟩ := h.node
      obtain ⟨exec, hexec⟩ := hchild.file
      have heq : some node = some (.file exec) := hlstat.symm.trans hexec
      obtain rfl := Option.some.inj heq
      exact hmodules.asks _ exec hexec _
    have hvisit := hbody hchild _ (List.Subset.refl _) hasks (hs.execute h)
      (hleads.execute h hedge)
    -- the labels of the file name what its edges lead to
    have htargets : ∀ l, Edge tree.workDir labels (fileMode entry mode)
        (tree.resolve child.callingFile) l ↔
          ∃ module ∈ labels (tree.resolve child.callingFile), Target tree child module l := by
      intro l
      unfold Edge Target
      rw [hchild.mode]
    refine ⟨?_, ?_, ?_⟩
    · intro hinside
      refine hvisit.executions ?_
      intro path hpath'
      rw [h.state] at hpath'
      rcases List.mem_cons.mp hpath' with rfl | hpath'
      · exact hchild.inside
      · exact hinside path hpath'
    · rintro globals rfl
      obtain ⟨hs₂, hsame, hends⟩ := hvisit.ok globals rfl
      have hacc : Ends tree labels entry mode (tree.resolve child.callingFile) :=
        Acc.intro _ fun l hl => hends l ((htargets l).mp hl)
      refine ⟨hs₂.finish rfl ?_ hacc, hsame.finish h _, ?_⟩
      · intro heq
        have hfound := h.found
        rw [hs.inProgress _ hchild.inside heq] at hfound
        simp at hfound
      · intro l hl
        rw [(hnames.target l).mp hl, ← hpath]
        exact hacc
    · rintro e rfl
      obtain ⟨hroot, l, hl, l', hreach, hcycle⟩ := hvisit.error e rfl
      refine ⟨hroot, _, (hnames.target _).mpr rfl, l', ?_, hcycle⟩
      rw [← hpath]
      exact hreach.head ((htargets l).mpr hl)
  done := by
    intro thread s globals hthread modules hsub hasks hs hleads
    refine ⟨fun hinside => hinside, ?_, ?_⟩
    · intro globals' _
      refine ⟨hs, fun _ => Iff.rfl, ?_⟩
      rintro l ⟨module, hmem, -⟩
      cases modules with
      | nil => simp at hmem
      | cons label modules => exact absurd hasks (by simp [Asks])
    · intro e he
      simp at he
  fail := by
    intro thread s e hthread modules hsub hasks
    cases modules <;> exact absurd hasks (by simp [Asks])
  refused := by
    intro thread module next s e s' h hthread modules hsub hasks hs hleads
    cases modules with
    | nil => exact absurd hasks (by simp [Asks])
    | cons label modules =>
        obtain ⟨rfl, -⟩ := hasks
        have hvisit := h hthread (hsub (by simp)) hs hleads
        refine ⟨hvisit.executions, ?_, ?_⟩
        · intro globals hres
          simp at hres
        · intro e' he'
          obtain ⟨hroot, l, hl, hcycle⟩ := hvisit.error e rfl
          rw [← Except.error.inj he']
          exact ⟨hroot, l, ⟨module, by simp, hl⟩, hcycle⟩
  answered := by
    intro thread module next s globals s' res s'' hext hext' h h' hthread modules hsub hasks hs
      hleads
    cases modules with
    | nil => exact absurd hasks (by simp [Asks])
    | cons label modules =>
        obtain ⟨rfl, hnext⟩ := hasks
        have hvisit := h hthread (hsub (by simp)) hs hleads
        obtain ⟨hs', hsame, hends⟩ := hvisit.ok globals rfl
        have hleads' : Leads tree labels entry mode s' (tree.resolve thread.callingFile) :=
          fun path hpath => hleads path ((hsame path).mp hpath)
        have hvisit' := h' hthread modules (fun _ hm => hsub (List.mem_cons_of_mem _ hm))
          (hnext globals) hs' hleads'
        refine ⟨fun hinside => hvisit'.executions (hvisit.executions hinside), ?_, ?_⟩
        · intro globals' hres
          obtain ⟨hs'', hsame', hends'⟩ := hvisit'.ok globals' hres
          refine ⟨hs'', fun path => (hsame' path).trans (hsame path), ?_⟩
          rintro l ⟨module', hmem, hl⟩
          rcases List.mem_cons.mp hmem with rfl | hmem
          · exact hends l hl
          · exact hends' l ⟨module', hmem, hl⟩
        · intro e he
          obtain ⟨hroot, l, ⟨module', hmem, hl⟩, hcycle⟩ := hvisit'.error e he
          exact ⟨hroot, l, ⟨module', List.mem_cons_of_mem _ hmem, hl⟩, hcycle⟩

end Search

section Run

variable {V : Type} {tree : FileTree V} {labels : Location → List Str} {mode : ExecutionMode}
variable {filename path : Str}

def entryLocation (tree : FileTree V) (filename : Str) : Location :=
  locate (abs tree.workDir.render filename)

/-- The entry file has the clean path of its place in the tree. -/
theorem entryPath_resolve
    (h : tree.workDir.names <:+ (entryLocation tree filename).names) :
    Inside (entryPath tree filename) ∧
      tree.resolve (entryPath tree filename) = entryLocation tree filename := by
  obtain ⟨rest, hrest⟩ := h
  have hrooted : (entryLocation tree filename).rooted = true :=
    rooted_abs tree.workDir_rooted filename
  obtain ⟨l, hl, hrel, hups, hnames⟩ := rel_eq_render tree.workDir.render hrooted
  have hparts : ∀ l' : Location, l'.rooted = true → l'.parts = l'.names.reverse := by
    intro l' hl'
    simp [Location.parts, l'.rooted_ups hl']
  have hsteps : Location.relNames (locate tree.workDir.render).parts
      (entryLocation tree filename).parts = (0, rest.reverse) := by
    rw [Location.locate_render, Location.relNames_eq_zero_iff, hparts _ tree.workDir_rooted,
      hparts _ hrooted, ← hrest, List.reverse_append]
  change entryPath tree filename = l.render at hrel
  change l.names.reverse = (Location.relNames (locate tree.workDir.render).parts
    (entryLocation tree filename).parts).2 at hnames
  change l.ups = (Location.relNames (locate tree.workDir.render).parts
    (entryLocation tree filename).parts).1 at hups
  rw [hsteps] at hups hnames
  have hinside : Inside (entryPath tree filename) := by
    rw [hrel]
    exact inside_render hl hups
  refine ⟨hinside, ?_⟩
  rw [resolve_inside hinside, hinside.follow, Location.ext_iff]
  have hlocate : locate (entryPath tree filename) = l := by
    rw [hrel, Location.locate_render]
  refine ⟨?_, ?_, ?_⟩
  · rw [hrooted]
    exact tree.workDir_rooted
  · rw [(entryLocation tree filename).rooted_ups hrooted]
    exact tree.workDir.rooted_ups tree.workDir_rooted
  · have hl' : l.names = rest := List.reverse_injective hnames
    simp [Location.below, hlocate, hl', hrest]

theorem Inside.not_up
    (h : Inside path) :
    "../".toList.isPrefixOf path = false := by
  by_contra hup
  rw [Bool.not_eq_false] at hup
  obtain ⟨back, hback⟩ := List.isPrefixOf_iff_prefix.mp hup
  have hpath : path = dotDot ++ '/' :: back := hback.symm
  have hparts : (locate path).parts = (locate path).names.reverse := by
    simp [Location.parts, h.ups]
  have hrender : (locate path).render = path := h.clean_eq
  unfold Location.render at hrender
  rw [if_neg (by simp [h.rooted])] at hrender
  split_ifs at hrender with hnil
  · rw [hpath] at hrender
    simp [dot, dotDot] at hrender
  · -- the first element of the path would be a name of the location
    have hsplit := partsFrom_intercalate hnil Location.parts_ne_slash
    rw [hrender] at hsplit
    have hmem : dotDot ∈ (locate path).names := by
      rw [← List.mem_reverse, ← hparts, ← hsplit, hpath, partsFrom_append (by simp [dotDot])]
      simp
    exact not_isName_dotDot ((locate path).isName _ hmem)

/-- A run of a file of the tree is the execution of the file. -/
theorem run_of_file
    {exec : List String → Body V} (hinside : Inside (entryPath tree filename))
    (hfile : tree.lstat (entryPath tree filename) = some (.file exec))
    (hscl : mode = .scl → isScl (entryPath tree filename) = true) {fuel : Nat}
    {res : Modentry V} {s : State V}
    (hbody : (exec (builtins mode)).run
      (loader tree fuel ⟨entryPath tree filename, mode, false⟩) .cannotLoad
      (State.entry (entryPath tree filename) mode) = some (res, s)) :
    ∃ out, run tree fuel filename mode false = some out ∧ out.result = res ∧
      out.history = s.history := by
  have hmode : ¬ (mode = .scl ∧ isScl (entryPath tree filename) = false) := by
    rintro ⟨heq, hnot⟩
    rw [hscl heq] at hnot
    simp at hnot
  simp only [run, hinside.not_up, Bool.and_false, Bool.false_eq_true, if_false, hfile,
    if_neg hmode, Node.body, hbody]
  exact ⟨_, rfl, rfl, rfl⟩

/-- For a tree of modules that load modules of the tree and end normally, and an entry file of the
tree: labels that name one file are one key of the cache; the run ends, executes no file twice,
and fails with the cycle error exactly when the entry file reaches a load cycle. -/
theorem run_cycle_iff
    (hmodules : Modules tree labels (fileMode (entryLocation tree filename) mode))
    (hbelow : tree.workDir.names <:+ (entryLocation tree filename).names)
    (hfile : IsFile tree (entryLocation tree filename))
    (hscl : mode = .scl → isScl (entryLocation tree filename).render = true) {fuel : Nat}
    (hfuel : tree.nodes.length < fuel) :
    OnePath tree ∧ ∃ out, run tree fuel filename mode false = some out ∧
      ((executions out.history).map tree.resolve).Nodup ∧
      ((∃ e, out.result = .error e ∧ e.root = .cycle) ↔
        ReachesCycle tree labels (entryLocation tree filename) mode
          (entryLocation tree filename)) ∧
      ∀ e, out.result = .error e → e.root = .cycle := by
  refine ⟨onePath tree, ?_⟩
  obtain ⟨hinside, hresolve⟩ := entryPath_resolve hbelow
  obtain ⟨exec, hexec⟩ := hfile
  have hlstat : tree.lstat (entryPath tree filename) = some (.file exec) := by
    rw [FileTree.lstat, hresolve]
    exact hexec
  have hfile' : IsFile tree (tree.resolve (entryPath tree filename)) := ⟨exec, hlstat⟩
  have hscl' : mode = .scl → isScl (entryPath tree filename) = true := by
    rw [← isScl_resolve hinside hfile', hresolve]
    exact hscl
  have hthread : ThreadOf tree (entryLocation tree filename) mode
      ⟨entryPath tree filename, mode, false⟩ := by
    refine ⟨hinside, hfile', ?_, rfl⟩
    rw [fileMode, if_pos hresolve]
  obtain ⟨res, s, hbody⟩ := body_terminates hthread.inTree
    (keysInside_entry (Or.inl hinside) mode) hfuel (exec (builtins mode))
  obtain ⟨out, hrun, hresult, hhistory⟩ := run_of_file hinside hlstat hscl' hbody
  have hget : ∀ path, (State.entry (V := V) (entryPath tree filename) mode).moduleCache.get? path =
      if path = entryPath tree filename then some none else none :=
    fun path => State.get?_store _ _ path _
  have hsearched : Searched tree labels (entryLocation tree filename) mode
      (State.entry (entryPath tree filename) mode) := by
    constructor
    · intro path hpath heq
      rw [hget, if_pos]
      rw [← hresolve, resolve_inside hpath, resolve_inside hinside] at heq
      exact hpath.follow_inj hinside heq
    · intro path res hentry
      rw [hget] at hentry
      split_ifs at hentry
      simp at hentry
  have hleads : Leads tree labels (entryLocation tree filename) mode
      (State.entry (entryPath tree filename) mode)
      (tree.resolve (entryPath tree filename)) := by
    intro path hentry
    rw [hget] at hentry
    split_ifs at hentry with heq
    rw [heq]
  have hvisit := (script_rule (visit_rule hmodules) hbody).1 hthread
    (labels (tree.resolve (entryPath tree filename))) (List.Subset.refl _)
    (hresolve ▸ hmodules.asks _ exec hexec _) hsearched hleads
  have hedge : ∀ l, Edge tree.workDir labels (fileMode (entryLocation tree filename) mode)
      (entryLocation tree filename) l ↔
        ∃ module ∈ labels (tree.resolve (entryPath tree filename)),
          Target tree ⟨entryPath tree filename, mode, false⟩ module l := by
    intro l
    unfold Edge Target
    rw [hresolve, fileMode, if_pos rfl]
  refine ⟨out, hrun, ?_, ⟨?_, ?_⟩, ?_⟩
  · obtain ⟨hnodup, -⟩ := run_once hrun
    refine List.Nodup.map_on ?_ hnodup
    have hall : ∀ path ∈ executions out.history, Inside path := by
      rw [hhistory]
      refine hvisit.executions ?_
      intro path hpath
      have heq : path = entryPath tree filename := by
        simpa [State.entry, State.start, State.store, State.record, executions] using hpath
      exact heq ▸ hinside
    intro path hpath path' hpath' heq
    rw [resolve_inside (hall path hpath), resolve_inside (hall path' hpath')] at heq
    exact (hall path hpath).follow_inj (hall path' hpath') heq
  · rintro ⟨e, he, -⟩
    obtain ⟨-, l, hl, l', hreach, hcycle⟩ := hvisit.error e (hresult ▸ he)
    exact ⟨l', hreach.head ((hedge l).mpr hl), hcycle⟩
  · rintro ⟨l, hreach, hcycle⟩
    cases hres : res with
    | error e => exact ⟨e, hresult.trans hres, (hvisit.error e hres).1⟩
    | ok globals =>
        obtain ⟨-, -, hends⟩ := hvisit.ok globals hres
        have hacc : Ends tree labels (entryLocation tree filename) mode
            (entryLocation tree filename) :=
          Acc.intro _ fun l hl => hends l ((hedge l).mp hl)
        exact absurd hcycle (not_cycle_of_acc hacc hreach)
  · intro e he
    exact (hvisit.error e (hresult ▸ he)).1

end Run

section Ring

def ringMain : Location :=
  locate "/w/main.bzl".toList

def ringPart : Location :=
  locate "/w/lib/part.bzl".toList

/-- An entry file and a module that load each other. -/
def ringTree : FileTree Unit where
  workDir := locate "/w".toList
  workDir_rooted := Eq.refl true
  nodes := [(ringMain, .file fun _ => loadAll ["//lib:part.bzl"]),
    (ringPart, .file fun _ => loadAll ["//main.bzl"])]
  above := by decide +kernel

def ringLabels (l : Location) : List Str :=
  if l = ringMain then ["//lib:part.bzl".toList]
  else if l = ringPart then ["//main.bzl".toList]
  else []

theorem lookup_ringTree
    {l : Location} {exec : List String → Body Unit}
    (h : ringTree.nodes.lookup l = some (.file exec)) :
    l = ringMain ∧ exec = (fun _ => loadAll ["//lib:part.bzl"]) ∨
      l = ringPart ∧ exec = (fun _ => loadAll ["//main.bzl"]) := by
  change List.lookup l [(ringMain, Node.file fun _ => loadAll ["//lib:part.bzl"]),
    (ringPart, Node.file fun _ => loadAll ["//main.bzl"])] = _ at h
  rw [List.lookup_cons, List.lookup_cons] at h
  split at h
  · next heq =>
      rw [Option.some.injEq, Node.file.injEq] at h
      exact Or.inl ⟨by simpa using heq, h.symm⟩
  · split at h
    · next heq =>
        rw [Option.some.injEq, Node.file.injEq] at h
        exact Or.inr ⟨by simpa using heq, h.symm⟩
    · simp at h

/-- The run is in rbc mode, and no file of the tree is an scl file. -/
def ringMode : Location → ExecutionMode :=
  fileMode (entryLocation ringTree "main.bzl".toList) .rbc

/-- The two locations, their labels and modes, and where their labels point. -/
theorem evaluated_ringTree :
    (ringLabels ringMain = ["//lib:part.bzl".toList] ∧
      ringLabels ringPart = ["//main.bzl".toList]) ∧
    (ringMode ringMain = .rbc ∧ ringMode ringPart = .rbc) ∧
    entryLocation ringTree "main.bzl".toList = ringMain ∧
    labelTarget ringTree.workDir ringMain (splitSymbol .rbc "//lib:part.bzl".toList).1 =
      some ringPart ∧
    labelTarget ringTree.workDir ringPart (splitSymbol .rbc "//main.bzl".toList).1 =
      some ringMain ∧
    isScl ringMain.render = false ∧ isScl ringPart.render = false := by
  decide +kernel

theorem ringLabels_ringMain :
    ringLabels ringMain = ["//lib:part.bzl".toList] :=
  evaluated_ringTree.1.1

theorem ringLabels_ringPart :
    ringLabels ringPart = ["//main.bzl".toList] :=
  evaluated_ringTree.1.2

theorem ringMode_ringMain :
    ringMode ringMain = .rbc :=
  evaluated_ringTree.2.1.1

theorem ringMode_ringPart :
    ringMode ringPart = .rbc :=
  evaluated_ringTree.2.1.2

theorem entryLocation_ringTree :
    entryLocation ringTree "main.bzl".toList = ringMain :=
  evaluated_ringTree.2.2.1

theorem labelTarget_ringMain :
    labelTarget ringTree.workDir ringMain (splitSymbol .rbc "//lib:part.bzl".toList).1 =
      some ringPart :=
  evaluated_ringTree.2.2.2.1

theorem labelTarget_ringPart :
    labelTarget ringTree.workDir ringPart (splitSymbol .rbc "//main.bzl".toList).1 =
      some ringMain :=
  evaluated_ringTree.2.2.2.2.1

theorem edge_ringMain_iff
    {l : Location} :
    Edge ringTree.workDir ringLabels ringMode ringMain l ↔ l = ringPart := by
  unfold Edge
  rw [ringLabels_ringMain, ringMode_ringMain]
  simp only [List.mem_singleton, exists_eq_left, labelTarget_ringMain, Option.some.injEq]
  exact eq_comm

theorem edge_ringPart_iff
    {l : Location} :
    Edge ringTree.workDir ringLabels ringMode ringPart l ↔ l = ringMain := by
  unfold Edge
  rw [ringLabels_ringPart, ringMode_ringPart]
  simp only [List.mem_singleton, exists_eq_left, labelTarget_ringPart, Option.some.injEq]
  exact eq_comm

theorem modules_ringTree :
    Modules ringTree ringLabels ringMode := by
  have hfiles : ∀ l, IsFile ringTree l → l = ringMain ∨ l = ringPart := by
    rintro l ⟨exec, hexec⟩
    rcases lookup_ringTree hexec with ⟨hl, -⟩ | ⟨hl, -⟩
    · exact Or.inl hl
    · exact Or.inr hl
  have hmain : IsFile ringTree ringMain := ⟨fun _ => loadAll ["//lib:part.bzl"], rfl⟩
  have hpart : IsFile ringTree ringPart := ⟨fun _ => loadAll ["//main.bzl"], rfl⟩
  constructor
  · intro l exec hexec names
    rcases lookup_ringTree hexec with ⟨rfl, rfl⟩ | ⟨rfl, rfl⟩
    · rw [ringLabels_ringMain]
      exact ⟨rfl, fun _ => trivial⟩
    · rw [ringLabels_ringPart]
      exact ⟨rfl, fun _ => trivial⟩
  · intro l hl label hlabel callerDir
    rcases hfiles l hl with rfl | rfl
    · rw [ringLabels_ringMain, List.mem_singleton] at hlabel
      rw [hlabel, ringMode_ringMain]
      exact ⟨"lib/part.bzl".toList, rfl⟩
    · rw [ringLabels_ringPart, List.mem_singleton] at hlabel
      rw [hlabel, ringMode_ringPart]
      exact ⟨"main.bzl".toList, rfl⟩
  · intro l l' hl hedge
    rcases hfiles l hl with rfl | rfl
    · exact edge_ringMain_iff.mp hedge ▸ hpart
    · exact edge_ringPart_iff.mp hedge ▸ hmain
  · intro l l' hl hedge hscl
    rcases hfiles l hl with rfl | rfl
    · exact absurd (evaluated_ringTree.2.2.2.2.2.1.symm.trans hscl) (by decide)
    · exact absurd (evaluated_ringTree.2.2.2.2.2.2.symm.trans hscl) (by decide)

theorem isFile_ringMain :
    IsFile ringTree (entryLocation ringTree "main.bzl".toList) := by
  rw [entryLocation_ringTree]
  exact ⟨fun _ => loadAll ["//lib:part.bzl"], rfl⟩

/-- The run of the two files fails with a cycle. -/
theorem run_cycle_ringTree :
    ∃ out, run ringTree 3 "main.bzl".toList .rbc false = some out ∧
      ((executions out.history).map ringTree.resolve).Nodup ∧
      ∃ e, out.result = .error e ∧ e.root = .cycle := by
  have hrun : OnePath ringTree ∧ ∃ out, run ringTree 3 "main.bzl".toList .rbc false = some out ∧
      ((executions out.history).map ringTree.resolve).Nodup ∧
      ((∃ e, out.result = .error e ∧ e.root = .cycle) ↔
        ReachesCycle ringTree ringLabels (entryLocation ringTree "main.bzl".toList) .rbc
          (entryLocation ringTree "main.bzl".toList)) ∧
      ∀ e, out.result = .error e → e.root = .cycle :=
    run_cycle_iff modules_ringTree (by decide +kernel) isFile_ringMain (by simp) (by decide)
  obtain ⟨-, out, hout, hnodup, hcycle, -⟩ := hrun
  refine ⟨out, hout, hnodup, hcycle.mpr ?_⟩
  rw [entryLocation_ringTree]
  refine ⟨ringMain, .refl, ?_⟩
  exact .tail (.single (edge_ringMain_iff.mpr rfl)) (edge_ringPart_iff.mpr rfl)

end Ring

end Rbcrun
end AndroidBuild
