import AndroidBuild.Rbcrun.Executions

/-!
# The module cache answers loads

A load should be answered by what the module is: the globals of its one
execution, or, where the file is missing, the symbol of the load bound to
`None`, or an error.  The cache keeps one entry for a path, so that a missing
module that was loaded with one symbol is answered for every later load as if
that symbol had been asked for.  The answers are right in the runs that load a
missing module with a single symbol.
-/

namespace AndroidBuild
namespace Rbcrun

open Text FilePath

section Answers

variable {V : Type}

/-- The answer for a file that is there: what its execution gave.  A file that is being executed
is a cycle, and an scl file may only load other scl files. -/
def AnswersFile (past : List (Event V)) (path : Str) (call : Load V) : Prop :=
  .finish path call.result ∈ past ∨
    (call.result = .error .cycle ∧ path ∈ executions past ∧
      ∀ result, .finish path result ∉ past) ∨
    (call.result = .error (.sclOnly call.thread.callingFile path) ∧
      isScl call.thread.callingFile = true ∧ isScl path = false)

/-- The answer for a file that is missing. -/
def AnswersMissing (symbol : Option Str) (result : Modentry V) : Prop :=
  match symbol with
  | some name => result = .ok [(name, none)]
  | none => ∃ e, result = .error e

/-- The answer a call should get, given what happened before it was answered. -/
def Answered (tree : FileTree V) (past : List (Event V)) (call : Load V) : Prop :=
  match call.request with
  | .error e => call.result = .error e
  | .ok ⟨path, symbol⟩ =>
      if tree.stat path then AnswersFile past path call else AnswersMissing symbol call.result

/-- Every call of a run was answered as it should. -/
def Transparent (tree : FileTree V) (history : List (Event V)) : Prop :=
  ∀ call past, .load call :: past <:+ history → Answered tree past call

/-- A missing module is always loaded in the same way: with the same symbol. -/
def SameSymbol (tree : FileTree V) (history : List (Event V)) : Prop :=
  ∀ call call' path symbol symbol', .load call ∈ history → .load call' ∈ history →
    call.request = .ok ⟨path, symbol⟩ → call'.request = .ok ⟨path, symbol'⟩ →
    tree.stat path = false → symbol = symbol'

/-- The answer a call for a missing file gets: that of the first one. -/
structure Repeats (past : List (Event V)) (path : Str) (symbol : Option Str) (call : Load V) :
    Prop where
  first : (∀ earlier, .load earlier ∈ past → ¬ earlier.Loads path) →
    AnswersMissing symbol call.result
  again : ∀ earlier, .load earlier ∈ past → earlier.Loads path →
    earlier.result = call.result ∧ ∃ name, call.result = .ok [(name, none)]

/-- The answer a call gets. -/
def Actual (tree : FileTree V) (past : List (Event V)) (call : Load V) : Prop :=
  match call.request with
  | .error e => call.result = .error e
  | .ok ⟨path, symbol⟩ =>
      if tree.stat path then AnswersFile past path call else Repeats past path symbol call

def Recorded (tree : FileTree V) (history : List (Event V)) : Prop :=
  ∀ call past, .load call :: past <:+ history → Actual tree past call

end Answers

section History

variable {V : Type} {tree : FileTree V} {call call' : Load V} {past history : List (Event V)}
variable {path : Str} {symbol : Option Str}

theorem answered_error
    {e : LoadError} (h : call.request = .error e) :
    Answered tree past call ↔ call.result = .error e := by
  unfold Answered
  rw [h]

theorem answered_file
    (h : call.request = .ok ⟨path, symbol⟩) (hstat : tree.stat path = true) :
    Answered tree past call ↔ AnswersFile past path call := by
  unfold Answered
  rw [h]
  simp only [hstat, if_true]

theorem answered_missing
    (h : call.request = .ok ⟨path, symbol⟩) (hstat : tree.stat path = false) :
    Answered tree past call ↔ AnswersMissing symbol call.result := by
  unfold Answered
  rw [h]
  simp only [hstat, Bool.false_eq_true, if_false]

theorem actual_error
    {e : LoadError} (h : call.request = .error e) :
    Actual tree past call ↔ call.result = .error e := by
  unfold Actual
  rw [h]

theorem actual_file
    (h : call.request = .ok ⟨path, symbol⟩) (hstat : tree.stat path = true) :
    Actual tree past call ↔ AnswersFile past path call := by
  unfold Actual
  rw [h]
  simp only [hstat, if_true]

theorem actual_missing
    (h : call.request = .ok ⟨path, symbol⟩) (hstat : tree.stat path = false) :
    Actual tree past call ↔ Repeats past path symbol call := by
  unfold Actual
  rw [h]
  simp only [hstat, Bool.false_eq_true, if_false]

theorem exists_past
    (h : .load call ∈ history) :
    ∃ past, .load call :: past <:+ history := by
  obtain ⟨front, past, rfl⟩ := List.append_of_mem h
  exact ⟨past, List.suffix_append _ _⟩

theorem recorded_record
    {event : Event V} (h : Recorded tree history)
    (hevent : ∀ call, event = .load call → Actual tree history call) :
    Recorded tree (event :: history) := by
  intro call past hsuffix
  rcases List.suffix_cons_iff.mp hsuffix with heq | hsuffix
  · obtain ⟨rfl, rfl⟩ := List.cons.inj heq
    exact hevent call rfl
  · exact h call past hsuffix

theorem AnswersMissing.symbol_eq
    {name : Str} {result : Modentry V} (h : AnswersMissing symbol result)
    (hresult : result = .ok [(name, none)]) :
    symbol = some name := by
  subst hresult
  cases symbol with
  | none =>
      obtain ⟨e, he⟩ := h
      simp at he
  | some name' =>
      have h' : (Except.ok [(name, none)] : Modentry V) = .ok [(name', none)] := h
      simp at h'
      rw [h']

/-- Calls for one missing file got one answer; right answers have one symbol. -/
theorem sameSymbol_of_transparent
    (h : Recorded tree history) (hright : Transparent tree history) :
    SameSymbol tree history := by
  have hordered : ∀ call call' past past' path symbol symbol',
      .load call :: past <:+ history → .load call' :: past' <:+ history →
      call.request = .ok ⟨path, symbol⟩ → call'.request = .ok ⟨path, symbol'⟩ →
      tree.stat path = false → .load call ∈ past' → symbol = symbol' := by
    intro call call' past past' path symbol symbol' hsuffix hsuffix' hcall hcall' hstat hmem
    have hagain := ((actual_missing hcall' hstat).mp (h call' past' hsuffix')).again call hmem
      ⟨symbol, hcall⟩
    obtain ⟨heq, name, hname⟩ := hagain
    have hanswer := (answered_missing hcall hstat).mp (hright call past hsuffix)
    have hanswer' := (answered_missing hcall' hstat).mp (hright call' past' hsuffix')
    rw [hanswer.symbol_eq (heq.trans hname), hanswer'.symbol_eq hname]
  intro call call' path symbol symbol' hmem hmem' hcall hcall' hstat
  obtain ⟨past, hsuffix⟩ := exists_past hmem
  obtain ⟨past', hsuffix'⟩ := exists_past hmem'
  have hcases := List.suffix_or_suffix_of_suffix hsuffix hsuffix'
  rcases hcases with hle | hle <;> rcases List.suffix_cons_iff.mp hle with heq | hlt
  · rw [List.cons.injEq, Event.load.injEq] at heq
    rw [heq.1, hcall'] at hcall
    simpa using (Except.ok.inj hcall).symm
  · exact hordered call call' past past' path symbol symbol' hsuffix hsuffix' hcall hcall' hstat
      (hlt.subset (by simp))
  · rw [List.cons.injEq, Event.load.injEq] at heq
    rw [heq.1, hcall] at hcall'
    simpa using Except.ok.inj hcall'
  · exact (hordered call' call past' past path symbol' symbol hsuffix' hsuffix hcall' hcall hstat
      (hlt.subset (by simp))).symm

/-- By induction on the history: the first call for a missing file got its own answer. -/
theorem transparent_of_sameSymbol
    (h : Recorded tree history) (hsame : SameSymbol tree history) :
    Transparent tree history := by
  induction history with
  | nil =>
      intro call past hsuffix
      simp at hsuffix
  | cons event history ih =>
      have hright : Transparent tree history := by
        refine ih (fun call past hsuffix => h call past (hsuffix.trans (List.suffix_cons _ _))) ?_
        intro call call' path symbol symbol' hmem hmem'
        exact hsame call call' path symbol symbol' (by simp [hmem]) (by simp [hmem'])
      intro call past hsuffix
      rcases List.suffix_cons_iff.mp hsuffix with heq | hsuffix
      · obtain ⟨rfl, rfl⟩ := List.cons.inj heq
        have hactual := h call past (List.suffix_refl _)
        cases hrequest : call.request with
        | error e =>
            rw [actual_error hrequest] at hactual
            exact (answered_error hrequest).mpr hactual
        | ok request =>
            obtain ⟨path, symbol⟩ := request
            cases hstat : tree.stat path with
            | true =>
                rw [actual_file hrequest hstat] at hactual
                exact (answered_file hrequest hstat).mpr hactual
            | false =>
                rw [actual_missing hrequest hstat] at hactual
                rw [answered_missing hrequest hstat]
                by_cases hfirst : ∀ earlier, .load earlier ∈ past → ¬ earlier.Loads path
                · exact hactual.first hfirst
                · push Not at hfirst
                  obtain ⟨earlier, hmem, symbol', hearlier⟩ := hfirst
                  obtain ⟨heq, name, hname⟩ := hactual.again earlier hmem ⟨symbol', hearlier⟩
                  obtain ⟨past', hsuffix'⟩ := exists_past hmem
                  have hanswer := (answered_missing hearlier hstat).mp
                    (hright earlier past' hsuffix')
                  have hsymbol : symbol = symbol' :=
                    hsame call earlier path symbol symbol' (by simp) (by simp [hmem]) hrequest
                      hearlier hstat
                  rw [hsymbol, ← heq]
                  exact hanswer
      · exact hright call past hsuffix

end History

section Cache

variable {V : Type} {tree : FileTree V} {s : State V} {path : Str}

/-- What the cache of a run that has not failed tells. -/
structure Faithful (tree : FileTree V) (s : State V) : Prop where
  executed : ∀ path res, tree.stat path = true →
    s.moduleCache.get? path = some (some res) → .finish path res ∈ s.history
  inProgress : ∀ path, s.moduleCache.get? path = some none →
    tree.stat path = true ∧ path ∈ executions s.history ∧ ∀ res, .finish path res ∉ s.history
  fresh : ∀ path, s.moduleCache.get? path = none →
    ∀ call, .load call ∈ s.history → ¬ call.Loads path
  missing : ∀ path res, tree.stat path = false →
    s.moduleCache.get? path = some (some res) →
    (∃ name, res = .ok [(name, none)]) ∧ (∃ call, .load call ∈ s.history ∧ call.Loads path) ∧
      ∀ call, .load call ∈ s.history → call.Loads path → call.result = res

/-- A call that is answered from the cache. -/
theorem Faithful.cached
    {call : Load V} {symbol : Option Str} (h : Faithful tree s)
    (hrequest : call.request = .ok ⟨path, symbol⟩)
    (hfound : s.moduleCache.get? path = some (some call.result)) :
    Faithful tree (s.record (.load call)) := by
  constructor
  · intro path' res hstat hentry
    exact List.mem_cons_of_mem _ (h.executed path' res hstat hentry)
  · intro path' hentry
    obtain ⟨hstat, hexec, hfinish⟩ := h.inProgress path' hentry
    refine ⟨hstat, hexec, ?_⟩
    intro res hmem
    exact hfinish res (by simpa [State.record] using hmem)
  · intro path' hentry earlier hmem hloads
    rcases List.mem_cons.mp hmem with heq | hmem
    · obtain rfl := Event.load.inj heq
      obtain rfl := hloads.path_eq hrequest
      have hnone : s.moduleCache.get? path' = none := hentry
      rw [hfound] at hnone
      simp at hnone
    · exact h.fresh path' hentry earlier hmem hloads
  · intro path' res hstat hentry
    obtain ⟨hname, ⟨earlier, hmem, hloads⟩, hall⟩ := h.missing path' res hstat hentry
    refine ⟨hname, ⟨earlier, List.mem_cons_of_mem _ hmem, hloads⟩, ?_⟩
    intro call' hmem' hloads'
    rcases List.mem_cons.mp hmem' with heq | hmem'
    · obtain rfl := Event.load.inj heq
      obtain rfl := hloads'.path_eq hrequest
      have hsome : s.moduleCache.get? path' = some (some res) := hentry
      rw [hfound] at hsome
      exact Option.some.inj (Option.some.inj hsome)
    · exact hall call' hmem' hloads'

theorem Faithful.default
    {call : Load V} {symbol : Option Str} {name : Str} (h : Faithful tree s)
    (hrequest : call.request = .ok ⟨path, symbol⟩) (hresult : call.result = .ok [(name, none)])
    (hfound : s.moduleCache.get? path = none) (hmissing : tree.stat path = false) :
    Faithful tree ((s.store path (some call.result)).record (.load call)) := by
  have hget : ∀ path', ((s.store path (some call.result)).record
      (.load call)).moduleCache.get? path' =
        if path' = path then some (some call.result) else s.moduleCache.get? path' :=
    fun path' => State.get?_store s path path' _
  constructor
  · intro path' res hstat hentry
    rw [hget] at hentry
    split_ifs at hentry with heq
    · rw [heq, hmissing] at hstat
      simp at hstat
    · exact List.mem_cons_of_mem _ (h.executed path' res hstat hentry)
  · intro path' hentry
    rw [hget] at hentry
    split_ifs at hentry with heq
    · simp at hentry
    · obtain ⟨hstat, hexec, hfinish⟩ := h.inProgress path' hentry
      refine ⟨hstat, hexec, ?_⟩
      intro res hmem
      exact hfinish res (by simpa [State.record, State.store] using hmem)
  · intro path' hentry earlier hmem hloads
    rw [hget] at hentry
    split_ifs at hentry with heq
    rcases List.mem_cons.mp hmem with hcall | hmem
    · obtain rfl := Event.load.inj hcall
      exact heq (hloads.path_eq hrequest)
    · exact h.fresh path' hentry earlier hmem hloads
  · intro path' res hstat hentry
    rw [hget] at hentry
    split_ifs at hentry with heq
    · obtain rfl : call.result = res := Option.some.inj (Option.some.inj hentry)
      subst heq
      refine ⟨⟨name, hresult⟩, ⟨call, by simp [State.record], symbol, hrequest⟩, ?_⟩
      intro call' hmem' hloads'
      rcases List.mem_cons.mp hmem' with hcall | hmem'
      · rw [Event.load.inj hcall]
      · exact absurd hloads' (h.fresh path' hfound call' hmem')
    · obtain ⟨hname, ⟨earlier, hmem, hloads⟩, hall⟩ := h.missing path' res hstat hentry
      refine ⟨hname, ⟨earlier, List.mem_cons_of_mem _ hmem, hloads⟩, ?_⟩
      intro call' hmem' hloads'
      rcases List.mem_cons.mp hmem' with hcall | hmem'
      · obtain rfl := Event.load.inj hcall
        exact absurd (hloads'.path_eq hrequest) heq
      · exact hall call' hmem' hloads'

theorem Faithful.execute
    (h : Faithful tree s) (hs : Once s) (hfound : s.moduleCache.get? path = none)
    (hstat : tree.stat path = true) (names : List String) :
    Faithful tree ((s.store path none).record (.exec path names)) := by
  have hget : ∀ path', ((s.store path none).record (.exec path names)).moduleCache.get? path' =
      if path' = path then some none else s.moduleCache.get? path' :=
    fun path' => State.get?_store s path path' _
  constructor
  · intro path' res hstat' hentry
    rw [hget] at hentry
    split_ifs at hentry with heq
    · simp at hentry
    · exact List.mem_cons_of_mem _ (h.executed path' res hstat' hentry)
  · intro path' hentry
    rw [hget] at hentry
    split_ifs at hentry with heq
    · subst heq
      refine ⟨hstat, by simp [State.record, executions], ?_⟩
      intro res hmem
      have hfinish : .finish path' res ∈ s.history := by
        simpa [State.record, State.store] using hmem
      rw [hs.finished path' res hfinish] at hfound
      simp at hfound
    · obtain ⟨hstat', hexec, hfinish⟩ := h.inProgress path' hentry
      refine ⟨hstat', List.mem_cons_of_mem _ hexec, ?_⟩
      intro res hmem
      exact hfinish res (by simpa [State.record, State.store] using hmem)
  · intro path' hentry earlier hmem
    rw [hget] at hentry
    split_ifs at hentry with heq
    exact h.fresh path' hentry earlier (by simpa [State.record, State.store] using hmem)
  · intro path' res hstat' hentry
    rw [hget] at hentry
    split_ifs at hentry with heq
    · simp at hentry
    · obtain ⟨hname, ⟨earlier, hmem, hloads⟩, hall⟩ := h.missing path' res hstat' hentry
      refine ⟨hname, ⟨earlier, List.mem_cons_of_mem _ hmem, hloads⟩, ?_⟩
      intro call' hmem'
      exact hall call' (by simpa [State.record, State.store] using hmem')

theorem Faithful.finish
    {call : Load V} {symbol : Option Str} (h : Faithful tree s)
    (hrequest : call.request = .ok ⟨path, symbol⟩) (hstat : tree.stat path = true) :
    Faithful tree (s.finish path call) := by
  have hget : ∀ path', (s.finish path call).moduleCache.get? path' =
      if path' = path then some (some call.result) else s.moduleCache.get? path' :=
    fun path' => State.get?_store s path path' _
  have hevents : ∀ event, event ∈ (s.finish path call).history ↔
      event = .load call ∨ event = .finish path call.result ∨ event ∈ s.history := by
    intro event
    simp [State.finish, State.record, State.store]
  constructor
  · intro path' res hstat' hentry
    rw [hget] at hentry
    rw [hevents]
    split_ifs at hentry with heq
    · rw [heq, Option.some.inj (Option.some.inj hentry)]
      simp
    · exact Or.inr (Or.inr (h.executed path' res hstat' hentry))
  · intro path' hentry
    rw [hget] at hentry
    split_ifs at hentry with heq
    · simp at hentry
    · obtain ⟨hstat', hexec, hfinish⟩ := h.inProgress path' hentry
      refine ⟨hstat', hexec, ?_⟩
      intro res hmem
      rw [hevents] at hmem
      rcases hmem with hmem | hmem | hmem
      · simp at hmem
      · exact heq (Event.finish.inj hmem).1
      · exact hfinish res hmem
  · intro path' hentry earlier hmem hloads
    rw [hget] at hentry
    split_ifs at hentry with heq
    rw [hevents] at hmem
    rcases hmem with hmem | hmem | hmem
    · obtain rfl := Event.load.inj hmem
      exact heq (hloads.path_eq hrequest)
    · simp at hmem
    · exact h.fresh path' hentry earlier hmem hloads
  · intro path' res hstat' hentry
    rw [hget] at hentry
    split_ifs at hentry with heq
    · rw [heq, hstat] at hstat'
      simp at hstat'
    · obtain ⟨hname, ⟨earlier, hmem, hloads⟩, hall⟩ := h.missing path' res hstat' hentry
      refine ⟨hname, ⟨earlier, ?_, hloads⟩, ?_⟩
      · rw [hevents]
        exact Or.inr (Or.inr hmem)
      · intro call' hmem' hloads'
        rw [hevents] at hmem'
        rcases hmem' with hmem' | hmem' | hmem'
        · obtain rfl := Event.load.inj hmem'
          exact absurd (hloads'.path_eq hrequest) heq
        · simp at hmem'
        · exact hall call' hmem' hloads'

/-- No node of the tree is a symbolic link. -/
def NoSymlinks (tree : FileTree V) : Prop :=
  ∀ e ∈ tree.nodes, e.2.isSymlink = false

theorem NoSymlinks.stat_eq
    (h : NoSymlinks tree) (path : Str) :
    tree.stat path = (tree.lstat path).isSome := by
  unfold FileTree.stat
  cases hlstat : tree.lstat path with
  | none => rfl
  | some node =>
      have hnode := h _ (tree.lstat_mem hlstat)
      cases node with
      | symlink dangling => simp [Node.isSymlink] at hnode
      | directory => rfl
      | file exec => rfl

/-- A call that is answered at once gets the answer `Actual` tells. -/
theorem Answers.actual
    {thread : Thread} {module : Str} {res : Modentry V} {s₁ : State V} (hlinks : NoSymlinks tree)
    (h : Answers tree thread module s res s₁) (hs : Faithful tree s)
    (found : Option (Option (Modentry V))) :
    Actual tree s.history ⟨thread, module, found, res⟩ := by
  cases h with
  | refused e hparse => exact (actual_error (request_mk hparse)).mpr rfl
  | cached request hparse res hfound =>
      obtain ⟨path, symbol⟩ := request
      cases hstat : tree.stat path with
      | true =>
          rw [actual_file (request_mk hparse) hstat]
          exact Or.inl (hs.executed path res hstat hfound)
      | false =>
          rw [actual_missing (request_mk hparse) hstat]
          obtain ⟨hname, ⟨call, hmem, hloads⟩, hall⟩ := hs.missing path res hstat hfound
          constructor
          · intro hnone
            exact absurd hloads (hnone call hmem)
          · intro earlier hearlier hloads'
            exact ⟨hall earlier hearlier hloads', hname⟩
  | cycle request hparse hfound =>
      obtain ⟨path, symbol⟩ := request
      obtain ⟨hstat, hexec, hfinish⟩ := hs.inProgress path hfound
      rw [actual_file (request_mk hparse) hstat]
      exact Or.inr (Or.inl ⟨rfl, hexec, hfinish⟩)
  | default path name hparse hfound hstat =>
      rw [actual_missing (request_mk hparse) hstat]
      constructor
      · intro _
        rfl
      · intro earlier hearlier hloads
        exact absurd hloads (hs.fresh path hfound earlier hearlier)
  | failed request hparse hfound hmust e herror =>
      obtain ⟨path, symbol⟩ := request
      cases hstat : tree.stat path with
      | true =>
          rw [actual_file (request_mk hparse) hstat]
          have hlstat := hlinks.stat_eq path
          rw [hstat] at hlstat
          cases herror with
          | sclOnly hcaller hpath => exact Or.inr (Or.inr ⟨rfl, hcaller, hpath⟩)
          | lstat hscl hnone =>
              rw [hnone] at hlstat
              simp at hlstat
          | symlink hscl dangling hlink =>
              have hnode := hlinks _ (tree.lstat_mem hlink)
              simp [Node.isSymlink] at hnode
      | false =>
          rw [actual_missing (request_mk hparse) hstat]
          have hsymbol : symbol = none := hmust.resolve_right (by simp [hstat])
          subst hsymbol
          constructor
          · intro _
            exact ⟨e, rfl⟩
          · intro earlier hearlier hloads
            exact absurd hloads (hs.fresh path hfound earlier hearlier)

theorem Answers.faithful
    {thread : Thread} {module : Str} {globals : StringDict V} {s₁ : State V}
    (h : Answers tree thread module s (.ok globals) s₁) (hs : Faithful tree s)
    (found : Option (Option (Modentry V))) :
    Faithful tree (s₁.record (.load ⟨thread, module, found, .ok globals⟩)) := by
  cases h with
  | cached request hparse res hfound =>
      obtain ⟨path, symbol⟩ := request
      exact hs.cached hparse hfound
  | default path name hparse hfound hstat =>
      exact hs.default (request_mk hparse) rfl hfound hstat

/-- What a run keeps, as long as it has not failed. -/
theorem recorded_rule (hlinks : NoSymlinks tree) :
    LoaderRule tree
      (fun _ _ s res s' => Once s → Faithful tree s → Recorded tree s.history →
        Once s' ∧ Recorded tree s'.history ∧ (∀ globals, res = .ok globals → Faithful tree s'))
      (fun _ _ s res s' => Once s → Faithful tree s → Recorded tree s.history →
        Once s' ∧ Recorded tree s'.history ∧
          (∀ globals, res = .ok globals → Faithful tree s')) where
  answers := by
    intro thread module s res s₁ h honce hs hrecorded
    have hhistory : s₁.history = s.history := by cases h <;> rfl
    refine ⟨honce.answer h _, ?_, ?_⟩
    · refine recorded_record (hhistory ▸ hrecorded) ?_
      intro call hcall
      obtain rfl := Event.load.inj hcall
      rw [hhistory]
      exact h.actual hlinks hs _
    · rintro globals rfl
      exact h.faithful hs _
  executes := by
    intro thread module s child body s₁ res s₂ h hext hbody honce hs hrecorded
    obtain ⟨symbol, hparse⟩ := h.parse
    obtain ⟨node, hlstat, -⟩ := h.node
    have hstat : tree.stat child.callingFile = true := by
      rw [hlinks.stat_eq, hlstat]
      rfl
    have honce₁ : Once s₁ := by
      rw [h.state]
      exact honce.execute h.found _
    have hs₁ : Faithful tree s₁ := by
      rw [h.state]
      exact hs.execute honce h.found hstat _
    have hrecorded₁ : Recorded tree s₁.history := by
      rw [h.state]
      refine recorded_record hrecorded ?_
      intro call hcall
      simp at hcall
    obtain ⟨honce₂, hrecorded₂, hs₂⟩ := hbody honce₁ hs₁ hrecorded₁
    refine ⟨honce₂.finish (h.get? hext) _, ?_, ?_⟩
    · refine recorded_record (recorded_record hrecorded₂ ?_) ?_
      · intro call hcall
        simp at hcall
      · intro call hcall
        obtain rfl := Event.load.inj hcall
        exact (actual_file (request_mk hparse) hstat).mpr (Or.inl List.mem_cons_self)
    · rintro globals rfl
      exact (hs₂ globals rfl).finish hparse hstat
  done := fun _ _ _ honce hs hrecorded => ⟨honce, hrecorded, fun _ _ => hs⟩
  fail := by
    intro thread s e honce hs hrecorded
    refine ⟨honce, hrecorded, ?_⟩
    intro globals hres
    simp at hres
  refused := by
    intro thread module next s e s' h honce hs hrecorded
    obtain ⟨honce', hrecorded', -⟩ := h honce hs hrecorded
    refine ⟨honce', hrecorded', ?_⟩
    intro globals hres
    simp at hres
  answered := by
    intro thread module next s globals s' res s'' _ _ h h' honce hs hrecorded
    obtain ⟨honce', hrecorded', hs'⟩ := h honce hs hrecorded
    exact h' honce' (hs' globals rfl) hrecorded'

theorem run_recorded
    (hlinks : NoSymlinks tree) {fuel : Nat} {filename : Str} {mode : ExecutionMode}
    {allowExternalEntrypoint : Bool} {out : Outcome V}
    (h : run tree fuel filename mode allowExternalEntrypoint = some out) :
    Recorded tree out.history := by
  rcases run_cases h with ⟨e, rfl⟩ | ⟨s, hrun, hhistory⟩
  · intro call past hsuffix
    simp at hsuffix
  · obtain ⟨node, hlstat, -, hbody⟩ := hrun.node
    rw [hhistory]
    have hstat : tree.stat (entryPath tree filename) = true := by
      rw [hlinks.stat_eq, hlstat]
      rfl
    have hstart : Faithful tree (State.start (V := V)) := by
      constructor
      · intro path res _ hentry
        exact absurd hentry (by simp [State.start, OrderedDict.get?, OrderedDict.empty])
      · intro path hentry
        exact absurd hentry (by simp [State.start, OrderedDict.get?, OrderedDict.empty])
      · intro path _ call hmem
        exact absurd hmem (by simp [State.start])
      · intro path res _ hentry
        exact absurd hentry (by simp [State.start, OrderedDict.get?, OrderedDict.empty])
    have honce : Once (State.start (V := V)) := by
      refine ⟨by simp [State.start, executions], ?_, ?_⟩
      · intro path hmem
        simp [State.start, executions] at hmem
      · intro path result hmem
        simp [State.start] at hmem
    have hentry : Faithful tree (State.entry (entryPath tree filename) mode) :=
      hstart.execute honce rfl hstat _
    have hempty : Recorded tree
        (State.entry (V := V) (entryPath tree filename) mode).history := by
      intro call past hsuffix
      simp [State.entry, State.start, State.store, State.record, List.suffix_cons_iff] at hsuffix
    exact ((script_rule (recorded_rule hlinks) hbody).1 (once_entry _ _) hentry hempty).2.1

/-- In a tree without symbolic links every run ends, executes no file twice, and answers all
loads as it should exactly when it loads every missing module with one symbol. -/
theorem run_transparent_iff
    (hlinks : NoSymlinks tree) {fuel : Nat} (hfuel : tree.nodes.length < fuel) (filename : Str)
    (mode : ExecutionMode) :
    ∃ out, run tree fuel filename mode false = some out ∧
      (executions out.history).Nodup ∧ OneResult out.history ∧
      (Transparent tree out.history ↔ SameSymbol tree out.history) := by
  obtain ⟨out, hrun⟩ := run_terminates hfuel filename mode
  obtain ⟨hnodup, hresult⟩ := run_once hrun
  have hrecorded := run_recorded hlinks hrun
  exact ⟨out, hrun, hnodup, hresult, sameSymbol_of_transparent hrecorded,
    transparent_of_sameSymbol hrecorded⟩

end Cache

section TwoSymbols

/-- An entry file that loads one missing module with two symbols. -/
def missingTree : FileTree Unit where
  workDir := locate "/w".toList
  workDir_rooted := by decide +kernel
  nodes := [(locate "/w/main.bzl".toList, .file fun _ => loadAll ["//lib.bzl|a", "//lib.bzl|b"])]
  above := by
    intro e he habove
    rw [List.mem_singleton] at he
    subst he
    revert habove
    decide +kernel

theorem noSymlinks_missingTree :
    NoSymlinks missingTree := by
  intro e he
  obtain rfl := List.mem_singleton.mp he
  rfl

theorem run_transparent_iff_missingTree :
    ∃ out, run missingTree 2 "main.bzl".toList .rbc false = some out ∧
      (executions out.history).Nodup ∧ OneResult out.history ∧
      (Transparent missingTree out.history ↔ SameSymbol missingTree out.history) :=
  run_transparent_iff noSymlinks_missingTree (by decide) "main.bzl".toList .rbc

/-- The second load is answered with the symbol of the first. -/
theorem not_transparent_missingTree :
    ∃ out, run missingTree 2 "main.bzl".toList .rbc false = some out ∧
      ¬ Transparent missingTree out.history := by
  have hends : ∃ out, run missingTree 2 "main.bzl".toList .rbc false = some out :=
    run_terminates (by decide) _ _
  obtain ⟨out, hrun⟩ := hends
  refine ⟨out, hrun, ?_⟩
  have hhistory : (run missingTree 2 "main.bzl".toList .rbc false).map Outcome.history = some
      [.load ⟨⟨"main.bzl".toList, .rbc, false⟩, "//lib.bzl|b".toList,
          some (some (.ok [("a".toList, none)])), .ok [("a".toList, none)]⟩,
        .load ⟨⟨"main.bzl".toList, .rbc, false⟩, "//lib.bzl|a".toList, none,
          .ok [("a".toList, none)]⟩,
        .exec "main.bzl".toList rbcBuiltins] := by
    decide +kernel
  rw [hrun, Option.map_some, Option.some.injEq] at hhistory
  intro hright
  rw [hhistory] at hright
  have hanswer := hright _ _ (List.suffix_refl _)
  have hparse : parseModule ⟨"main.bzl".toList, .rbc, false⟩ "//lib.bzl|b".toList =
      .ok ⟨"lib.bzl".toList, some "b".toList⟩ := by
    decide +kernel
  rw [answered_missing (request_mk hparse) (by decide +kernel)] at hanswer
  exact absurd (hanswer.symbol_eq rfl) (by decide)

end TwoSymbols

end Rbcrun
end AndroidBuild
