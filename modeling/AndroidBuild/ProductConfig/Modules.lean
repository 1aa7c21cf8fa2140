import AndroidBuild.Lib.Text
import AndroidBuild.ProductConfig.Evaluate
import AndroidBuild.ProductConfig.Import

/-!
# Modules and their makefiles

A product configuration module corresponds to a makefile with the same
assignments.  Reading the makefile and running the module give the same lists:
a list that the module has not assigned stands for the tags of all the modules
it has inherited so far.
-/

namespace AndroidBuild
namespace ProductConfig

open Loop PostOrder

/-- `_product_single_value_vars` and `_product_list_vars`. -/
structure ProductVars where
  singleValueVars : List String
  listVars : List String
  single_ne_nil : singleValueVars ≠ []
  disjoint : ∀ v ∈ listVars, v ∉ singleValueVars

def ProductVars.isList (vars : ProductVars) (attr : String) : Bool :=
  decide (attr ∈ vars.listVars)

def Item.toMake : Item → Item
  | .word text => .word text
  | .inherit name => .inherit (name ++ ".mk")

def PcmStatement.toMake : PcmStatement → Statement
  | .setList attr words => .assign attr [words]
  | .append attr words => .assign attr [[], words]
  | .setString attr text => .assign attr [Text.words text]
  | .inherit name => .inherit (name ++ ".mk")

/-- Lists are assigned to list variables and strings to single-value variables. -/
def PcmStatement.Typed (vars : ProductVars) : PcmStatement → Prop
  | .setList attr _ => attr ∈ vars.listVars
  | .append attr _ => attr ∈ vars.listVars
  | .setString attr _ => attr ∈ vars.singleValueVars
  | .inherit _ => True

instance (vars : ProductVars) (s : PcmStatement) : Decidable (s.Typed vars) := by
  cases s <;> unfold PcmStatement.Typed <;> infer_instance

def makefilesOf (vars : ProductVars) (pcms : String → List PcmStatement) : Makefiles where
  files := fun s =>
    if dropMk s ++ ".mk" = s then some ((pcms (dropMk s)).map PcmStatement.toMake) else none
  singleValueVars := vars.singleValueVars
  listVars := vars.listVars

def modulesOf (pcms : String → List PcmStatement) : Modules where
  raw := fun n =>
    match runPcm (pcms n) with
    | .ok handle => handle.cfg
    | .error _ => OrderedDict.empty
  children := fun n =>
    match runPcm (pcms n) with
    | .ok handle => handle.inheritedModules
    | .error _ => []

section Handle

variable {vars : ProductVars}

/-- The references to the modules inherited so far. -/
structure References (inheritedModules : List String) (default : List Item) : Prop where
  nodup : inheritedModules.Nodup
  tags : ∀ c, c ∈ tagsOf default ↔ c ∈ inheritedModules
  substitute : ∀ f, substitute f [] default = inheritedModules.flatMap f

theorem substitute_snoc
    (f : String → List String) (items : List Item) (it : Item) (seen : List String) :
    substitute f seen (items ++ [it]) =
      substitute f seen items ++ substitute f (tagsOf items ++ seen) [it] := by
  induction items generalizing seen with
  | nil => rfl
  | cons i items ih =>
      have hcomm : ∀ seen seen' : List String, (∀ m, m ∈ seen' ↔ m ∈ seen) →
          substitute f seen' [it] = substitute f seen [it] := by
        intro seen seen' h
        cases it with
        | word text => rfl
        | inherit c => simp only [substitute, h]
      cases i with
      | word text => simp [substitute, ih, tagsOf]
      | inherit c =>
          rw [List.cons_append, substitute, substitute, ih, ih]
          split_ifs with hc
          · congr 1
            apply hcomm
            intro m
            simp only [tagsOf, List.filterMap_cons, List.cons_append, List.mem_cons,
              List.mem_append]
            constructor
            · intro h
              exact Or.inr h
            · rintro (rfl | h)
              · exact Or.inr hc
              · exact h
          · rw [List.append_assoc]
            congr 2
            apply hcomm
            intro m
            simp only [tagsOf, List.filterMap_cons, List.cons_append, List.mem_cons,
              List.mem_append]
            tauto

theorem References.inherit
    {modules : List String} {default : List Item} (h : References modules default)
    (name : String) :
    References (if name ∈ modules then modules else modules ++ [name])
      (default ++ [.inherit name]) := by
  constructor
  · split_ifs with hname
    · exact h.nodup
    · exact List.nodup_append.mpr ⟨h.nodup, by simp, by
        rintro a ha b hb rfl
        rw [List.mem_singleton] at hb
        exact hname (hb ▸ ha)⟩
  · intro c
    have hsplit : c ∈ tagsOf (default ++ [.inherit name]) ↔ c ∈ modules ∨ c = name := by
      rw [← h.tags]
      simp [mem_tagsOf]
    rw [hsplit]
    split_ifs with hname
    · exact or_iff_left_of_imp (fun he => he ▸ hname)
    · simp
  · intro f
    have hmem : name ∈ tagsOf default ++ [] ↔ name ∈ modules := by simp [h.tags]
    rw [substitute_snoc, h.substitute]
    simp only [ProductConfig.substitute, hmem]
    split_ifs with hname
    · simp
    · simp

/-- The handle of a module, and the variables of its makefile. -/
structure HandleInv (vars : ProductVars) (handle : Handle) (env : String → List Item) :
    Prop where
  typed : Typed vars.isList handle.cfg
  references : References handle.inheritedModules handle.defaultListValue
  referred : ∀ a, ∀ c ∈ referred handle.cfg a, c ∈ handle.inheritedModules
  list : ∀ v ∈ vars.listVars, env v = (match handle.cfg.get? v with
    | some (.list items) => items
    | _ => handle.defaultListValue).map Item.toMake
  single : ∀ v ∈ vars.singleValueVars, ∃ since : List String,
    env v = (match handle.cfg.get? v with
      | some (.str text) => (Text.words text).map Item.word
      | _ => []) ++ since.map (fun c => .inherit (c ++ ".mk")) ∧
    (∀ c ∈ since, c ∈ handle.inheritedModules) ∧
    (handle.cfg.get? v = none → ∀ c ∈ handle.inheritedModules, c ∈ since)

theorem isList_of_single
    {v : String} (hv : v ∈ vars.singleValueVars) :
    vars.isList v = false := by
  unfold ProductVars.isList
  rw [decide_eq_false_iff_not]
  intro hlist
  exact vars.disjoint v hlist hv

theorem map_word_toMake (ws : List String) :
    (ws.map Item.word).map Item.toMake = ws.map Item.word := by
  simp [Function.comp_def, Item.toMake]

theorem tagsOf_words (ws : List String) :
    tagsOf (ws.map Item.word) = [] := by
  rw [List.eq_nil_iff_forall_not_mem]
  intro c hc
  simp [mem_tagsOf] at hc

/-- A list has been assigned. -/
theorem HandleInv.setList
    {handle : Handle} {env : String → List Item} (h : HandleInv vars handle env) {attr : String}
    (hattr : attr ∈ vars.listVars) {items : List Item}
    (hitems : ∀ c ∈ tagsOf items, c ∈ handle.inheritedModules) :
    HandleInv vars { handle with cfg := handle.cfg.set attr (.list items) }
      (Function.update env attr (items.map Item.toMake)) := by
  constructor
  · intro a value hget
    simp only [OrderedDict.get?_set] at hget
    split_ifs at hget with ha
    · cases hget
      simp [Value.kind, ProductVars.isList, ha, hattr]
    · exact h.typed a value hget
  · exact h.references
  · intro a c hc
    simp only [ProductConfig.referred, OrderedDict.get?_set] at hc
    split_ifs at hc with ha
    · exact hitems c hc
    · exact h.referred a c hc
  · intro v hv
    simp only [OrderedDict.get?_set]
    by_cases ha : v = attr
    · subst ha
      simp
    · simp only [if_neg ha, Function.update_of_ne ha]
      exact h.list v hv
  · intro v hv
    have ha : v ≠ attr := fun he => vars.disjoint attr hattr (he ▸ hv)
    simp only [OrderedDict.get?_set, if_neg ha, Function.update_of_ne ha]
    exact h.single v hv

theorem HandleInv.setString
    {handle : Handle} {env : String → List Item} (h : HandleInv vars handle env) {attr : String}
    (hattr : attr ∈ vars.singleValueVars) (text : String) :
    HandleInv vars { handle with cfg := handle.cfg.set attr (.str text) }
      (Function.update env attr ((Text.words text).map Item.word)) := by
  constructor
  · intro a value hget
    simp only [OrderedDict.get?_set] at hget
    split_ifs at hget with ha
    · cases hget
      rw [ha, isList_of_single hattr]
      rfl
    · exact h.typed a value hget
  · exact h.references
  · intro a c hc
    simp only [ProductConfig.referred, OrderedDict.get?_set] at hc
    split_ifs at hc with ha
    · cases hc
    · exact h.referred a c hc
  · intro v hv
    have ha : v ≠ attr := fun he => vars.disjoint v hv (he ▸ hattr)
    simp only [OrderedDict.get?_set, if_neg ha, Function.update_of_ne ha]
    exact h.list v hv
  · intro v hv
    simp only [OrderedDict.get?_set]
    by_cases ha : v = attr
    · subst ha
      exact ⟨[], by simp, by simp, by simp⟩
    · simp only [if_neg ha, Function.update_of_ne ha]
      exact h.single v hv

theorem HandleInv.inherit
    {handle : Handle} {env env' : String → List Item} (h : HandleInv vars handle env)
    (name : String)
    (henv : ∀ v ∈ vars.singleValueVars ++ vars.listVars,
      env' v = env v ++ [.inherit (name ++ ".mk")]) :
    HandleInv vars (handle.inherit name) env' := by
  have hget : ∀ a, (handle.inherit name).cfg.get? a =
      (handle.cfg.get? a).map (Value.refer name) :=
    fun a => OrderedDict.get?_mapValues handle.cfg (Value.refer name) a
  have hmodules : ∀ c, c ∈ (handle.inherit name).inheritedModules ↔
      c ∈ handle.inheritedModules ∨ c = name := by
    intro c
    unfold Handle.inherit
    simp only
    split_ifs with hname
    · exact (or_iff_left_of_imp (fun he => he ▸ hname)).symm
    · simp
  constructor
  · intro a value hvalue
    rw [hget, Option.map_eq_some_iff] at hvalue
    obtain ⟨old, hold, rfl⟩ := hvalue
    rw [← h.typed a old hold]
    cases old with
    | list items => rfl
    | str text => rfl
  · exact h.references.inherit name
  · intro a c hc
    rw [hmodules]
    have hold := h.referred a c
    simp only [ProductConfig.referred, hget] at hc hold
    cases hval : handle.cfg.get? a with
    | none => simp [hval] at hc
    | some value =>
        cases value with
        | str text => simp [hval, Value.refer] at hc
        | list items =>
            rw [hval] at hold
            simp only [hval, Option.map_some, Value.refer, mem_tagsOf, List.mem_append,
              List.mem_singleton, Item.inherit.injEq] at hc
            exact hc.imp (fun hmem => hold (mem_tagsOf.mpr hmem)) id
  · intro v hv
    rw [henv v (List.mem_append_right _ hv), h.list v hv, hget]
    cases hval : handle.cfg.get? v with
    | none => simp [Handle.inherit, Item.toMake]
    | some value =>
        have hkind := h.typed v value hval
        cases value with
        | list items => simp [Value.refer, Item.toMake]
        | str text =>
            simp [Value.kind, ProductVars.isList, hv] at hkind
  · intro v hv
    obtain ⟨since, henv_v, hsub, hall⟩ := h.single v hv
    refine ⟨since ++ [name], ?_, ?_, ?_⟩
    · rw [henv v (List.mem_append_left _ hv), henv_v, hget]
      cases hval : handle.cfg.get? v with
      | none => simp
      | some value =>
          cases value with
          | list items => simp [Value.refer]
          | str text => simp [Value.refer]
    · intro c hc
      rw [hmodules]
      rcases List.mem_append.mp hc with hc' | hc'
      · exact Or.inl (hsub c hc')
      · exact Or.inr (List.mem_singleton.mp hc')
    · intro hnone c hc
      rw [hget, Option.map_eq_none_iff] at hnone
      rw [List.mem_append, List.mem_singleton]
      exact ((hmodules c).mp hc).imp (hall hnone c) id

theorem HandleInv.setdefault
    {handle : Handle} {env : String → List Item} (h : HandleInv vars handle env) {attr : String}
    (hattr : attr ∈ vars.listVars) :
    ∃ items, (handle.setdefault attr).cfg.get? attr = some (.list items) ∧
      items.map Item.toMake = env attr ∧ HandleInv vars (handle.setdefault attr) env := by
  have henv := h.list attr hattr
  cases hget : handle.cfg.get? attr with
  | none =>
      rw [hget] at henv
      have hset := h.setList hattr (fun c hc => (h.references.tags c).mp hc)
      rw [← henv, Function.update_eq_self] at hset
      have heq : handle.setdefault attr =
          { handle with cfg := handle.cfg.set attr (.list handle.defaultListValue) } := by
        simp [Handle.setdefault, hget]
      rw [heq]
      exact ⟨handle.defaultListValue, by simp [OrderedDict.get?_set], henv.symm, hset⟩
  | some value =>
      have hkind := h.typed attr value hget
      have heq : handle.setdefault attr = handle := by
        simp [Handle.setdefault, hget]
      rw [heq]
      cases value with
      | str text => simp [Value.kind, ProductVars.isList, hattr] at hkind
      | list items =>
          rw [hget] at henv
          exact ⟨items, hget, henv.symm, h⟩

theorem HandleInv.run
    {pcms : String → List PcmStatement} {handle : Handle} {env : String → List Item}
    (h : HandleInv vars handle env) {s : PcmStatement} (hs : s.Typed vars) :
    ∃ handle', handle.run s = .ok handle' ∧
      HandleInv vars handle' ((makefilesOf vars pcms).runStatement env s.toMake) := by
  cases s with
  | setList attr words =>
      have hnone : ∀ c ∈ tagsOf (words.map Item.word), c ∈ handle.inheritedModules := by
        simp [tagsOf_words]
      have hinv := h.setList hs hnone
      rw [map_word_toMake] at hinv
      refine ⟨_, rfl, ?_⟩
      simpa [PcmStatement.toMake, Makefiles.runStatement, List.intercalate] using hinv
  | append attr words =>
      obtain ⟨items, hget, hitems, hinv⟩ := h.setdefault hs
      have htags : ∀ c ∈ tagsOf (items ++ words.map Item.word),
          c ∈ (handle.setdefault attr).inheritedModules := by
        intro c hc
        rw [mem_tagsOf, List.mem_append] at hc
        rcases hc with hc | hc
        · refine hinv.referred attr c ?_
          simpa [ProductConfig.referred, hget, mem_tagsOf] using hc
        · simp at hc
      have hset := hinv.setList hs htags
      rw [List.map_append, map_word_toMake, hitems] at hset
      refine ⟨{ handle.setdefault attr with
        cfg := (handle.setdefault attr).cfg.set attr (.list (items ++ words.map Item.word)) },
        ?_, ?_⟩
      · simp only [Handle.run, hget]
      · simpa [PcmStatement.toMake, Makefiles.runStatement, List.intercalate] using hset
  | setString attr text =>
      have hinv := h.setString hs text
      refine ⟨_, rfl, ?_⟩
      simpa [PcmStatement.toMake, Makefiles.runStatement, List.intercalate] using hinv
  | inherit name =>
      refine ⟨_, rfl, h.inherit name ?_⟩
      intro v hv
      simp only [PcmStatement.toMake, Makefiles.runStatement]
      exact if_pos hv

theorem runPcm_spec
    {pcms : String → List PcmStatement} {pcm : List PcmStatement}
    (hpcm : ∀ s ∈ pcm, s.Typed vars) :
    ∃ handle, runPcm pcm = .ok handle ∧
      HandleInv vars handle ((makefilesOf vars pcms).readFile (pcm.map PcmStatement.toMake)) := by
  have hinit : HandleInv vars {} (fun _ => []) := by
    refine ⟨?_, ⟨List.nodup_nil, ?_, ?_⟩, ?_, ?_, ?_⟩
    · intro a value hget
      cases hget
    · simp [tagsOf]
    · intro f
      rfl
    · intro a c hc
      cases hc
    · intro v _
      rfl
    · intro v _
      exact ⟨[], rfl, by simp, by simp⟩
  unfold runPcm Makefiles.readFile
  rw [List.foldl_map]
  generalize (fun _ => [] : String → List Item) = env at hinit ⊢
  generalize ({} : Handle) = handle at hinit ⊢
  induction pcm generalizing handle env with
  | nil => exact ⟨handle, rfl, hinit⟩
  | cons s pcm ih =>
      rw [List.forall_mem_cons] at hpcm
      obtain ⟨handle', hrun, hinv⟩ : ∃ handle', handle.run s = .ok handle' ∧
          HandleInv vars handle' ((makefilesOf vars pcms).runStatement env s.toMake) :=
        hinit.run hpcm.1
      obtain ⟨handle'', hruns, hinv'⟩ := ih hpcm.2 _ _ hinv
      refine ⟨handle'', ?_, hinv'⟩
      rw [List.foldlM_cons, hrun]
      exact hruns

theorem inherit_of_runPcm
    {pcm : List PcmStatement} {handle : Handle} (hrun : runPcm pcm = .ok handle) {c : String}
    (hc : c ∈ handle.inheritedModules) :
    .inherit c ∈ pcm := by
  refine forLoop_ok (fun done r => ∀ c ∈ r.inheritedModules, PcmStatement.inherit c ∈ done)
    hrun (by simp) ?_ c hc
  intro done s rest r r' _ hr hstep d hd
  rw [List.mem_append, List.mem_singleton]
  have hsame : r'.inheritedModules = r.inheritedModules → PcmStatement.inherit d ∈ done :=
    fun he => hr d (he ▸ hd)
  cases s with
  | setList attr words =>
      cases hstep
      exact Or.inl (hsame rfl)
  | append attr words =>
      have hdefault : (r.setdefault attr).inheritedModules = r.inheritedModules := by
        unfold Handle.setdefault
        split_ifs <;> rfl
      simp only [Handle.run] at hstep
      split at hstep
      · cases hstep
        exact Or.inl (hsame hdefault)
      · cases hstep
  | setString attr text =>
      cases hstep
      exact Or.inl (hsame rfl)
  | inherit name =>
      cases hstep
      by_cases hname : d = name
      · exact Or.inr (by rw [hname])
      · refine Or.inl (hr d ?_)
        simp only [Handle.inherit] at hd
        split_ifs at hd
        · exact hd
        · simpa [hname] using hd

end Handle

section Order

theorem mk_injective :
    Function.Injective (fun y : String => y ++ ".mk") := by
  intro x y h
  have hdrop := congrArg dropMk h
  simpa only [dropMk_append] using hdrop

/-- The names of the makefiles, in the order of the visits, are sorted. -/
theorem order_mk_sorted (M : Modules) (n : String) :
    ((M.order n).map (fun y => y ++ ".mk")).Pairwise (fun a b => ¬ b < a) := by
  have : Std.Total (fun a b : String => ¬ a < b) :=
    ⟨fun a b => (le_total b a).imp not_lt.mpr not_lt.mpr⟩
  have : IsTrans String (fun a b => ¬ a < b) :=
    ⟨fun a b c hab hbc => not_lt.mpr ((not_lt.mp hbc).trans (not_lt.mp hab))⟩
  have hsorted := List.pairwise_insertionSort (fun a b : String => ¬ a < b)
    ((M.children n).map (fun y => y ++ ".mk"))
  have hback : ((M.order n).map (fun y => y ++ ".mk")) =
      (((M.children n).map (fun y => y ++ ".mk")).insertionSort (fun a b => ¬ a < b)).reverse := by
    unfold Modules.order sortPcmNames
    rw [List.map_reverse, List.map_map]
    congr 1
    rw [List.map_congr_left (g := id), List.map_id]
    intro x hx
    rw [(List.perm_insertionSort _ _).mem_iff] at hx
    obtain ⟨y, _, rfl⟩ := List.mem_map.mp hx
    simp [dropMk_append]
  rw [hback, List.pairwise_reverse]
  exact hsorted

end Order

section ModulesOf

variable {vars : ProductVars} {pcms : String → List PcmStatement} {rank : String → Nat}

theorem files_mk (vars : ProductVars) (pcms : String → List PcmStatement) (n : String) :
    (makefilesOf vars pcms).files (n ++ ".mk") = some ((pcms n).map PcmStatement.toMake) := by
  simp only [makefilesOf, dropMk_append, if_true]

theorem moduleOf_spec
    (htyped : ∀ n, ∀ s ∈ pcms n, s.Typed vars) (n : String) :
    ∃ handle, runPcm (pcms n) = .ok handle ∧ (modulesOf pcms).raw n = handle.cfg ∧
      (modulesOf pcms).children n = handle.inheritedModules ∧
      HandleInv vars handle (fun v => (makefilesOf vars pcms).itemsOf v (n ++ ".mk")) := by
  obtain ⟨handle, hrun, hinv⟩ : ∃ handle, runPcm (pcms n) = .ok handle ∧
      HandleInv vars handle
        ((makefilesOf vars pcms).readFile ((pcms n).map PcmStatement.toMake)) :=
    runPcm_spec (htyped n)
  refine ⟨handle, hrun, ?_, ?_, ?_⟩
  · simp only [modulesOf, hrun]
  · simp only [modulesOf, hrun]
  · unfold Makefiles.itemsOf
    rw [files_mk]
    exact hinv

theorem modulesOf_wf
    (htyped : ∀ n, ∀ s ∈ pcms n, s.Typed vars) :
    (modulesOf pcms).Wf vars.isList := by
  constructor
  · intro n
    obtain ⟨handle, _, hraw, _, hinv⟩ := moduleOf_spec htyped n
    rw [hraw]
    exact hinv.typed
  · intro n a c hc
    obtain ⟨handle, _, hraw, hchildren, hinv⟩ := moduleOf_spec htyped n
    rw [hraw] at hc
    rw [hchildren]
    exact hinv.referred a c hc
  · intro n
    obtain ⟨handle, _, _, hchildren, hinv⟩ := moduleOf_spec htyped n
    rw [hchildren]
    exact hinv.references.nodup

theorem inherit_of_child
    {n c : String} (hc : c ∈ (modulesOf pcms).children n) :
    .inherit c ∈ pcms n := by
  unfold modulesOf at hc
  simp only at hc
  split at hc
  · rename_i handle hrun
    exact inherit_of_runPcm hrun hc
  · cases hc

theorem ranked_order
    (hrank : ∀ n c, .inherit c ∈ pcms n → rank c < rank n) :
    Ranked (modulesOf pcms).order rank := by
  intro n c hc
  exact hrank n c (inherit_of_child (mem_order.mp hc))

/-- The tags of a makefile are those of the children of the module. -/
theorem mem_tagsOf_itemsOf
    (htyped : ∀ n, ∀ s ∈ pcms n, s.Typed vars) {v n c : String}
    (hv : v ∈ vars.singleValueVars ++ vars.listVars)
    (hc : c ∈ tagsOf ((makefilesOf vars pcms).itemsOf v (n ++ ".mk"))) :
    ∃ d ∈ (modulesOf pcms).children n, c = d ++ ".mk" := by
  obtain ⟨handle, _, _, hchildren, hinv⟩ := moduleOf_spec htyped n
  rw [hchildren]
  have htoMake : ∀ items : List Item, (∀ d ∈ tagsOf items, d ∈ handle.inheritedModules) →
      c ∈ tagsOf (items.map Item.toMake) → ∃ d ∈ handle.inheritedModules, c = d ++ ".mk" := by
    intro items hitems hmem
    rw [mem_tagsOf, List.mem_map] at hmem
    obtain ⟨it, hit, heq⟩ := hmem
    cases it with
    | word text => cases heq
    | inherit d =>
        cases heq
        exact ⟨d, hitems d (mem_tagsOf.mpr hit), rfl⟩
  rcases List.mem_append.mp hv with hv | hv
  · obtain ⟨since, henv, hsub, _⟩ := hinv.single v hv
    rw [henv, mem_tagsOf, List.mem_append] at hc
    rcases hc with hc | hc
    · split at hc
      · simp at hc
      · cases hc
    · obtain ⟨d, hd, heq⟩ := List.mem_map.mp hc
      cases heq
      exact ⟨d, hsub d hd, rfl⟩
  · rw [hinv.list v hv] at hc
    refine htoMake _ ?_ hc
    intro d hd
    cases hget : handle.cfg.get? v with
    | none =>
        rw [hget] at hd
        exact (hinv.references.tags d).mp hd
    | some value =>
        rw [hget] at hd
        cases value with
        | str text => exact (hinv.references.tags d).mp hd
        | list items =>
            refine hinv.referred v d ?_
            simpa [referred, hget] using hd

theorem tagged_of_unassigned
    (htyped : ∀ n, ∀ s ∈ pcms n, s.Typed vars) {n v : String}
    (hv : v ∈ vars.singleValueVars ++ vars.listVars)
    (hnone : ((modulesOf pcms).raw n).get? v = none) {c : String}
    (hc : c ∈ (modulesOf pcms).children n) :
    c ++ ".mk" ∈ tagsOf ((makefilesOf vars pcms).itemsOf v (n ++ ".mk")) := by
  obtain ⟨handle, _, hraw, hchildren, hinv⟩ := moduleOf_spec htyped n
  rw [hraw] at hnone
  rw [hchildren] at hc
  rcases List.mem_append.mp hv with hv | hv
  · obtain ⟨since, henv, _, hall⟩ := hinv.single v hv
    rw [henv, mem_tagsOf, List.mem_append]
    exact Or.inr (List.mem_map.mpr ⟨c, hall hnone c hc, rfl⟩)
  · rw [hinv.list v hv, hnone, mem_tagsOf, List.mem_map]
    exact ⟨.inherit c, mem_tagsOf.mp ((hinv.references.tags c).mpr hc), rfl⟩

/-- Every module that `n` inherits has a tag in some variable of its makefile. -/
def Tagged (vars : ProductVars) (pcms : String → List PcmStatement) (n : String) : Prop :=
  ∀ c ∈ (modulesOf pcms).children n, ∃ v ∈ vars.singleValueVars ++ vars.listVars,
    c ++ ".mk" ∈ tagsOf ((makefilesOf vars pcms).itemsOf v (n ++ ".mk"))

instance (vars : ProductVars) (pcms : String → List PcmStatement) (n : String) :
    Decidable (Tagged vars pcms n) :=
  inferInstanceAs (Decidable (∀ c ∈ (modulesOf pcms).children n,
    ∃ v ∈ vars.singleValueVars ++ vars.listVars,
      c ++ ".mk" ∈ tagsOf ((makefilesOf vars pcms).itemsOf v (n ++ ".mk"))))

/-- Members of a subset of the children, sorted as the makefiles are. -/
theorem eq_map_order
    (htyped : ∀ n, ∀ s ∈ pcms n, s.Typed vars) {n : String} {P : String → Prop}
    [DecidablePred P] {names : List String}
    (hmem : ∀ c, c ∈ names ↔ ∃ d ∈ (modulesOf pcms).children n, P d ∧ c = d ++ ".mk") :
    makeSort names = (((modulesOf pcms).order n).filter P).map (fun y => y ++ ".mk") := by
  refine eq_of_sorted (makeSort_sorted _) ?_ (nodup_makeSort _) ?_ ?_
  · exact (order_mk_sorted _ n).sublist (List.filter_sublist.map _)
  · refine List.Nodup.map mk_injective (List.Nodup.filter _ ?_)
    unfold Modules.order
    rw [List.nodup_reverse, (sortPcmNames_perm _).nodup_iff]
    exact (modulesOf_wf htyped).nodup n
  · intro c
    rw [mem_makeSort, hmem, List.mem_map]
    constructor
    · rintro ⟨d, hd, hP, rfl⟩
      exact ⟨d, List.mem_filter.mpr ⟨mem_order.mpr hd, decide_eq_true hP⟩, rfl⟩
    · rintro ⟨d, hd, rfl⟩
      rw [List.mem_filter] at hd
      exact ⟨d, mem_order.mp hd.1, of_decide_eq_true hd.2, rfl⟩

/-- The makefiles that are inherited, if no tag is lost. -/
theorem inheritedBy_mk
    (htyped : ∀ n, ∀ s ∈ pcms n, s.Typed vars) {n : String} (htagged : Tagged vars pcms n) :
    (makefilesOf vars pcms).inheritedBy (n ++ ".mk") =
      ((modulesOf pcms).order n).map (fun y => y ++ ".mk") := by
  have hmem : ∀ c, c ∈ tagsOf ((makefilesOf vars pcms).varList.flatMap
      (fun v => (makefilesOf vars pcms).itemsOf v (n ++ ".mk"))) ↔
      ∃ d ∈ (modulesOf pcms).children n, True ∧ c = d ++ ".mk" := by
    intro c
    rw [mem_tagsOf, List.mem_flatMap]
    constructor
    · rintro ⟨v, hv, hc⟩
      obtain ⟨d, hd, heq⟩ := mem_tagsOf_itemsOf htyped hv (mem_tagsOf.mpr hc)
      exact ⟨d, hd, trivial, heq⟩
    · rintro ⟨d, hd, _, rfl⟩
      obtain ⟨v, hv, hc⟩ := htagged d hd
      exact ⟨v, hv, mem_tagsOf.mp hc⟩
  have hsort := eq_map_order htyped hmem
  simp only [decide_true, List.filter_true] at hsort
  exact hsort

theorem ranked_inheritedBy
    (htyped : ∀ n, ∀ s ∈ pcms n, s.Typed vars)
    (hrank : ∀ n c, .inherit c ∈ pcms n → rank c < rank n) :
    Ranked (makefilesOf vars pcms).inheritedBy (fun s => rank (dropMk s)) := by
  intro s c hc
  obtain ⟨v, hv, htag⟩ := mem_inheritedBy.mp hc
  by_cases hs : dropMk s ++ ".mk" = s
  · rw [← hs] at htag
    obtain ⟨d, hd, rfl⟩ := mem_tagsOf_itemsOf htyped hv htag
    simp only [dropMk_append]
    exact hrank _ _ (inherit_of_child hd)
  · have hnil : (makefilesOf vars pcms).itemsOf v s = [] := by
      simp [Makefiles.itemsOf, makefilesOf, hs, Makefiles.readFile]
    rw [hnil] at htag
    cases htag

theorem files_inherited
    (htyped : ∀ n, ∀ s ∈ pcms n, s.Typed vars) {s c : String}
    (hc : c ∈ (makefilesOf vars pcms).inheritedBy s) :
    (makefilesOf vars pcms).files c ≠ none := by
  obtain ⟨v, hv, htag⟩ := mem_inheritedBy.mp hc
  by_cases hs : dropMk s ++ ".mk" = s
  · rw [← hs] at htag
    obtain ⟨d, _, rfl⟩ := mem_tagsOf_itemsOf htyped hv htag
    rw [files_mk]
    exact Option.some_ne_none _
  · have hnil : (makefilesOf vars pcms).itemsOf v s = [] := by
      simp [Makefiles.itemsOf, makefilesOf, hs, Makefiles.readFile]
    rw [hnil] at htag
    cases htag

end ModulesOf

section ProductConfigs

variable {pcms : String → List PcmStatement}

/-- The state of the loop that runs the modules. -/
structure RunInv (pcms : String → List PcmStatement) (s : Heap × Configs) (stack : List String) :
    Prop where
  entries : ∀ n e, s.2.get? n = some e → e = ⟨none, [], false⟩ ∧ n ∈ stack ∨
    ∃ r, e = ⟨some r, (modulesOf pcms).children n, false⟩ ∧ r < s.1.next ∧
      s.1.cells r = (modulesOf pcms).raw n
  closed : ∀ n e r, s.2.get? n = some e → e.cfg = some r →
    ∀ c ∈ (modulesOf pcms).children n, c ∈ s.2.keys

/-- Children that are not known yet are recorded without a dictionary. -/
theorem get?_addChildren
    (l : List String) (configs : Configs) (n : String) :
    (l.foldl addChild configs).get? n =
      if n ∈ l ∧ configs.get? n = none then some ⟨none, [], false⟩ else configs.get? n := by
  induction l generalizing configs with
  | nil => simp
  | cons c l ih =>
      rw [List.foldl_cons, ih]
      unfold addChild
      by_cases hc : c ∈ configs.keys
      · rw [if_pos hc]
        by_cases hn : n = c
        · subst hn
          obtain ⟨e, he⟩ := OrderedDict.mem_keys_iff.mp hc
          simp [he]
        · simp [hn]
      · rw [if_neg hc, OrderedDict.get?_set]
        have hnone : configs.get? c = none := by
          cases hget : configs.get? c with
          | none => rfl
          | some e => exact absurd (OrderedDict.mem_keys_iff.mpr ⟨e, hget⟩) hc
        by_cases hn : n = c
        · subst hn
          simp [hnone]
        · simp [hn]

theorem mem_keys_addChildren
    {l : List String} {configs : Configs} {n : String} :
    n ∈ (l.foldl addChild configs).keys ↔ n ∈ l ∨ n ∈ configs.keys := by
  simp only [OrderedDict.mem_keys_iff, get?_addChildren]
  cases hget : configs.get? n with
  | none => simp
  | some e => simp

theorem RunInv.run
    {h : Heap} {configs : Configs} {name : String} {stack : List String}
    (hinv : RunInv pcms (h, configs) (name :: stack)) {handle : Handle}
    (hrun : runPcm (pcms name) = .ok handle) :
    RunInv pcms (h.alloc handle.cfg, (sortPcmNames handle.inheritedModules).foldl addChild
        (configs.set name ⟨some h.next, handle.inheritedModules, false⟩))
      ((sortPcmNames handle.inheritedModules).reverse ++ stack) := by
  have hraw : (modulesOf pcms).raw name = handle.cfg := by simp only [modulesOf, hrun]
  have hchildren : (modulesOf pcms).children name = handle.inheritedModules := by
    simp only [modulesOf, hrun]
  have hcells : ∀ r < h.next, (h.alloc handle.cfg).cells r = h.cells r :=
    fun r hr => Function.update_of_ne (Nat.ne_of_lt hr) _ _
  constructor
  · intro n e he
    simp only [get?_addChildren, OrderedDict.get?_set] at he
    by_cases hn : n = name
    · subst hn
      have he' : ⟨some h.next, handle.inheritedModules, false⟩ = e := by simpa using he
      refine Or.inr ⟨h.next, ?_, Nat.lt_succ_self _, ?_⟩
      · rw [← he', hchildren]
      · simp [Heap.alloc, hraw]
    · simp only [if_neg hn] at he
      split_ifs at he with hnew
      · cases he
        exact Or.inl ⟨rfl, by simp [hnew.1]⟩
      · rcases hinv.entries n e he with ⟨he', hstack⟩ | ⟨r, he', hr, hcell⟩
        · exact Or.inl ⟨he', List.mem_append_right _
            ((List.mem_cons.mp hstack).resolve_left hn)⟩
        · exact Or.inr ⟨r, he', hr.trans (Nat.lt_succ_self _), by rw [hcells r hr, hcell]⟩
  · intro n e r he hr c hc
    rw [mem_keys_addChildren, OrderedDict.mem_keys_set]
    by_cases hn : n = name
    · subst hn
      rw [hchildren] at hc
      exact Or.inl ((sortPcmNames_perm _).mem_iff.mpr hc)
    · simp only [get?_addChildren, OrderedDict.get?_set, if_neg hn] at he
      split_ifs at he with hnew
      · cases he
        cases hr
      · exact Or.inr (Or.inr (hinv.closed n e r he hr c hc))

theorem RunInv.recorded
    {s : Heap × Configs} (hinv : RunInv pcms s []) :
    Recorded (modulesOf pcms) s.1 s.2 := by
  constructor
  · intro n e he
    rcases hinv.entries n e he with ⟨_, hstack⟩ | h
    · cases hstack
    · exact h
  · intro n hn
    obtain ⟨e, he⟩ := OrderedDict.mem_keys_iff.mp hn
    rcases hinv.entries n e he with ⟨_, hstack⟩ | ⟨r, rfl, _⟩
    · cases hstack
    · exact hinv.closed n _ r he rfl

theorem runPcms_recorded
    {fuel : Nat} {s s' : Heap × Configs} {stack : List String} (hinv : RunInv pcms s stack)
    (hrun : runPcms pcms fuel s stack = .ok s') :
    Recorded (modulesOf pcms) s'.1 s'.2 := by
  induction fuel generalizing s stack with
  | zero =>
      cases stack with
      | nil =>
          rw [runPcms] at hrun
          cases hrun
          exact hinv.recorded
      | cons name stack => cases hrun
  | succ fuel ih =>
      cases stack with
      | nil =>
          rw [runPcms] at hrun
          cases hrun
          exact hinv.recorded
      | cons name stack =>
          obtain ⟨h, configs⟩ := s
          rw [runPcms, bind_eq_ok] at hrun
          obtain ⟨e, hentry, hrun⟩ := hrun
          have hget : configs.get? name = some e := by
            unfold Configs.entry at hentry
            split at hentry
            · cases hentry
              assumption
            · cases hentry
          split_ifs at hrun with hsome
          · refine ih ⟨?_, hinv.closed⟩ hrun
            intro n e' he'
            rcases hinv.entries n e' he' with ⟨hnone, hstack⟩ | hdone
            · refine Or.inl ⟨hnone, (List.mem_cons.mp hstack).resolve_left ?_⟩
              rintro rfl
              have hsame : e = e' := Option.some.inj (hget.symm.trans he')
              rw [hsame, hnone] at hsome
              cases hsome
            · exact Or.inr hdone
          · rw [bind_eq_ok] at hrun
            obtain ⟨handle, hpcm, hrun⟩ := hrun
            exact ih (hinv.run hpcm) hrun

theorem productConfigs_recorded
    {top : String} {h : Heap} {configs : Configs}
    (hrun : productConfigs pcms top = .ok (h, configs)) :
    Recorded (modulesOf pcms) h configs := by
  refine runPcms_recorded ⟨?_, ?_⟩ hrun
  · intro n e he
    simp only [OrderedDict.get?_set] at he
    split_ifs at he with hn
    · cases he
      exact Or.inl ⟨rfl, by simp [hn]⟩
    · cases he
  · intro n e r he hr
    simp only [OrderedDict.get?_set] at he
    split_ifs at he
    · cases he
      cases hr
    · cases he

end ProductConfigs

end ProductConfig
end AndroidBuild
