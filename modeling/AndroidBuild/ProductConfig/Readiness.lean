import AndroidBuild.ProductConfig.Modules

/-!
# Modules are evaluated after their children

The modules are visited in postfix order, so `evaluate_finalized_product_variables`
never meets a module that has not been run, nor a child that is not ready.  This
holds for modules with any statements: the references in the lists of a module
are to its children, and the lists of a module that is ready have none.  The
only error left is a list in the place of a string, or the reverse.
-/

namespace AndroidBuild
namespace ProductConfig

open Loop PostOrder

/-- An operation on a value of the wrong type. -/
def PcmError.IsTypeError (e : PcmError) : Prop :=
  ∃ attr, e = .typeError attr

section References

/-- The references of a module are to the modules it inherits. -/
structure RefersToInherited (handle : Handle) : Prop where
  cfg : ∀ a, ∀ c ∈ referred handle.cfg a, c ∈ handle.inheritedModules
  default : ∀ c ∈ tagsOf handle.defaultListValue, c ∈ handle.inheritedModules
  nodup : handle.inheritedModules.Nodup

/-- The references after an attribute has been set. -/
theorem mem_referred_set
    {cfg : Cfg} {attr a c : String} {value : Value} (hc : c ∈ referred (cfg.set attr value) a) :
    (∃ items, value = .list items ∧ c ∈ tagsOf items) ∨ c ∈ referred cfg a := by
  rw [referred, OrderedDict.get?_set] at hc
  by_cases ha : a = attr
  · rw [if_pos ha] at hc
    cases value with
    | list items => exact Or.inl ⟨items, rfl, hc⟩
    | str text => cases hc
  · rw [if_neg ha] at hc
    exact Or.inr hc

theorem mem_tagsOf_append
    {items more : List Item} {c : String} :
    c ∈ tagsOf (items ++ more) ↔ c ∈ tagsOf items ∨ c ∈ tagsOf more := by
  rw [tagsOf, List.filterMap_append, List.mem_append]
  rfl

theorem RefersToInherited.set
    {handle : Handle} (h : RefersToInherited handle) {attr : String} {value : Value}
    (hvalue : ∀ items, value = .list items → ∀ c ∈ tagsOf items, c ∈ handle.inheritedModules) :
    RefersToInherited { handle with cfg := handle.cfg.set attr value } := by
  refine ⟨?_, h.default, h.nodup⟩
  intro a c hc
  rcases mem_referred_set hc with ⟨items, hitems, hc⟩ | hc
  · exact hvalue items hitems c hc
  · exact h.cfg a c hc

theorem RefersToInherited.setdefault
    {handle : Handle} (h : RefersToInherited handle) (attr : String) :
    RefersToInherited (handle.setdefault attr) ∧
      (handle.setdefault attr).inheritedModules = handle.inheritedModules := by
  rw [Handle.setdefault]
  split
  · refine ⟨h.set ?_, rfl⟩
    rintro items ⟨⟩
    exact h.default
  · exact ⟨h, rfl⟩

theorem RefersToInherited.inherit
    {handle : Handle} (h : RefersToInherited handle) (name : String) :
    RefersToInherited (handle.inherit name) := by
  have hname : name ∈ (handle.inherit name).inheritedModules := by
    rw [Handle.inherit]
    split
    · assumption
    · exact List.mem_append_right _ (List.mem_singleton_self name)
  have hold : ∀ c ∈ handle.inheritedModules, c ∈ (handle.inherit name).inheritedModules := by
    intro c hc
    rw [Handle.inherit]
    split
    · exact hc
    · exact List.mem_append_left _ hc
  have hitem : ∀ c ∈ tagsOf [Item.inherit name], c ∈ (handle.inherit name).inheritedModules := by
    intro c hc
    rw [mem_tagsOf, List.mem_singleton, Item.inherit.injEq] at hc
    exact hc ▸ hname
  constructor
  · intro a c hc
    rw [referred, Handle.inherit, OrderedDict.get?_mapValues] at hc
    cases hget : handle.cfg.get? a with
    | none =>
        rw [hget] at hc
        cases hc
    | some value =>
        rw [hget] at hc
        cases value with
        | str text => cases hc
        | list items =>
            rcases mem_tagsOf_append.mp hc with hc | hc
            · refine hold c (h.cfg a c ?_)
              rw [referred, hget]
              exact hc
            · exact hitem c hc
  · intro c hc
    rcases mem_tagsOf_append.mp hc with hc | hc
    · exact hold c (h.default c hc)
    · exact hitem c hc
  · rw [Handle.inherit]
    split
    · exact h.nodup
    · exact List.nodup_append.mpr ⟨h.nodup, List.nodup_singleton name,
        fun a ha b hb hab => by
          rw [List.mem_singleton] at hb
          exact ‹name ∉ handle.inheritedModules› (hb ▸ hab ▸ ha)⟩

theorem RefersToInherited.run
    {handle r : Handle} (h : RefersToInherited handle) {s : PcmStatement}
    (hrun : handle.run s = .ok r) :
    RefersToInherited r := by
  have hwords : ∀ words : List String, ∀ c ∈ tagsOf (words.map Item.word),
      c ∈ handle.inheritedModules := by
    intro words c hc
    rw [tagsOf_words] at hc
    cases hc
  cases s with
  | setList attr words =>
      cases hrun
      refine h.set ?_
      rintro items ⟨⟩
      exact hwords words
  | setString attr text =>
      cases hrun
      refine h.set ?_
      rintro items ⟨⟩
  | inherit name =>
      cases hrun
      exact h.inherit name
  | append attr words =>
      obtain ⟨hdefault, hmodules⟩ := h.setdefault attr
      simp only [Handle.run] at hrun
      split at hrun
      · rename_i items hget
        cases hrun
        refine hdefault.set ?_
        rintro more ⟨⟩ c hc
        rcases mem_tagsOf_append.mp hc with hc | hc
        · refine hdefault.cfg attr c ?_
          rw [referred, hget]
          exact hc
        · rw [hmodules]
          exact hwords words c hc
      · cases hrun

theorem refersToInherited_of_runPcm
    {pcm : List PcmStatement} {handle : Handle} (hrun : runPcm pcm = .ok handle) :
    RefersToInherited handle := by
  refine forLoop_preserves RefersToInherited hrun ?_ ?_
  · refine ⟨?_, ?_, List.nodup_nil⟩
    · intro a c hc
      cases hc
    · intro c hc
      cases hc
  · intro s r r' _ hr hstep
    exact hr.run hstep

variable (pcms : String → List PcmStatement)

theorem referred_modulesOf
    (n a : String) :
    ∀ c ∈ referred ((modulesOf pcms).raw n) a, c ∈ (modulesOf pcms).children n := by
  simp only [modulesOf]
  cases hrun : runPcm (pcms n) with
  | error e =>
      intro c hc
      cases hc
  | ok handle => exact (refersToInherited_of_runPcm hrun).cfg a

theorem nodup_children (n : String) :
    ((modulesOf pcms).children n).Nodup := by
  simp only [modulesOf]
  cases hrun : runPcm (pcms n) with
  | error e => exact List.nodup_nil
  | ok handle => exact (refersToInherited_of_runPcm hrun).nodup

end References

section Clean

variable {configs : Configs} {names : List String} {ref : String → Nat}
  {children : String → List String} {done mods : List String} {h₀ h : Heap}

/-- No list refers to a module. -/
def Plain (cfg : Cfg) : Prop :=
  ∀ a, referred cfg a = []

theorem Plain.set
    {cfg : Cfg} (hcfg : Plain cfg) {attr : String} {value : Value}
    (hvalue : ∀ items, value = .list items → tagsOf items = []) :
    Plain (cfg.set attr value) := by
  intro a
  rw [List.eq_nil_iff_forall_not_mem]
  intro c hc
  rcases mem_referred_set hc with ⟨items, hitems, hc⟩ | hc
  · rw [hvalue items hitems] at hc
    cases hc
  · rw [hcfg a] at hc
    cases hc

theorem Plain.erase
    {cfg : Cfg} (hcfg : Plain cfg) (attr : String) :
    Plain (cfg.erase attr) := by
  intro a
  by_cases ha : a = attr
  · rw [referred, ha, OrderedDict.get?_erase_self]
  · rw [referred, cfg.get?_erase ha]
    exact hcfg a

theorem Plain.list
    {cfg : Cfg} (hcfg : Plain cfg) {a : String} {items : List Item}
    (hget : cfg.get? a = some (.list items)) :
    tagsOf items = [] := by
  have h := hcfg a
  rw [referred, hget] at h
  exact h

/-- The dictionaries in `mods` refer to no module; the others are as in `h₀`. -/
structure Clean (ref : String → Nat) (mods : List String) (h₀ h : Heap) : Prop where
  plain : ∀ m ∈ mods, Plain (h.cells (ref m))
  frame : ∀ r, (∀ m ∈ mods, r ≠ ref m) → h.cells r = h₀.cells r
  next : h.next = h₀.next

theorem Clean.write
    (hclean : Clean ref mods h₀ h) {n : String} (hn : n ∈ mods) {cfg : Cfg} (hcfg : Plain cfg) :
    Clean ref mods h₀ (h.write (ref n) cfg) := by
  refine ⟨?_, ?_, hclean.next⟩
  · intro m hm
    by_cases hr : ref m = ref n
    · simp only [Heap.write, hr, Function.update_self]
      exact hcfg
    · simp only [Heap.write, Function.update_of_ne hr]
      exact hclean.plain m hm
  · intro r hr
    simp only [Heap.write, Function.update_of_ne (hr n hn)]
    exact hclean.frame r hr

/-- A dictionary outside of `mods` changes. -/
theorem Clean.writeOther
    {r : Nat} {cfg₀ : Cfg} (hclean : Clean ref mods (h₀.write r cfg₀) h)
    (hr : ∀ m ∈ mods, r ≠ ref m) (cfg : Cfg) :
    Clean ref mods (h₀.write r cfg) (h.write r cfg) := by
  refine ⟨?_, ?_, hclean.next⟩
  · intro m hm
    simp only [Heap.write, Function.update_of_ne (Ne.symm (hr m hm))]
    exact hclean.plain m hm
  · intro k hk
    by_cases hkr : k = r
    · simp [Heap.write, hkr]
    · have hframe := hclean.frame k hk
      simp only [Heap.write, Function.update_of_ne hkr] at hframe ⊢
      exact hframe

theorem moveItems_clean
    (hclean : Clean ref mods h₀ h) {c : String} (hc : c ∈ mods) {toList : List Item}
    (hlist : tagsOf toList = []) (attr : String) :
    Yields PcmError.IsTypeError (fun p => tagsOf p.1 = [] ∧ Clean ref mods h₀ p.2)
      (moveItems h toList (ref c) attr) := by
  rw [moveItems]
  cases hget : (h.cells (ref c)).get? attr with
  | none => exact ⟨hlist, hclean⟩
  | some value =>
      cases value with
      | str text =>
          simp only
          split
          · exact ⟨hlist, hclean⟩
          · exact ⟨attr, rfl⟩
      | list items =>
          simp only
          split
          · exact ⟨hlist, hclean⟩
          · refine ⟨?_, hclean.write hc ((hclean.plain c hc).erase attr)⟩
            rw [tagsOf, List.filterMap_append]
            exact List.append_eq_nil_iff.mpr ⟨hlist, (hclean.plain c hc).list hget⟩

theorem expandItem_clean
    (hev : Evaluating configs names ref children done) (attr : String) {s : Expanding}
    (hresult : tagsOf s.result = []) (hclean : Clean ref done h₀ s.heap) {it : Item}
    (hit : ∀ c ∈ tagsOf [it], c ∈ done) :
    Yields PcmError.IsTypeError (fun r => tagsOf r.result = [] ∧ Clean ref done h₀ r.heap)
      (expandItem configs attr s it) := by
  cases it with
  | word text =>
      refine ⟨?_, hclean⟩
      rw [tagsOf, List.filterMap_append]
      exact List.append_eq_nil_iff.mpr ⟨hresult, rfl⟩
  | inherit child =>
      have hchild : child ∈ done := hit child (List.mem_singleton_self child)
      rw [expandItem]
      split
      · exact ⟨hresult, hclean⟩
      · rw [hev.entry_eq (hev.known child hchild), hev.cfgOf_eq (hev.known child hchild)]
        simp only [bind, Except.bind, hchild, decide_true, Bool.not_true, Bool.false_eq_true,
          if_false]
        refine Yields.bind (moveItems_clean hclean hchild hresult attr) ?_
        intro p hp
        exact hp

theorem valueExpand_clean
    (hev : Evaluating configs names ref children done) (attr : String)
    (hclean : Clean ref done h₀ h) {items : List Item} (hitems : ∀ c ∈ tagsOf items, c ∈ done) :
    Yields PcmError.IsTypeError (fun r => tagsOf r.result = [] ∧ Clean ref done h₀ r.heap)
      (valueExpand configs attr items h) := by
  refine forLoop_yields_of_mem _ ⟨rfl, hclean⟩ ?_
  intro it hit s hs
  refine expandItem_clean hev attr hs.1 hs.2 ?_
  intro c hc
  rw [mem_tagsOf, List.mem_singleton] at hc
  exact hitems c (mem_tagsOf.mpr (hc ▸ hit))

/-- The attributes in `finished` refer to no module, the others are as in `raw`. -/
def Substituting (ref : String → Nat) (done : List String) (h₀ : Heap) (n : String) (raw : Cfg)
    (finished : List String) (h : Heap) : Prop :=
  ∃ cfg, Clean ref done (h₀.write (ref n) cfg) h ∧
    (∀ a ∈ finished, referred cfg a = []) ∧ ∀ a ∉ finished, cfg.get? a = raw.get? a

theorem substituteAttr_clean
    (hev : Evaluating configs names ref children done) {n : String}
    (hn : ∀ m ∈ done, ref n ≠ ref m) {raw : Cfg} {finished : List String} {a : String}
    (hfresh : a ∉ finished) {value : Value} (hget : raw.get? a = some value)
    (htags : ∀ c ∈ referred raw a, c ∈ done) (hinv : Substituting ref done h₀ n raw finished h) :
    Yields PcmError.IsTypeError (Substituting ref done h₀ n raw (finished ++ [a]))
      (substituteAttr configs (ref n) h (a, value)) := by
  obtain ⟨cfg, hclean, hfinished, hrest⟩ := hinv
  rw [referred, hget] at htags
  cases value with
  | str text =>
      refine ⟨cfg, hclean, ?_, ?_⟩
      · intro b hb
        rcases List.mem_append.mp hb with hb | hb
        · exact hfinished b hb
        · rw [List.mem_singleton.mp hb, referred, hrest a hfresh, hget]
      · intro b hb
        exact hrest b (fun hmem => hb (List.mem_append_left _ hmem))
  | list items =>
      refine Yields.bind (valueExpand_clean hev a hclean htags) ?_
      rintro s ⟨hresult, hs⟩
      have hcell : s.heap.cells (ref n) = cfg := by
        rw [hs.frame (ref n) hn]
        exact Function.update_self _ _ _
      rw [hcell]
      refine ⟨cfg.set a (.list s.result), hs.writeOther hn _, ?_, ?_⟩
      · intro b hb
        rw [referred, OrderedDict.get?_set]
        by_cases hba : b = a
        · rw [if_pos hba]
          exact hresult
        · rw [if_neg hba]
          rcases List.mem_append.mp hb with hb | hb
          · exact hfinished b hb
          · exact absurd (List.mem_singleton.mp hb) hba
      · intro b hb
        rw [List.mem_append, List.mem_singleton, not_or] at hb
        rw [OrderedDict.get?_set, if_neg hb.2]
        exact hrest b hb.1

theorem substituteInherited_clean
    (hev : Evaluating configs names ref children done) {n : String}
    (hn : ∀ m ∈ done, ref n ≠ ref m)
    (htags : ∀ a, ∀ c ∈ referred (h.cells (ref n)) a, c ∈ done) (hclean : Clean ref done h₀ h) :
    Yields PcmError.IsTypeError (Clean ref (n :: done) h₀)
      (substituteInherited configs (ref n) h) := by
  have hinit : Substituting ref done h₀ n (h.cells (ref n)) [] h := by
    refine ⟨h.cells (ref n), ⟨hclean.plain, ?_, hclean.next⟩, by simp, fun _ _ => rfl⟩
    intro r hr
    by_cases hrn : r = ref n
    · simp [Heap.write, hrn]
    · simp only [Heap.write, Function.update_of_ne hrn]
      exact hclean.frame r hr
  refine Yields.mono (forLoop_yields
    (fun finished s => Substituting ref done h₀ n (h.cells (ref n)) (finished.map Prod.fst) s)
    (h.cells (ref n)).entries h hinit ?_) ?_
  · intro finished e rest s hsplit hs
    have hget : (h.cells (ref n)).get? e.1 = some e.2 :=
      (h.cells (ref n)).get?_of_mem (by simp [hsplit])
    have hfresh : e.1 ∉ finished.map Prod.fst := by
      intro hmem
      have hnodup := (h.cells (ref n)).nodup
      rw [hsplit, List.map_append, List.map_cons] at hnodup
      exact (List.nodup_append.mp hnodup).2.2 e.1 hmem e.1 (by simp) rfl
    rw [List.map_append, List.map_singleton]
    exact substituteAttr_clean hev hn hfresh hget (htags e.1) hs
  · rintro s ⟨cfg, hs, hfinished, hrest⟩
    have hcell : s.cells (ref n) = cfg := by
      rw [hs.frame (ref n) hn]
      exact Function.update_self _ _ _
    refine ⟨?_, ?_, hs.next⟩
    · intro m hm
      rcases List.mem_cons.mp hm with rfl | hm
      · intro a
        rw [hcell]
        by_cases ha : a ∈ (h.cells (ref m)).keys
        · exact hfinished a ha
        · rw [referred, hrest a ha]
          cases hget : (h.cells (ref m)).get? a with
          | none => rfl
          | some value => exact absurd (OrderedDict.mem_keys_iff.mpr ⟨value, hget⟩) ha
      · exact hs.plain m hm
    · intro r hr
      rw [List.forall_mem_cons] at hr
      rw [hs.frame r hr.2]
      exact Function.update_of_ne hr.1 _ _

end Clean

section Percolate

variable {configs : Configs} {ref : String → Nat} {mods : List String} {h₀ h : Heap} {n c : String}

theorem moveAttr_clean
    (hclean : Clean ref mods h₀ h) (hn : n ∈ mods) (hc : c ∈ mods) (attr : String) :
    Yields PcmError.IsTypeError (Clean ref mods h₀) (moveAttr (ref n) (ref c) attr h) := by
  rw [moveAttr]
  split
  · rename_i items hget
    refine Yields.bind (moveItems_clean hclean hc ((hclean.plain n hn).list hget) attr) ?_
    rintro ⟨items', h'⟩ ⟨hitems, hclean'⟩
    refine hclean'.write hn ((hclean'.plain n hn).set ?_)
    rintro more ⟨⟩
    exact hitems
  · exact ⟨attr, rfl⟩

theorem percolateList_clean
    (hn : n ∈ mods) (hc : c ∈ mods) (e : String × Value) {s : Heap × List String}
    (hclean : Clean ref mods h₀ s.1) :
    Yields PcmError.IsTypeError (fun r => Clean ref mods h₀ r.1)
      (percolateList (ref n) (ref c) s e) := by
  rw [percolateList]
  split
  · exact hclean
  · split
    · refine Yields.bind (moveAttr_clean hclean hn hc e.1) ?_
      intro h' hclean'
      exact hclean'
    · split
      · exact hclean
      · have hempty : Clean ref mods h₀
            (s.1.write (ref n) ((s.1.cells (ref n)).set e.1 (.list []))) := by
          refine hclean.write hn ((hclean.plain n hn).set ?_)
          rintro more ⟨⟩
          rfl
        refine Yields.bind (moveAttr_clean hempty hn hc e.1) ?_
        intro h' hclean'
        exact hclean'

theorem percolateLists_clean
    (hcfg : configs.cfgOf c = .ok (ref c)) (hn : n ∈ mods) (hc : c ∈ mods)
    {s : Heap × List String} (hclean : Clean ref mods h₀ s.1) :
    Yields PcmError.IsTypeError (fun r => Clean ref mods h₀ r.1)
      (percolateLists configs (ref n) s c) := by
  rw [percolateLists, hcfg]
  refine forLoop_yields_of_mem _ hclean ?_
  intro e _ r hr
  exact percolateList_clean hn hc e hr

theorem percolateString_clean
    (hn : n ∈ mods) (hc : c ∈ mods) (e : String × Value) (hclean : Clean ref mods h₀ h) :
    Clean ref mods h₀ (percolateString (ref n) (ref c) h e) := by
  rw [percolateString]
  cases hvalue : e.2 with
  | list items => exact hclean
  | str text =>
      simp only
      split
      · have hown : Clean ref mods h₀ (h.write (ref n) ((h.cells (ref n)).set e.1 (.str text))) := by
          refine hclean.write hn ((hclean.plain n hn).set ?_)
          rintro more ⟨⟩
        exact hown.write hc ((hown.plain c hc).erase e.1)
      · exact hclean

theorem percolateStrings_clean
    (hcfg : configs.cfgOf c = .ok (ref c)) (hn : n ∈ mods) (hc : c ∈ mods)
    (hclean : Clean ref mods h₀ h) :
    Yields PcmError.IsTypeError (Clean ref mods h₀) (percolateStrings configs (ref n) h c) := by
  rw [percolateStrings, hcfg]
  suffices H : ∀ (l : List (String × Value)) (h : Heap), Clean ref mods h₀ h →
      Clean ref mods h₀ (l.foldl (percolateString (ref n) (ref c)) h) from
    H _ _ hclean
  intro l
  induction l with
  | nil =>
      intro h hh
      exact hh
  | cons e l ih =>
      intro h hh
      exact ih _ (percolateString_clean hn hc e hh)

theorem percolateInherited_clean
    {childrenNames : List String} (hcfg : ∀ c ∈ childrenNames, configs.cfgOf c = .ok (ref c))
    (hn : n ∈ mods) (hchildren : ∀ c ∈ childrenNames, c ∈ mods) (hclean : Clean ref mods h₀ h) :
    Yields PcmError.IsTypeError (Clean ref mods h₀)
      (percolateInherited configs (ref n) childrenNames h) := by
  have hsort : ∀ c, c ∈ sortNames childrenNames ↔ c ∈ childrenNames :=
    fun c => (List.perm_insertionSort _ _).mem_iff
  have hlists : Yields PcmError.IsTypeError (fun r : Heap × List String => Clean ref mods h₀ r.1)
      (childrenNames.foldlM (percolateLists configs (ref n)) (h, [])) := by
    refine forLoop_yields_of_mem _ hclean ?_
    intro c hc r hr
    exact percolateLists_clean (hcfg c hc) hn (hchildren c hc) hr
  refine Yields.bind hlists ?_
  rintro ⟨h', attrs⟩ hclean'
  refine forLoop_yields_of_mem _ hclean' ?_
  intro c hc r hr
  rw [hsort] at hc
  exact percolateStrings_clean (hcfg c hc) hn (hchildren c hc) hr

end Percolate

section Evaluate

variable {M : Modules} {configs : Configs} {names : List String} {ref : String → Nat}
  {done : List String} {h₀ h : Heap}

/-- The modules in `done` refer to no module, the others to their children. -/
structure Readied (M : Modules) (names : List String) (ref : String → Nat) (h₀ : Heap)
    (done : List String) (h : Heap) : Prop where
  clean : Clean ref done h₀ h
  raw : ∀ m ∈ names, ∀ a, ∀ c ∈ referred (h₀.cells (ref m)) a, c ∈ M.children m

/-- A module whose children are ready becomes ready. -/
theorem evaluatePcm_ready
    (hev : Evaluating configs names ref M.children done) (hready : Readied M names ref h₀ done h)
    {n : String} (hn : n ∈ names) (hchildren : ∀ c ∈ M.children n, c ∈ done) :
    Yields PcmError.IsTypeError
      (fun s => ∃ done', (∀ m, m ∈ done' ↔ m = n ∨ m ∈ done) ∧
        Evaluating s.2 names ref M.children done' ∧ Readied M names ref h₀ done' s.1)
      (evaluatePcm (h, configs) n) := by
  simp only [evaluatePcm, hev.entry_eq hn, hev.cfgOf_eq hn, bind, Except.bind]
  by_cases hdone : n ∈ done
  · simp only [hdone, decide_true, if_true]
    refine ⟨done, ?_, hev, hready⟩
    intro m
    constructor
    · exact Or.inr
    · rintro (rfl | hm)
      · exact hdone
      · exact hm
  · simp only [hdone, decide_false, Bool.false_eq_true, if_false, checkChildren_eq hev hchildren]
    have href : ∀ m ∈ done, ref n ≠ ref m := by
      intro m hm he
      have hnm := hev.inj n hn m (hev.known m hm) he
      exact hdone (hnm ▸ hm)
    have htags : ∀ a, ∀ c ∈ referred (h.cells (ref n)) a, c ∈ done := by
      intro a c hc
      rw [hready.clean.frame (ref n) href] at hc
      exact hchildren c (hready.raw n hn a c hc)
    refine Yields.bind (substituteInherited_clean hev href htags hready.clean) ?_
    intro h₁ hclean₁
    have hcfg : ∀ c ∈ M.children n, configs.cfgOf c = .ok (ref c) :=
      fun c hc => hev.cfgOf_eq (hev.known c (hchildren c hc))
    refine Yields.bind (percolateInherited_clean hcfg List.mem_cons_self
      (fun c hc => List.mem_cons_of_mem _ (hchildren c hc)) hclean₁) ?_
    intro h₂ hclean₂
    exact ⟨n :: done, fun m => List.mem_cons, hev.ready hn, hclean₂, hready.raw⟩

/-- In an order with the children first, all modules become ready. -/
theorem evaluateLoop_ready
    (hev : Evaluating configs names ref M.children []) (hready : Readied M names ref h₀ [] h)
    (hfirst : ChildrenFirst M.children names) :
    Yields PcmError.IsTypeError
      (fun s => ∃ done, Evaluating s.2 names ref M.children done ∧ Readied M names ref h₀ done s.1)
      (names.foldlM evaluatePcm (h, configs)) := by
  refine Yields.mono (forLoop_yields
    (fun finished s => ∃ done, (∀ m, m ∈ done ↔ m ∈ finished) ∧
      Evaluating s.2 names ref M.children done ∧ Readied M names ref h₀ done s.1)
    names (h, configs) ⟨[], by simp, hev, hready⟩ ?_) ?_
  · rintro finished n rest ⟨h', configs'⟩ hsplit ⟨done, hdone, hev', hready'⟩
    have hchildren : ∀ c ∈ M.children n, c ∈ done :=
      fun c hc => (hdone c).mpr (hfirst finished n rest hsplit c hc)
    refine Yields.mono (evaluatePcm_ready hev' hready' (by simp [hsplit]) hchildren) ?_
    rintro s ⟨done', hdone', hev'', hready''⟩
    refine ⟨done', ?_, hev'', hready''⟩
    intro m
    rw [hdone' m, hdone m, List.mem_append, List.mem_singleton, or_comm]
  · rintro s ⟨done, _, hev', hready'⟩
    exact ⟨done, hev', hready'⟩

def evaluateInOrder (h : Heap) (configs : Configs) (names : List String) (top : String) :
    Except PcmError (Cfg × Heap) := do
  let cloned ← cloneConfigs names h configs
  let s ← names.foldlM evaluatePcm cloned
  let ref ← s.2.cfgOf top
  pure (s.1.cells ref, s.1)

theorem evaluateFinalizedProductVariables_eq (h : Heap) (configs : Configs) (top : String) :
    evaluateFinalizedProductVariables h configs top =
      (configsPostfix configs 1000 [(top, true)] [] >>= fun names =>
        evaluateInOrder h configs names top) :=
  rfl

/-- The dictionaries of the modules are not touched by an evaluation. -/
theorem evaluateInOrder_ready
    (hrec : Recorded M h configs)
    (hraw : ∀ n a, ∀ c ∈ referred (M.raw n) a, c ∈ M.children n)
    (hnames : ∀ n ∈ names, n ∈ configs.keys) (hfirst : ChildrenFirst M.children names)
    {top : String} (htop : top ∈ names) :
    Yields PcmError.IsTypeError
      (fun r => h.next ≤ r.2.next ∧ ∀ k < h.next, r.2.cells k = h.cells k)
      (evaluateInOrder h configs names top) := by
  obtain ⟨h₁, cloned, ref, hclone, hev, hcells, href, hold, hnext⟩ := cloneConfigs_spec hrec hnames
  have hready : Readied M names ref h₁ [] h₁ := by
    refine ⟨⟨by simp, fun _ _ => rfl, rfl⟩, ?_⟩
    intro m hm a c hc
    rw [hcells m hm] at hc
    exact hraw m a c hc
  rw [evaluateInOrder, hclone]
  change Yields _ _ (names.foldlM evaluatePcm (h₁, cloned) >>= _)
  refine Yields.bind (evaluateLoop_ready hev hready hfirst) ?_
  rintro s ⟨done, hev', hready'⟩
  rw [hev'.cfgOf_eq htop]
  refine ⟨hnext.trans hready'.clean.next.ge, ?_⟩
  intro k hk
  rw [← hold k hk]
  refine hready'.clean.frame k ?_
  rintro m hm rfl
  exact absurd (href m (hev'.known m hm)) (Nat.not_le_of_lt hk)

end Evaluate

end ProductConfig
end AndroidBuild
