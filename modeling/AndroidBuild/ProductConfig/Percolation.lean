import AndroidBuild.ProductConfig.Expansion
import AndroidBuild.ProductConfig.Starlark

/-!
# What `_substitute_inherited` and `_percolate_inherited` compute

Once the modules it inherits are ready, a module takes their lists where they
are referred to, or in the order of the `inherit` calls where the module does
not assign the attribute.  Of the strings it takes the first that is not
empty, in the order of the names.
-/

namespace AndroidBuild
namespace ProductConfig

open Loop

/-- The dictionary has the given lists and strings; an absent attribute counts
as empty.  `isList` tells which attributes are lists. -/
structure Holds (isList : String → Bool) (cfg : Cfg) (lists : String → List String)
    (texts : String → String) : Prop where
  list : ∀ a, isList a = true →
    cfg.get? a = some (.list ((lists a).map Item.word)) ∨ cfg.get? a = none ∧ lists a = []
  text : ∀ a, isList a = false →
    cfg.get? a = some (.str (texts a)) ∨ cfg.get? a = none ∧ texts a = ""

/-- The modules of an evaluation, of which those in `done` are ready. -/
structure Evaluating (configs : Configs) (names : List String) (ref : String → Nat)
    (children : String → List String) (done : List String) : Prop where
  entries : ∀ n ∈ names, configs.get? n = some ⟨some (ref n), children n, decide (n ∈ done)⟩
  inj : ∀ m ∈ names, ∀ n ∈ names, ref m = ref n → m = n
  known : ∀ n ∈ done, n ∈ names

/-- The dictionaries of the modules in `mods`; the others are as in `h₀`. -/
structure At (isList : String → Bool) (ref : String → Nat) (mods : List String) (h₀ : Heap)
    (cur : String → String → List String) (txt : String → String → String) (h : Heap) :
    Prop where
  holds : ∀ m ∈ mods, Holds isList (h.cells (ref m)) (fun a => cur a m) (fun a => txt a m)
  frame : ∀ r, (∀ m ∈ mods, r ≠ ref m) → h.cells r = h₀.cells r
  next : h.next = h₀.next

variable {isList : String → Bool} {configs : Configs} {names : List String} {ref : String → Nat}
  {children : String → List String} {done : List String}

namespace Evaluating

theorem entry_eq
    (h : Evaluating configs names ref children done) {n : String} (hn : n ∈ names) :
    configs.entry n = .ok ⟨some (ref n), children n, decide (n ∈ done)⟩ := by
  unfold Configs.entry
  rw [h.entries n hn]

theorem cfgOf_eq
    (h : Evaluating configs names ref children done) {n : String} (hn : n ∈ names) :
    configs.cfgOf n = .ok (ref n) := by
  unfold Configs.cfgOf
  rw [h.entry_eq hn]
  rfl

/-- A module has become ready. -/
theorem ready
    (h : Evaluating configs names ref children done) {n : String} (hn : n ∈ names) :
    Evaluating (configs.set n ⟨some (ref n), children n, true⟩) names ref children (n :: done) := by
  constructor
  · intro m hm
    rw [OrderedDict.get?_set, h.entries m hm]
    by_cases hmn : m = n
    · simp [hmn]
    · simp [hmn]
  · exact h.inj
  · intro m hm
    rcases List.mem_cons.mp hm with rfl | hm'
    · exact hn
    · exact h.known m hm'

end Evaluating

section Holds

variable {cfg : Cfg} {lists : String → List String} {texts : String → String}

theorem Holds.congr
    {lists' : String → List String} {texts' : String → String}
    (h : Holds isList cfg lists texts) (hlists : ∀ a, isList a = true → lists' a = lists a)
    (htexts : ∀ a, isList a = false → texts' a = texts a) :
    Holds isList cfg lists' texts' := by
  constructor
  · intro a ha
    rw [hlists a ha]
    exact h.list a ha
  · intro a ha
    rw [htexts a ha]
    exact h.text a ha

theorem Holds.eraseList
    (h : Holds isList cfg lists texts) {attr : String} (hattr : isList attr = true) :
    Holds isList (cfg.erase attr) (Function.update lists attr []) texts := by
  constructor
  · intro a ha
    by_cases haa : a = attr
    · subst haa
      exact Or.inr ⟨OrderedDict.get?_erase_self cfg a, by simp⟩
    · rw [OrderedDict.get?_erase cfg haa, Function.update_of_ne haa]
      exact h.list a ha
  · intro a ha
    have haa : a ≠ attr := by
      rintro rfl
      rw [hattr] at ha
      cases ha
    rw [OrderedDict.get?_erase cfg haa]
    exact h.text a ha

theorem Holds.eraseText
    (h : Holds isList cfg lists texts) {attr : String} (hattr : isList attr = false) :
    Holds isList (cfg.erase attr) lists (Function.update texts attr "") := by
  constructor
  · intro a ha
    have haa : a ≠ attr := by
      rintro rfl
      rw [hattr] at ha
      cases ha
    rw [OrderedDict.get?_erase cfg haa]
    exact h.list a ha
  · intro a ha
    by_cases haa : a = attr
    · subst haa
      exact Or.inr ⟨OrderedDict.get?_erase_self cfg a, by simp⟩
    · rw [OrderedDict.get?_erase cfg haa, Function.update_of_ne haa]
      exact h.text a ha

theorem Holds.setList
    (h : Holds isList cfg lists texts) {attr : String} (hattr : isList attr = true)
    (ws : List String) :
    Holds isList (cfg.set attr (.list (ws.map Item.word))) (Function.update lists attr ws) texts := by
  constructor
  · intro a ha
    rw [OrderedDict.get?_set]
    by_cases haa : a = attr
    · subst haa
      simp
    · rw [if_neg haa, Function.update_of_ne haa]
      exact h.list a ha
  · intro a ha
    have haa : a ≠ attr := by
      rintro rfl
      rw [hattr] at ha
      cases ha
    rw [OrderedDict.get?_set, if_neg haa]
    exact h.text a ha

theorem Holds.setText
    (h : Holds isList cfg lists texts) {attr : String} (hattr : isList attr = false)
    (text : String) :
    Holds isList (cfg.set attr (.str text)) lists (Function.update texts attr text) := by
  constructor
  · intro a ha
    have haa : a ≠ attr := by
      rintro rfl
      rw [hattr] at ha
      cases ha
    rw [OrderedDict.get?_set, if_neg haa]
    exact h.list a ha
  · intro a ha
    rw [OrderedDict.get?_set]
    by_cases haa : a = attr
    · subst haa
      simp
    · rw [if_neg haa, Function.update_of_ne haa]
      exact h.text a ha

end Holds

section At

variable {mods : List String} {h₀ h : Heap} {cur : String → String → List String}
  {txt : String → String → String}

theorem At.write
    (hat : At isList ref mods h₀ cur txt h)
    (hinj : ∀ m ∈ mods, ∀ n ∈ mods, ref m = ref n → m = n) {n : String} (hn : n ∈ mods)
    {cfg : Cfg} {cur' : String → String → List String} {txt' : String → String → String}
    (hcfg : Holds isList cfg (fun a => cur' a n) (fun a => txt' a n))
    (hcur : ∀ m, m ≠ n → ∀ a, cur' a m = cur a m) (htxt : ∀ m, m ≠ n → ∀ a, txt' a m = txt a m) :
    At isList ref mods h₀ cur' txt' (h.write (ref n) cfg) := by
  unfold Heap.write
  constructor
  · intro m hm
    by_cases hmn : m = n
    · subst hmn
      simpa using hcfg
    · have href : ref m ≠ ref n := fun he => hmn (hinj m hm n hn he)
      simp only [Function.update_of_ne href, hcur m hmn, htxt m hmn]
      exact hat.holds m hm
  · intro r hr
    simp only [Function.update_of_ne (hr n hn)]
    exact hat.frame r hr
  · exact hat.next

theorem At.congr
    {cur' : String → String → List String} {txt' : String → String → String}
    (hat : At isList ref mods h₀ cur txt h) (hcur : ∀ m ∈ mods, ∀ a, cur' a m = cur a m)
    (htxt : ∀ m ∈ mods, ∀ a, txt' a m = txt a m) :
    At isList ref mods h₀ cur' txt' h := by
  refine ⟨?_, hat.frame, hat.next⟩
  intro m hm
  exact (hat.holds m hm).congr (fun a _ => hcur m hm a) (fun a _ => htxt m hm a)

/-- `cur` with the value of one attribute of one module replaced. -/
def setAt {β : Type} (cur : String → String → β) (attr n : String) (value : β) :
    String → String → β :=
  Function.update cur attr (Function.update (cur attr) n value)

theorem setAt_apply
    {β : Type} (cur : String → String → β) (attr n : String) (value : β) (a m : String) :
    setAt cur attr n value a m = if a = attr ∧ m = n then value else cur a m := by
  unfold setAt
  by_cases ha : a = attr
  · subst ha
    by_cases hm : m = n
    · simp [hm]
    · simp [hm]
  · simp [ha]

theorem setAt_row
    {β : Type} (cur : String → String → β) (attr n : String) (value : β) :
    (fun a => setAt cur attr n value a n) = Function.update (fun a => cur a n) attr value := by
  funext a
  rw [setAt_apply]
  by_cases ha : a = attr
  · subst ha
    simp
  · simp [ha]

/-- `__move_items` takes the list of one module. -/
theorem moveItems_spec
    (hat : At isList ref mods h₀ cur txt h)
    (hinj : ∀ m ∈ mods, ∀ n ∈ mods, ref m = ref n → m = n) {c : String} (hc : c ∈ mods)
    {attr : String} (hattr : isList attr = true) (toList : List Item) :
    ∃ h', moveItems h toList (ref c) attr = .ok (toList ++ (cur attr c).map Item.word, h') ∧
      (∀ r, r ≠ ref c → h'.cells r = h.cells r) ∧
      At isList ref mods h₀ (setAt cur attr c []) txt h' := by
  have hsame : cur attr c = [] → At isList ref mods h₀ (setAt cur attr c []) txt h := by
    intro hnil
    refine hat.congr ?_ (fun _ _ _ => rfl)
    intro m _ a
    rw [setAt_apply]
    split_ifs with heq
    · rw [heq.1, heq.2, hnil]
    · rfl
  unfold moveItems
  rcases (hat.holds c hc).list attr hattr with hget | ⟨hget, hnil⟩
  · rw [hget]
    by_cases hnil : cur attr c = []
    · refine ⟨h, ?_, fun _ _ => rfl, hsame hnil⟩
      simp [hnil]
    · refine ⟨h.write (ref c) ((h.cells (ref c)).erase attr), ?_, ?_, ?_⟩
      · simp [hnil]
      · intro r hr
        exact Function.update_of_ne hr _ _
      · refine hat.write hinj hc ?_ ?_ (fun _ _ _ => rfl)
        · rw [setAt_row]
          exact (hat.holds c hc).eraseList hattr
        · intro m hm a
          rw [setAt_apply, if_neg (fun heq => hm heq.2)]
  · refine ⟨h, ?_, fun _ _ => rfl, hsame hnil⟩
    rw [hget, hnil]
    simp

end At

section ValueExpand

variable {h₀ h : Heap} {cur : String → String → List String} {txt : String → String → String}

def clearAt (cur : String → String → List String) (attr : String) (gone : List String) :
    String → String → List String :=
  fun a m => if a = attr ∧ m ∈ gone then [] else cur a m

theorem Evaluating.inj_done
    (hev : Evaluating configs names ref children done) :
    ∀ m ∈ done, ∀ n ∈ done, ref m = ref n → m = n :=
  fun m hm n hn => hev.inj m (hev.known m hm) n (hev.known n hn)

/-- One item of a list. -/
theorem expandItem_spec
    (hev : Evaluating configs names ref children done) {attr : String} (hattr : isList attr = true)
    {s : Expanding}
    (hat : At isList ref done h₀ (clearAt cur attr s.expanded) txt s.heap) {it : Item}
    (htags : ∀ c ∈ tagsOf [it], c ∈ done) :
    ∃ s', expandItem configs attr s it = .ok s' ∧
      s'.result = s.result ++ (substitute (cur attr) s.expanded [it]).map Item.word ∧
      (∀ m, m ∈ s'.expanded ↔ m ∈ s.expanded ∨ m ∈ tagsOf [it]) ∧
      At isList ref done h₀ (clearAt cur attr s'.expanded) txt s'.heap := by
  cases it with
  | word text =>
      refine ⟨_, rfl, ?_, ?_, hat⟩
      · simp [substitute]
      · simp [tagsOf]
  | inherit c =>
      have hc : c ∈ done := htags c (by simp [tagsOf])
      by_cases hseen : c ∈ s.expanded
      · refine ⟨s, ?_, ?_, ?_, hat⟩
        · simp only [expandItem, if_pos hseen]
          rfl
        · simp [substitute, hseen]
        · intro m
          have : m ∈ tagsOf [Item.inherit c] ↔ m = c := by simp [tagsOf]
          rw [this]
          exact (or_iff_left_of_imp (fun he => he ▸ hseen)).symm
      · obtain ⟨h', hmove, _, hat'⟩ := moveItems_spec hat hev.inj_done hc hattr s.result
        have hvalue : clearAt cur attr s.expanded attr c = cur attr c := by
          simp [clearAt, hseen]
        rw [hvalue] at hmove
        refine ⟨⟨s.result ++ (cur attr c).map Item.word, c :: s.expanded, h'⟩, ?_, ?_, ?_, ?_⟩
        · simp only [expandItem, if_neg hseen]
          rw [hev.entry_eq (hev.known c hc), hev.cfgOf_eq (hev.known c hc)]
          simp [hc, hmove, bind, Except.bind, pure, Except.pure]
        · simp [substitute, hseen]
        · intro m
          simp [tagsOf, or_comm]
        · refine hat'.congr ?_ (fun _ _ _ => rfl)
          intro m _ a
          rw [setAt_apply]
          by_cases ha : a = attr
          · by_cases hm : m = c
            · simp [clearAt, ha, hm]
            · simp [clearAt, ha, hm]
          · simp [clearAt, ha]

theorem substitute_append
    (cur : String → List String) (seen : List String) (it : Item) (items : List Item)
    {seen' : List String} (h : ∀ m, m ∈ seen' ↔ m ∈ seen ∨ m ∈ tagsOf [it]) :
    substitute cur seen (it :: items) =
      substitute cur seen [it] ++ substitute cur seen' items := by
  have hcongr : ∀ {s s' : List String} (items : List Item), (∀ m, m ∈ s ↔ m ∈ s') →
      substitute cur s items = substitute cur s' items := by
    intro s s' items hs
    induction items generalizing s s' with
    | nil => rfl
    | cons it items ih =>
        cases it with
        | word text => rw [substitute, substitute, ih hs]
        | inherit c =>
            have hcons : ∀ m, m ∈ c :: s ↔ m ∈ c :: s' := by simp [hs]
            simp only [substitute, hs c, ih hs, ih hcons]
  cases it with
  | word text =>
      have h' : ∀ m, m ∈ seen ↔ m ∈ seen' := by simp [h, tagsOf]
      simp [substitute, hcongr items h']
  | inherit c =>
      have hmem : ∀ m, m ∈ seen' ↔ m ∈ seen ∨ m = c := by simp [h, tagsOf]
      by_cases hc : c ∈ seen
      · have h' : ∀ m, m ∈ seen ↔ m ∈ seen' := by
          intro m
          rw [hmem]
          exact (or_iff_left_of_imp (fun he => he ▸ hc)).symm
        simp [substitute, hc, hcongr items h']
      · have h' : ∀ m, m ∈ c :: seen ↔ m ∈ seen' := by
          intro m
          rw [hmem, List.mem_cons, or_comm]
        simp [substitute, hc, hcongr items h']

theorem valueExpand_spec
    (hev : Evaluating configs names ref children done) {attr : String} (hattr : isList attr = true)
    (hat : At isList ref done h₀ cur txt h) {items : List Item}
    (htags : ∀ c ∈ tagsOf items, c ∈ done) :
    ∃ s, valueExpand configs attr items h = .ok s ∧
      s.result = (substitute (cur attr) [] items).map Item.word ∧
      At isList ref done h₀ (clearAt cur attr (tagsOf items)) txt s.heap := by
  have hloop : ∀ (items : List Item) (s : Expanding), (∀ c ∈ tagsOf items, c ∈ done) →
      At isList ref done h₀ (clearAt cur attr s.expanded) txt s.heap →
      ∃ s', items.foldlM (expandItem configs attr) s = .ok s' ∧
        s'.result = s.result ++ (substitute (cur attr) s.expanded items).map Item.word ∧
        (∀ m, m ∈ s'.expanded ↔ m ∈ s.expanded ∨ m ∈ tagsOf items) ∧
        At isList ref done h₀ (clearAt cur attr s'.expanded) txt s'.heap := by
    intro items
    induction items with
    | nil =>
        intro s _ hs
        exact ⟨s, rfl, by simp [substitute], by simp [tagsOf], hs⟩
    | cons it items ih =>
        intro s htags hs
        have hsplit : ∀ m, m ∈ tagsOf (it :: items) ↔ m ∈ tagsOf [it] ∨ m ∈ tagsOf items := by
          intro m
          simp only [mem_tagsOf, List.mem_cons, List.not_mem_nil, or_false]
        obtain ⟨s₁, hrun₁, hres₁, hexp₁, hat₁⟩ := expandItem_spec hev hattr hs
          (fun c hc => htags c ((hsplit c).mpr (Or.inl hc)))
        obtain ⟨s₂, hrun₂, hres₂, hexp₂, hat₂⟩ := ih s₁
          (fun c hc => htags c ((hsplit c).mpr (Or.inr hc))) hat₁
        refine ⟨s₂, ?_, ?_, ?_, hat₂⟩
        · rw [List.foldlM_cons, hrun₁]
          exact hrun₂
        · rw [hres₂, hres₁, substitute_append (cur attr) s.expanded it items hexp₁, List.map_append,
            List.append_assoc]
        · intro m
          rw [hexp₂, hexp₁, hsplit, or_assoc]
  have hinit : At isList ref done h₀ (clearAt cur attr []) txt h :=
    hat.congr (by simp [clearAt]) (fun _ _ _ => rfl)
  obtain ⟨s, hrun, hres, hexp, hat'⟩ := hloop items ⟨[], [], h⟩ htags hinit
  refine ⟨s, hrun, by simpa using hres, ?_⟩
  refine hat'.congr ?_ (fun _ _ _ => rfl)
  intro m _ a
  simp only [clearAt, hexp, List.not_mem_nil, false_or]

end ValueExpand

section Substitute

variable {h₀ h : Heap} {cur : String → String → List String} {txt : String → String → String}

def Value.kind : Value → Bool
  | .list _ => true
  | .str _ => false

/-- Every attribute has a value of its kind. -/
def Typed (isList : String → Bool) (cfg : Cfg) : Prop :=
  ∀ a value, cfg.get? a = some value → value.kind = isList a

def referred (raw : Cfg) (a : String) : List String :=
  match raw.get? a with
  | some (.list items) => tagsOf items
  | _ => []

/-- A dictionary outside of `mods` changes. -/
theorem At.writeOther
    {mods : List String} {r : Nat} {cfg₀ : Cfg}
    (hat : At isList ref mods (h₀.write r cfg₀) cur txt h) (hr : ∀ m ∈ mods, r ≠ ref m)
    (cfg : Cfg) :
    At isList ref mods (h₀.write r cfg) cur txt (h.write r cfg) := by
  constructor
  · intro m hm
    have hcell : (h.write r cfg).cells (ref m) = h.cells (ref m) :=
      Function.update_of_ne (Ne.symm (hr m hm)) _ _
    rw [hcell]
    exact hat.holds m hm
  · intro r' hr'
    by_cases hrr : r' = r
    · simp [Heap.write, hrr]
    · have hframe := hat.frame r' hr'
      simp only [Heap.write, Function.update_of_ne hrr] at hframe ⊢
      exact hframe
  · exact hat.next

/-- The value of an attribute after `_substitute_inherited`. -/
def substituted (cur : String → String → List String) (a : String) : Value → Value
  | .list items => .list ((substitute (cur a) [] items).map Item.word)
  | .str text => .str text

/-- The state in the loop over the attributes of `n`. -/
structure SubstituteInv (isList : String → Bool) (ref : String → Nat) (done : List String)
    (h₀ : Heap) (cur : String → String → List String) (txt : String → String → String) (n : String)
    (raw : Cfg) (finished : List String) (h : Heap) : Prop where
  own : ∀ a, (h.cells (ref n)).get? a =
    if a ∈ finished then (raw.get? a).map (substituted cur a) else raw.get? a
  others : At isList ref done (h₀.write (ref n) (h.cells (ref n)))
    (fun a m => if a ∈ finished ∧ m ∈ referred raw a then [] else cur a m) txt h

theorem substituteAttr_inv
    (hev : Evaluating configs names ref children done) {n : String}
    (hn : ∀ m ∈ done, ref n ≠ ref m) {raw : Cfg} (htyped : Typed isList raw)
    {finished : List String} {a : String} (hfresh : a ∉ finished) {value : Value}
    (hget : raw.get? a = some value) (htags : ∀ c ∈ referred raw a, c ∈ done)
    (hinv : SubstituteInv isList ref done h₀ cur txt n raw finished h) :
    ∃ h', substituteAttr configs (ref n) h (a, value) = .ok h' ∧
      SubstituteInv isList ref done h₀ cur txt n raw (finished ++ [a]) h' := by
  have hkind := htyped a value hget
  cases value with
  | str text =>
      have hnone : referred raw a = [] := by simp [referred, hget]
      refine ⟨h, rfl, ?_, ?_⟩
      · intro x
        rw [hinv.own]
        by_cases hx : x = a
        · subst hx
          simp [hfresh, hget, substituted]
        · simp [hx]
      · refine hinv.others.congr ?_ (fun _ _ _ => rfl)
        intro m _ x
        by_cases hx : x = a
        · subst hx
          simp [hnone]
        · simp [hx]
  | list items =>
      have hlist : isList a = true := hkind.symm
      have href : referred raw a = tagsOf items := by simp [referred, hget]
      rw [href] at htags
      obtain ⟨s, hrun, hresult, hat⟩ := valueExpand_spec hev hlist hinv.others htags
      have hcur : (fun m => if a ∈ finished ∧ m ∈ referred raw a then [] else cur a m) =
          cur a := by
        funext m
        simp [hfresh]
      rw [hcur] at hresult
      have hcell : s.heap.cells (ref n) = h.cells (ref n) := by
        rw [hat.frame (ref n) hn]
        simp [Heap.write]
      refine ⟨s.heap.write (ref n) ((s.heap.cells (ref n)).set a (.list s.result)), ?_, ?_, ?_⟩
      · simp only [substituteAttr, hrun]
        rfl
      · intro x
        simp only [Heap.write, Function.update_self]
        rw [OrderedDict.get?_set, hcell, hinv.own]
        by_cases hx : x = a
        · subst hx
          simp [hget, substituted, hresult]
        · simp [hx]
      · simp only [Heap.write, Function.update_self]
        refine (hat.writeOther hn _).congr ?_ (fun _ _ _ => rfl)
        intro m _ x
        by_cases hx : x = a
        · subst hx
          simp [clearAt, href, hfresh]
        · simp [clearAt, hx]

/-- `_substitute_inherited` on the dictionary `raw` of `n`. -/
theorem substituteInherited_spec
    (hev : Evaluating configs names ref children done) {n : String}
    (hn : ∀ m ∈ done, ref n ≠ ref m) {raw : Cfg} (htyped : Typed isList raw)
    (htags : ∀ a, ∀ c ∈ referred raw a, c ∈ done) (hraw : h.cells (ref n) = raw)
    (hat : At isList ref done h₀ cur txt h) :
    ∃ h', substituteInherited configs (ref n) h = .ok h' ∧
      (∀ a, (h'.cells (ref n)).get? a = (raw.get? a).map (substituted cur a)) ∧
      At isList ref done (h₀.write (ref n) (h'.cells (ref n)))
        (fun a m => if m ∈ referred raw a then [] else cur a m) txt h' := by
  have hinit : SubstituteInv isList ref done h₀ cur txt n raw [] h := by
    constructor
    · intro a
      simp [hraw]
    · have hself : h.write (ref n) (h.cells (ref n)) = h := by
        simp [Heap.write]
      have hwrite : At isList ref done (h₀.write (ref n) (h₀.cells (ref n))) cur txt h := by
        simpa [Heap.write] using hat
      have hwrite' := hwrite.writeOther hn (h.cells (ref n))
      rw [hself] at hwrite'
      exact hwrite'.congr (by simp) (fun _ _ _ => rfl)
  obtain ⟨h', hrun, hinv⟩ := forLoop_total (substituteAttr configs (ref n))
    (fun finished r => SubstituteInv isList ref done h₀ cur txt n raw (finished.map Prod.fst) r)
    raw.entries h hinit
    (by
      intro finished e rest r hsplit hr
      have hnodup := raw.nodup
      rw [hsplit, List.map_append, List.map_cons] at hnodup
      have hfresh : e.1 ∉ finished.map Prod.fst := by
        intro hmem
        exact (List.nodup_append.mp hnodup).2.2 e.1 hmem e.1 (by simp) rfl
      have hget : raw.get? e.1 = some e.2 := raw.get?_of_mem (by simp [hsplit])
      obtain ⟨r', hr', hinv'⟩ := substituteAttr_inv hev hn htyped hfresh hget (htags e.1) hr
      exact ⟨r', hr', by simpa using hinv'⟩)
  have hall : ∀ a, a ∉ raw.entries.map Prod.fst → raw.get? a = none := by
    intro a ha
    cases hget : raw.get? a with
    | none => rfl
    | some value => exact absurd (OrderedDict.mem_keys_iff.mpr ⟨value, hget⟩) ha
  refine ⟨h', ?_, ?_, ?_⟩
  · unfold substituteInherited
    rw [hraw]
    exact hrun
  · intro a
    rw [hinv.own]
    split_ifs with ha
    · rfl
    · rw [hall a ha]
      rfl
  · refine hinv.others.congr ?_ (fun _ _ _ => rfl)
    intro m _ a
    by_cases ha : a ∈ raw.entries.map Prod.fst
    · simp [ha]
    · simp [ha, referred, hall a ha]

theorem At.own
    {n : String} (hn : n ∉ done) {cfg : Cfg}
    (hat : At isList ref done (h₀.write (ref n) cfg) cur txt h) (hcell : h.cells (ref n) = cfg)
    {cur' : String → String → List String} {txt' : String → String → String}
    (hcfg : Holds isList cfg (fun a => cur' a n) (fun a => txt' a n))
    (hcur : ∀ m, m ≠ n → ∀ a, cur' a m = cur a m) (htxt : ∀ m, m ≠ n → ∀ a, txt' a m = txt a m) :
    At isList ref (n :: done) h₀ cur' txt' h := by
  constructor
  · intro m hm
    by_cases hmn : m = n
    · subst hmn
      rw [hcell]
      exact hcfg
    · have hm' : m ∈ done := (List.mem_cons.mp hm).resolve_left hmn
      exact (hat.holds m hm').congr (fun a _ => hcur m hmn a) (fun a _ => htxt m hmn a)
  · intro r hr
    rw [List.forall_mem_cons] at hr
    rw [hat.frame r hr.2]
    exact Function.update_of_ne hr.1 _ _
  · exact hat.next

end Substitute

section PercolateLists

variable {h₀ : Heap} {cur : String → String → List String} {txt : String → String → String}
  {n : String} {raw : Cfg}

/-- The state of the first loop of `_percolate_inherited`. -/
structure PercolateInv (isList : String → Bool) (ref : String → Nat) (mods : List String)
    (h₀ : Heap) (cur : String → String → List String) (txt : String → String → String) (n : String)
    (raw : Cfg) (s : Heap × List String) : Prop where
  heap : At isList ref mods h₀ cur txt s.1
  keys : ∀ a, a ∈ (s.1.cells (ref n)).keys ↔ a ∈ raw.keys ∨ a ∈ s.2
  percolated : ∀ a ∈ s.2, isList a = true ∧ a ∉ raw.keys

/-- The list of the child `c` is added to that of `n`. -/
def moved (cur : String → String → List String) (n c attr : String) :
    String → String → List String :=
  setAt (setAt cur attr c []) attr n (cur attr n ++ cur attr c)

variable {mods : List String} {c : String}

theorem moveAttr_spec
    (hinj : ∀ m ∈ mods, ∀ k ∈ mods, ref m = ref k → m = k) (hn : n ∈ mods) (hc : c ∈ mods)
    (hne : c ≠ n) {attr : String} (hattr : isList attr = true) {h : Heap}
    (hat : At isList ref mods h₀ cur txt h) (hkey : attr ∈ (h.cells (ref n)).keys) :
    ∃ h', moveAttr (ref n) (ref c) attr h = .ok h' ∧
      (∀ a, a ∈ (h'.cells (ref n)).keys ↔ a ∈ (h.cells (ref n)).keys) ∧
      At isList ref mods h₀ (moved cur n c attr) txt h' := by
  obtain ⟨value, hvalue⟩ := OrderedDict.mem_keys_iff.mp hkey
  have hget : (h.cells (ref n)).get? attr = some (.list ((cur attr n).map Item.word)) := by
    rcases (hat.holds n hn).list attr hattr with hget | ⟨hnone, _⟩
    · exact hget
    · rw [hnone] at hvalue
      cases hvalue
  obtain ⟨h', hmove, hframe, hat'⟩ := moveItems_spec hat hinj hc hattr
    ((cur attr n).map Item.word)
  have href : ref n ≠ ref c := fun he => hne (hinj n hn c hc he).symm
  have hcell := hframe (ref n) href
  refine ⟨h'.write (ref n) ((h'.cells (ref n)).set attr
    (.list ((cur attr n ++ cur attr c).map Item.word))), ?_, ?_, ?_⟩
  · simp only [moveAttr, hget, hmove, List.map_append]
    rfl
  · intro a
    simp only [Heap.write, Function.update_self, OrderedDict.mem_keys_set, hcell]
    exact or_iff_right_of_imp (fun he => he ▸ hkey)
  · refine hat'.write hinj hn ?_ ?_ (fun _ _ _ => rfl)
    · rw [moved, setAt_row]
      exact (hat'.holds n hn).setList hattr _
    · intro m hm a
      rw [moved, setAt_apply, if_neg (fun heq => hm heq.2)]

/-- One attribute of a child. -/
theorem percolateList_spec
    (hinj : ∀ m ∈ mods, ∀ k ∈ mods, ref m = ref k → m = k) (hn : n ∈ mods) (hc : c ∈ mods)
    (hne : c ≠ n) {e : String × Value} (hkind : e.2.kind = isList e.1) {s : Heap × List String}
    (hinv : PercolateInv isList ref mods h₀ cur txt n raw s) :
    ∃ s', percolateList (ref n) (ref c) s e = .ok s' ∧
      PercolateInv isList ref mods h₀
        (if isList e.1 = true ∧ e.1 ∉ raw.keys then moved cur n c e.1 else cur) txt n raw s' := by
  obtain ⟨a, value⟩ := e
  cases value with
  | str text =>
      have hlist : isList a = false := hkind.symm
      refine ⟨s, rfl, ?_⟩
      rw [if_neg (by simp [hlist])]
      exact hinv
  | list items =>
      have hlist : isList a = true := hkind.symm
      by_cases hp : a ∈ s.2
      · obtain ⟨h', hrun, hkeys, hat⟩ := moveAttr_spec hinj hn hc hne hlist hinv.heap
          ((hinv.keys a).mpr (Or.inr hp))
        refine ⟨(h', s.2), ?_, ?_⟩
        · simp only [percolateList, if_pos hp, hrun]
          rfl
        · rw [if_pos ⟨hlist, (hinv.percolated a hp).2⟩]
          exact ⟨hat, fun x => (hkeys x).trans (hinv.keys x), hinv.percolated⟩
      · by_cases hkey : a ∈ (s.1.cells (ref n)).keys
        · have hraw : a ∈ raw.keys := ((hinv.keys a).mp hkey).resolve_right hp
          refine ⟨s, ?_, ?_⟩
          · simp only [percolateList, if_neg hp, if_pos hkey]
            rfl
          · rw [if_neg (fun h => h.2 hraw)]
            exact hinv
        · have hraw : a ∉ raw.keys := fun h => hkey ((hinv.keys a).mpr (Or.inl h))
          have hnil : cur a n = [] := by
            rcases (hinv.heap.holds n hn).list a hlist with hget | ⟨_, hnil⟩
            · exact absurd (OrderedDict.mem_keys_iff.mpr ⟨_, hget⟩) hkey
            · exact hnil
          have hstart : At isList ref mods h₀ cur txt
              (s.1.write (ref n) ((s.1.cells (ref n)).set a (.list []))) := by
            refine hinv.heap.write hinj hn ?_ (fun _ _ _ => rfl) (fun _ _ _ => rfl)
            have hset := (hinv.heap.holds n hn).setList hlist []
            refine hset.congr ?_ (fun _ _ => rfl)
            intro x _
            by_cases hx : x = a
            · subst hx
              simp [hnil]
            · simp [hx]
          obtain ⟨h', hrun, hkeys, hat⟩ := moveAttr_spec hinj hn hc hne hlist hstart
            (by simp [Heap.write])
          refine ⟨(h', a :: s.2), ?_, ?_⟩
          · simp only [percolateList, if_neg hp, if_neg hkey, hrun]
            rfl
          · rw [if_pos ⟨hlist, hraw⟩]
            refine ⟨hat, ?_, ?_⟩
            · intro x
              rw [hkeys]
              simp only [Heap.write, Function.update_self, OrderedDict.mem_keys_set, hinv.keys,
                List.mem_cons]
              tauto
            · intro x hx
              rcases List.mem_cons.mp hx with rfl | hx'
              · exact ⟨hlist, hraw⟩
              · exact hinv.percolated x hx'

/-- The attributes in `finished` that `n` does not assign are added from the child `c`. -/
def movedIn (isList : String → Bool) (raw : Cfg) (n c : String) (finished : String → Prop)
    [DecidablePred finished] (cur : String → String → List String) :
    String → String → List String :=
  fun a m =>
    if finished a ∧ isList a = true ∧ a ∉ raw.keys then
      if m = n then cur a n ++ cur a c else if m = c then [] else cur a m
    else cur a m

theorem kind_of_holds
    {cfg : Cfg} {lists : String → List String} {texts : String → String}
    (h : Holds isList cfg lists texts) {a : String} {value : Value}
    (hget : cfg.get? a = some value) :
    value.kind = isList a := by
  cases hlist : isList a with
  | true =>
      rcases h.list a hlist with h' | ⟨h', _⟩
      · rw [hget, Option.some.injEq] at h'
        rw [h']
        rfl
      · rw [hget] at h'
        cases h'
  | false =>
      rcases h.text a hlist with h' | ⟨h', _⟩
      · rw [hget, Option.some.injEq] at h'
        rw [h']
        rfl
      · rw [hget] at h'
        cases h'

/-- All attributes of a child. -/
theorem percolateLists_spec
    (hcfg : configs.cfgOf c = .ok (ref c))
    (hinj : ∀ m ∈ mods, ∀ k ∈ mods, ref m = ref k → m = k) (hn : n ∈ mods) (hc : c ∈ mods)
    (hne : c ≠ n) {s : Heap × List String}
    (hinv : PercolateInv isList ref mods h₀ cur txt n raw s) :
    ∃ s', percolateLists configs (ref n) s c = .ok s' ∧
      PercolateInv isList ref mods h₀ (movedIn isList raw n c (fun _ => True) cur) txt n raw s' := by
  have hholds := hinv.heap.holds c hc
  obtain ⟨s', hrun, hinv'⟩ := forLoop_total (percolateList (ref n) (ref c))
    (fun finished r => PercolateInv isList ref mods h₀
      (movedIn isList raw n c (fun a => a ∈ finished.map Prod.fst) cur) txt n raw r)
    (s.1.cells (ref c)).entries s
    (by
      refine ⟨hinv.heap.congr ?_ (fun _ _ _ => rfl), hinv.keys, hinv.percolated⟩
      intro m _ a
      simp [movedIn])
    (by
      intro finished e rest r hsplit hr
      have hnodup := (s.1.cells (ref c)).nodup
      rw [hsplit, List.map_append, List.map_cons] at hnodup
      have hfresh : e.1 ∉ finished.map Prod.fst := by
        intro hmem
        exact (List.nodup_append.mp hnodup).2.2 e.1 hmem e.1 (by simp) rfl
      have hget : (s.1.cells (ref c)).get? e.1 = some e.2 :=
        OrderedDict.get?_of_mem _ (by simp [hsplit])
      obtain ⟨r', hr', hinv'⟩ := percolateList_spec hinj hn hc hne (kind_of_holds hholds hget) hr
      refine ⟨r', hr', hinv'.heap.congr ?_ (fun _ _ _ => rfl), hinv'.keys, hinv'.percolated⟩
      intro m _ a
      have hmem : a ∈ (finished ++ [e]).map Prod.fst ↔ a ∈ finished.map Prod.fst ∨ a = e.1 := by
        simp
      by_cases ha : a = e.1
      · subst ha
        by_cases hmove : isList e.1 = true ∧ e.1 ∉ raw.keys
        · simp only [movedIn, moved, setAt_apply, hmem, hfresh, hmove, if_true, true_and, and_self,
            or_true, not_false_iff, false_and, if_false]
        · simp only [movedIn, hmem, hfresh, hmove, and_false, if_false]
      · by_cases hmove : isList e.1 = true ∧ e.1 ∉ raw.keys
        · rw [if_pos hmove]
          simp only [movedIn, moved, setAt_apply, hmem, ha, or_false, false_and, if_false]
        · rw [if_neg hmove]
          simp only [movedIn, hmem, ha, or_false])
  refine ⟨s', ?_, hinv'.heap.congr ?_ (fun _ _ _ => rfl), hinv'.keys, hinv'.percolated⟩
  · simp only [percolateLists, hcfg]
    exact hrun
  · intro m _ a
    by_cases ha : a ∈ (s.1.cells (ref c)).entries.map Prod.fst
    · simp only [movedIn, ha]
    · -- an attribute that the child does not have is empty there
      by_cases hlist : isList a = true
      · have hnil : cur a c = [] := by
          rcases hholds.list a hlist with hget | ⟨_, hnil⟩
          · exact absurd (OrderedDict.mem_keys_iff.mpr ⟨_, hget⟩) ha
          · exact hnil
        simp only [movedIn, ha, false_and, if_false, hnil, List.append_nil]
        split_ifs with h₁ h₂ h₃
        · rw [h₂]
        · rw [h₃, hnil]
        · rfl
        · rfl
      · simp [movedIn, hlist]

/-- The attributes that `n` does not assign, with the lists of some children. -/
def movedFrom (isList : String → Bool) (raw : Cfg) (n : String) (finished : List String)
    (cur : String → String → List String) : String → String → List String :=
  fun a m =>
    if isList a = true ∧ a ∉ raw.keys then
      if m = n then cur a n ++ finished.flatMap (cur a)
      else if m ∈ finished then [] else cur a m
    else cur a m

/-- The first loop of `_percolate_inherited`. -/
theorem percolateLists_all
    {childrenNames : List String} (hcfg : ∀ c ∈ childrenNames, configs.cfgOf c = .ok (ref c))
    (hinj : ∀ m ∈ mods, ∀ k ∈ mods, ref m = ref k → m = k) (hn : n ∈ mods)
    (hsub : ∀ c ∈ childrenNames, c ∈ mods) (hne : n ∉ childrenNames)
    (hnodup : childrenNames.Nodup) {s : Heap × List String}
    (hinv : PercolateInv isList ref mods h₀ cur txt n raw s) :
    ∃ s', childrenNames.foldlM (percolateLists configs (ref n)) s = .ok s' ∧
      At isList ref mods h₀ (movedFrom isList raw n childrenNames cur) txt s'.1 := by
  obtain ⟨s', hrun, hinv'⟩ := forLoop_total (percolateLists configs (ref n))
    (fun finished r => PercolateInv isList ref mods h₀
      (movedFrom isList raw n finished cur) txt n raw r)
    childrenNames s
    (by
      refine ⟨hinv.heap.congr ?_ (fun _ _ _ => rfl), hinv.keys, hinv.percolated⟩
      intro m _ a
      by_cases hm : m = n
      · simp [movedFrom, hm]
      · simp [movedFrom, hm])
    (by
      intro finished c rest r hsplit hr
      have hc : c ∈ childrenNames := by simp [hsplit]
      have hcn : c ≠ n := fun he => hne (he ▸ hc)
      rw [hsplit] at hnodup
      have hfresh : c ∉ finished := by
        intro hmem
        exact (List.nodup_append.mp hnodup).2.2 c hmem c (by simp) rfl
      obtain ⟨r', hr', hinv'⟩ := percolateLists_spec (hcfg c hc) hinj hn (hsub c hc) hcn hr
      refine ⟨r', hr', hinv'.heap.congr ?_ (fun _ _ _ => rfl), hinv'.keys, hinv'.percolated⟩
      intro m _ a
      by_cases hmove : isList a = true ∧ a ∉ raw.keys
      · by_cases hm : m = n
        · simp [movedFrom, movedIn, hmove, hm, hcn, hfresh]
        · by_cases hmc : m = c
          · simp [movedFrom, movedIn, hmove, hmc, hcn]
          · simp [movedFrom, movedIn, hmove, hm, hmc]
      · simp only [movedFrom, movedIn, hmove, and_false, if_false])
  exact ⟨s', hrun, hinv'.heap⟩

end PercolateLists

section PercolateStrings

variable {h₀ h : Heap} {cur : String → String → List String} {txt : String → String → String}
  {n c : String} {mods : List String}

/-- `n` takes the string of the child `c`, if it has none. -/
def takeText (n : String) (t : String → String) (c : String) : String → String :=
  if t n = "" then fun m => if m = n then t c else if m = c then "" else t m else t

theorem percolateString_spec
    (hinj : ∀ m ∈ mods, ∀ k ∈ mods, ref m = ref k → m = k) (hn : n ∈ mods) (hc : c ∈ mods)
    (hne : c ≠ n) {e : String × Value} (hkind : e.2.kind = isList e.1)
    (hvalue : ∀ text, e.2 = .str text → txt e.1 c = text)
    (hat : At isList ref mods h₀ cur txt h) :
    At isList ref mods h₀ cur
      (fun a m => if a = e.1 ∧ isList a = false then takeText n (txt a) c m else txt a m)
      (percolateString (ref n) (ref c) h e) := by
  obtain ⟨x, value⟩ := e
  cases value with
  | list items =>
      have hlist : isList x = true := hkind.symm
      refine hat.congr (fun _ _ _ => rfl) ?_
      intro m _ a
      rw [if_neg]
      rintro ⟨rfl, hfalse⟩
      rw [hlist] at hfalse
      cases hfalse
  | str text =>
      have hlist : isList x = false := hkind.symm
      have htext : txt x c = text := hvalue text rfl
      have hown : ((h.cells (ref n)).get? x).getD (.str "") = .str "" ↔ txt x n = "" := by
        rcases (hat.holds n hn).text x hlist with hget | ⟨hget, hnil⟩
        · rw [hget]
          simp
        · simp [hget, hnil]
      by_cases hempty : txt x n = ""
      · have htake : At isList ref mods h₀ cur (setAt txt x n text)
            (h.write (ref n) ((h.cells (ref n)).set x (.str text))) := by
          refine hat.write hinj hn ?_ (fun _ _ _ => rfl) ?_
          · rw [setAt_row]
            exact (hat.holds n hn).setText hlist text
          · intro m hm a
            rw [setAt_apply, if_neg (fun heq => hm heq.2)]
        have hrun : percolateString (ref n) (ref c) h (x, .str text) =
            (h.write (ref n) ((h.cells (ref n)).set x (.str text))).write (ref c)
              (((h.write (ref n) ((h.cells (ref n)).set x (.str text))).cells (ref c)).erase x) := by
          simp only [percolateString, if_pos (hown.mpr hempty)]
        have hpop : At isList ref mods h₀ cur (setAt (setAt txt x n text) x c "")
            (percolateString (ref n) (ref c) h (x, .str text)) := by
          rw [hrun]
          refine htake.write hinj hc ?_ (fun _ _ _ => rfl) ?_
          · rw [setAt_row]
            exact (htake.holds c hc).eraseText hlist
          · intro m hm a
            rw [setAt_apply, if_neg (fun heq => hm heq.2)]
        refine hpop.congr (fun _ _ _ => rfl) ?_
        intro m _ a
        simp only [setAt_apply]
        by_cases ha : a = x
        · subst ha
          by_cases hm : m = n
          · simp [takeText, hlist, hempty, hm, Ne.symm hne, htext]
          · by_cases hmc : m = c
            · simp [takeText, hlist, hempty, hmc, hne]
            · simp [takeText, hlist, hempty, hm, hmc]
        · simp [ha]
      · have hrun : percolateString (ref n) (ref c) h (x, .str text) = h := by
          simp only [percolateString, if_neg (fun heq => hempty (hown.mp heq))]
        rw [hrun]
        refine hat.congr (fun _ _ _ => rfl) ?_
        intro m _ a
        by_cases ha : a = x
        · subst ha
          simp [takeText, hempty]
        · simp [ha]

/-- All strings of a child. -/
theorem percolateStrings_spec
    (hcfg : configs.cfgOf c = .ok (ref c))
    (hinj : ∀ m ∈ mods, ∀ k ∈ mods, ref m = ref k → m = k) (hn : n ∈ mods) (hc : c ∈ mods)
    (hne : c ≠ n) (hat : At isList ref mods h₀ cur txt h) :
    ∃ h', percolateStrings configs (ref n) h c = .ok h' ∧
      At isList ref mods h₀ cur
        (fun a => if isList a = true then txt a else takeText n (txt a) c) h' := by
  have hholds := hat.holds c hc
  have hloop : ∀ (rest finished : List (String × Value)) (r : Heap),
      (h.cells (ref c)).entries = finished ++ rest →
      At isList ref mods h₀ cur (fun a m => if a ∈ finished.map Prod.fst ∧ isList a = false then
        takeText n (txt a) c m else txt a m) r →
      At isList ref mods h₀ cur (fun a m => if a ∈ (h.cells (ref c)).entries.map Prod.fst ∧
        isList a = false then takeText n (txt a) c m else txt a m)
        (rest.foldl (percolateString (ref n) (ref c)) r) := by
    intro rest
    induction rest with
    | nil =>
        intro finished r hsplit hr
        rw [List.append_nil] at hsplit
        rw [hsplit]
        exact hr
    | cons e rest ih =>
        intro finished r hsplit hr
        have hnodup := (h.cells (ref c)).nodup
        rw [hsplit, List.map_append, List.map_cons] at hnodup
        have hfresh : e.1 ∉ finished.map Prod.fst := by
          intro hmem
          exact (List.nodup_append.mp hnodup).2.2 e.1 hmem e.1 (by simp) rfl
        have hget : (h.cells (ref c)).get? e.1 = some e.2 :=
          OrderedDict.get?_of_mem _ (by simp [hsplit])
        have hkind := kind_of_holds hholds hget
        have hvalue : ∀ text, e.2 = .str text → txt e.1 c = text := by
          intro text he
          rw [he] at hget hkind
          rcases hholds.text e.1 hkind.symm with h' | ⟨h', _⟩
          · rw [hget] at h'
            simpa using h'.symm
          · rw [hget] at h'
            cases h'
        have hstep := percolateString_spec hinj hn hc hne hkind
          (by
            intro text he
            rw [if_neg (fun h => hfresh h.1)]
            exact hvalue text he) hr
        rw [List.foldl_cons]
        refine ih (finished ++ [e]) _ (by simp [hsplit]) (hstep.congr (fun _ _ _ => rfl) ?_)
        intro m _ a
        have hmem : a ∈ (finished ++ [e]).map Prod.fst ↔ a ∈ finished.map Prod.fst ∨ a = e.1 := by
          simp
        by_cases ha : a = e.1
        · subst ha
          simp [hfresh]
        · simp only [hmem, ha, or_false, false_and, if_false]
  have hend := hloop (h.cells (ref c)).entries [] h rfl (hat.congr (fun _ _ _ => rfl) (by simp))
  refine ⟨_, ?_, hend.congr (fun _ _ _ => rfl) ?_⟩
  · simp only [percolateStrings, hcfg]
    rfl
  · intro m _ a
    cases hlist : isList a with
    | true => simp
    | false =>
        by_cases ha : a ∈ (h.cells (ref c)).entries.map Prod.fst
        · simp only [ha, and_self, if_true, if_neg Bool.false_ne_true]
        · have hnil : txt a c = "" := by
            rcases hholds.text a hlist with hget | ⟨_, hnil⟩
            · exact absurd (OrderedDict.mem_keys_iff.mpr ⟨_, hget⟩) ha
            · exact hnil
          rw [if_neg Bool.false_ne_true, if_neg (fun h => ha h.1), takeText]
          split_ifs with h₁
          · by_cases hm : m = n
            · simp [hm, h₁, hnil]
            · by_cases hmc : m = c
              · simp [hmc, hnil]
              · simp [hm, hmc]
          · rfl

theorem percolateStrings_all
    {childrenNames : List String} (hcfg : ∀ c ∈ childrenNames, configs.cfgOf c = .ok (ref c))
    (hinj : ∀ m ∈ mods, ∀ k ∈ mods, ref m = ref k → m = k) (hn : n ∈ mods)
    (hsub : ∀ c ∈ childrenNames, c ∈ mods) (hne : n ∉ childrenNames)
    (hat : At isList ref mods h₀ cur txt h) :
    ∃ h', childrenNames.foldlM (percolateStrings configs (ref n)) h = .ok h' ∧
      At isList ref mods h₀ cur
        (fun a => if isList a = true then txt a else childrenNames.foldl (takeText n) (txt a))
        h' := by
  refine forLoop_total (percolateStrings configs (ref n))
    (fun finished r => At isList ref mods h₀ cur
      (fun a => if isList a = true then txt a else finished.foldl (takeText n) (txt a)) r)
    childrenNames h (hat.congr (fun _ _ _ => rfl) (by simp)) ?_
  intro finished c rest r hsplit hr
  have hc : c ∈ childrenNames := by simp [hsplit]
  have hcn : c ≠ n := fun he => hne (he ▸ hc)
  obtain ⟨r', hr', hat'⟩ := percolateStrings_spec (hcfg c hc) hinj hn (hsub c hc) hcn hr
  refine ⟨r', hr', hat'.congr (fun _ _ _ => rfl) ?_⟩
  intro m _ a
  cases hlist : isList a with
  | true => simp
  | false => simp

end PercolateStrings

end ProductConfig
end AndroidBuild
