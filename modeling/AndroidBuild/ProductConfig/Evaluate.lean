import AndroidBuild.ProductConfig.Percolation

/-!
# What `evaluate_finalized_product_variables` computes

The loop over `configs_postfix` visits the modules below the top module and
evaluates each of them once.  It works on clones of the dictionaries, so the
calls for several top modules do not see one another.
-/

namespace AndroidBuild
namespace ProductConfig

open Loop PostOrder

variable {isList : String → Bool}

/-- The dictionaries and the children of the modules, as the modules fill them. -/
structure Modules where
  raw : String → Cfg
  children : String → List String

namespace Modules

variable (M : Modules)

/-- The items of a list attribute: one that the module does not assign takes
the lists of all children. -/
def itemsAt (a n : String) : List Item :=
  match (M.raw n).get? a with
  | some (.list items) => items
  | _ => (M.children n).map Item.inherit

def textAt (a n : String) : String :=
  match (M.raw n).get? a with
  | some (.str text) => text
  | _ => ""

/-- The strings after the evaluation of `n`. -/
def takeTexts (a : String) (t : String → String) (n : String) : String → String :=
  (sortNames (M.children n)).foldl (takeText n) (Function.update t n (M.textAt a n))

/-- The lists and strings after the evaluation of `n`. -/
def evaluate (s : (String → String → List String) × (String → String → String)) (n : String) :
    (String → String → List String) × (String → String → String) :=
  (fun a => expandNode false (M.itemsAt a) (s.1 a) n, fun a => M.takeTexts a (s.2 a) n)

/-- The modules are well-formed: attributes have values of their kind, and
refer to children. -/
structure Wf (isList : String → Bool) : Prop where
  typed : ∀ n, Typed isList (M.raw n)
  referred : ∀ n a, ∀ c ∈ referred (M.raw n) a, c ∈ M.children n
  nodup : ∀ n, (M.children n).Nodup

end Modules

section EvaluatePcm

variable {M : Modules} {configs : Configs} {names : List String} {ref : String → Nat}
  {done : List String} {h₀ h : Heap} {cur : String → String → List String}
  {txt : String → String → String}

theorem At.congr_of_kind
    {mods : List String} {cur' : String → String → List String} {txt' : String → String → String}
    (hat : At isList ref mods h₀ cur txt h)
    (hcur : ∀ m ∈ mods, ∀ a, isList a = true → cur' a m = cur a m)
    (htxt : ∀ m ∈ mods, ∀ a, isList a = false → txt' a m = txt a m) :
    At isList ref mods h₀ cur' txt' h := by
  refine ⟨?_, hat.frame, hat.next⟩
  intro m hm
  exact (hat.holds m hm).congr (hcur m hm) (htxt m hm)

theorem substitute_children
    (f : String → List String) {l seen : List String} (hnodup : l.Nodup)
    (hseen : ∀ c ∈ l, c ∉ seen) :
    substitute f seen (l.map Item.inherit) = l.flatMap f := by
  induction l generalizing seen with
  | nil => rfl
  | cons c l ih =>
      rw [List.nodup_cons] at hnodup
      rw [List.forall_mem_cons] at hseen
      rw [List.map_cons, substitute, if_neg hseen.1, List.flatMap_cons, ih hnodup.2]
      intro d hd hmem
      rcases List.mem_cons.mp hmem with rfl | hmem'
      · exact hnodup.1 hd
      · exact hseen.2 d hd hmem'

theorem tagsOf_children (l : List String) :
    tagsOf (l.map Item.inherit) = l := by
  unfold tagsOf
  rw [List.filterMap_map]
  exact List.filterMap_some

/-- The lists after `_substitute_inherited`. -/
def Modules.substituteLists (M : Modules) (cur : String → String → List String) (n : String) :
    String → String → List String :=
  fun a m =>
    if m = n then
      match (M.raw n).get? a with
      | some (.list items) => substitute (cur a) [] items
      | _ => []
    else if m ∈ referred (M.raw n) a then [] else cur a m

/-- The lists after both passes over the attributes of `n`. -/
theorem movedFrom_substituteLists
    (hwf : M.Wf isList) {n : String} (hn : n ∉ M.children n) {a : String} (ha : isList a = true)
    (m : String) :
    movedFrom isList (M.raw n) n (M.children n) (M.substituteLists cur n) a m =
      expandNode false (M.itemsAt a) (cur a) n m := by
  cases hget : (M.raw n).get? a with
  | none =>
      have hkey : a ∉ (M.raw n).keys := by
        intro hmem
        obtain ⟨value, hvalue⟩ := OrderedDict.mem_keys_iff.mp hmem
        rw [hget] at hvalue
        cases hvalue
      have hown : M.substituteLists cur n a n = [] := by
        simp [Modules.substituteLists, hget]
      have hfree : ∀ m, m ≠ n → M.substituteLists cur n a m = cur a m := by
        intro m hm
        simp [Modules.substituteLists, hm, referred, hget]
      have hflat : (M.children n).flatMap (M.substituteLists cur n a) =
          (M.children n).flatMap (cur a) := by
        refine List.flatMap_congr ?_
        intro c hc
        exact hfree c (fun he => hn (he ▸ hc))
      have hsub := substitute_children (cur a) (hwf.nodup n) (fun c _ => List.not_mem_nil)
      by_cases hm : m = n
      · simp [movedFrom, ha, hkey, expandNode, expandItems, Modules.itemsAt, hget, hm, hown, hflat,
          hsub]
      · simp [movedFrom, ha, hkey, expandNode, Modules.itemsAt, hget, hm, hfree m hm,
          tagsOf_children]
  | some value =>
      have hkey : a ∈ (M.raw n).keys := OrderedDict.mem_keys_iff.mpr ⟨value, hget⟩
      have hkind := hwf.typed n a value hget
      cases value with
      | str text =>
          rw [ha] at hkind
          cases hkind
      | list items =>
          by_cases hm : m = n
          · simp [movedFrom, hkey, expandNode, expandItems, Modules.itemsAt, hget, hm,
              Modules.substituteLists]
          · simp [movedFrom, hkey, expandNode, Modules.itemsAt, hget, hm,
              Modules.substituteLists, referred]

theorem holds_substituted
    (hwf : M.Wf isList) {n : String} {cfg : Cfg}
    (hcfg : ∀ a, cfg.get? a = ((M.raw n).get? a).map (substituted cur a)) :
    Holds isList cfg (fun a => M.substituteLists cur n a n) (fun a => M.textAt a n) := by
  constructor
  · intro a ha
    rw [hcfg]
    cases hget : (M.raw n).get? a with
    | none => simp [Modules.substituteLists, hget]
    | some value =>
        have hkind := hwf.typed n a value hget
        cases value with
        | str text =>
            rw [ha] at hkind
            cases hkind
        | list items => simp [Modules.substituteLists, hget, substituted]
  · intro a ha
    rw [hcfg]
    cases hget : (M.raw n).get? a with
    | none => simp [Modules.textAt, hget]
    | some value =>
        have hkind := hwf.typed n a value hget
        cases value with
        | list items =>
            rw [ha] at hkind
            cases hkind
        | str text => simp [Modules.textAt, hget, substituted]

theorem checkChildren_eq
    (hev : Evaluating configs names ref M.children done) {l : List String}
    (hl : ∀ c ∈ l, c ∈ done) :
    checkChildren configs l = .ok () := by
  induction l with
  | nil => rfl
  | cons c l ih =>
      rw [List.forall_mem_cons] at hl
      rw [checkChildren, hev.entry_eq (hev.known c hl.1)]
      simp only [bind, Except.bind, hl.1, decide_true, if_true]
      exact ih hl.2

/-- A module whose children are ready is evaluated. -/
theorem evaluatePcm_spec
    (hwf : M.Wf isList) (hev : Evaluating configs names ref M.children done) {n : String}
    (hn : n ∈ names) (hdone : n ∉ done) (hchildren : ∀ c ∈ M.children n, c ∈ done)
    (hraw : h.cells (ref n) = M.raw n) (hat : At isList ref done h₀ cur txt h) :
    ∃ h', evaluatePcm (h, configs) n =
        .ok (h', configs.set n ⟨some (ref n), M.children n, true⟩) ∧
      At isList ref (n :: done) h₀ (M.evaluate (cur, txt) n).1 (M.evaluate (cur, txt) n).2 h' := by
  have hself : n ∉ M.children n := fun hc => hdone (hchildren n hc)
  have href : ∀ m ∈ done, ref n ≠ ref m := by
    intro m hm he
    have := hev.inj n hn m (hev.known m hm) he
    exact hdone (this ▸ hm)
  have hinj := (hev.ready hn).inj_done
  have hcfg : ∀ c ∈ M.children n, configs.cfgOf c = .ok (ref c) :=
    fun c hc => hev.cfgOf_eq (hev.known c (hchildren c hc))
  have hsub : ∀ c ∈ M.children n, c ∈ n :: done :=
    fun c hc => List.mem_cons_of_mem _ (hchildren c hc)
  obtain ⟨h₁, hrun₁, hown₁, hat₁⟩ := substituteInherited_spec hev href (hwf.typed n)
    (fun a c hc => hchildren c (hwf.referred n a c hc)) hraw hat
  have hat₁' : At isList ref (n :: done) h₀ (M.substituteLists cur n)
      (fun a => Function.update (txt a) n (M.textAt a n)) h₁ := by
    refine At.own hdone hat₁ rfl ?_ ?_ ?_
    · simpa using holds_substituted hwf hown₁
    · intro m hm a
      simp [Modules.substituteLists, hm]
    · intro m hm a
      simp [hm]
  have hkeys : ∀ a, a ∈ (h₁.cells (ref n)).keys ↔ a ∈ (M.raw n).keys := by
    intro a
    simp [OrderedDict.mem_keys_iff, hown₁]
  have hinv : PercolateInv isList ref (n :: done) h₀ (M.substituteLists cur n)
      (fun a => Function.update (txt a) n (M.textAt a n)) n (M.raw n) (h₁, []) :=
    ⟨hat₁', by simp [hkeys], by simp⟩
  obtain ⟨s₂, hrun₂, hat₂⟩ := percolateLists_all hcfg hinj List.mem_cons_self hsub hself
    (hwf.nodup n) hinv
  have hsort : ∀ c, c ∈ sortNames (M.children n) ↔ c ∈ M.children n :=
    fun c => (List.perm_insertionSort _ _).mem_iff
  obtain ⟨h₃, hrun₃, hat₃⟩ := percolateStrings_all
    (fun c hc => hcfg c ((hsort c).mp hc)) hinj List.mem_cons_self
    (fun c hc => hsub c ((hsort c).mp hc)) (fun hc => hself ((hsort n).mp hc)) hat₂
  refine ⟨h₃, ?_, ?_⟩
  · have hpercolate : percolateInherited configs (ref n) (M.children n) h₁ = .ok h₃ := by
      unfold percolateInherited
      rw [hrun₂]
      exact hrun₃
    unfold evaluatePcm
    simp only [hev.entry_eq hn, hev.cfgOf_eq hn, bind, Except.bind, hdone, decide_false,
      Bool.false_eq_true, if_false, checkChildren_eq hev hchildren, hrun₁, hpercolate]
    rfl
  · refine hat₃.congr_of_kind ?_ ?_
    · intro m _ a ha
      exact (movedFrom_substituteLists hwf hself ha m).symm
    · intro m _ a ha
      simp [Modules.evaluate, Modules.takeTexts, ha]

end EvaluatePcm

section Postfix

theorem dropMk_append (y : String) :
    dropMk (y ++ ".mk") = y := by
  unfold dropMk
  simp

theorem sortPcmNames_perm (names : List String) :
    (sortPcmNames names).Perm names := by
  unfold sortPcmNames
  have hperm := (List.perm_insertionSort (fun a b => ¬ a < b)
    (names.map (fun y => y ++ ".mk"))).map dropMk
  rw [List.map_map] at hperm
  have hid : (dropMk ∘ fun y => y ++ ".mk") = id := by
    funext y
    exact dropMk_append y
  rwa [hid, List.map_id] at hperm

variable {M : Modules} {rank : String → Nat}

def Modules.order (M : Modules) (n : String) : List String :=
  (sortPcmNames (M.children n)).reverse

theorem mem_order
    {n c : String} :
    c ∈ M.order n ↔ c ∈ M.children n := by
  unfold Modules.order
  rw [List.mem_reverse, (sortPcmNames_perm _).mem_iff]

/-- `configs` holds the modules as they have been run, and their children. -/
structure Recorded (M : Modules) (h : Heap) (configs : Configs) : Prop where
  entries : ∀ n e, configs.get? n = some e →
    ∃ r, e = ⟨some r, M.children n, false⟩ ∧ r < h.next ∧ h.cells r = M.raw n
  closed : ∀ n ∈ configs.keys, ∀ c ∈ M.children n, c ∈ configs.keys

theorem Recorded.entry_eq
    {h : Heap} {configs : Configs} (hrec : Recorded M h configs) {n : String}
    (hn : n ∈ configs.keys) :
    ∃ r, configs.entry n = .ok ⟨some r, M.children n, false⟩ := by
  obtain ⟨e, he⟩ := OrderedDict.mem_keys_iff.mp hn
  obtain ⟨r, rfl, _⟩ := hrec.entries n e he
  refine ⟨r, ?_⟩
  unfold Configs.entry
  rw [he]

/-- The loop over the stack lists the visits of a depth-first search. -/
theorem configsPostfix_spec
    {h : Heap} {configs : Configs} (hrec : Recorded M h configs) (hrank : Ranked M.order rank)
    {top : Nat} {fuel : Nat} {stack : List (String × Bool)} {names : List String}
    (hstack : ∀ e ∈ stack, e.1 ∈ configs.keys ∧ rank e.1 ≤ top) :
    configsPostfix configs fuel stack names = .error .tooManyIterations ∨
      configsPostfix configs fuel stack names =
        .ok (names ++ stack.flatMap (fun e =>
          if e.2 then postOrder M.order top e.1 else [e.1])) := by
  induction fuel generalizing stack names with
  | zero =>
      cases stack with
      | nil => exact Or.inr (by simp [configsPostfix])
      | cons e stack => exact Or.inl rfl
  | succ fuel ih =>
      cases stack with
      | nil => exact Or.inr (by simp [configsPostfix])
      | cons e stack =>
          obtain ⟨n, before⟩ := e
          rw [List.forall_mem_cons] at hstack
          cases before with
          | false =>
              rw [configsPostfix, List.flatMap_cons, if_neg Bool.false_ne_true, ← List.append_assoc]
              exact ih hstack.2
          | true =>
              obtain ⟨r, hentry⟩ := hrec.entry_eq hstack.1.1
              rw [configsPostfix, hentry]
              have hpush : ∀ e ∈ (M.order n).map (fun child => (child, true)) ++
                  (n, false) :: stack, e.1 ∈ configs.keys ∧ rank e.1 ≤ top := by
                intro e he
                rcases List.mem_append.mp he with he | he
                · obtain ⟨c, hc, rfl⟩ := List.mem_map.mp he
                  have hlt := hrank n c hc
                  exact ⟨hrec.closed n hstack.1.1 c (mem_order.mp hc),
                    hlt.le.trans hstack.1.2⟩
                · rcases List.mem_cons.mp he with rfl | he'
                  · exact hstack.1
                  · exact hstack.2 e he'
              have hvisits : ((M.order n).map (fun child => (child, true)) ++
                  (n, false) :: stack).flatMap (fun e =>
                    if e.2 then postOrder M.order top e.1 else [e.1]) =
                  ((n, true) :: stack).flatMap (fun e =>
                    if e.2 then postOrder M.order top e.1 else [e.1]) := by
                rw [List.flatMap_append, List.flatMap_map, List.flatMap_cons, List.flatMap_cons,
                  if_pos rfl, postOrder_eq hrank hstack.1.2]
                simp
              rw [← hvisits]
              exact ih hpush

end Postfix

section Clone

variable {M : Modules} {h : Heap} {configs : Configs} {names : List String}

/-- The state in the loop that clones the modules. -/
structure CloneInv (M : Modules) (h : Heap) (names : List String) (finished : List String)
    (s : Heap × Configs) : Prop where
  next : h.next ≤ s.1.next
  old : ∀ r < h.next, s.1.cells r = h.cells r
  cloned : ∀ n ∈ names, n ∈ finished → ∃ r, s.2.get? n = some ⟨some r, M.children n, false⟩ ∧
    h.next ≤ r ∧ s.1.cells r = M.raw n
  below : ∀ n e r, s.2.get? n = some e → e.cfg = some r → r < s.1.next
  inj : ∀ m n d e r, s.2.get? m = some d → s.2.get? n = some e → d.cfg = some r →
    e.cfg = some r → m = n

theorem CloneInv.clone
    {finished : List String} {s : Heap × Configs} (hinv : CloneInv M h names finished s)
    {n : String} (hfresh : n ∉ finished) {r : Nat} (hr : r < h.next) (hraw : h.cells r = M.raw n) :
    CloneInv M h names (finished ++ [n])
      (s.1.alloc (s.1.cells r), s.2.set n ⟨some s.1.next, M.children n, false⟩) := by
  have hcells : ∀ k < s.1.next, (s.1.alloc (s.1.cells r)).cells k = s.1.cells k :=
    fun k hk => Function.update_of_ne (Nat.ne_of_lt hk) _ _
  constructor
  · exact hinv.next.trans (Nat.le_succ _)
  · intro k hk
    rw [hcells k (hk.trans_le hinv.next), hinv.old k hk]
  · intro m hm hmem
    rw [OrderedDict.get?_set]
    by_cases hmn : m = n
    · subst hmn
      refine ⟨s.1.next, if_pos rfl, hinv.next, ?_⟩
      simp only [Heap.alloc, Function.update_self]
      rw [hinv.old r hr, hraw]
    · have hmem' : m ∈ finished := by simpa [hmn] using hmem
      obtain ⟨k, hget, hle, hcell⟩ := hinv.cloned m hm hmem'
      refine ⟨k, by rw [if_neg hmn, hget], hle, ?_⟩
      rw [hcells k (hinv.below m _ k hget rfl), hcell]
  · intro m e k hget hk
    rw [OrderedDict.get?_set] at hget
    show k < s.1.next + 1
    split_ifs at hget
    · cases hget
      cases hk
      exact Nat.lt_succ_self _
    · exact (hinv.below m e k hget hk).trans (Nat.lt_succ_self _)
  · intro m m' d e k hd he hdk hek
    rw [OrderedDict.get?_set] at hd he
    split_ifs at hd he with h₁ h₂ h₂
    · rw [h₁, h₂]
    · cases hd
      cases hdk
      exact absurd (hinv.below m' e _ he hek) (lt_irrefl _)
    · cases he
      cases hek
      exact absurd (hinv.below m d _ hd hdk) (lt_irrefl _)
    · exact hinv.inj m m' d e k hd he hdk hek

/-- The modules in `names` are cloned; the original dictionaries stay as they are. -/
theorem cloneConfigs_spec
    (hrec : Recorded M h configs) (hnames : ∀ n ∈ names, n ∈ configs.keys) :
    ∃ h' cloned ref, cloneConfigs names h configs = .ok (h', cloned) ∧
      Evaluating cloned names ref M.children [] ∧ (∀ n ∈ names, h'.cells (ref n) = M.raw n) ∧
      (∀ n ∈ names, h.next ≤ ref n) ∧ (∀ r < h.next, h'.cells r = h.cells r) ∧
      h.next ≤ h'.next := by
  obtain ⟨s, hrun, hinv⟩ := forLoop_total (cloneConfig names)
    (fun finished s => CloneInv M h names (finished.map Prod.fst) s) configs.entries
    (h, OrderedDict.empty)
    (by
      refine ⟨le_refl _, fun _ _ => rfl, by simp, ?_, ?_⟩
      · intro n e r hget
        cases hget
      · intro m n d e r hget
        cases hget)
    (by
      intro finished e rest s hsplit hs
      have hnodup := configs.nodup
      rw [hsplit, List.map_append, List.map_cons] at hnodup
      have hfresh : e.1 ∉ finished.map Prod.fst := by
        intro hmem
        exact (List.nodup_append.mp hnodup).2.2 e.1 hmem e.1 (by simp) rfl
      rw [List.map_append, List.map_singleton]
      by_cases hn : e.1 ∈ names
      · have hget : configs.get? e.1 = some e.2 := configs.get?_of_mem (by simp [hsplit])
        obtain ⟨r, he, hr, hraw⟩ := hrec.entries e.1 e.2 hget
        refine ⟨_, ?_, hs.clone hfresh hr hraw⟩
        simp [cloneConfig, hn, he]
      · refine ⟨s, by simp [cloneConfig, hn], hs.next, hs.old, ?_, hs.below, hs.inj⟩
        intro n hmem hfin
        refine hs.cloned n hmem ?_
        rcases List.mem_append.mp hfin with hfin' | hfin'
        · exact hfin'
        · rw [List.mem_singleton] at hfin'
          exact absurd (hfin' ▸ hmem) hn)
  have hcloned : ∀ n ∈ names, ∃ r, s.2.get? n = some ⟨some r, M.children n, false⟩ ∧
      h.next ≤ r ∧ s.1.cells r = M.raw n := fun n hn => hinv.cloned n hn (hnames n hn)
  refine ⟨s.1, s.2, fun n => ((s.2.get? n).bind Entry.cfg).getD 0, hrun, ⟨?_, ?_, by simp⟩, ?_, ?_,
    hinv.old, hinv.next⟩
  · intro n hn
    obtain ⟨r, hget, _⟩ := hcloned n hn
    simp [hget]
  · intro m hm n hn heq
    obtain ⟨r, hgetm, _⟩ := hcloned m hm
    obtain ⟨k, hgetn, _⟩ := hcloned n hn
    simp only [hgetm, hgetn, Option.bind_some, Option.getD_some] at heq
    exact hinv.inj m n _ _ r hgetm hgetn rfl (by rw [heq])
  · intro n hn
    obtain ⟨r, hget, _, hcell⟩ := hcloned n hn
    simpa [hget] using hcell
  · intro n hn
    obtain ⟨r, hget, hle, _⟩ := hcloned n hn
    simpa [hget] using hle

end Clone

section Evaluate

variable {M : Modules} {rank : String → Nat} {h : Heap} {configs : Configs} {top : String}

/-- The values of all modules after the visits below `top`. -/
def Modules.values (M : Modules) (depth : Nat) (top : String) :
    (String → String → List String) × (String → String → String) :=
  (visitAll M.evaluate ([], fun _ _ => [], fun _ _ => "") (postOrder M.order depth top)).2

/-- The loop over `configs_postfix`. -/
theorem evaluateLoop_spec
    (hwf : M.Wf isList) {cloned : Configs} {names : List String} {ref : String → Nat}
    (hev : Evaluating cloned names ref M.children []) {h₀ : Heap}
    (hraw : ∀ n ∈ names, h₀.cells (ref n) = M.raw n) (hfirst : ChildrenFirst M.order names) :
    ∃ s, names.foldlM evaluatePcm (h₀, cloned) = .ok s ∧
      Evaluating s.2 names ref M.children
        (visitAll M.evaluate ([], fun _ _ => [], fun _ _ => "") names).1 ∧
      At isList ref (visitAll M.evaluate ([], fun _ _ => [], fun _ _ => "") names).1 h₀
        (visitAll M.evaluate ([], fun _ _ => [], fun _ _ => "") names).2.1
        (visitAll M.evaluate ([], fun _ _ => [], fun _ _ => "") names).2.2 s.1 := by
  refine forLoop_total evaluatePcm (fun visited s =>
    Evaluating s.2 names ref M.children
      (visitAll M.evaluate ([], fun _ _ => [], fun _ _ => "") visited).1 ∧
    At isList ref (visitAll M.evaluate ([], fun _ _ => [], fun _ _ => "") visited).1 h₀
      (visitAll M.evaluate ([], fun _ _ => [], fun _ _ => "") visited).2.1
      (visitAll M.evaluate ([], fun _ _ => [], fun _ _ => "") visited).2.2 s.1)
    names (h₀, cloned) ⟨hev, by simp, fun _ _ => rfl, rfl⟩ ?_
  rintro visited n rest ⟨r, current⟩ hsplit ⟨hr, hat⟩
  have hn : n ∈ names := by simp [hsplit]
  rw [visitAll_append, visitAll_singleton]
  generalize hdone : visitAll M.evaluate ([], fun _ _ => [], fun _ _ => "") visited = t at hr hat ⊢
  obtain ⟨done, cur, txt⟩ := t
  have hmem : ∀ m, m ∈ done ↔ m ∈ visited := by
    intro m
    have hvisit : m ∈ (visitAll M.evaluate ([], fun _ _ => [], fun _ _ => "") visited).1 ↔
        m ∈ visited ∨ m ∈ [] := mem_visitAll
    rw [hdone] at hvisit
    simpa using hvisit
  by_cases hvisited : n ∈ done
  · refine ⟨(r, current), ?_, ?_⟩
    · unfold evaluatePcm
      simp only [hr.entry_eq hn, hr.cfgOf_eq hn, bind, Except.bind, hvisited, decide_true, if_true]
      rfl
    · rw [visit, if_pos hvisited]
      exact ⟨hr, hat⟩
  · have hchildren : ∀ c ∈ M.children n, c ∈ done := by
      intro c hc
      exact (hmem c).mpr (hfirst visited n rest hsplit c (mem_order.mpr hc))
    have hcell : r.cells (ref n) = M.raw n := by
      rw [hat.frame (ref n), hraw n hn]
      intro m hm he
      have := hr.inj n hn m (hr.known m hm) he
      exact hvisited (this ▸ hm)
    obtain ⟨r', hrun, hat'⟩ := evaluatePcm_spec hwf hr hn hvisited hchildren hcell hat
    refine ⟨_, hrun, ?_⟩
    rw [visit, if_neg hvisited]
    exact ⟨hr.ready hn, hat'⟩

/-- The dictionary of the top module.  The dictionaries that existed before
the call are unchanged. -/
theorem evaluateFinalizedProductVariables_spec
    (hwf : M.Wf isList) (hrec : Recorded M h configs) (hrank : Ranked M.order rank)
    (htop : top ∈ configs.keys) {depth : Nat} (hdepth : rank top ≤ depth)
    (hlimit : evaluateFinalizedProductVariables h configs top ≠ .error .tooManyIterations) :
    ∃ cfg h', evaluateFinalizedProductVariables h configs top = .ok (cfg, h') ∧
      Holds isList cfg (fun a => (M.values depth top).1 a top)
        (fun a => (M.values depth top).2 a top) ∧
      h.next ≤ h'.next ∧ ∀ r < h.next, h'.cells r = h.cells r := by
  have hstack : ∀ e ∈ [(top, true)], e.1 ∈ configs.keys ∧ rank e.1 ≤ depth := by
    simpa using ⟨htop, hdepth⟩
  unfold evaluateFinalizedProductVariables at hlimit ⊢
  have hpost : configsPostfix configs 1000 [(top, true)] [] = .error .tooManyIterations ∨
      configsPostfix configs 1000 [(top, true)] [] = .ok _ :=
    configsPostfix_spec hrec hrank hstack
  rcases hpost with herr | hnames
  · rw [herr] at hlimit
    exact absurd rfl hlimit
  · rw [List.nil_append, List.flatMap_singleton, if_pos rfl] at hnames
    have hknown : ∀ n ∈ postOrder M.order depth top, n ∈ configs.keys :=
      postOrder_subset (fun m hm c hc => hrec.closed m hm c (mem_order.mp hc)) htop
    obtain ⟨h₀, cloned, ref, hclone, hev, hraw, hnew, hold, hnext⟩ :=
      cloneConfigs_spec hrec hknown
    obtain ⟨s, hloop, hev', hat⟩ := evaluateLoop_spec hwf hev hraw
      (childrenFirst_postOrder hrank hdepth)
    have htopmem : top ∈ postOrder M.order depth top := self_mem_postOrder depth top
    have hdone : top ∈ (visitAll M.evaluate ([], fun _ _ => [], fun _ _ => "")
        (postOrder M.order depth top)).1 := mem_visitAll.mpr (Or.inl htopmem)
    refine ⟨s.1.cells (ref top), s.1, ?_, hat.holds top hdone, ?_, ?_⟩
    · rw [hnames]
      simp only [bind, Except.bind, hclone]
      rw [hloop]
      simp only [hev'.cfgOf_eq htopmem]
      rfl
    · rw [hat.next]
      exact hnext
    · intro r hr
      rw [hat.frame r, hold r hr]
      intro m hm he
      have := hnew m (hev'.known m hm)
      omega

theorem Recorded.mono
    {h' : Heap} (hrec : Recorded M h configs) (hnext : h.next ≤ h'.next)
    (hold : ∀ r < h.next, h'.cells r = h.cells r) :
    Recorded M h' configs := by
  refine ⟨?_, hrec.closed⟩
  intro n e he
  obtain ⟨r, hentry, hr, hraw⟩ := hrec.entries n e he
  exact ⟨r, hentry, hr.trans_le hnext, by rw [hold r hr, hraw]⟩

theorem evaluateAll_spec
    (hwf : M.Wf isList) (hrec : Recorded M h configs) (hrank : Ranked M.order rank)
    {tops : List String} (htops : ∀ top ∈ tops, top ∈ configs.keys)
    (hlimit : evaluateAll configs h tops ≠ .error .tooManyIterations) :
    ∃ cfgs, evaluateAll configs h tops = .ok cfgs ∧
      List.Forall₂ (fun top cfg => Holds isList cfg (fun a => (M.values (rank top) top).1 a top)
        (fun a => (M.values (rank top) top).2 a top)) tops cfgs := by
  induction tops generalizing h with
  | nil => exact ⟨[], rfl, List.Forall₂.nil⟩
  | cons top tops ih =>
      rw [List.forall_mem_cons] at htops
      rw [evaluateAll] at hlimit ⊢
      have hfirst : evaluateFinalizedProductVariables h configs top ≠
          .error .tooManyIterations := by
        intro herr
        rw [herr] at hlimit
        exact hlimit rfl
      obtain ⟨cfg, h', hrun, hholds, hnext, hold⟩ :=
        evaluateFinalizedProductVariables_spec hwf hrec hrank htops.1 (le_refl _) hfirst
      rw [hrun] at hlimit ⊢
      have hrest : evaluateAll configs h' tops ≠ .error .tooManyIterations := by
        intro herr
        simp only [bind, Except.bind, herr] at hlimit
        exact hlimit rfl
      obtain ⟨cfgs, hruns, hall⟩ := ih (hrec.mono hnext hold) htops.2 hrest
      refine ⟨cfg :: cfgs, ?_, List.Forall₂.cons hholds hall⟩
      simp only [bind, Except.bind, hruns]
      rfl

end Evaluate

end ProductConfig
end AndroidBuild
