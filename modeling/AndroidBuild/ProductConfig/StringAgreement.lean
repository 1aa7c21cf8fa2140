import AndroidBuild.ProductConfig.Agreement

/-!
# Single-value variables

A makefile with a value of its own drops the values of the makefiles it
inherits; otherwise it takes the first and drops the others.  A module leaves
the strings it does not take where they are, and compares names without their
extension.  A string of blanks is a value for a module, and no value for a
makefile.  The two agree as long as both take the same child, and a string that
is left behind is not inherited again.
-/

namespace AndroidBuild
namespace ProductConfig

open Loop PostOrder

variable {vars : ProductVars} {pcms : String → List PcmStatement} {rank : String → Nat}

section TakeText

def wordsAt (t : String → String) (c : String) : List String :=
  Text.words (t c)

theorem words_empty :
    Text.words "" = [] := by
  decide

/-- The loop over the children takes the first string. -/
theorem foldl_takeText
    {n : String} {l : List String} (hn : n ∉ l) {t : String → String} :
    l.foldl (takeText n) t =
      if t n = "" then
        match l.find? (fun c => t c ≠ "") with
        | none => t
        | some c => fun m => if m = n then t c else if m = c then "" else t m
      else t := by
  have hkeep : ∀ (l : List String) (t : String → String), t n ≠ "" →
      l.foldl (takeText n) t = t := by
    intro l
    induction l with
    | nil => intro t _; rfl
    | cons d l ih =>
        intro t ht
        rw [List.foldl_cons, takeText, if_neg ht]
        exact ih t ht
  induction l with
  | nil => simp
  | cons d l ih =>
      rw [List.mem_cons, not_or] at hn
      by_cases ht : t n = ""
      · rw [List.foldl_cons, if_pos ht]
        by_cases hd : t d = ""
        · have hsame : takeText n t d = t := by
            rw [takeText, if_pos ht]
            funext m
            by_cases hm : m = n
            · simp [hm, ht, hd]
            · by_cases hmd : m = d
              · simp [hmd, hd]
              · simp [hm, hmd]
          rw [hsame, ih hn.2, if_pos ht, List.find?_cons_of_neg (by simpa using hd)]
        · rw [List.find?_cons_of_pos (by simpa using hd), takeText, if_pos ht, hkeep]
          simpa using hd
      · rw [if_neg ht]
        exact hkeep _ t ht

end TakeText

section Steps

/-- The children whose tags are left in the variable, in the order of the makefiles. -/
def tagged (vars : ProductVars) (pcms : String → List PcmStatement) (v n : String) :
    List String :=
  ((modulesOf pcms).order n).filter
    (fun c => c ++ ".mk" ∈ tagsOf ((makefilesOf vars pcms).itemsOf v (n ++ ".mk")))

/-- The child that `n` takes its string from: its own string is empty, and the child is the first
one with a string in the order of the names. -/
def picked (pcms : String → List PcmStatement) (v : String) (t : String → String) (n : String) :
    Option String :=
  if (modulesOf pcms).textAt v n = "" then
    (sortNames ((modulesOf pcms).children n)).find? fun c => t c ≠ ""
  else none

/-- The evaluation of `n` when the modules have the strings `t`.

* If its own string has no word, the first child with a word in the order of the
  makefiles is the child that its string is taken from, if that has a word.
* No other child that is dropped with a word is inherited in `later`. -/
def StepOk (vars : ProductVars) (pcms : String → List PcmStatement) (v : String)
    (t : String → String) (n : String) (later : List String) : Prop :=
  (wordsAt ((modulesOf pcms).textAt v) n = [] →
    taken (wordsAt t) (tagged vars pcms v n) =
      (picked pcms v t n).filter fun c => wordsAt t c ≠ []) ∧
  ∀ c ∈ tagged vars pcms v n, wordsAt t c ≠ [] → picked pcms v t n ≠ some c →
    ∀ m ∈ later, c ∉ (modulesOf pcms).children m

instance (vars : ProductVars) (pcms : String → List PcmStatement) (v : String)
    (t : String → String) (n : String) (later : List String) :
    Decidable (StepOk vars pcms v t n later) := by
  unfold StepOk
  infer_instance

/-- All steps of the visits in the list meet `StepOk`. -/
def StepsOk (vars : ProductVars) (pcms : String → List PcmStatement) (v : String) :
    List String → (String → String) → List String → Prop
  | _, _, [] => True
  | done, t, n :: after =>
      if n ∈ done then StepsOk vars pcms v done t after
      else
        StepOk vars pcms v t n (after.filter (fun m => m ∉ n :: done)) ∧
          StepsOk vars pcms v (n :: done) ((modulesOf pcms).takeTexts v t n) after

instance decidableStepsOk (vars : ProductVars) (pcms : String → List PcmStatement) (v : String) :
    (done : List String) → (t : String → String) → (l : List String) →
      Decidable (StepsOk vars pcms v done t l)
  | _, _, [] => isTrue trivial
  | done, t, n :: after =>
      have := decidableStepsOk vars pcms v done t after
      have := decidableStepsOk vars pcms v (n :: done) ((modulesOf pcms).takeTexts v t n) after
      inferInstanceAs (Decidable (if n ∈ done then StepsOk vars pcms v done t after
        else
          StepOk vars pcms v t n (after.filter (fun m => m ∉ n :: done)) ∧
            StepsOk vars pcms v (n :: done) ((modulesOf pcms).takeTexts v t n) after))

/-- The value of a variable in the makefile: words, then tags. -/
theorem wordsOf_itemsOf
    (htyped : ∀ n, ∀ s ∈ pcms n, s.Typed vars) {v : String} (hv : v ∈ vars.singleValueVars)
    (n : String) :
    wordsOf ((makefilesOf vars pcms).itemsOf v (n ++ ".mk")) =
      wordsAt ((modulesOf pcms).textAt v) n := by
  obtain ⟨handle, _, hraw, _, hinv⟩ := moduleOf_spec htyped n
  obtain ⟨since, henv, _⟩ := hinv.single v hv
  have htags : ∀ l : List String,
      wordsOf (l.map (fun c => Item.inherit (c ++ ".mk"))) = [] := by
    intro l
    induction l with
    | nil => rfl
    | cons c l ih => simp [wordsOf]
  have hwords : ∀ l : List String, wordsOf (l.map Item.word) = l := by
    intro l
    unfold wordsOf
    rw [List.filterMap_map]
    exact List.filterMap_some
  have happend : ∀ l l' : List Item, wordsOf (l ++ l') = wordsOf l ++ wordsOf l' :=
    fun l l' => List.filterMap_append
  rw [henv, happend, htags, List.append_nil, wordsAt, Modules.textAt, hraw]
  cases hget : handle.cfg.get? v with
  | none => exact words_empty.symm
  | some value =>
      cases value with
      | list items => exact words_empty.symm
      | str text => exact hwords _

theorem makeSort_tagsOf
    (htyped : ∀ n, ∀ s ∈ pcms n, s.Typed vars) {v : String} (hv : v ∈ vars.singleValueVars)
    (n : String) :
    makeSort (tagsOf ((makefilesOf vars pcms).itemsOf v (n ++ ".mk"))) =
      (tagged vars pcms v n).map (fun y => y ++ ".mk") := by
  refine eq_map_order htyped ?_
  intro c
  constructor
  · intro hc
    obtain ⟨d, hd, rfl⟩ := mem_tagsOf_itemsOf htyped (List.mem_append_left _ hv) hc
    exact ⟨d, hd, hc, rfl⟩
  · rintro ⟨d, _, hmem, rfl⟩
    exact hmem

theorem mem_tagged
    {v n c : String} :
    c ∈ tagged vars pcms v n ↔ c ∈ (modulesOf pcms).children n ∧
      c ++ ".mk" ∈ tagsOf ((makefilesOf vars pcms).itemsOf v (n ++ ".mk")) := by
  unfold tagged
  rw [List.mem_filter, mem_order, decide_eq_true_eq]

theorem taken_map
    (cur : String → List String) (l : List String) :
    taken cur (l.map (fun y => y ++ ".mk")) =
      (taken (fun c => cur (c ++ ".mk")) l).map (fun y => y ++ ".mk") := by
  induction l with
  | nil => rfl
  | cons c l ih =>
      rw [List.map_cons, taken, taken, ih]
      split_ifs <;> rfl

theorem taken_congr
    {cur cur' : String → List String} {l : List String} (h : ∀ c ∈ l, cur c = cur' c) :
    taken cur l = taken cur' l := by
  induction l with
  | nil => rfl
  | cons c l ih =>
      rw [List.forall_mem_cons] at h
      rw [taken, taken, h.1, ih h.2]

/-- The strings that are still to be inherited agree. -/
def StringsAgree (pcms : String → List PcmStatement) (top : String) (done : List String)
    (t : String → String) (cur : String → List String) (after : List String) : Prop :=
  ∀ m ∈ done, (m = top ∨ ∃ k ∈ after, k ∉ done ∧ m ∈ (modulesOf pcms).children k) →
    cur (m ++ ".mk") = wordsAt t m

section TakeTexts

variable {v n : String} (hself : n ∉ (modulesOf pcms).children n) {t : String → String}

include hself

/-- The strings after the evaluation of `n`. -/
theorem takeTexts_eq :
    (modulesOf pcms).takeTexts v t n =
      match picked pcms v t n with
      | none => Function.update t n ((modulesOf pcms).textAt v n)
      | some c => fun m => if m = n then t c else if m = c then "" else t m := by
  have hself' : n ∉ sortNames ((modulesOf pcms).children n) :=
    fun h => hself ((List.perm_insertionSort _ _).mem_iff.mp h)
  have hne : ∀ c ∈ sortNames ((modulesOf pcms).children n), c ≠ n := by
    rintro c hc rfl
    exact hself' hc
  unfold Modules.takeTexts
  generalize hown : (modulesOf pcms).textAt v n = own
  have hfind : (sortNames ((modulesOf pcms).children n)).find?
        (fun c => Function.update t n own c ≠ "") =
      (sortNames ((modulesOf pcms).children n)).find? (fun c => t c ≠ "") :=
    List.find?_congr fun c hc => by rw [Function.update_of_ne (hne c hc)]
  rw [foldl_takeText hself', hfind, Function.update_self, picked, hown]
  split_ifs with hempty
  · cases htaken : (sortNames ((modulesOf pcms).children n)).find? (fun c => t c ≠ "") with
    | none => rfl
    | some c =>
        have hcn := hne c (List.mem_of_find?_eq_some htaken)
        funext m
        by_cases hm : m = n
        · simp [hm, hcn]
        · simp [hm]
  · rfl

theorem takeTexts_self :
    (modulesOf pcms).takeTexts v t n n =
      ((picked pcms v t n).map t).getD ((modulesOf pcms).textAt v n) := by
  rw [takeTexts_eq hself]
  cases picked pcms v t n with
  | none => simp
  | some c => simp

theorem takeTexts_other
    {m : String} (hm : m ≠ n) :
    (modulesOf pcms).takeTexts v t n m = if picked pcms v t n = some m then "" else t m := by
  rw [takeTexts_eq hself]
  cases picked pcms v t n with
  | none => simp [hm]
  | some c => simp [hm, @eq_comm _ c m]

end TakeTexts

theorem StringsAgree.step
    (htyped : ∀ n, ∀ s ∈ pcms n, s.Typed vars) {v : String} (hv : v ∈ vars.singleValueVars)
    {top n : String} {done after : List String} {t : String → String}
    {cur : String → List String} (h : StringsAgree pcms top done t cur (n :: after))
    (hn : n ∉ done) (hchildren : ∀ c ∈ (modulesOf pcms).children n, c ∈ done)
    (htop : top ∉ (modulesOf pcms).children n)
    (hstep : StepOk vars pcms v t n (after.filter (fun m => m ∉ n :: done))) :
    StringsAgree pcms top (n :: done) ((modulesOf pcms).takeTexts v t n)
      (expandNode true ((makefilesOf vars pcms).itemsOf v) cur (n ++ ".mk")) after := by
  obtain ⟨hsame, hdropped⟩ := hstep
  have hself : n ∉ (modulesOf pcms).children n := fun hc => hn (hchildren n hc)
  have hcur : ∀ c ∈ (modulesOf pcms).children n, cur (c ++ ".mk") = wordsAt t c :=
    fun c hc => h c (hchildren c hc) (Or.inr ⟨n, List.mem_cons_self, hn, hc⟩)
  have htaken : taken cur (makeSort (tagsOf ((makefilesOf vars pcms).itemsOf v (n ++ ".mk")))) =
      (taken (wordsAt t) (tagged vars pcms v n)).map (fun y => y ++ ".mk") := by
    rw [makeSort_tagsOf htyped hv, taken_map,
      taken_congr (fun c hc => hcur c (mem_tagged.mp hc).1)]
  have hpicked : ∀ c, picked pcms v t n = some c →
      (modulesOf pcms).textAt v n = "" ∧ c ∈ (modulesOf pcms).children n := by
    intro c hc
    unfold picked at hc
    split at hc
    · exact ⟨‹_›, (List.perm_insertionSort _ _).mem_iff.mp (List.mem_of_find?_eq_some hc)⟩
    · cases hc
  intro m hm hneeded
  have hmk : m ++ ".mk" = n ++ ".mk" ↔ m = n := mk_injective.eq_iff
  simp only [expandNode, hmk]
  by_cases hmn : m = n
  · -- the value of the module itself
    subst hmn
    rw [if_pos rfl, expandItems, if_pos rfl, wordsOf_itemsOf htyped hv, firstNonempty_eq_taken,
      htaken]
    change _ = Text.words ((modulesOf pcms).takeTexts v t m m)
    rw [takeTexts_self hself]
    by_cases hown : wordsAt ((modulesOf pcms).textAt v) m = []
    · rw [if_pos hown, hsame hown]
      cases hchild : picked pcms v t m with
      | none => exact hown.symm
      | some c =>
          change _ = wordsAt t c
          rw [Option.filter_some]
          by_cases hc : wordsAt t c = []
          · simp [hc]
          · simpa [hc] using hcur c (hpicked c hchild).2
    · rw [if_neg hown]
      cases hchild : picked pcms v t m with
      | none => rfl
      | some c => exact absurd (by rw [wordsAt, (hpicked c hchild).1, words_empty]) hown
  · have hold : cur (m ++ ".mk") = wordsAt t m := by
      refine h m ((List.mem_cons.mp hm).resolve_left hmn) (hneeded.imp id ?_)
      rintro ⟨k, hk, hkdone, hmem⟩
      exact ⟨k, List.mem_cons_of_mem _ hk, fun hd => hkdone (List.mem_cons_of_mem _ hd), hmem⟩
    rw [if_neg hmn, hold]
    change _ = Text.words ((modulesOf pcms).takeTexts v t n m)
    rw [takeTexts_other hself hmn]
    by_cases hwords : wordsAt t m = []
    · -- nothing is lost with a string of blanks
      rw [hwords, ite_self]
      split_ifs
      · exact words_empty.symm
      · exact hwords.symm
    · by_cases hfirst : picked pcms v t n = some m
      · -- the string of `m` is taken
        have htag := hsame (by rw [wordsAt, (hpicked m hfirst).1, words_empty])
        rw [hfirst, Option.filter_some, if_pos (by simpa using hwords)] at htag
        rw [if_pos hfirst, if_pos (mem_tagged.mp (mem_of_taken htag).1).2, words_empty]
      · rw [if_neg hfirst]
        split_ifs with htag
        · -- Make drops the string of `m`, and it is inherited again
          obtain ⟨d, hd, hdm⟩ := mem_tagsOf_itemsOf htyped (List.mem_append_left _ hv) htag
          have hchild : m ∈ (modulesOf pcms).children n := mk_injective hdm ▸ hd
          rcases hneeded with rfl | ⟨k, hk, hkdone, hmk⟩
          · exact absurd hchild htop
          · have hk' : k ∈ after.filter (fun m => m ∉ n :: done) :=
              List.mem_filter.mpr ⟨hk, decide_eq_true hkdone⟩
            exact absurd hmk
              (hdropped m (mem_tagged.mpr ⟨hchild, htag⟩) hwords hfirst k hk')
        · rfl

theorem StringsAgree.visitAll
    (htyped : ∀ n, ∀ s ∈ pcms n, s.Typed vars) {v : String} (hv : v ∈ vars.singleValueVars)
    {top : String} {done after : List String} {t : String → String} {cur : String → List String}
    (h : StringsAgree pcms top done t cur after)
    (hfirst : ∀ before n rest, after = before ++ n :: rest →
      ∀ c ∈ (modulesOf pcms).children n, c ∈ done ∨ c ∈ before)
    (htop : ∀ n ∈ after, top ∉ (modulesOf pcms).children n)
    (hsteps : StepsOk vars pcms v done t after) :
    StringsAgree pcms top
      (PostOrder.visitAll (fun t n => (modulesOf pcms).takeTexts v t n) (done, t) after).1
      (PostOrder.visitAll (fun t n => (modulesOf pcms).takeTexts v t n) (done, t) after).2
      (PostOrder.visitAll (expandNode true ((makefilesOf vars pcms).itemsOf v))
        (done.map (fun y => y ++ ".mk"), cur) (after.map (fun y => y ++ ".mk"))).2 [] := by
  induction after generalizing done t cur with
  | nil => exact h
  | cons n after ih =>
      rw [List.forall_mem_cons] at htop
      have hmem : n ++ ".mk" ∈ done.map (fun y => y ++ ".mk") ↔ n ∈ done :=
        List.mem_map_of_injective mk_injective
      show StringsAgree pcms top
        (PostOrder.visitAll (fun t n => (modulesOf pcms).takeTexts v t n)
          (visit (fun t n => (modulesOf pcms).takeTexts v t n) (done, t) n) after).1
        (PostOrder.visitAll (fun t n => (modulesOf pcms).takeTexts v t n)
          (visit (fun t n => (modulesOf pcms).takeTexts v t n) (done, t) n) after).2
        (PostOrder.visitAll (expandNode true ((makefilesOf vars pcms).itemsOf v))
          (visit (expandNode true ((makefilesOf vars pcms).itemsOf v))
            (done.map (fun y => y ++ ".mk"), cur) (n ++ ".mk")) (after.map (fun y => y ++ ".mk"))).2
        []
      rw [StepsOk] at hsteps
      by_cases hn : n ∈ done
      · rw [if_pos hn] at hsteps
        rw [visit, if_pos hn, visit, if_pos (hmem.mpr hn)]
        refine ih ?_ ?_ htop.2 hsteps
        · intro m hm hneeded
          refine h m hm (hneeded.imp id ?_)
          rintro ⟨k, hk, hrest⟩
          exact ⟨k, List.mem_cons_of_mem _ hk, hrest⟩
        · intro before k rest hsplit c hc
          rcases hfirst (n :: before) k rest (by simp [hsplit]) c hc with hd | hd
          · exact Or.inl hd
          · rcases List.mem_cons.mp hd with rfl | hd'
            · exact Or.inl hn
            · exact Or.inr hd'
      · rw [if_neg hn] at hsteps
        rw [visit, if_neg hn, visit, if_neg (fun hd => hn (hmem.mp hd))]
        have hchildren : ∀ c ∈ (modulesOf pcms).children n, c ∈ done := by
          intro c hc
          rcases hfirst [] n after rfl c hc with hd | hd
          · exact hd
          · cases hd
        refine ih (h.step htyped hv hn hchildren htop.1 hsteps.1) ?_ htop.2 hsteps.2
        intro before k rest hsplit c hc
        rcases hfirst (n :: before) k rest (by simp [hsplit]) c hc with hd | hd
        · exact Or.inl (List.mem_cons_of_mem _ hd)
        · rcases List.mem_cons.mp hd with rfl | hd'
          · exact Or.inl List.mem_cons_self
          · exact Or.inr hd'

end Steps

section Strings

def textOf (cfg : Cfg) (attr : String) : String :=
  match cfg.get? attr with
  | some (.str text) => text
  | _ => ""

theorem textOf_eq
    {isList : String → Bool} {cfg : Cfg} {lists : String → List String}
    {texts : String → String} (h : Holds isList cfg lists texts) {a : String}
    (ha : isList a = false) :
    textOf cfg a = texts a := by
  unfold textOf
  rcases h.text a ha with hget | ⟨hget, hnil⟩
  · rw [hget]
  · rw [hget, hnil]

/-- Starlark and Make compute the same string, if every step meets `StepOk`. -/
theorem evaluate_strings_agree
    (htyped : ∀ n, ∀ s ∈ pcms n, s.Typed vars)
    (hrank : ∀ n c, .inherit c ∈ pcms n → rank c < rank n) {first top : String} {h : Heap}
    {configs : Configs} (hrun : productConfigs pcms first = .ok (h, configs))
    (htop : top ∈ configs.keys)
    (hlimit : evaluateFinalizedProductVariables h configs top ≠ .error .tooManyIterations)
    {v : String} (hv : v ∈ vars.singleValueVars)
    (htagged : ∀ n ∈ postOrder (modulesOf pcms).order (rank top) top, Tagged vars pcms n)
    (hsteps : StepsOk vars pcms v [] (fun _ => "")
      (postOrder (modulesOf pcms).order (rank top) top)) :
    ∃ cfg h', evaluateFinalizedProductVariables h configs top = .ok (cfg, h') ∧
      ∀ depth, rank top < depth →
        ∃ values, (makefilesOf vars pcms).importProduct depth (top ++ ".mk") = .ok values ∧
          values v = (Text.words (textOf cfg v)).map Item.word := by
  have horder := ranked_order hrank
  obtain ⟨cfg, h', heval, hholds, _⟩ := evaluateFinalizedProductVariables_spec
    (modulesOf_wf htyped) (productConfigs_recorded hrun) horder htop (le_refl _) hlimit
  refine ⟨cfg, h', heval, ?_⟩
  intro depth hdepth
  obtain ⟨values, himport, hvalues⟩ := importProduct_mk htyped hrank htagged hdepth
  refine ⟨values, himport, ?_⟩
  have hinit : StringsAgree pcms top [] (fun _ => "") (fun _ => [])
      (postOrder (modulesOf pcms).order (rank top) top) := by simp [StringsAgree]
  have hfirst : ∀ before n rest,
      postOrder (modulesOf pcms).order (rank top) top = before ++ n :: rest →
      ∀ c ∈ (modulesOf pcms).children n, c ∈ [] ∨ c ∈ before := by
    intro before n rest hsplit c hc
    exact Or.inr (childrenFirst_postOrder horder (le_refl _) before n rest hsplit c
      (mem_order.mpr hc))
  have hnot : ∀ n ∈ postOrder (modulesOf pcms).order (rank top) top,
      top ∉ (modulesOf pcms).children n := by
    intro n hn hc
    have hle := rank_le_of_mem_postOrder horder hn
    have hlt := horder n top (mem_order.mpr hc)
    omega
  have hagree := hinit.visitAll htyped hv hfirst hnot hsteps
  have hsingle : decide (v ∈ (makefilesOf vars pcms).singleValueVars) = true := decide_eq_true hv
  have hmake : ∀ l, (visitAll (makefilesOf vars pcms).expandAll ([], fun _ _ => []) l).2 v =
      (visitAll (expandNode true ((makefilesOf vars pcms).itemsOf v)) ([], fun _ => []) l).2 :=
    visitAll_map (fun cur : String → String → List String => cur v)
      (fun cur n => by rw [Makefiles.expandAll, hsingle])
  have hstar : ∀ l, (visitAll (modulesOf pcms).evaluate ([], fun _ _ => [], fun _ _ => "") l).2.2
      v = (visitAll (fun t n => (modulesOf pcms).takeTexts v t n) ([], fun _ => "") l).2 :=
    visitAll_map
      (fun s : (String → String → List String) × (String → String → String) => s.2 v)
      (fun _ _ => rfl)
  have hmem : top ∈ (visitAll (fun t n => (modulesOf pcms).takeTexts v t n) ([], fun _ => "")
      (postOrder (modulesOf pcms).order (rank top) top)).1 :=
    mem_visitAll.mpr (Or.inl (self_mem_postOrder _ _))
  rw [hvalues v (List.mem_append_left _ hv), hmake, textOf_eq hholds (isList_of_single hv),
    Modules.values, hstar]
  exact congrArg (List.map Item.word) (hagree top hmem (Or.inl rfl))

/-- `n` inherits `x` and `y`, and `y`, which has a string of its own, inherits `x`. -/
def leftoverPcms : String → List PcmStatement
  | "n" => [.inherit "x", .inherit "y"]
  | "y" => [.setString "S" "Y", .inherit "x"]
  | "x" => [.setString "S" "X"]
  | _ => []

def oneVar : ProductVars where
  singleValueVars := ["S"]
  listVars := ["L"]
  single_ne_nil := diamondVars.single_ne_nil
  disjoint := by decide

/-- The string of a variable of the top module, as Starlark computes it. -/
def starlarkString (pcms : String → List PcmStatement) (v top : String) :
    Except PcmError String := do
  let (h, configs) ← productConfigs pcms top
  let (cfg, _) ← evaluateFinalizedProductVariables h configs top
  pure (textOf cfg v)

/-- Make drops the string of `x` when it expands `y`; in Starlark `n` still finds it. -/
theorem evaluate_strings_leftover :
    (starlarkString leftoverPcms "S" "n").toOption = some "X" ∧
      ((makefilesOf oneVar leftoverPcms).importProduct 4 "n.mk").toOption.map (fun f => f "S") =
        some [.word "Y"] := by
  decide +kernel

/-- `n` inherits `a` and, through `b`, `base`. -/
def inheritedPcms : String → List PcmStatement
  | "n" => [.inherit "b", .inherit "a"]
  | "b" => [.inherit "base"]
  | "a" => [.setString "S" "A"]
  | "base" => [.setString "S" "B"]
  | _ => []

def inheritedRank : String → Nat
  | "n" => 2
  | "b" => 1
  | _ => 0

theorem evaluate_strings_agree_inherited :
    ∃ h configs cfg h', productConfigs inheritedPcms "n" = .ok (h, configs) ∧
      evaluateFinalizedProductVariables h configs "n" = .ok (cfg, h') ∧
      ∀ depth, inheritedRank "n" < depth →
        ∃ values, (makefilesOf oneVar inheritedPcms).importProduct depth "n.mk" = .ok values ∧
          values "S" = (Text.words (textOf cfg "S")).map Item.word := by
  have htyped : ∀ n, ∀ s ∈ inheritedPcms n, s.Typed oneVar := by
    intro n
    unfold inheritedPcms
    split <;> decide
  have hrank : ∀ n c, .inherit c ∈ inheritedPcms n → inheritedRank c < inheritedRank n := by
    intro n c hc
    unfold inheritedPcms at hc
    split at hc
    · simp only [List.mem_cons, PcmStatement.inherit.injEq, List.not_mem_nil, or_false] at hc
      rcases hc with rfl | rfl <;> decide
    · simp only [List.mem_cons, PcmStatement.inherit.injEq, List.not_mem_nil, or_false] at hc
      subst hc
      decide
    · simp at hc
    · simp at hc
    · cases hc
  have hcheck : (productConfigs inheritedPcms "n").toOption.any (fun r =>
      decide ("n" ∈ r.2.keys) && (evaluateFinalizedProductVariables r.1 r.2 "n").isOk) = true := by
    decide +kernel
  cases hrun : productConfigs inheritedPcms "n" with
  | error e =>
      rw [hrun] at hcheck
      cases hcheck
  | ok r =>
      rw [hrun, Except.toOption, Option.any_some, Bool.and_eq_true, decide_eq_true_eq] at hcheck
      have hlimit : evaluateFinalizedProductVariables r.1 r.2 "n" ≠
          .error .tooManyIterations := by
        intro herr
        rw [herr] at hcheck
        exact absurd hcheck.2 (by decide)
      obtain ⟨cfg, h', heval, hvalues⟩ := evaluate_strings_agree (v := "S") htyped hrank hrun
        hcheck.1 hlimit (by decide) (by decide +kernel) (by decide +kernel)
      exact ⟨r.1, r.2, cfg, h', rfl, heval, hvalues⟩

end Strings

end ProductConfig
end AndroidBuild
