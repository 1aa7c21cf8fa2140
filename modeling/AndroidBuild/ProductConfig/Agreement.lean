import AndroidBuild.ProductConfig.Modules
import Mathlib

/-!
# The two implementations of product inheritance

`product_config.rbc` and `node_fns.mk` visit the modules in the same order and
move the same lists.
-/

namespace AndroidBuild
namespace ProductConfig

open Loop PostOrder

variable {vars : ProductVars} {pcms : String → List PcmStatement} {rank : String → Nat}

section Assigned

def PcmStatement.assigns : PcmStatement → Option String
  | .setList attr _ => some attr
  | .append attr _ => some attr
  | .setString attr _ => some attr
  | .inherit _ => none

/-- The attributes of a dictionary have been assigned. -/
theorem assigned_of_runPcm
    {pcm : List PcmStatement} {handle : Handle} (hrun : runPcm pcm = .ok handle) {a : String}
    (ha : a ∈ handle.cfg.keys) :
    ∃ s ∈ pcm, s.assigns = some a := by
  refine forLoop_ok (fun done r => ∀ a ∈ r.cfg.keys, ∃ s ∈ done, s.assigns = some a)
    hrun (by simp) ?_ a ha
  intro done s rest r r' _ hr hstep x hx
  have hold : x ∈ r.cfg.keys → ∃ t ∈ done ++ [s], t.assigns = some x := by
    intro hkey
    obtain ⟨t, ht, heq⟩ := hr x hkey
    exact ⟨t, by simp [ht], heq⟩
  have hnew : s.assigns = some x → ∃ t ∈ done ++ [s], t.assigns = some x :=
    fun heq => ⟨s, by simp, heq⟩
  cases s with
  | setList attr words =>
      cases hstep
      rcases OrderedDict.mem_keys_set.mp hx with rfl | hx'
      · exact hnew rfl
      · exact hold hx'
  | append attr words =>
      have hdefault : x ∈ (r.setdefault attr).cfg.keys → x = attr ∨ x ∈ r.cfg.keys := by
        unfold Handle.setdefault
        split_ifs
        · exact OrderedDict.mem_keys_set.mp
        · exact Or.inr
      simp only [Handle.run] at hstep
      split at hstep
      · cases hstep
        rcases OrderedDict.mem_keys_set.mp hx with rfl | hx'
        · exact hnew rfl
        · rcases hdefault hx' with rfl | hx''
          · exact hnew rfl
          · exact hold hx''
      · cases hstep
  | setString attr text =>
      cases hstep
      rcases OrderedDict.mem_keys_set.mp hx with rfl | hx'
      · exact hnew rfl
      · exact hold hx'
  | inherit name =>
      cases hstep
      apply hold
      rw [OrderedDict.mem_keys_iff] at hx ⊢
      obtain ⟨value, hvalue⟩ := hx
      rw [Handle.inherit, OrderedDict.get?_mapValues, Option.map_eq_some_iff] at hvalue
      obtain ⟨old, hget, _⟩ := hvalue
      exact ⟨old, hget⟩

theorem raw_eq_none
    {v : String} (hv : ∀ n, ∀ s ∈ pcms n, s.assigns ≠ some v) (n : String) :
    ((modulesOf pcms).raw n).get? v = none := by
  cases hget : ((modulesOf pcms).raw n).get? v with
  | none => rfl
  | some value =>
      have hkey := OrderedDict.mem_keys_iff.mpr ⟨value, hget⟩
      unfold modulesOf at hkey
      simp only at hkey
      split at hkey
      · rename_i handle hrun
        obtain ⟨s, hs, heq⟩ := assigned_of_runPcm hrun hkey
        exact absurd heq (hv n s hs)
      · cases hkey

end Assigned

section Lists

theorem substitute_congr
    {f g : String → List String} {items : List Item} (h : ∀ c ∈ tagsOf items, f c = g c)
    (seen : List String) :
    substitute f seen items = substitute g seen items := by
  induction items generalizing seen with
  | nil => rfl
  | cons it items ih =>
      cases it with
      | word text => rw [substitute, substitute, ih (by simpa [tagsOf] using h)]
      | inherit c =>
          have h' : f c = g c ∧ ∀ d ∈ tagsOf items, f d = g d := by simpa [tagsOf] using h
          rw [substitute, substitute, ih h'.2, ih h'.2, h'.1]

theorem substitute_toMake
    (f : String → List String) (items : List Item) (seen : List String) :
    substitute f (seen.map (fun y => y ++ ".mk")) (items.map Item.toMake) =
      substitute (fun c => f (c ++ ".mk")) seen items := by
  induction items generalizing seen with
  | nil => rfl
  | cons it items ih =>
      cases it with
      | word text => rw [List.map_cons, Item.toMake, substitute, substitute, ih]
      | inherit c =>
          have hmem : c ++ ".mk" ∈ seen.map (fun y => y ++ ".mk") ↔ c ∈ seen :=
            List.mem_map_of_injective mk_injective
          have hcons := ih (c :: seen)
          rw [List.map_cons] at hcons
          rw [List.map_cons, Item.toMake, substitute, substitute, hcons, ih]
          simp only [hmem]

theorem mem_tagsOf_toMake
    {items : List Item} {c : String} :
    c ++ ".mk" ∈ tagsOf (items.map Item.toMake) ↔ c ∈ tagsOf items := by
  rw [mem_tagsOf, mem_tagsOf, List.mem_map]
  constructor
  · rintro ⟨it, hit, heq⟩
    cases it with
    | word text => cases heq
    | inherit d =>
        rw [Item.toMake, Item.inherit.injEq] at heq
        have hdc : d = c := mk_injective heq
        exact hdc ▸ hit
  · intro hmem
    exact ⟨.inherit c, hmem, rfl⟩

theorem itemsOf_eq_itemsAt
    (htyped : ∀ n, ∀ s ∈ pcms n, s.Typed vars) {v : String} (hv : v ∈ vars.listVars) (n : String) :
    (∀ f, substitute f [] ((makefilesOf vars pcms).itemsOf v (n ++ ".mk")) =
      substitute (fun c => f (c ++ ".mk")) [] ((modulesOf pcms).itemsAt v n)) ∧
    (∀ c, c ++ ".mk" ∈ tagsOf ((makefilesOf vars pcms).itemsOf v (n ++ ".mk")) ↔
      c ∈ tagsOf ((modulesOf pcms).itemsAt v n)) := by
  obtain ⟨handle, _, hraw, hchildren, hinv⟩ := moduleOf_spec htyped n
  have henv := hinv.list v hv
  unfold Modules.itemsAt
  rw [hraw, hchildren, henv]
  have hsub : ∀ (f : String → List String) (items : List Item),
      substitute f [] (items.map Item.toMake) = substitute (fun c => f (c ++ ".mk")) [] items :=
    fun f items => substitute_toMake f items []
  have hdefault : (∀ f, substitute f [] (handle.defaultListValue.map Item.toMake) =
        substitute (fun c => f (c ++ ".mk")) [] (handle.inheritedModules.map Item.inherit)) ∧
      ∀ c, c ++ ".mk" ∈ tagsOf (handle.defaultListValue.map Item.toMake) ↔
        c ∈ tagsOf (handle.inheritedModules.map Item.inherit) := by
    constructor
    · intro f
      rw [hsub, hinv.references.substitute, substitute_children _ hinv.references.nodup]
      intro c _
      exact List.not_mem_nil
    · intro c
      rw [mem_tagsOf_toMake, hinv.references.tags, tagsOf_children]
  cases hget : handle.cfg.get? v with
  | none => exact hdefault
  | some value =>
      cases value with
      | str text => exact hdefault
      | list items => exact ⟨fun f => hsub f items, fun c => mem_tagsOf_toMake⟩

/-- The lists of the modules that have been visited agree. -/
def ListsAgree (vars : ProductVars) (done : List String)
    (s : (String → String → List String) × (String → String → String))
    (cur : String → String → List String) : Prop :=
  ∀ v ∈ vars.listVars, ∀ m ∈ done, cur v (m ++ ".mk") = s.1 v m

/-- Evaluating a module and expanding its makefile keep the lists in agreement. -/
theorem ListsAgree.step
    (htyped : ∀ n, ∀ s ∈ pcms n, s.Typed vars) {done : List String}
    {s : (String → String → List String) × (String → String → String)}
    {cur : String → String → List String} (h : ListsAgree vars done s cur) {n : String}
    (hchildren : ∀ c ∈ (modulesOf pcms).children n, c ∈ done) :
    ListsAgree vars (n :: done) ((modulesOf pcms).evaluate s n)
      ((makefilesOf vars pcms).expandAll cur (n ++ ".mk")) := by
  intro v hv m hm
  obtain ⟨hsub, htags⟩ := itemsOf_eq_itemsAt htyped hv n
  have hsingle : decide (v ∈ (makefilesOf vars pcms).singleValueVars) = false := by
    rw [decide_eq_false_iff_not]
    exact vars.disjoint v hv
  have htagsdone : ∀ c ∈ tagsOf ((modulesOf pcms).itemsAt v n), c ∈ done := by
    intro c hc
    obtain ⟨d, hd, heq⟩ := mem_tagsOf_itemsOf htyped (List.mem_append_right _ hv)
      ((htags c).mpr hc)
    have hcd : c = d := mk_injective heq
    exact hchildren c (hcd ▸ hd)
  simp only [Makefiles.expandAll, Modules.evaluate, expandNode, hsingle, expandItems,
    Bool.false_eq_true, if_false]
  have hmk : m ++ ".mk" = n ++ ".mk" ↔ m = n := mk_injective.eq_iff
  simp only [hmk, htags]
  by_cases hmn : m = n
  · rw [if_pos hmn, if_pos hmn, hsub]
    exact substitute_congr (fun c hc => h v hv c (htagsdone c hc)) []
  · rw [if_neg hmn, if_neg hmn, h v hv m ((List.mem_cons.mp hm).resolve_left hmn)]

theorem listsAgree_visitAll
    (htyped : ∀ n, ∀ s ∈ pcms n, s.Typed vars) {l : List String}
    (hfirst : ChildrenFirst (modulesOf pcms).order l) :
    ListsAgree vars
      (visitAll (modulesOf pcms).evaluate ([], fun _ _ => [], fun _ _ => "") l).1
      (visitAll (modulesOf pcms).evaluate ([], fun _ _ => [], fun _ _ => "") l).2
      (visitAll (makefilesOf vars pcms).expandAll ([], fun _ _ => [])
        (l.map (fun y => y ++ ".mk"))).2 := by
  refine (visitAll_simulation mk_injective (ListsAgree vars) (by simp [ListsAgree]) ?_).2
  intro before n after done s u hsplit hdone _ hagree
  refine hagree.step htyped ?_
  intro c hc
  exact (hdone c).mpr (hfirst before n after hsplit c (mem_order.mpr hc))

def listOf (cfg : Cfg) (attr : String) : List Item :=
  match cfg.get? attr with
  | some (.list items) => items
  | _ => []

theorem listOf_eq
    {isList : String → Bool} {cfg : Cfg} {lists : String → List String}
    {texts : String → String} (h : Holds isList cfg lists texts) {a : String}
    (ha : isList a = true) :
    listOf cfg a = (lists a).map Item.word := by
  unfold listOf
  rcases h.list a ha with hget | ⟨hget, hnil⟩
  · rw [hget]
  · rw [hget, hnil]
    rfl

/-- The variables that `node_fns.mk` computes for the makefile of a module, if
no tag is lost: the makefiles are visited as the modules are. -/
theorem importProduct_mk
    (htyped : ∀ n, ∀ s ∈ pcms n, s.Typed vars)
    (hrank : ∀ n c, .inherit c ∈ pcms n → rank c < rank n) {top : String}
    (htagged : ∀ n ∈ postOrder (modulesOf pcms).order (rank top) top, Tagged vars pcms n)
    {depth : Nat} (hdepth : rank top < depth) :
    ∃ values, (makefilesOf vars pcms).importProduct depth (top ++ ".mk") = .ok values ∧
      ∀ v ∈ vars.singleValueVars ++ vars.listVars, values v =
        ((visitAll (makefilesOf vars pcms).expandAll ([], fun _ _ => [])
          ((postOrder (modulesOf pcms).order (rank top) top).map (fun y => y ++ ".mk"))).2 v
            (top ++ ".mk")).map Item.word := by
  have hfile : (makefilesOf vars pcms).files (top ++ ".mk") ≠ none := by
    rw [files_mk]
    exact Option.some_ne_none _
  have hdrop : rank (dropMk (top ++ ".mk")) = rank top := by rw [dropMk_append]
  have hspec := importProduct_spec (ranked_inheritedBy htyped hrank)
    (fun _ _ hc => files_inherited htyped hc) hfile (hdrop ▸ hdepth) (le_of_eq hdrop)
  have hvisits : postOrder (makefilesOf vars pcms).inheritedBy (rank top) (top ++ ".mk") =
      (postOrder (modulesOf pcms).order (rank top) top).map (fun y => y ++ ".mk") :=
    postOrder_map (f := fun y => y ++ ".mk")
      (fun n hn => inheritedBy_mk htyped (htagged n hn))
  rwa [hvisits] at hspec

/-- A module that only assigns and appends lists. -/
def PcmStatement.IsList (vars : ProductVars) : PcmStatement → Prop
  | .setList attr _ => attr ∈ vars.listVars
  | .append attr _ => attr ∈ vars.listVars
  | .setString _ _ => False
  | .inherit _ => True

instance (vars : ProductVars) : ∀ s : PcmStatement, Decidable (s.IsList vars)
  | .setList attr _ | .append attr _ => inferInstanceAs (Decidable (attr ∈ vars.listVars))
  | .setString _ _ => isFalse id
  | .inherit _ => isTrue trivial

theorem PcmStatement.IsList.typed
    {s : PcmStatement} (h : s.IsList vars) :
    s.Typed vars := by
  cases s with
  | setList attr words => exact h
  | append attr words => exact h
  | setString attr text => exact h.elim
  | inherit name => trivial

/-- Starlark and Make compute the same lists, for every top module, whatever
other top modules are evaluated before. -/
theorem evaluateAll_lists_agree
    (hlists : ∀ n, ∀ s ∈ pcms n, s.IsList vars)
    (hrank : ∀ n c, .inherit c ∈ pcms n → rank c < rank n) {top : String} {h : Heap}
    {configs : Configs} (hrun : productConfigs pcms top = .ok (h, configs)) {tops : List String}
    (htops : ∀ t ∈ tops, t ∈ configs.keys)
    (hlimit : evaluateAll configs h tops ≠ .error .tooManyIterations) :
    ∃ cfgs, evaluateAll configs h tops = .ok cfgs ∧
      List.Forall₂ (fun t cfg => ∀ depth, rank t < depth →
        ∃ values, (makefilesOf vars pcms).importProduct depth (t ++ ".mk") = .ok values ∧
          ∀ v ∈ vars.listVars, values v = listOf cfg v) tops cfgs := by
  have htyped : ∀ n, ∀ s ∈ pcms n, s.Typed vars := fun n s hs => (hlists n s hs).typed
  have htagged : ∀ n, Tagged vars pcms n := by
    intro n c hc
    obtain ⟨v, hv⟩ := List.exists_mem_of_ne_nil _ vars.single_ne_nil
    have hv' : v ∈ vars.singleValueVars ++ vars.listVars := List.mem_append_left _ hv
    refine ⟨v, hv', tagged_of_unassigned htyped hv' (raw_eq_none ?_ n) hc⟩
    intro m s hs heq
    have hlist := hlists m s hs
    cases s with
    | setList attr words =>
        cases heq
        exact vars.disjoint v hlist hv
    | append attr words =>
        cases heq
        exact vars.disjoint v hlist hv
    | setString attr text => exact hlist
    | inherit name => cases heq
  obtain ⟨cfgs, hall, hforall⟩ := evaluateAll_spec (modulesOf_wf htyped)
    (productConfigs_recorded hrun) (ranked_order hrank) htops hlimit
  refine ⟨cfgs, hall, hforall.imp ?_⟩
  intro t cfg hholds depth hdepth
  obtain ⟨values, himport, hvalues⟩ := importProduct_mk htyped hrank (fun n _ => htagged n) hdepth
  refine ⟨values, himport, ?_⟩
  intro v hv
  have hagree := listsAgree_visitAll htyped (childrenFirst_postOrder (ranked_order hrank)
    (le_refl (rank t)))
  have htop : t ∈ (visitAll (modulesOf pcms).evaluate ([], fun _ _ => [], fun _ _ => "")
      (postOrder (modulesOf pcms).order (rank t) t)).1 :=
    mem_visitAll.mpr (Or.inl (self_mem_postOrder _ _))
  have hlist : vars.isList v = true := decide_eq_true hv
  rw [hvalues v (List.mem_append_right _ hv), hagree v hv t htop, listOf_eq hholds hlist]
  rfl

/-- A diamond: `top` inherits `b` and `a`, which both inherit `base`. -/
def diamondPcms : String → List PcmStatement
  | "top" => [.append "L" ["t0"], .inherit "b", .inherit "a", .inherit "b", .append "L" ["t1"]]
  | "a" => [.inherit "base", .append "L" ["a0"]]
  | "b" => [.setList "L" ["b0"], .inherit "base", .append "M" ["m0"]]
  | "base" => [.setList "L" ["x0", "x1"], .setList "M" ["m1"]]
  | _ => []

def diamondRank : String → Nat
  | "top" => 2
  | "a" => 1
  | "b" => 1
  | _ => 0

def diamondVars : ProductVars where
  singleValueVars := ["S"]
  listVars := ["L", "M"]
  single_ne_nil := by decide
  disjoint := by decide

theorem diamond_runs :
    ∃ h configs, productConfigs diamondPcms "top" = .ok (h, configs) ∧
      (∀ t ∈ ["a", "top", "b"], t ∈ configs.keys) ∧
      evaluateAll configs h ["a", "top", "b"] ≠ .error .tooManyIterations := by
  have hcheck : (match productConfigs diamondPcms "top" with
      | .ok (h, configs) => decide (∀ t ∈ ["a", "top", "b"], t ∈ configs.keys) &&
          (evaluateAll configs h ["a", "top", "b"]).isOk
      | .error _ => false) = true := by
    decide +kernel
  cases hrun : productConfigs diamondPcms "top" with
  | error e =>
      rw [hrun] at hcheck
      cases hcheck
  | ok r =>
      rw [hrun] at hcheck
      rw [Bool.and_eq_true, decide_eq_true_eq] at hcheck
      refine ⟨r.1, r.2, rfl, hcheck.1, ?_⟩
      intro herr
      rw [herr] at hcheck
      exact absurd hcheck.2 (by decide)

/-- The theorem, for three top modules of a diamond. -/
theorem evaluateAll_lists_agree_diamond :
    ∃ h configs cfgs, productConfigs diamondPcms "top" = .ok (h, configs) ∧
      evaluateAll configs h ["a", "top", "b"] = .ok cfgs ∧
      List.Forall₂ (fun t cfg => ∀ depth, diamondRank t < depth →
        ∃ values, (makefilesOf diamondVars diamondPcms).importProduct depth (t ++ ".mk") =
            .ok values ∧
          ∀ v ∈ diamondVars.listVars, values v = listOf cfg v) ["a", "top", "b"] cfgs := by
  obtain ⟨h, configs, hrun, htops, hlimit⟩ := diamond_runs
  have hlists : ∀ n, ∀ s ∈ diamondPcms n, s.IsList diamondVars := by
    intro n
    unfold diamondPcms
    split <;> decide
  have hrank : ∀ n c, .inherit c ∈ diamondPcms n → diamondRank c < diamondRank n := by
    intro n c hc
    unfold diamondPcms at hc
    split at hc
    · simp only [List.mem_cons, reduceCtorEq, PcmStatement.inherit.injEq, List.not_mem_nil,
        false_or, or_false] at hc
      rcases hc with rfl | rfl | rfl <;> decide
    · simp only [List.mem_cons, reduceCtorEq, PcmStatement.inherit.injEq, List.not_mem_nil,
        or_false] at hc
      subst hc
      decide
    · simp only [List.mem_cons, reduceCtorEq, PcmStatement.inherit.injEq, List.not_mem_nil,
        false_or, or_false] at hc
      subst hc
      decide
    · simp at hc
    · cases hc
  obtain ⟨cfgs, hall, hforall⟩ := evaluateAll_lists_agree hlists hrank hrun htops hlimit
  exact ⟨h, configs, cfgs, hrun, hall, hforall⟩

end Lists

end ProductConfig
end AndroidBuild
