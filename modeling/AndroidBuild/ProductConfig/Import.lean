import AndroidBuild.ProductConfig.Expansion

/-!
# What `import-nodes` computes

Importing a makefile visits the makefiles below it, every makefile after those
it inherits, and expands each of them once.
-/

namespace AndroidBuild
namespace ProductConfig

open Loop PostOrder

variable (p : Makefiles)

/-- A variable of a makefile that has been read. -/
def Makefiles.itemsOf (v n : String) : List Item :=
  p.readFile ((p.files n).getD []) v

def Makefiles.inheritedBy (n : String) : List String :=
  p.getInheritedNodes (p.readFile ((p.files n).getD []))

def Makefiles.expandAll (cur : String → String → List String) (n : String) :
    String → String → List String :=
  fun v => expandNode (decide (v ∈ p.singleValueVars)) (p.itemsOf v) (cur v) n

variable {p}

theorem mem_inheritedBy
    {n c : String} :
    c ∈ p.inheritedBy n ↔ ∃ v ∈ p.varList, c ∈ tagsOf (p.itemsOf v n) := by
  unfold Makefiles.inheritedBy Makefiles.getInheritedNodes
  simp only [mem_makeSort, mem_tagsOf, List.mem_flatMap, Makefiles.itemsOf]

section ExpandInheritedValues

theorem expandItems_words
    (single : Bool) (ws : List String) (cur : String → List String) :
    expandItems single (ws.map Item.word) cur = ws := by
  have hwords : wordsOf (ws.map Item.word) = ws := by
    unfold wordsOf
    rw [List.filterMap_map]
    exact List.filterMap_some
  have htags : tagsOf (ws.map Item.word) = [] := by
    rw [List.eq_nil_iff_forall_not_mem]
    intro c hc
    simp [mem_tagsOf] at hc
  unfold expandItems
  cases single with
  | false =>
      rw [if_neg (by simp), substitute_none (by simp [htags]), hwords]
  | true =>
      rw [if_pos rfl, hwords, htags]
      split_ifs with h
      · exact h.symm
      · rfl

/-- The state in the loop over the variables of `node`. -/
structure VarInv (p : Makefiles) (node : String) (cur : String → String → List String)
    (st₀ : MakeState) (done : List String) (st : MakeState) : Prop where
  seen : st.seen = st₀.seen
  vars : ∀ m v, st.vars m v =
    if v ∈ done then
      if m = node then
        (expandItems (decide (v ∈ p.singleValueVars)) (p.itemsOf v node) (cur v)).map Item.word
      else if m ∈ tagsOf (p.itemsOf v node) then [] else st₀.vars m v
    else st₀.vars m v

theorem expandVar_inv
    {node : String} {cur : String → String → List String} {st₀ st : MakeState}
    {done : List String} {v : String} (h : VarInv p node cur st₀ done st)
    (hitems : st₀.vars node v = p.itemsOf v node) (hnode : node ∉ tagsOf (p.itemsOf v node))
    (hcur : ∀ i ∈ tagsOf (p.itemsOf v node), st₀.vars i v = (cur v i).map Item.word) :
    ∃ st', p.expandVar node st v = .ok st' ∧ VarInv p node cur st₀ (done ++ [v]) st' := by
  by_cases hv : v ∈ done
  · -- a variable that is listed twice has no tags the second time
    have hvalue := h.vars node v
    rw [if_pos hv, if_pos rfl] at hvalue
    have htags : ∀ c, c ∉ tagsOf (st.vars node v) := by
      intro c hc
      rw [hvalue, mem_tagsOf] at hc
      simp at hc
    have hnone : ∀ i ∈ tagsOf (st.vars node v), st.vars i v = (cur v i).map Item.word :=
      fun i hi => absurd hi (htags i)
    obtain ⟨st', hrun, hseen, hvars⟩ := expandVar_spec (p := p) rfl (htags node) hnone
    refine ⟨st', hrun, hseen.trans h.seen, ?_⟩
    intro m w
    have hmem : w ∈ done ++ [v] ↔ w ∈ done := by
      rw [List.mem_append, List.mem_singleton]
      exact or_iff_left_of_imp (fun hw => hw ▸ hv)
    simp only [hmem]
    rw [hvars, ← h.vars m w]
    by_cases hw : w = v
    · subst hw
      rw [if_pos rfl]
      by_cases hm : m = node
      · subst hm
        rw [if_pos rfl, hvalue, expandItems_words]
      · rw [if_neg hm, if_neg (htags m)]
    · rw [if_neg hw]
  · have hraw : st.vars node v = p.itemsOf v node := by
      rw [h.vars, if_neg hv, hitems]
    obtain ⟨st', hrun, hseen, hvars⟩ := expandVar_spec (p := p) hraw hnode (by
      intro i hi
      rw [h.vars, if_neg hv]
      exact hcur i hi)
    refine ⟨st', hrun, hseen.trans h.seen, ?_⟩
    intro m w
    rw [hvars]
    by_cases hw : w = v
    · subst hw
      have hst : st.vars m w = st₀.vars m w := by rw [h.vars, if_neg hv]
      have hmem : w ∈ done ++ [w] := by simp
      rw [if_pos rfl, if_pos hmem, hst]
    · rw [if_neg hw, h.vars m w]
      simp only [List.mem_append, List.mem_singleton, hw, or_false]

/-- All variables of a makefile are expanded. -/
theorem expandInheritedValues_spec
    {node : String} {cur : String → String → List String} {st : MakeState}
    (hitems : ∀ v ∈ p.varList, st.vars node v = p.itemsOf v node)
    (hnode : node ∉ p.inheritedBy node)
    (hcur : ∀ i ∈ p.inheritedBy node, ∀ v ∈ p.varList, st.vars i v = (cur v i).map Item.word) :
    ∃ st', p.expandInheritedValues st node = .ok st' ∧ VarInv p node cur st p.varList st' := by
  refine forLoop_total (p.expandVar node) (fun done st' => VarInv p node cur st done st')
    p.varList st ⟨rfl, by simp⟩ ?_
  intro done v rest r hsplit hr
  have hv : v ∈ p.varList := by simp [hsplit]
  refine expandVar_inv hr (hitems v hv) ?_ ?_
  · intro htag
    exact hnode (mem_inheritedBy.mpr ⟨v, hv, htag⟩)
  · intro i hi
    exact hcur i (mem_inheritedBy.mpr ⟨v, hv, hi⟩) v hv

end ExpandInheritedValues

section ImportNode

variable {rank : String → Nat} {top : Nat}

/-- The variables in the middle of an import: `stack` holds the makefiles that
have been read and wait for those they inherit. -/
structure Imported (p : Makefiles) (stack : List String)
    (done : List String × (String → String → List String)) (st : MakeState) : Prop where
  seen : ∀ m, m ∈ st.seen ↔ m ∈ done.1 ∨ m ∈ stack
  expanded : ∀ m ∈ done.1, ∀ v ∈ p.varList, st.vars m v = (done.2 v m).map Item.word
  waiting : ∀ m ∈ stack, ∀ v ∈ p.varList, st.vars m v = p.itemsOf v m
  apart : ∀ m ∈ stack, m ∉ done.1
  closed : ∀ m ∈ done.1, ∀ c ∈ p.inheritedBy m, c ∈ done.1

/-- A makefile has been read. -/
theorem Imported.read
    {stack : List String} {done : List String × (String → String → List String)}
    {st : MakeState} {n : String} (h : Imported p stack done st) (hn : n ∉ done.1)
    (hstack : n ∉ stack) :
    Imported p (n :: stack) done
      (p.copyVarList { st with seen := n :: st.seen } n
        (p.readFile ((p.files n).getD []))) := by
  have hvars : ∀ m, m ≠ n → ∀ v, (p.copyVarList { st with seen := n :: st.seen } n
      (p.readFile ((p.files n).getD []))).vars m v = st.vars m v := by
    intro m hm v
    simp [Makefiles.copyVarList, hm]
  constructor
  · intro m
    show m ∈ n :: st.seen ↔ _
    rw [List.mem_cons, h.seen, List.mem_cons]
    tauto
  · intro m hm v hv
    rw [hvars m (fun he => hn (he ▸ hm)), h.expanded m hm v hv]
  · intro m hm v hv
    rcases List.mem_cons.mp hm with rfl | hm'
    · simp [Makefiles.copyVarList, hv, Makefiles.itemsOf]
    · rw [hvars m (fun he => hstack (he ▸ hm')), h.waiting m hm' v hv]
  · intro m hm
    rcases List.mem_cons.mp hm with rfl | hm'
    · exact hn
    · exact h.apart m hm'
  · exact h.closed

/-- A makefile whose inherited makefiles have been imported is expanded. -/
theorem Imported.expand
    {stack : List String} {done : List String × (String → String → List String)}
    {st : MakeState} {n : String} (h : Imported p (n :: stack) done st) (hstack : n ∉ stack)
    (hself : n ∉ p.inheritedBy n) (hchildren : ∀ c ∈ p.inheritedBy n, c ∈ done.1) :
    ∃ st', p.expandInheritedValues st n = .ok st' ∧
      Imported p stack (visit p.expandAll done n) st' := by
  have hn : n ∉ done.1 := h.apart n List.mem_cons_self
  obtain ⟨st', hrun, hinv⟩ := expandInheritedValues_spec (h.waiting n List.mem_cons_self) hself
    (fun i hi v hv => h.expanded i (hchildren i hi) v hv)
  refine ⟨st', hrun, ?_⟩
  rw [visit, if_neg hn]
  constructor
  · intro m
    rw [hinv.seen, h.seen, List.mem_cons, List.mem_cons]
    tauto
  · intro m hm v hv
    rw [hinv.vars, if_pos hv]
    simp only [Makefiles.expandAll, expandNode]
    by_cases hmn : m = n
    · rw [if_pos hmn, if_pos hmn]
    · have hm' : m ∈ done.1 := (List.mem_cons.mp hm).resolve_left hmn
      rw [if_neg hmn, if_neg hmn]
      split_ifs
      · rfl
      · exact h.expanded m hm' v hv
  · intro m hm v hv
    have hmn : m ≠ n := fun he => hstack (he ▸ hm)
    have hmdone : m ∉ done.1 := h.apart m (List.mem_cons_of_mem _ hm)
    have htag : m ∉ tagsOf (p.itemsOf v n) :=
      fun htag => hmdone (hchildren m (mem_inheritedBy.mpr ⟨v, hv, htag⟩))
    rw [hinv.vars, if_pos hv, if_neg hmn, if_neg htag, h.waiting m (List.mem_cons_of_mem _ hm) v hv]
  · intro m hm hmem
    rcases List.mem_cons.mp hmem with rfl | hm'
    · exact hstack hm
    · exact h.apart m (List.mem_cons_of_mem _ hm) hm'
  · intro m hm c hc
    rcases List.mem_cons.mp hm with rfl | hm'
    · exact List.mem_cons_of_mem _ (hchildren c hc)
    · exact List.mem_cons_of_mem _ (h.closed m hm' c hc)

/-- `_import-node` visits everything below the makefile. -/
theorem importNode_spec
    (hrank : Ranked p.inheritedBy rank)
    (hfiles : ∀ n, ∀ c ∈ p.inheritedBy n, p.files c ≠ none)
    {depth : Nat} {n : String} (hdepth : rank n < depth) (htop : rank n ≤ top)
    {stack : List String} {done : List String × (String → String → List String)}
    {st : MakeState} (h : Imported p stack done st) (hn : n ∉ done.1)
    (hstack : ∀ m ∈ stack, rank n < rank m) :
    ∃ st', p.importNode depth { st with seen := n :: st.seen } n = .ok st' ∧
      Imported p stack (visitAll p.expandAll done (postOrder p.inheritedBy top n)) st' := by
  induction depth generalizing n stack done st with
  | zero => omega
  | succ depth ih =>
      have hnstack : n ∉ stack := fun hmem => lt_irrefl _ (hstack n hmem)
      have hself : n ∉ p.inheritedBy n := fun hmem => lt_irrefl _ (hrank n n hmem)
      have hread := h.read hn hnstack
      obtain ⟨st₁, hloop, hinv⟩ := forLoop_total (p.importInner (p.importNode depth))
        (fun visited r => Imported p (n :: stack)
          (visitAll p.expandAll done (visited.flatMap (postOrder p.inheritedBy top))) r)
        (p.inheritedBy n) _ (by simpa using hread)
        (by
          intro visited c rest r hsplit hr
          have hc : c ∈ p.inheritedBy n := by simp [hsplit]
          have hlt := hrank n c hc
          have hcstack : ∀ m ∈ n :: stack, rank c < rank m := by
            intro m hm
            rcases List.mem_cons.mp hm with rfl | hm'
            · exact hlt
            · exact hlt.trans (hstack m hm')
          unfold Makefiles.importInner
          rw [if_neg (hfiles n c hc), List.flatMap_append, List.flatMap_singleton, visitAll_append]
          by_cases hseen : c ∈ r.seen
          · -- everything below `c` has been visited
            rw [if_pos hseen]
            refine ⟨r, rfl, ?_⟩
            have hcdone := ((hr.seen c).mp hseen).resolve_right
              (fun hmem => lt_irrefl _ (hcstack c hmem))
            rw [visitAll_of_subset (postOrder_subset hr.closed hcdone)]
            exact hr
          · rw [if_neg hseen]
            have hcdone : c ∉ (visitAll p.expandAll done
                (visited.flatMap (postOrder p.inheritedBy top))).1 :=
              fun hmem => hseen ((hr.seen c).mpr (Or.inl hmem))
            exact ih (by omega) (by omega) hr hcdone hcstack)
      have hchildren : ∀ c ∈ p.inheritedBy n, c ∈ (visitAll p.expandAll done
          ((p.inheritedBy n).flatMap (postOrder p.inheritedBy top))).1 := by
        intro c hc
        rw [mem_visitAll]
        exact Or.inl (List.mem_flatMap.mpr ⟨c, hc, self_mem_postOrder top c⟩)
      obtain ⟨st₂, hexpand, hinv₂⟩ := hinv.expand hnstack hself hchildren
      refine ⟨st₂, ?_, ?_⟩
      · rw [Makefiles.importNode, bind_eq_ok]
        exact ⟨st₁, hloop, hexpand⟩
      · rw [postOrder_eq hrank htop, visitAll_append, visitAll_singleton]
        exact hinv₂

theorem importProduct_spec
    (hrank : Ranked p.inheritedBy rank)
    (hfiles : ∀ n, ∀ c ∈ p.inheritedBy n, p.files c ≠ none)
    {n : String} (hn : p.files n ≠ none) {depth : Nat} (hdepth : rank n < depth)
    (htop : rank n ≤ top) :
    ∃ values, p.importProduct depth n = .ok values ∧
      ∀ v ∈ p.varList, values v =
        ((visitAll p.expandAll ([], fun _ _ => []) (postOrder p.inheritedBy top n)).2 v n).map
          Item.word := by
  have hinit : Imported p [] ([], fun _ _ => []) ⟨fun _ _ => [], []⟩ := by
    constructor <;> simp
  obtain ⟨st, hrun, hinv⟩ := importNode_spec hrank hfiles hdepth htop hinit (by simp) (by simp)
  refine ⟨st.vars n, ?_, ?_⟩
  · unfold Makefiles.importProduct Makefiles.importInner
    rw [if_neg hn, if_neg (by simp), hrun]
    rfl
  · intro v hv
    refine hinv.expanded n ?_ v hv
    rw [mem_visitAll]
    exact Or.inl (self_mem_postOrder top n)

end ImportNode

end ProductConfig
end AndroidBuild
