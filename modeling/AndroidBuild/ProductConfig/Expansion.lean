import AndroidBuild.Lib.PostOrder
import AndroidBuild.ProductConfig.NodeFns

/-!
# What `_expand-inherited-values` computes

For one variable, the expansion of a node replaces the first tag of every
inherited node by the node's current value and drops the other tags.  A
variable with a single value keeps its own words, if it has any, and takes the
first non-empty value otherwise.  Either way the inherited nodes are cleared.
-/

namespace AndroidBuild
namespace ProductConfig

open Loop

section Substitute

/-- Replace the first tag of each node; `seen` holds the nodes already met. -/
def substitute (cur : String → List String) : List String → List Item → List String
  | _, [] => []
  | seen, .word text :: rest => text :: substitute cur seen rest
  | seen, .inherit node :: rest =>
      if node ∈ seen then substitute cur seen rest
      else cur node ++ substitute cur (node :: seen) rest

def firstNonempty (cur : String → List String) : List String → List String
  | [] => []
  | c :: cs => if cur c = [] then firstNonempty cur cs else cur c

def expandItems (single : Bool) (items : List Item) (cur : String → List String) : List String :=
  if single then
    if wordsOf items = [] then firstNonempty cur (makeSort (tagsOf items)) else wordsOf items
  else substitute cur [] items

/-- The values of all nodes after the expansion of `n`. -/
def expandNode (single : Bool) (items : String → List Item) (cur : String → List String)
    (n : String) : String → List String :=
  fun m =>
    if m = n then expandItems single (items n) cur
    else if m ∈ tagsOf (items n) then [] else cur m

/-- As `substitute`, for the tags of some nodes only. -/
def replaceTags (cur : String → List String) (done : List String) :
    List String → List Item → List Item
  | _, [] => []
  | seen, .word text :: rest => .word text :: replaceTags cur done seen rest
  | seen, .inherit node :: rest =>
      if node ∈ done then
        if node ∈ seen then replaceTags cur done seen rest
        else (cur node).map Item.word ++ replaceTags cur done (node :: seen) rest
      else .inherit node :: replaceTags cur done seen rest

theorem replaceTags_nil
    (cur : String → List String) (seen : List String) (items : List Item) :
    replaceTags cur [] seen items = items := by
  induction items with
  | nil => rfl
  | cons it items ih =>
      cases it with
      | word text => rw [replaceTags, ih]
      | inherit node => rw [replaceTags, if_neg (by simp), ih]

theorem replaceTags_all
    {cur : String → List String} {done : List String} {items : List Item}
    (h : ∀ c ∈ tagsOf items, c ∈ done) (seen : List String) :
    replaceTags cur done seen items = (substitute cur seen items).map Item.word := by
  induction items generalizing seen with
  | nil => rfl
  | cons it items ih =>
      cases it with
      | word text => simp [replaceTags, substitute, ih (by simpa [tagsOf] using h)]
      | inherit node =>
          have h' : node ∈ done ∧ ∀ c ∈ tagsOf items, c ∈ done := by simpa [tagsOf] using h
          rw [replaceTags, if_pos h'.1, substitute]
          split_ifs
          · exact ih h'.2 seen
          · rw [ih h'.2, List.map_append]

theorem keepFirst_eq_self
    {needle : Item} {items : List Item} (h : items.count needle ≤ 1) :
    keepFirst needle false items = items := by
  have hnone : ∀ {l : List Item}, l.count needle = 0 → keepFirst needle true l = l := by
    intro l
    induction l with
    | nil => intro _; rfl
    | cons it l ih =>
        intro hzero
        rw [List.count_eq_zero, List.mem_cons, not_or] at hzero
        rw [keepFirst, if_neg (Ne.symm hzero.1), ih (List.count_eq_zero.mpr hzero.2)]
  induction items with
  | nil => rfl
  | cons it items ih =>
      rw [List.count_cons] at h
      by_cases hit : it = needle
      · have hzero : items.count needle = 0 := by simpa [hit] using h
        simp [keepFirst, hit, hnone hzero]
      · rw [keepFirst, if_neg hit, ih (by omega)]

theorem uniqWord_eq
    (haystack : List Item) (needle : Item) :
    uniqWord haystack needle = keepFirst needle false haystack := by
  unfold uniqWord
  split_ifs with h
  · rfl
  · exact (keepFirst_eq_self (by omega)).symm

theorem keepFirst_map_word_append
    (node : String) (b : Bool) (ws : List String) (items : List Item) :
    keepFirst (.inherit node) b (ws.map Item.word ++ items) =
      ws.map Item.word ++ keepFirst (.inherit node) b items := by
  induction ws with
  | nil => rfl
  | cons w ws ih => simp [keepFirst, ih]

theorem replace_map_word
    (node : String) (expanded : List Item) (ws : List String) :
    (ws.map Item.word).flatMap (fun it => if it = .inherit node then expanded else [it]) =
      ws.map Item.word := by
  induction ws with
  | nil => rfl
  | cons w ws ih => simp [ih]

/-- The order in which the nodes were met does not matter. -/
theorem replaceTags_congr
    (cur : String → List String) (done : List String) (items : List Item) {s s' : List String}
    (h : ∀ x, x ∈ s ↔ x ∈ s') :
    replaceTags cur done s items = replaceTags cur done s' items := by
  induction items generalizing s s' with
  | nil => rfl
  | cons it items ih =>
      cases it with
      | word text => rw [replaceTags, replaceTags, ih h]
      | inherit c =>
          have hcons : ∀ x, x ∈ c :: s ↔ x ∈ c :: s' := by simp [h]
          simp only [replaceTags, h c, ih h, ih hcons]

/-- One more node is replaced. -/
theorem replaceTags_step
    {cur cur' : String → List String} {done : List String} {i : String} (hi : i ∉ done)
    (hcur : ∀ c ∈ done, cur' c = cur c) {seen : List String} (hseen : i ∉ seen) (b : Bool)
    (items : List Item) :
    (keepFirst (.inherit i) b (replaceTags cur done seen items)).flatMap
        (fun it => if it = .inherit i then (cur' i).map Item.word else [it]) =
      replaceTags cur' (done ++ [i]) (if b then i :: seen else seen) items := by
  induction items generalizing seen b with
  | nil => simp [replaceTags, keepFirst]
  | cons it items ih =>
      cases it with
      | word text =>
          rw [replaceTags, keepFirst, if_neg (by simp), List.flatMap_cons, ih hseen, replaceTags]
          simp
      | inherit node =>
          by_cases hnode : node ∈ done
          · have hne : node ≠ i := fun h => hi (h ▸ hnode)
            have hmem : node ∈ done ++ [i] := by simp [hnode]
            have hseen' : node ∈ (if b then i :: seen else seen) ↔ node ∈ seen := by
              cases b <;> simp [hne]
            rw [replaceTags, if_pos hnode, replaceTags, if_pos hmem]
            by_cases hs : node ∈ seen
            · rw [if_pos hs, if_pos (hseen'.mpr hs), ih hseen]
            · have hcons : i ∉ node :: seen := by simp [hseen, Ne.symm hne]
              rw [if_neg hs, if_neg (fun h => hs (hseen'.mp h)), keepFirst_map_word_append,
                List.flatMap_append, replace_map_word, ih hcons, hcur node hnode]
              congr 1
              apply replaceTags_congr
              intro x
              cases b with
              | false => rfl
              | true =>
                  simp only [if_true, List.mem_cons]
                  tauto
          · rw [replaceTags, if_neg hnode, replaceTags]
            by_cases hni : node = i
            · subst hni
              rw [if_pos (by simp)]
              cases b with
              | true =>
                  rw [keepFirst, if_pos rfl, if_pos rfl, ih hseen, if_pos (by simp)]
                  simp
              | false =>
                  rw [keepFirst, if_pos rfl, if_neg (by simp), List.flatMap_cons, if_pos rfl,
                    ih hseen]
                  simp [hseen]
            · have hmem : node ∉ done ++ [i] := by simp [hnode, hni]
              rw [if_neg hmem, keepFirst, if_neg (by simpa using hni), List.flatMap_cons,
                if_neg (by simpa using hni), ih hseen]
              rfl

theorem wordsOf_replaceTags_none
    {cur : String → List String} {done : List String} (h : ∀ c ∈ done, cur c = [])
    (seen : List String) (items : List Item) :
    wordsOf (replaceTags cur done seen items) = wordsOf items := by
  induction items generalizing seen with
  | nil => rfl
  | cons it items ih =>
      cases it with
      | word text => simpa [replaceTags, wordsOf] using ih seen
      | inherit node =>
          rw [replaceTags]
          split_ifs with hd hs
          · simpa [wordsOf] using ih seen
          · rw [h node hd]
            simpa [wordsOf] using ih (node :: seen)
          · simpa [wordsOf] using ih seen

/-- Only the own words are left when nothing is inherited. -/
theorem substitute_none
    {cur : String → List String} {items : List Item} (h : ∀ c ∈ tagsOf items, cur c = [])
    (seen : List String) :
    substitute cur seen items = wordsOf items := by
  induction items generalizing seen with
  | nil => rfl
  | cons it items ih =>
      cases it with
      | word text => simpa [substitute, wordsOf] using ih (by simpa [tagsOf] using h) seen
      | inherit node =>
          have h' : cur node = [] ∧ ∀ c ∈ tagsOf items, cur c = [] := by simpa [tagsOf] using h
          rw [substitute]
          split_ifs
          · simpa [wordsOf] using ih h'.2 seen
          · rw [h'.1]
            simpa [wordsOf] using ih h'.2 (node :: seen)

/-- One node is inherited, and there are no own words. -/
theorem substitute_one
    {cur : String → List String} {items : List Item} {chosen : String}
    (h : ∀ c, c ≠ chosen → cur c = []) (hwords : wordsOf items = []) (seen : List String) :
    substitute cur seen items =
      if chosen ∈ tagsOf items ∧ chosen ∉ seen then cur chosen else [] := by
  induction items generalizing seen with
  | nil => simp [substitute, tagsOf]
  | cons it items ih =>
      cases it with
      | word text => simp [wordsOf] at hwords
      | inherit node =>
          have hwords' : wordsOf items = [] := by simpa [wordsOf] using hwords
          have htags : ∀ c, c ∈ tagsOf (.inherit node :: items) ↔ c = node ∨ c ∈ tagsOf items := by
            intro c
            simp [tagsOf]
          rw [substitute]
          split_ifs with hs hc hc
          · have hmem : chosen ∈ tagsOf items :=
              ((htags chosen).mp hc.1).resolve_left (fun h => hc.2 (h ▸ hs))
            rw [ih hwords', if_pos ⟨hmem, hc.2⟩]
          · rw [ih hwords', if_neg (fun h => hc ⟨(htags chosen).mpr (Or.inr h.1), h.2⟩)]
          · rw [ih hwords']
            by_cases hn : node = chosen
            · subst hn
              simp
            · have hmem : chosen ∈ tagsOf items :=
                ((htags chosen).mp hc.1).resolve_left (Ne.symm hn)
              rw [h node hn, List.nil_append, if_pos ⟨hmem, by simp [hc.2, Ne.symm hn]⟩]
          · rw [ih hwords']
            by_cases hn : node = chosen
            · subst hn
              exact absurd ⟨(htags node).mpr (Or.inl rfl), hs⟩ hc
            · rw [h node hn, List.nil_append, if_neg]
              rintro ⟨h₁, h₂⟩
              exact hc ⟨(htags chosen).mpr (Or.inr h₁), fun h' => h₂ (by simp [h'])⟩

/-- The node that a single value is taken from. -/
def taken (cur : String → List String) : List String → Option String
  | [] => none
  | c :: cs => if cur c = [] then taken cur cs else some c

theorem taken_append
    (cur : String → List String) (l l' : List String) :
    taken cur (l ++ l') = (taken cur l).or (taken cur l') := by
  induction l with
  | nil => rfl
  | cons c l ih =>
      rw [List.cons_append, taken, taken]
      split_ifs
      · exact ih
      · rfl

theorem mem_of_taken
    {cur : String → List String} {l : List String} {c : String} (h : taken cur l = some c) :
    c ∈ l ∧ cur c ≠ [] := by
  induction l with
  | nil => cases h
  | cons d l ih =>
      rw [taken] at h
      split_ifs at h with hd
      · obtain ⟨hmem, hne⟩ := ih h
        exact ⟨List.mem_cons_of_mem _ hmem, hne⟩
      · cases h
        exact ⟨List.mem_cons_self, hd⟩

theorem firstNonempty_eq_taken
    (cur : String → List String) (l : List String) :
    firstNonempty cur l = ((taken cur l).map cur).getD [] := by
  induction l with
  | nil => rfl
  | cons c l ih =>
      rw [firstNonempty, taken]
      split_ifs
      · exact ih
      · rfl

theorem mem_tagsOf
    {items : List Item} {c : String} :
    c ∈ tagsOf items ↔ Item.inherit c ∈ items := by
  induction items with
  | nil => simp [tagsOf]
  | cons it items ih =>
      cases it with
      | word text => simpa [tagsOf] using ih
      | inherit node => simpa [tagsOf] using or_congr_right ih

theorem wordsOf_keepFirst
    (c : String) (b : Bool) (items : List Item) :
    wordsOf (keepFirst (.inherit c) b items) = wordsOf items := by
  induction items generalizing b with
  | nil => rfl
  | cons it items ih =>
      rw [keepFirst]
      split_ifs with h₁ h₂
      · subst h₁
        simpa [wordsOf] using ih true
      · subst h₁
        simpa [wordsOf] using ih true
      · cases it with
        | word text => simpa [wordsOf] using ih b
        | inherit node => simpa [wordsOf] using ih b

theorem inherit_mem_replaceTags
    {cur : String → List String} {done seen : List String} {items : List Item} {c : String}
    (h : Item.inherit c ∈ replaceTags cur done seen items) :
    Item.inherit c ∈ items := by
  induction items generalizing seen with
  | nil => simp [replaceTags] at h
  | cons it items ih =>
      cases it with
      | word text =>
          rw [replaceTags, List.mem_cons] at h
          exact List.mem_cons_of_mem _ (ih (h.resolve_left (by simp)))
      | inherit node =>
          rw [replaceTags] at h
          split_ifs at h
          · exact List.mem_cons_of_mem _ (ih h)
          · rw [List.mem_append] at h
            exact List.mem_cons_of_mem _ (ih (h.resolve_left (by simp)))
          · rw [List.mem_cons] at h
            rcases h with h | h
            · rw [h]
              exact List.mem_cons_self
            · exact List.mem_cons_of_mem _ (ih h)

/-- A replaced tag with a value leaves words. -/
theorem wordsOf_replaceTags_ne_nil
    {cur : String → List String} {done seen : List String} {items : List Item} {c : String}
    (hc : c ∈ tagsOf items) (hdone : c ∈ done) (hseen : c ∉ seen) (hcur : cur c ≠ []) :
    wordsOf (replaceTags cur done seen items) ≠ [] := by
  induction items generalizing seen with
  | nil => simp [tagsOf] at hc
  | cons it items ih =>
      cases it with
      | word text => simp [replaceTags, wordsOf]
      | inherit node =>
          have hc' : c = node ∨ c ∈ tagsOf items := by simpa [tagsOf] using hc
          by_cases hn : node = c
          · subst hn
            rw [replaceTags, if_pos hdone, if_neg hseen]
            cases hval : cur node with
            | nil => exact absurd hval hcur
            | cons w ws => simp [wordsOf]
          · have hmem := hc'.resolve_left (Ne.symm hn)
            rw [replaceTags]
            split_ifs
            · exact ih hmem hseen
            · have hcons : c ∉ node :: seen := by simp [hseen, Ne.symm hn]
              have h := ih hmem hcons
              intro hnil
              apply h
              unfold wordsOf at hnil ⊢
              rw [List.filterMap_append] at hnil
              exact (List.append_eq_nil_iff.mp hnil).2
            · simpa [wordsOf] using ih hmem hseen

theorem mem_makeSort
    {names : List String} {c : String} :
    c ∈ makeSort names ↔ c ∈ names := by
  unfold makeSort
  rw [(List.perm_insertionSort _ _).mem_iff, List.mem_dedup]

theorem nodup_makeSort (names : List String) :
    (makeSort names).Nodup := by
  unfold makeSort
  rw [(List.perm_insertionSort _ _).nodup_iff]
  exact List.nodup_dedup names

theorem eq_of_sorted
    {l l' : List String} (hl : l.Pairwise (fun a b => ¬ b < a))
    (hl' : l'.Pairwise (fun a b => ¬ b < a)) (hnodup : l.Nodup) (hnodup' : l'.Nodup)
    (hmem : ∀ c, c ∈ l ↔ c ∈ l') :
    l = l' := by
  refine List.Perm.eq_of_pairwise ?_ hl hl' ((List.perm_ext_iff_of_nodup hnodup hnodup').mpr hmem)
  intro a b _ _ hab hba
  exact le_antisymm (not_lt.mp hab) (not_lt.mp hba)

theorem makeSort_sorted (names : List String) :
    (makeSort names).Pairwise (fun a b => ¬ b < a) := by
  have : Std.Total (fun a b : String => ¬ b < a) :=
    ⟨fun a b => (le_total a b).imp not_lt.mpr not_lt.mpr⟩
  have : IsTrans String (fun a b => ¬ b < a) :=
    ⟨fun a b c hab hbc => not_lt.mpr ((not_lt.mp hab).trans (not_lt.mp hbc))⟩
  exact List.pairwise_insertionSort _ _

theorem makeSort_congr
    {names names' : List String} (h : ∀ c, c ∈ names ↔ c ∈ names') :
    makeSort names = makeSort names' := by
  refine eq_of_sorted (makeSort_sorted _) (makeSort_sorted _) (nodup_makeSort _)
    (nodup_makeSort _) ?_
  intro c
  rw [mem_makeSort, mem_makeSort, h]

end Substitute

section ExpandVar

variable {p : Makefiles}

/-- What the tag of `c` is replaced by, when the nodes in `done` are expanded. -/
def effective (single : Bool) (items : List Item) (cur : String → List String)
    (done : List String) (c : String) : List String :=
  if single then
    if wordsOf items = [] ∧ taken cur done = some c then cur c else []
  else cur c

theorem effective_append
    {single : Bool} {items : List Item} {cur : String → List String} {done : List String}
    {i c : String} (hi : i ∉ done) (hc : c ∈ done) :
    effective single items cur (done ++ [i]) c = effective single items cur done c := by
  have hne : i ≠ c := fun h => hi (h ▸ hc)
  unfold effective
  rw [taken_append]
  cases single with
  | false => rfl
  | true =>
      cases hfind : taken cur done with
      | some d => simp
      | none =>
          by_cases hcur : cur i = []
          · simp [taken, hcur]
          · simp [taken, hcur, hne]

/-- The value that `expandTag` takes. -/
theorem effective_self
    {single : Bool} {items : List Item} {cur : String → List String} {done : List String}
    {i : String} (hi : i ∉ done) (hdone : ∀ c ∈ done, c ∈ tagsOf items) :
    effective single items cur (done ++ [i]) i =
      if single = true ∧
          wordsOf (replaceTags (effective single items cur done) done [] items) ≠ [] then []
      else cur i := by
  cases single with
  | false => simp [effective]
  | true =>
      by_cases hwords : wordsOf items = []
      · cases hfind : taken cur done with
        | some d =>
            obtain ⟨hmem, hd⟩ := mem_of_taken hfind
            have hne : d ≠ i := fun h => hi (h ▸ hmem)
            have hval : effective true items cur done d ≠ [] := by
              simpa [effective, hwords, hfind] using hd
            have hleft := wordsOf_replaceTags_ne_nil (hdone d hmem) hmem List.not_mem_nil hval
            rw [if_pos ⟨rfl, hleft⟩]
            simp [effective, taken_append, hfind, hne]
        | none =>
            have hzero : ∀ c ∈ done, effective true items cur done c = [] := by
              intro c _
              simp [effective, hfind]
            rw [if_neg (by
              rintro ⟨_, hne⟩
              exact hne ((wordsOf_replaceTags_none hzero [] items).trans hwords))]
            by_cases hcur : cur i = []
            · simp [effective, hcur]
            · simp [effective, taken_append, taken, hfind, hwords, hcur]
      · have hzero : ∀ c ∈ done, effective true items cur done c = [] := by
          intro c _
          simp [effective, hwords]
        rw [if_pos ⟨rfl, by rw [wordsOf_replaceTags_none hzero]; exact hwords⟩]
        simp [effective, hwords]

theorem substitute_effective
    (single : Bool) (items : List Item) (cur : String → List String) :
    substitute (effective single items cur (makeSort (tagsOf items))) [] items =
      expandItems single items cur := by
  unfold expandItems
  cases single with
  | false => rfl
  | true =>
      by_cases hwords : wordsOf items = []
      · rw [if_pos rfl, if_pos hwords, firstNonempty_eq_taken]
        cases hfind : taken cur (makeSort (tagsOf items)) with
        | none =>
            rw [substitute_none (by
              intro c _
              simp [effective, hfind])]
            exact hwords
        | some d =>
            have hmem := mem_makeSort.mp (mem_of_taken hfind).1
            have hothers : ∀ c, c ≠ d →
                effective true items cur (makeSort (tagsOf items)) c = [] := by
              intro c hc
              simp [effective, hfind, Ne.symm hc]
            rw [substitute_one hothers hwords, if_pos ⟨hmem, by simp⟩]
            simp [effective, hwords, hfind]
      · rw [if_pos rfl, if_neg hwords, substitute_none (by
          intro c _
          simp [effective, hwords])]

/-- The state in the loop over the tags of one variable. -/
structure TagInv (p : Makefiles) (node var : String) (items : List Item)
    (cur : String → List String) (st₀ : MakeState) (done : List String) (st : MakeState) :
    Prop where
  seen : st.seen = st₀.seen
  value : st.vars node var =
    replaceTags (effective (decide (var ∈ p.singleValueVars)) items cur done) done [] items
  others : ∀ m w, ¬ (m = node ∧ w = var) →
    st.vars m w = if w = var ∧ m ∈ done then [] else st₀.vars m w

theorem expandTag_inv
    {node var : String} {items : List Item} {cur : String → List String} {st₀ st : MakeState}
    {done : List String} {i : String} (h : TagInv p node var items cur st₀ done st)
    (hdone : ∀ c ∈ done, c ∈ tagsOf items) (hi : i ∉ done) (hnode : node ∉ tagsOf items)
    (hitag : i ∈ tagsOf items) (hcur : st₀.vars i var = (cur i).map Item.word) :
    ∃ st', p.expandTag node var st i = .ok st' ∧
      TagInv p node var items cur st₀ (done ++ [i]) st' := by
  have hne : i ≠ node := fun he => hnode (he ▸ hitag)
  have hvars : st.vars i var = (cur i).map Item.word := by
    rw [h.others i var (by simp [hne]), if_neg (by simp [hi]), hcur]
  have hexpanded : (if var ∈ p.singleValueVars ∧
      wordsOf (uniqWord (st.vars node var) (.inherit i)) ≠ [] then [] else st.vars i var) =
      (effective (decide (var ∈ p.singleValueVars)) items cur (done ++ [i]) i).map Item.word := by
    rw [effective_self hi hdone, uniqWord_eq, wordsOf_keepFirst, h.value, hvars]
    simp only [decide_eq_true_eq]
    split_ifs <;> rfl
  have hkeep : ∀ c ∈ done,
      effective (decide (var ∈ p.singleValueVars)) items cur (done ++ [i]) c =
        effective (decide (var ∈ p.singleValueVars)) items cur done c :=
    fun c hc => effective_append hi hc
  have hvalue := replaceTags_step hi hkeep List.not_mem_nil false items
  rw [if_neg (by simp), ← h.value, ← uniqWord_eq] at hvalue
  have hcycle : Item.inherit node ∉
      replaceTags (effective (decide (var ∈ p.singleValueVars)) items cur (done ++ [i]))
        (done ++ [i]) [] items := by
    intro hmem
    exact hnode (mem_tagsOf.mpr (inherit_mem_replaceTags hmem))
  unfold Makefiles.expandTag
  simp only [hexpanded, hvalue, if_neg hcycle]
  refine ⟨_, rfl, ?_, ?_, ?_⟩
  · simpa using h.seen
  · rw [MakeState.vars_set, if_neg (by simp [Ne.symm hne]), MakeState.vars_set, if_pos ⟨rfl, rfl⟩]
  · intro m w hmw
    rw [MakeState.vars_set, MakeState.vars_set, if_neg hmw, h.others m w hmw]
    by_cases hw : w = var
    · by_cases hm : m = i
      · simp [hw, hm]
      · simp [hw, hm]
    · simp [hw]

/-- The expansion of one variable. -/
theorem expandVar_spec
    {node var : String} {items : List Item} {cur : String → List String} {st : MakeState}
    (hitems : st.vars node var = items) (hnode : node ∉ tagsOf items)
    (hcur : ∀ i ∈ tagsOf items, st.vars i var = (cur i).map Item.word) :
    ∃ st', p.expandVar node st var = .ok st' ∧ st'.seen = st.seen ∧
      ∀ m w, st'.vars m w =
        if w = var then
          if m = node then
            (expandItems (decide (var ∈ p.singleValueVars)) items cur).map Item.word
          else if m ∈ tagsOf items then [] else st.vars m w
        else st.vars m w := by
  obtain ⟨st', hrun, hinv⟩ := forLoop_total (p.expandTag node var)
    (fun done st' => TagInv p node var items cur st done st') (makeSort (tagsOf items)) st
    ⟨rfl, by rw [replaceTags_nil]; exact hitems, by simp⟩
    (by
      intro done i rest r hsplit hr
      have hnodup := nodup_makeSort (tagsOf items)
      rw [hsplit] at hnodup
      have hi : i ∉ done := by
        intro hmem
        exact (List.nodup_append.mp hnodup).2.2 i hmem i (by simp) rfl
      have hsub : ∀ c ∈ done ++ i :: rest, c ∈ tagsOf items := by
        intro c hc
        rw [← hsplit] at hc
        exact mem_makeSort.mp hc
      have hitag := hsub i (by simp)
      exact expandTag_inv hr (fun c hc => hsub c (by simp [hc])) hi hnode hitag (hcur i hitag))
  refine ⟨st', ?_, hinv.seen, ?_⟩
  · unfold Makefiles.expandVar
    rw [hitems]
    exact hrun
  · intro m w
    by_cases hw : w = var
    · subst hw
      rw [if_pos rfl]
      by_cases hm : m = node
      · subst hm
        rw [if_pos rfl, hinv.value,
          replaceTags_all (fun c hc => mem_makeSort.mpr hc), substitute_effective]
      · rw [if_neg hm, hinv.others m w (by simp [hm])]
        simp only [true_and, mem_makeSort]
    · rw [if_neg hw, hinv.others m w (by simp [hw]), if_neg (by simp [hw])]

end ExpandVar

end ProductConfig
end AndroidBuild
