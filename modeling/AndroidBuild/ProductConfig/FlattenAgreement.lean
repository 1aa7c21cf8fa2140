import AndroidBuild.ProductConfig.FlattenLists

/-!
# The flattener and `node_fns.mk`

The flattener gives a single-value variable the first value that it meets.
Make hands the value of a file up to the file that inherits it, unless another
file inherits it too and is expanded before.
-/

namespace AndroidBuild
namespace ProductConfig

open Loop PostOrder

variable {p : Makefiles} {rank : String → Nat} {v : String} {k : Nat}

section FirstValue

/-- The first assignment to `v`. -/
def firstOf (v : String) (statements : List Statement) : Option (List (List String)) :=
  statements.findSome? (fun statement => match statement with
    | .assign varName items => if varName = v then some items else none
    | .inherit _ => none)

variable (p) (v)

def Makefiles.firstAssign (n : String) : Option (List (List String)) :=
  firstOf v (p.statementsOf n)

/-- The first assignment to `v` that is met below a file. -/
def Makefiles.winner : Nat → String → Option (List (List String))
  | 0, n => p.firstAssign v n
  | k + 1, n => (p.firstAssign v n).or ((p.inheritedBy n).findSome? (winner k))

/-- The file that the first assignment is reached through meets `P`, and is not
inherited by a file that is reached after it. -/
def Makefiles.WinnerOk (k : Nat) (P : String → Prop) : List String → Prop
  | [] => True
  | c :: l =>
      if p.winner v k c = none then WinnerOk k P l
      else P c ∧ ∀ m ∈ l.flatMap (postOrder p.inheritedBy k), c ∉ tagsOf (p.itemsOf v m)

/-- The first assignment to `v` below a file is the value that Make gives to the
file it is in, is not empty, and is handed up to `n`. -/
def Makefiles.SingleOk : Nat → String → Prop
  | 0, _ => True
  | k + 1, n =>
      match p.firstAssign v n with
      | some items => items = [wordsOf (p.itemsOf v n)] ∧ wordsOf (p.itemsOf v n) ≠ []
      | none => p.WinnerOk v k (SingleOk k) (p.inheritedBy n)

/-- The first assignment below a file gives it an empty value, and Make finds no word where it
looks on. -/
def Makefiles.EmptyOk (k : Nat) (n : String) : Prop :=
  p.winner v k n = some [[]] ∧
    ∀ m ∈ postOrder (fun m => tagsOf (p.itemsOf v m)) k n, wordsOf (p.itemsOf v m) = []

instance (k : Nat) (n : String) : Decidable (p.EmptyOk v k n) :=
  inferInstanceAs (Decidable (_ ∧ _))

instance decidableWinnerOk (k : Nat) (P : String → Prop) [DecidablePred P] :
    ∀ l, Decidable (p.WinnerOk v k P l)
  | [] => inferInstanceAs (Decidable True)
  | c :: l =>
      have : Decidable (p.WinnerOk v k P l) := decidableWinnerOk k P l
      inferInstanceAs (Decidable (if p.winner v k c = none then p.WinnerOk v k P l
        else P c ∧ ∀ m ∈ l.flatMap (postOrder p.inheritedBy k), c ∉ tagsOf (p.itemsOf v m)))

instance decidableSingleOk : ∀ k n, Decidable (p.SingleOk v k n)
  | 0, _ => inferInstanceAs (Decidable True)
  | k + 1, n =>
      have := decidableSingleOk k
      match h : p.firstAssign v n with
      | some items =>
          decidable_of_iff (items = [wordsOf (p.itemsOf v n)] ∧ wordsOf (p.itemsOf v n) ≠ [])
            (by simp only [Makefiles.SingleOk, h])
      | none =>
          decidable_of_iff (p.WinnerOk v k (p.SingleOk v k) (p.inheritedBy n))
            (by simp only [Makefiles.SingleOk, h])

end FirstValue

section Unassigned

theorem winner_eq_none
    {n : String} :
    p.winner v k n = none ↔ ∀ m ∈ postOrder p.inheritedBy k n, p.firstAssign v m = none := by
  induction k generalizing n with
  | zero => simp [Makefiles.winner, postOrder]
  | succ k ih =>
      simp only [Makefiles.winner, Option.or_eq_none_iff, List.findSome?_eq_none_iff, ih, postOrder,
        List.mem_append, List.mem_flatMap, List.mem_singleton]
      constructor
      · rintro ⟨hn, hbelow⟩ m (⟨c, hc, hm⟩ | rfl)
        · exact hbelow c hc m hm
        · exact hn
      · intro h
        exact ⟨h n (Or.inr rfl), fun c hc m hm => h m (Or.inl ⟨c, hc, hm⟩)⟩

/-- A variable that a file does not assign has its tags only. -/
theorem itemsOf_of_firstAssign
    (hvar : v ∈ p.varList) {n : String} (h : p.firstAssign v n = none) :
    p.itemsOf v n = (inheritsOf (p.statementsOf n)).map Item.inherit := by
  have hloop : ∀ (statements : List Statement) (env : String → List Item),
      (∀ items, .assign v items ∉ statements) →
      statements.foldl p.runStatement env v =
        env v ++ (inheritsOf statements).map Item.inherit := by
    intro statements
    induction statements with
    | nil => simp [inheritsOf]
    | cons statement statements ih =>
        intro env hassign
        have hrest : ∀ items, .assign v items ∉ statements :=
          fun items hmem => hassign items (List.mem_cons_of_mem _ hmem)
        rw [List.foldl_cons, ih _ hrest]
        cases statement with
        | assign varName items =>
            have hname : v ≠ varName := by
              rintro rfl
              exact hassign items List.mem_cons_self
            simp [Makefiles.runStatement, Function.update_of_ne hname, inheritsOf]
        | inherit node =>
            simp [Makefiles.runStatement, if_pos hvar, inheritsOf]
  refine hloop _ _ ?_
  intro items hmem
  rw [Makefiles.firstAssign, firstOf, List.findSome?_eq_none_iff] at h
  simpa using h _ hmem

theorem wordsOf_of_firstAssign
    (hvar : v ∈ p.varList) {n : String} (h : p.firstAssign v n = none) :
    wordsOf (p.itemsOf v n) = [] := by
  rw [itemsOf_of_firstAssign hvar h]
  simp [wordsOf]

theorem inherit_mem_intercalate
    {c : String} {items : List Item} {segments : List (List String)}
    (h : .inherit c ∈ items.intercalate (segments.map (List.map Item.word))) :
    .inherit c ∈ items := by
  induction segments with
  | nil => simp [List.intercalate] at h
  | cons s segments ih =>
      cases segments with
      | nil => simp [List.intercalate] at h
      | cons s' segments =>
          simp only [List.map_cons, List.intercalate, List.intersperse_cons_cons,
            List.flatten_cons] at ih h
          rcases List.mem_append.mp h with h | h
          · simp at h
          · exact (List.mem_append.mp h).elim id ih

/-- The tags of a variable name files that are inherited. -/
theorem mem_inheritsOf_of_tag
    {n c w : String} (h : c ∈ tagsOf (p.itemsOf w n)) :
    c ∈ inheritsOf (p.statementsOf n) := by
  have hloop : ∀ (statements : List Statement) (env : String → List Item) (w : String),
      .inherit c ∈ statements.foldl p.runStatement env w →
      (∃ w, .inherit c ∈ env w) ∨ .inherit c ∈ statements := by
    intro statements
    induction statements with
    | nil =>
        intro env w hmem
        exact Or.inl ⟨w, hmem⟩
    | cons statement statements ih =>
        intro env w hmem
        rcases ih _ w hmem with ⟨u, hu⟩ | hrest
        · cases statement with
          | assign varName items =>
              simp only [Makefiles.runStatement] at hu
              by_cases hname : u = varName
              · subst hname
                rw [Function.update_self] at hu
                exact Or.inl ⟨u, inherit_mem_intercalate hu⟩
              · rw [Function.update_of_ne hname] at hu
                exact Or.inl ⟨u, hu⟩
          | inherit node =>
              simp only [Makefiles.runStatement] at hu
              split_ifs at hu
              · rcases List.mem_append.mp hu with hu | hu
                · exact Or.inl ⟨u, hu⟩
                · rw [List.mem_singleton, Item.inherit.injEq] at hu
                  subst hu
                  exact Or.inr List.mem_cons_self
              · exact Or.inl ⟨u, hu⟩
        · exact Or.inr (List.mem_cons_of_mem _ hrest)
  rcases hloop _ _ w (mem_tagsOf.mp h) with ⟨_, hnil⟩ | hmem
  · cases hnil
  · exact List.mem_filterMap.mpr ⟨_, hmem, rfl⟩

theorem makeSort_of_firstAssign
    (hvar : v ∈ p.varList) {n : String} (h : p.firstAssign v n = none) :
    makeSort (tagsOf (p.itemsOf v n)) = p.inheritedBy n := by
  refine makeSort_congr ?_
  intro c
  rw [mem_tagsOf, mem_tagsOf, List.mem_flatMap]
  constructor
  · intro hmem
    exact ⟨v, hvar, hmem⟩
  · rintro ⟨w, _, hmem⟩
    have hc := mem_inheritsOf_of_tag (mem_tagsOf.mpr hmem)
    rw [itemsOf_of_firstAssign hvar h]
    exact List.mem_map.mpr ⟨c, hc, rfl⟩

end Unassigned

section Values

variable {s : Expanded} {n : String}

theorem firstNonempty_nil
    {cur : String → List String} {l : List String} (h : ∀ c ∈ l, cur c = []) :
    firstNonempty cur l = [] := by
  induction l with
  | nil => rfl
  | cons c l ih =>
      rw [List.forall_mem_cons] at h
      rw [firstNonempty, if_pos h.1, ih h.2]

/-- None of the files that have been expanded has a value. -/
def Empty (p : Makefiles) (v : String) (s : Expanded) : Prop :=
  ∀ m ∈ s.1, p.firstAssign v m = none ∧ s.2 m = []

/-- The value of a single-value variable that a file does not assign. -/
theorem expandOne_of_firstAssign
    (hsingle : v ∈ p.singleValueVars) (h : p.firstAssign v n = none) (cur : String → List String) :
    p.expandOne v cur n n = firstNonempty cur (p.inheritedBy n) := by
  have hvar : v ∈ p.varList := List.mem_append_left _ hsingle
  simp only [Makefiles.expandOne, expandNode, if_true, expandItems, hsingle, decide_true,
    wordsOf_of_firstAssign hvar h, makeSort_of_firstAssign hvar h]

theorem expandOne_of_words
    (hsingle : v ∈ p.singleValueVars) (h : wordsOf (p.itemsOf v n) ≠ [])
    (cur : String → List String) :
    p.expandOne v cur n n = wordsOf (p.itemsOf v n) := by
  simp only [Makefiles.expandOne, expandNode, if_true, expandItems, hsingle, decide_true, if_neg h]

theorem visitAll_kept
    {c : String} {l : List String} (hc : c ∈ s.1)
    (h : ∀ m ∈ l, m ∉ s.1 → c ∉ tagsOf (p.itemsOf v m)) :
    (visitAll (p.expandOne v) s l).2 c = s.2 c := by
  refine (visitAll_induction (fun done t => (∀ m ∈ s.1, m ∈ done) ∧ t c = s.2 c)
    ⟨fun _ hm => hm, rfl⟩ ?_).2
  rintro m hm done t hdone ⟨hsub, ht⟩
  have hms : m ∉ s.1 := fun hmem => hdone (hsub m hmem)
  have hcm : c ≠ m := by
    rintro rfl
    exact hms hc
  refine ⟨fun d hd => List.mem_cons_of_mem _ (hsub d hd), ?_⟩
  simp only [Makefiles.expandOne, expandNode, if_neg hcm, if_neg (h m hm hms)]
  exact ht

theorem visitAll_nil_of_nil
    {c : String} {l : List String} (hc : c ∈ s.1) (h : s.2 c = []) :
    (visitAll (p.expandOne v) s l).2 c = [] := by
  refine (visitAll_induction (fun done t => c ∈ done ∧ t c = []) ⟨hc, h⟩ ?_).2
  rintro m _ done t hdone ⟨hmem, ht⟩
  have hcm : c ≠ m := by
    rintro rfl
    exact hdone hmem
  refine ⟨List.mem_cons_of_mem _ hmem, ?_⟩
  simp only [Makefiles.expandOne, expandNode, if_neg hcm]
  split_ifs
  · rfl
  · exact ht

/-- Without an assignment there is no value. -/
theorem Empty.expandBelow
    (hrank : Ranked p.inheritedBy rank) (hk : rank n < k) (hsingle : v ∈ p.singleValueVars)
    (hempty : Empty p v s) (h : p.winner v k n = none) :
    Empty p v (p.expandBelow v k s n) := by
  induction k generalizing n s with
  | zero => omega
  | succ k ih =>
      rw [Makefiles.winner, Option.or_eq_none_iff, List.findSome?_eq_none_iff] at h
      have hloop : ∀ (l : List String) (s : Expanded), (∀ c ∈ l, c ∈ p.inheritedBy n) →
          Empty p v s → Empty p v (l.foldl (p.expandBelow v k) s) := by
        intro l
        induction l with
        | nil =>
            intro s _ hs
            exact hs
        | cons c l ihl =>
            intro s hl hs
            rw [List.forall_mem_cons] at hl
            have hlt := hrank n c hl.1
            exact ihl _ hl.2 (ih (by omega) hs (h.2 c hl.1))
      have hchildren := hloop (p.inheritedBy n) s (fun _ hc => hc) hempty
      rw [expandBelow_succ]
      generalize ht : (p.inheritedBy n).foldl (p.expandBelow v k) s = t at hchildren ⊢
      have hmem : ∀ c ∈ p.inheritedBy n, c ∈ t.1 := by
        intro c hc
        rw [← ht, mem_foldl_expandBelow]
        exact Or.inl ⟨c, hc, self_mem_postOrder k c⟩
      intro m hm
      rw [mem_visit] at hm
      unfold visit
      split_ifs with hn
      · rcases hm with rfl | hm
        · exact hchildren m hn
        · exact hchildren m hm
      · by_cases hmn : m = n
        · subst hmn
          refine ⟨h.1, ?_⟩
          show p.expandOne v t.2 m m = []
          rw [expandOne_of_firstAssign hsingle h.1]
          exact firstNonempty_nil (fun c hc => (hchildren c (hmem c hc)).2)
        · obtain ⟨hassign, hvalue⟩ := hchildren m (hm.resolve_left hmn)
          refine ⟨hassign, ?_⟩
          simp only [Makefiles.expandOne, expandNode, if_neg hmn]
          split_ifs
          · rfl
          · exact hvalue

def firstValue (items : Option (List (List String))) : List String :=
  (items.bind List.head?).getD []

/-- A single assignment, and it is not empty. -/
def Taken (items : Option (List (List String))) : Prop :=
  ∀ segments, items = some segments → ∃ w, segments = [w] ∧ w ≠ []

/-- Of the inherited files, the first one with an assignment has the first value. -/
theorem firstNonempty_foldl
    (hrank : Ranked p.inheritedBy rank) (hsingle : v ∈ p.singleValueVars) {P : String → Prop}
    (hP : ∀ (s : Expanded) (c : String), rank c < k → Closed p s.1 → c ∉ s.1 → Empty p v s →
      P c → (p.expandBelow v k s c).2 c = firstValue (p.winner v k c) ∧ Taken (p.winner v k c))
    {l : List String} (hl : ∀ c ∈ l, rank c < k) (hclosed : Closed p s.1) (hempty : Empty p v s)
    (hok : p.WinnerOk v k P l) :
    firstNonempty (l.foldl (p.expandBelow v k) s).2 l = firstValue (l.findSome? (p.winner v k)) ∧
      Taken (l.findSome? (p.winner v k)) := by
  induction l generalizing s with
  | nil => exact ⟨rfl, by simp [Taken]⟩
  | cons c l ih =>
      rw [List.forall_mem_cons] at hl
      have hc : c ∈ (p.expandBelow v k s c).1 :=
        mem_expandBelow.mpr (Or.inl (self_mem_postOrder k c))
      rw [List.foldl_cons, firstNonempty, List.findSome?_cons]
      cases hwin : p.winner v k c with
      | none =>
          rw [Makefiles.WinnerOk, if_pos hwin] at hok
          have hempty' := hempty.expandBelow hrank hl.1 hsingle hwin
          have hnil : (l.foldl (p.expandBelow v k) (p.expandBelow v k s c)).2 c = [] := by
            rw [foldl_expandBelow]
            exact visitAll_nil_of_nil hc (hempty' c hc).2
          rw [if_pos hnil]
          exact ih hl.2 (hclosed.expandBelow hrank hl.1.le) hempty' hok
      | some items =>
          rw [Makefiles.WinnerOk, if_neg (by simp [hwin])] at hok
          have hcs : c ∉ s.1 := by
            intro hmem
            have hnone : p.winner v k c = none := winner_eq_none.mpr (fun m hm =>
              (hempty m (postOrder_subset hclosed hmem m hm)).1)
            rw [hnone] at hwin
            cases hwin
          obtain ⟨hval, htaken⟩ := hP s c hl.1 hclosed hcs hempty hok.1
          have hkept : (l.foldl (p.expandBelow v k) (p.expandBelow v k s c)).2 c =
              (p.expandBelow v k s c).2 c := by
            rw [foldl_expandBelow]
            exact visitAll_kept hc (fun m hm _ => hok.2 m hm)
          rw [hwin] at hval htaken
          obtain ⟨w, hw, hne⟩ := htaken items rfl
          have hvalue : firstValue (some items) ≠ [] := by
            rw [hw]
            exact hne
          rw [hkept, hval, if_neg hvalue]
          exact ⟨rfl, htaken⟩

/-- The first assignment below a file gives it its value. -/
theorem expandBelow_single
    (hrank : Ranked p.inheritedBy rank) (hk : rank n < k) (hsingle : v ∈ p.singleValueVars)
    (hclosed : Closed p s.1) (hn : n ∉ s.1) (hempty : Empty p v s) (hok : p.SingleOk v k n) :
    (p.expandBelow v k s n).2 n = firstValue (p.winner v k n) ∧ Taken (p.winner v k n) := by
  induction k generalizing n s with
  | zero => omega
  | succ k ih =>
      have hvalue : (p.expandBelow v (k + 1) s n).2 n =
          p.expandOne v ((p.inheritedBy n).foldl (p.expandBelow v k) s).2 n n := by
        rw [expandBelow_succ, visit, if_neg (not_mem_foldl hrank hn)]
      rw [hvalue, Makefiles.winner]
      cases hassign : p.firstAssign v n with
      | some items =>
          simp only [Makefiles.SingleOk, hassign] at hok
          rw [expandOne_of_words hsingle hok.2, Option.some_or]
          refine ⟨by rw [hok.1]; rfl, ?_⟩
          rintro _ ⟨rfl⟩
          exact ⟨_, hok⟩
      | none =>
          simp only [Makefiles.SingleOk, hassign] at hok
          have hranks : ∀ c ∈ p.inheritedBy n, rank c < k := by
            intro c hc
            have := hrank n c hc
            omega
          rw [expandOne_of_firstAssign hsingle hassign, Option.none_or]
          exact firstNonempty_foldl hrank hsingle
            (fun s c hc hs hcs he hP => ih hc hs hcs he hP) hranks hclosed hempty hok

/-- Where Make finds no word, the value is empty. -/
theorem expandBelow_empty
    (hrank : Ranked p.inheritedBy rank) (hk : rank n ≤ k) (hsingle : v ∈ p.singleValueVars)
    (hwords : ∀ m ∈ postOrder (fun m => tagsOf (p.itemsOf v m)) k n, wordsOf (p.itemsOf v m) = []) :
    (p.expandBelow v k ([], fun _ => []) n).2 n = [] := by
  have htags : Ranked (fun m => tagsOf (p.itemsOf v m)) rank := fun m c hc =>
    hrank m c (mem_inheritedBy.mpr ⟨v, List.mem_append_left _ hsingle, hc⟩)
  refine visitAll_induction (fun _ (t : String → List String) =>
    ∀ m ∈ postOrder (fun m => tagsOf (p.itemsOf v m)) k n, t m = []) (fun _ _ => rfl) ?_ n
    (self_mem_postOrder k n)
  intro m _ done t _ ht d hd
  simp only [Makefiles.expandOne, expandNode]
  split_ifs with hdm
  · subst hdm
    rw [expandItems, if_pos (decide_eq_true hsingle), if_pos (hwords d hd)]
    exact firstNonempty_nil fun c hc =>
      ht c (children_mem_postOrder htags hk hd (mem_makeSort.mp hc))
  · rfl
  · exact ht d hd

end Values

section Singles

variable {n : String}

/-- A single assignment. -/
def OneValue (items : Option (List (List String))) : Prop :=
  ∀ segments, items = some segments → ∃ w, segments = [w]

theorem OneValue.left
    {a b : Option (List (List String))} (h : OneValue (a.or b)) :
    OneValue a := by
  rintro segments rfl
  exact h segments rfl

theorem OneValue.right
    {a b : Option (List (List String))} (h : OneValue (a.or b)) (ha : a = none) :
    OneValue b := by
  subst ha
  exact h

theorem OneValue.eq_none
    {a : Option (List (List String))} (h : OneValue a) (hhead : a.bind List.head? = none) :
    a = none := by
  cases a with
  | none => rfl
  | some segments =>
      obtain ⟨w, rfl⟩ := h segments rfl
      cases hhead

/-- The first loop of `flattenSingleVars`. -/
theorem assignSingleVars_spec
    {statements : List Statement} {vars : String → Option (List String)}
    (hok : ∀ v ∈ p.singleValueVars, vars v = none → OneValue (firstOf v statements)) :
    ∃ vars', statements.foldlM p.assignSingleVar vars = .ok vars' ∧
      ∀ v ∈ p.singleValueVars, vars' v = (vars v).or ((firstOf v statements).bind List.head?) := by
  induction statements generalizing vars with
  | nil => exact ⟨vars, rfl, by simp [firstOf]⟩
  | cons statement statements ih =>
      cases statement with
      | inherit node => exact ih hok
      | assign varName items =>
          have hfirst : ∀ v, v ≠ varName →
              firstOf v (.assign varName items :: statements) = firstOf v statements := by
            intro v hv
            simp [firstOf, Ne.symm hv]
          have hself : firstOf varName (.assign varName items :: statements) = some items := by
            simp [firstOf]
          by_cases hassign : varName ∈ p.singleValueVars ∧ vars varName = none
          · obtain ⟨value, rfl⟩ := hok varName hassign.1 hassign.2 items hself
            have hstep : p.assignSingleVar vars (.assign varName [value]) =
                .ok (Function.update vars varName (some value)) := by
              rw [Makefiles.assignSingleVar, if_pos hassign]
            have hrest : ∀ v ∈ p.singleValueVars,
                Function.update vars varName (some value) v = none →
                OneValue (firstOf v statements) := by
              intro v hv hnone
              have hne : v ≠ varName := by
                rintro rfl
                simp at hnone
              rw [Function.update_of_ne hne] at hnone
              rw [← hfirst v hne]
              exact hok v hv hnone
            obtain ⟨vars', hrun, hvars⟩ := ih hrest
            refine ⟨vars', ?_, ?_⟩
            · rw [List.foldlM_cons, hstep]
              exact hrun
            · intro v hv
              rw [hvars v hv]
              by_cases hne : v = varName
              · subst hne
                rw [Function.update_self, hself, hassign.2]
                rfl
              · rw [Function.update_of_ne hne, hfirst v hne]
          · have hstep : p.assignSingleVar vars (.assign varName items) = .ok vars :=
              if_neg hassign
            have hset : ∀ v ∈ p.singleValueVars, vars v = none → v ≠ varName := by
              rintro v hv hnone rfl
              exact hassign ⟨hv, hnone⟩
            have hrest : ∀ v ∈ p.singleValueVars, vars v = none →
                OneValue (firstOf v statements) := by
              intro v hv hnone
              rw [← hfirst v (hset v hv hnone)]
              exact hok v hv hnone
            obtain ⟨vars', hrun, hvars⟩ := ih hrest
            refine ⟨vars', ?_, ?_⟩
            · rw [List.foldlM_cons, hstep]
              exact hrun
            · intro v hv
              rw [hvars v hv]
              cases hnone : vars v with
              | some value => rfl
              | none => rw [hfirst v (hset v hv hnone)]

/-- The values that have been found and the files that have been seen, below a rank. -/
structure SingleInv (p : Makefiles) (rank : String → Nat) (bound : Nat)
    (s : (String → Option (List String)) × List String) : Prop where
  closed : ∀ m ∈ s.2, rank m < bound → ∀ c ∈ p.inheritedBy m, c ∈ s.2
  unassigned : ∀ v ∈ p.singleValueVars, s.1 v = none →
    ∀ m ∈ s.2, rank m < bound → p.firstAssign v m = none

/-- What `flattenSingleVars` adds for the files below `l`. -/
structure SingleStep (p : Makefiles) (k : Nat) (l : List String)
    (s s' : (String → Option (List String)) × List String) : Prop where
  vars : ∀ v ∈ p.singleValueVars,
    s'.1 v = (s.1 v).or ((l.findSome? (p.winner v k)).bind List.head?)
  seen : ∀ c, c ∈ s'.2 ↔ c ∈ s.2 ∨ ∃ d ∈ l, c ∈ postOrder p.inheritedBy k d

theorem SingleInv.step
    (hrank : Ranked p.inheritedBy rank) {bound : Nat} {l : List String}
    (hl : ∀ d ∈ l, rank d ≤ k) {s s' : (String → Option (List String)) × List String}
    (h : SingleInv p rank bound s) (hstep : SingleStep p k l s s')
    (hok : ∀ v ∈ p.singleValueVars, s.1 v = none → OneValue (l.findSome? (p.winner v k))) :
    SingleInv p rank bound s' := by
  constructor
  · intro m hm hlt c hc
    rw [hstep.seen] at hm ⊢
    rcases hm with hm | ⟨d, hd, hm⟩
    · exact Or.inl (h.closed m hm hlt c hc)
    · exact Or.inr ⟨d, hd, children_mem_postOrder hrank (hl d hd) hm hc⟩
  · intro v hv hnone m hm hlt
    rw [hstep.vars v hv, Option.or_eq_none_iff] at hnone
    rcases (hstep.seen m).mp hm with hm | ⟨d, hd, hm⟩
    · exact h.unassigned v hv hnone.1 m hm hlt
    · have hwin := (hok v hv hnone.1).eq_none hnone.2
      rw [List.findSome?_eq_none_iff] at hwin
      exact winner_eq_none.mp (hwin d hd) m hm

/-- Everything below a file that has been seen has been seen. -/
theorem SingleInv.below
    (hrank : Ranked p.inheritedBy rank) {bound : Nat}
    {s : (String → Option (List String)) × List String} (h : SingleInv p rank bound s)
    {c : String} (hc : c ∈ s.2) (hlt : rank c < bound) :
    ∀ m ∈ postOrder p.inheritedBy k c, m ∈ s.2 ∧ rank m < bound := by
  refine postOrder_subset ?_ ⟨hc, hlt⟩
  rintro m ⟨hm, hrm⟩ d hd
  exact ⟨h.closed m hm hrm d hd, (hrank m d hd).trans hrm⟩

theorem flattenSingleChild_spec
    (hrank : Ranked p.inheritedBy rank) {bound : Nat}
    {flattenSingleVars : (String → Option (List String)) × List String → String →
      Except FlattenError ((String → Option (List String)) × List String)} {c : String}
    (hc : rank c < bound)
    (hflatten : ∀ s : (String → Option (List String)) × List String, SingleInv p rank (rank c) s →
      (∀ v ∈ p.singleValueVars, s.1 v = none → OneValue (p.winner v k c)) →
      ∃ s', flattenSingleVars s c = .ok s' ∧
        (∀ v ∈ p.singleValueVars, s'.1 v = (s.1 v).or ((p.winner v k c).bind List.head?)) ∧
        Reaches p k c s.2 s'.2)
    {s : (String → Option (List String)) × List String} (h : SingleInv p rank bound s)
    (hok : ∀ v ∈ p.singleValueVars, s.1 v = none → OneValue (p.winner v k c)) :
    ∃ s', Makefiles.flattenSingleChild flattenSingleVars s c = .ok s' ∧
      SingleStep p k [c] s s' := by
  have hself : c ∈ postOrder p.inheritedBy k c := self_mem_postOrder k c
  by_cases hseen : c ∈ s.2
  · refine ⟨s, if_pos hseen, ?_, ?_⟩
    · intro v hv
      cases hnone : s.1 v with
      | some value => rfl
      | none =>
          have hwin : p.winner v k c = none := by
            refine winner_eq_none.mpr ?_
            intro m hm
            obtain ⟨hmem, hlt⟩ := h.below hrank hseen hc m hm
            exact h.unassigned v hv hnone m hmem hlt
          simp [hwin]
    · intro d
      simp only [List.mem_singleton, exists_eq_left]
      exact (or_iff_left_of_imp (fun hd => (h.below hrank hseen hc d hd).1)).symm
  · have hinv : SingleInv p rank (rank c) (s.1, c :: s.2) := by
      constructor
      · intro m hm hlt d hd
        rcases List.mem_cons.mp hm with rfl | hm
        · exact absurd hlt (lt_irrefl _)
        · exact List.mem_cons_of_mem _ (h.closed m hm (hlt.trans hc) d hd)
      · intro v hv hnone m hm hlt
        rcases List.mem_cons.mp hm with rfl | hm
        · exact absurd hlt (lt_irrefl _)
        · exact h.unassigned v hv hnone m hm (hlt.trans hc)
    obtain ⟨s', hrun, hvars, hreach⟩ := hflatten _ hinv hok
    refine ⟨s', (if_neg hseen).trans hrun, ?_, ?_⟩
    · intro v hv
      rw [hvars v hv, List.findSome?_singleton]
    · intro d
      rw [hreach, List.mem_cons]
      simp only [List.mem_singleton, exists_eq_left]
      constructor
      · rintro ((rfl | hd) | ⟨_, hd⟩)
        · exact Or.inr hself
        · exact Or.inl hd
        · exact Or.inr hd
      · rintro (hd | hd)
        · exact Or.inl (Or.inr hd)
        · by_cases hdc : d = c
          · exact Or.inl (Or.inl hdc)
          · exact Or.inr ⟨hdc, hd⟩

theorem SingleStep.append
    {l l' : List String} {s s' s'' : (String → Option (List String)) × List String}
    (h : SingleStep p k l s s') (h' : SingleStep p k l' s' s'')
    (hok : ∀ v ∈ p.singleValueVars, s.1 v = none → OneValue (l.findSome? (p.winner v k))) :
    SingleStep p k (l ++ l') s s'' := by
  constructor
  · intro v hv
    rw [h'.vars v hv, h.vars v hv, List.findSome?_append]
    cases hnone : s.1 v with
    | some value => rfl
    | none =>
        cases hfirst : l.findSome? (p.winner v k) with
        | none => rfl
        | some segments =>
            obtain ⟨w, rfl⟩ := hok v hv hnone segments hfirst
            rfl
  · intro c
    rw [h'.seen, h.seen]
    simp only [List.mem_append, or_and_right, exists_or]
    exact or_assoc

/-- `flattenSingleVars` takes the first assignment below a file. -/
theorem flattenSingleVars_spec
    (hrank : Ranked p.inheritedBy rank) (hk : rank n < k) {depth : Nat} (hdepth : rank n < depth)
    (horder : SameOrder p k n) {s : (String → Option (List String)) × List String}
    (hinv : SingleInv p rank (rank n) s)
    (hok : ∀ v ∈ p.singleValueVars, s.1 v = none → OneValue (p.winner v k n)) :
    ∃ s', p.flattenSingleVars depth s n = .ok s' ∧
      (∀ v ∈ p.singleValueVars, s'.1 v = (s.1 v).or ((p.winner v k n).bind List.head?)) ∧
      Reaches p k n s.2 s'.2 := by
  induction k generalizing n depth s with
  | zero => omega
  | succ k ih =>
      cases depth with
      | zero => omega
      | succ depth =>
          have hranks : ∀ c ∈ p.inheritedBy n, rank c < k ∧ rank c < rank n := by
            intro c hc
            have := hrank n c hc
            omega
          have hown : ∀ v ∈ p.singleValueVars, s.1 v = none → OneValue (p.firstAssign v n) :=
            fun v hv hnone => (hok v hv hnone).left
          obtain ⟨vars, hassign, hvars⟩ := assignSingleVars_spec hown
          have hrest : ∀ v ∈ p.singleValueVars, vars v = none →
              OneValue ((p.inheritedBy n).findSome? (p.winner v k)) := by
            intro v hv hnone
            rw [hvars v hv, Option.or_eq_none_iff] at hnone
            exact (hok v hv hnone.1).right ((hown v hv hnone.1).eq_none hnone.2)
          have hinv₁ : SingleInv p rank (rank n) (vars, s.2) := by
            refine ⟨hinv.closed, ?_⟩
            intro v hv hnone m hm hlt
            change vars v = none at hnone
            rw [hvars v hv, Option.or_eq_none_iff] at hnone
            exact hinv.unassigned v hv hnone.1 m hm hlt
          have hflatten : ∀ c ∈ p.inheritedBy n,
              ∀ s : (String → Option (List String)) × List String, SingleInv p rank (rank c) s →
              (∀ v ∈ p.singleValueVars, s.1 v = none → OneValue (p.winner v k c)) →
              ∃ s', p.flattenSingleVars depth s c = .ok s' ∧
                (∀ v ∈ p.singleValueVars, s'.1 v = (s.1 v).or ((p.winner v k c).bind List.head?)) ∧
                Reaches p k c s.2 s'.2 := by
            intro c hc s hs hs'
            have hlt := (hranks c hc).2
            exact ih (hranks c hc).1 (by omega) (horder.child hc) hs hs'
          obtain ⟨s', hloop, hstep⟩ := forLoop_total
            (Makefiles.flattenSingleChild (p.flattenSingleVars depth))
            (fun visited r => SingleStep p k visited (vars, s.2) r)
            (p.inheritedBy n) (vars, s.2) ⟨by simp, by simp⟩ (by
              intro visited c rest r hsplit hr
              have hc : c ∈ p.inheritedBy n := by simp [hsplit]
              have hvisited : ∀ d ∈ visited, rank d ≤ k := by
                intro d hd
                exact (hranks d (by simp [hsplit, hd])).1.le
              have hfirst : ∀ v ∈ p.singleValueVars, vars v = none →
                  OneValue (visited.findSome? (p.winner v k)) := by
                intro v hv hnone
                have htaken := hrest v hv hnone
                rw [hsplit, List.findSome?_append] at htaken
                exact htaken.left
              have hnext : ∀ v ∈ p.singleValueVars, r.1 v = none →
                  OneValue (p.winner v k c) := by
                intro v hv hnone
                rw [hr.vars v hv, Option.or_eq_none_iff] at hnone
                have htaken := hrest v hv hnone.1
                rw [hsplit, List.append_cons, List.findSome?_append, List.findSome?_append,
                  List.findSome?_singleton] at htaken
                exact htaken.left.right ((hfirst v hv hnone.1).eq_none hnone.2)
              obtain ⟨r', hrun, hr'⟩ := flattenSingleChild_spec hrank (hranks c hc).2
                (hflatten c hc) (hinv₁.step hrank hvisited hr hfirst) hnext
              exact ⟨r', hrun, hr.append hr' hfirst⟩)
          refine ⟨s', ?_, ?_, ?_⟩
          · rw [Makefiles.flattenSingleVars, bind_eq_ok]
            refine ⟨vars, hassign, ?_⟩
            rw [horder n (self_mem_postOrder _ n)]
            exact hloop
          · intro v hv
            rw [hstep.vars v hv]
            show (vars v).or _ = _
            rw [hvars v hv, Makefiles.winner]
            cases hnone : s.1 v with
            | some value => rfl
            | none =>
                cases hfirst : p.firstAssign v n with
                | none =>
                    rw [Makefiles.firstAssign] at hfirst
                    rw [hfirst]
                    rfl
                | some segments =>
                    obtain ⟨w, rfl⟩ := hown v hv hnone segments hfirst
                    rw [Makefiles.firstAssign] at hfirst
                    rw [hfirst]
                    rfl
          · exact reaches_of_children hrank hstep.seen

end Singles

section Flatten

/-- The files are inherited in the same order, and every value that Make hands
up goes to the file that the flattener gives it to. -/
structure FlattenOk (p : Makefiles) (k : Nat) (root : String) : Prop where
  order : SameOrder p k root
  lists : ∀ v ∈ p.listVars, p.TagsOk v k ([], fun _ => []) root
  singles : ∀ v ∈ p.singleValueVars, p.SingleOk v k root ∨ p.EmptyOk v k root

theorem importProduct_value
    (hrank : Ranked p.inheritedBy rank)
    (hfiles : ∀ n, ∀ c ∈ p.inheritedBy n, p.files c ≠ none) {root : String}
    (hroot : p.files root ≠ none) {depth : Nat} (hdepth : rank root < depth)
    (hk : rank root ≤ k) :
    ∃ values, p.importProduct depth root = .ok values ∧ ∀ v ∈ p.varList,
      values v = ((p.expandBelow v k ([], fun _ => []) root).2 root).map Item.word := by
  obtain ⟨values, hrun, hvalues⟩ := importProduct_spec hrank hfiles hroot hdepth hk
  refine ⟨values, hrun, ?_⟩
  intro v hv
  rw [hvalues v hv]
  have hone : ∀ (cur : String → String → List String) (n : String),
      p.expandAll cur n v = p.expandOne v (cur v) n := by
    intro cur n
    rfl
  have hmap := visitAll_map (s := ([], fun _ _ => [])) (fun cur => cur v) hone
    (postOrder p.inheritedBy k root)
  exact congrArg (fun cur => (cur root).map Item.word) hmap

/-- The flattener assigns the values of `node_fns.mk`. -/
theorem flatten_agrees
    (hrank : Ranked p.inheritedBy rank)
    (hfiles : ∀ n, ∀ c ∈ p.inheritedBy n, p.files c ≠ none)
    (htypes : ∀ v ∈ p.listVars, v ∉ p.singleValueVars) {root : String}
    (hroot : p.files root ≠ none) {depth : Nat} (hdepth : rank root < depth)
    (hok : FlattenOk p (rank root + 1) root) :
    ∃ flat values, p.flatten depth root = .ok flat ∧ p.importProduct depth root = .ok values ∧
      ∀ v ∈ p.varList, values v = (flat v).map Item.word := by
  have hclosed : Closed p ([] : List String) := by
    intro m hm
    cases hm
  have hk : rank root < rank root + 1 := Nat.lt_succ_self _
  obtain ⟨values, hmake, hvalues⟩ := importProduct_value hrank hfiles hroot hdepth hk.le
  have hsingles : ∀ v ∈ p.singleValueVars,
      (p.expandBelow v (rank root + 1) ([], fun _ => []) root).2 root =
          firstValue (p.winner v (rank root + 1) root) ∧
        OneValue (p.winner v (rank root + 1) root) := by
    intro v hv
    have hempty : Empty p v ([], fun _ => []) := by
      intro m hm
      cases hm
    rcases hok.singles v hv with hsingle | ⟨hwinner, hwords⟩
    · obtain ⟨hvalue, htaken⟩ := expandBelow_single hrank hk hv hclosed (by simp) hempty hsingle
      refine ⟨hvalue, fun segments hsegments => ?_⟩
      obtain ⟨w, hw, _⟩ := htaken segments hsegments
      exact ⟨w, hw⟩
    · rw [hwinner]
      refine ⟨expandBelow_empty hrank hk.le hv hwords, ?_⟩
      rintro _ ⟨rfl⟩
      exact ⟨[], rfl⟩
  have hinv : SingleInv p rank (rank root) (fun _ => none, []) := ⟨by simp, by simp⟩
  obtain ⟨s, hrun, hvars, _⟩ := flattenSingleVars_spec hrank hk hdepth hok.order hinv
    (fun v hv _ => (hsingles v hv).2)
  refine ⟨fun v => if v ∈ p.singleValueVars then (s.1 v).getD []
    else (p.flattenListVars depth root []).1 v, values, ?_, hmake, ?_⟩
  · unfold Makefiles.flatten
    rw [bind_eq_ok]
    exact ⟨s, hrun, rfl⟩
  · intro v hv
    rw [hvalues v hv]
    congr 1
    show _ = if v ∈ p.singleValueVars then (s.1 v).getD [] else (p.flattenListVars depth root []).1 v
    by_cases hsingle : v ∈ p.singleValueVars
    · rw [if_pos hsingle, hvars v hsingle, (hsingles v hsingle).1]
      rfl
    · have hlist : v ∈ p.listVars := (List.mem_append.mp hv).resolve_left hsingle
      have hsame : SameBelow rank (rank root) ([] : List String) [] := by
        intro c _
        rfl
      have hflat := flattenListVars_spec hrank hlist (htypes v hlist) hk hdepth hok.order hclosed
        (by simp) hsame (hok.lists v hlist)
      rw [if_neg hsingle]
      exact hflat.1.symm

/-- Two products that inherit a shared file: `b.mk` is expanded after `a.mk`. -/
def diamond : Makefiles where
  files := fun n => [
    ("root.mk", [.assign "L" [[], ["r"]], .assign "T" [[]], .inherit "b.mk", .inherit "a.mk"]),
    ("a.mk", [.inherit "x.mk", .assign "L" [[], ["a"]]]),
    ("b.mk", [.assign "L" [[], ["b"]], .inherit "x.mk"]),
    ("x.mk", [.assign "L" [[], ["x"]], .assign "S" [["one", "value"]]])].lookup n
  singleValueVars := ["S", "T"]
  listVars := ["L"]

/-- The root inherits `x.mk` itself, and so does `y.mk`, which is expanded before. -/
def sharedByRoot : Makefiles where
  files := fun n => [
    ("root.mk", [.inherit "x.mk", .assign "L" [[], ["r"]], .inherit "y.mk"]),
    ("x.mk", [.assign "L" [[], ["x"]]]),
    ("y.mk", [.inherit "x.mk"])].lookup n
  singleValueVars := []
  listVars := ["L"]

theorem inheritedBy_missing
    {n : String} (h : p.files n = none) :
    p.inheritedBy n = [] := by
  rw [List.eq_nil_iff_forall_not_mem]
  intro c hc
  obtain ⟨w, _, htag⟩ := mem_inheritedBy.mp hc
  rw [Makefiles.itemsOf, h] at htag
  cases htag

/-- What holds of the files that exist holds of all inherited files. -/
theorem forall_inheritedBy
    {names : List String} {P : String → String → Prop} (hnames : ∀ n ∉ names, p.files n = none)
    (h : ∀ n ∈ names, ∀ c ∈ p.inheritedBy n, P n c) :
    ∀ n, ∀ c ∈ p.inheritedBy n, P n c := by
  intro n c hc
  by_cases hn : n ∈ names
  · exact h n hn c hc
  · rw [inheritedBy_missing (hnames n hn)] at hc
    cases hc

theorem lookup_missing
    {table : List (String × List Statement)} :
    ∀ n ∉ table.map Prod.fst, table.lookup n = none := by
  intro n hn
  rw [List.lookup_eq_none_iff]
  intro e he
  rw [bne_iff_ne]
  rintro rfl
  exact hn (List.mem_map_of_mem he)

def exampleRank (n : String) : Nat :=
  if n = "root.mk" then 2 else if n = "x.mk" then 0 else 1

theorem ranked_diamond :
    Ranked diamond.inheritedBy exampleRank :=
  forall_inheritedBy lookup_missing (by decide +kernel)

theorem ranked_sharedByRoot :
    Ranked sharedByRoot.inheritedBy exampleRank :=
  forall_inheritedBy lookup_missing (by decide +kernel)

theorem flatten_agrees_diamond :
    (∃ flat values, diamond.flatten 3 "root.mk" = .ok flat ∧
      diamond.importProduct 3 "root.mk" = .ok values ∧
      ∀ v ∈ diamond.varList, values v = (flat v).map Item.word) ∧
    (diamond.flatten 3 "root.mk").map (fun flat => (flat "L", flat "S", flat "T")) =
      .ok (["r", "b", "x", "a"], ["one", "value"], []) := by
  have hok : FlattenOk diamond (exampleRank "root.mk" + 1) "root.mk" := by
    refine ⟨?_, ?_, ?_⟩ <;> decide +kernel
  refine ⟨flatten_agrees ranked_diamond (forall_inheritedBy lookup_missing ?_) ?_ ?_ ?_ hok, ?_⟩ <;>
    decide +kernel

/-- The shared file goes to `y.mk` in Make, and to the root in the flattener. -/
theorem flatten_differs :
    Ranked sharedByRoot.inheritedBy exampleRank ∧
    (sharedByRoot.flatten 3 "root.mk").map (fun flat => flat "L") = .ok ["x", "r"] ∧
    (sharedByRoot.importProduct 3 "root.mk").map (fun values => values "L") =
      .ok [.word "r", .word "x"] := by
  refine ⟨ranked_sharedByRoot, ?_, ?_⟩ <;> decide +kernel

end Flatten

end ProductConfig
end AndroidBuild
