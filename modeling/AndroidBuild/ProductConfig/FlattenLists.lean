import AndroidBuild.ProductConfig.FlattenConfig

/-!
# The lists of the flattener

The flattener and `node_fns.mk` walk the files in the same order and
reach every file from the same parent.  The flattener gives the list of a file
to that parent; Make gives it to the first parent that is expanded.  The two
agree as long as a tag that is expanded in another file finds nothing to take.
-/

namespace AndroidBuild
namespace ProductConfig

open Loop PostOrder

variable {p : Makefiles} {rank : String → Nat} {v : String}

/-- The files that have been expanded, and the values of one variable. -/
abbrev Expanded := List String × (String → List String)

section Condition

variable (p) (v)

/-- The expansion of one variable, for the makefiles of `p`. -/
def Makefiles.expandOne (cur : String → List String) (n : String) : String → List String :=
  expandNode (decide (v ∈ p.singleValueVars)) (p.itemsOf v) cur n

def Makefiles.expandBelow (k : Nat) (s : Expanded) (n : String) : Expanded :=
  visitAll (p.expandOne v) s (postOrder p.inheritedBy k n)

/-- The files of `l` that are first reached from the file that inherits them. -/
def Makefiles.freshIn (k : Nat) : Expanded → List String → List String
  | _, [] => []
  | s, c :: l =>
      (if c ∈ s.1 then [] else [c]) ++ freshIn k (p.expandBelow v k s c) l

/-- A condition on the files of `l`, each in the state in which it is reached. -/
def Makefiles.AllFresh (k : Nat) (P : Expanded → String → Prop) : Expanded → List String → Prop
  | _, [] => True
  | s, c :: l => (c ∉ s.1 → P s c) ∧ AllFresh k P (p.expandBelow v k s c) l

/-- The expansion of a tag: in the file that reached `c` first it occurs once,
in another file there is nothing to take. -/
def Makefiles.TagOk (fresh : List String) (cur : String → List String) (n c : String) : Prop :=
  cur c = [] ∨ c ∈ fresh ∧ (p.itemsOf v n).count (.inherit c) = 1

/-- Every tag that is expanded below a file meets `TagOk`. -/
def Makefiles.TagsOk : Nat → Expanded → String → Prop
  | 0, _, _ => True
  | k + 1, s, n =>
      p.AllFresh v k (TagsOk k) s (p.inheritedBy n) ∧
        ∀ c ∈ tagsOf (p.itemsOf v n),
          p.TagOk v (p.freshIn v k s (p.inheritedBy n))
            ((p.inheritedBy n).foldl (p.expandBelow v k) s).2 n c

instance decidableAllFresh (k : Nat) (P : Expanded → String → Prop)
    [hP : ∀ s c, Decidable (P s c)] : ∀ s l, Decidable (p.AllFresh v k P s l)
  | _, [] => inferInstanceAs (Decidable True)
  | s, c :: l =>
      have : Decidable (p.AllFresh v k P (p.expandBelow v k s c) l) :=
        decidableAllFresh k P (p.expandBelow v k s c) l
      have := hP s c
      inferInstanceAs (Decidable ((c ∉ s.1 → P s c) ∧ p.AllFresh v k P (p.expandBelow v k s c) l))

instance decidableTagsOk : ∀ k s n, Decidable (p.TagsOk v k s n)
  | 0, _, _ => inferInstanceAs (Decidable True)
  | k + 1, s, n =>
      have := decidableTagsOk k
      inferInstanceAs (Decidable (p.AllFresh v k (p.TagsOk v k) s (p.inheritedBy n) ∧
        ∀ c ∈ tagsOf (p.itemsOf v n),
          ((p.inheritedBy n).foldl (p.expandBelow v k) s).2 c = [] ∨
            c ∈ p.freshIn v k s (p.inheritedBy n) ∧ (p.itemsOf v n).count (.inherit c) = 1))

end Condition

section Statements

def replaceAll (f : String → List String) (items : List Item) : List String :=
  items.flatMap (fun it => match it with
    | .word text => [text]
    | .inherit c => f c)

theorem replaceAll_append
    (f : String → List String) (items items' : List Item) :
    replaceAll f (items ++ items') = replaceAll f items ++ replaceAll f items' :=
  List.flatMap_append

theorem replaceAll_words
    (f : String → List String) (ws : List String) :
    replaceAll f (ws.map Item.word) = ws := by
  unfold replaceAll
  rw [List.flatMap_map]
  exact List.flatMap_singleton' ws

theorem replaceAll_intercalate
    (f : String → List String) (items : List Item) (segments : List (List String)) :
    replaceAll f (items.intercalate (segments.map (List.map Item.word))) =
      (replaceAll f items).intercalate segments := by
  induction segments with
  | nil => rfl
  | cons s segments ih =>
      cases segments with
      | nil => simp [List.intercalate, replaceAll_words]
      | cons s' segments =>
          simp only [List.map_cons, List.intercalate, List.intersperse_cons_cons,
            List.flatten_cons] at ih ⊢
          rw [replaceAll_append, replaceAll_append, ih, replaceAll_words]

/-- What an `inherit` statement appends. -/
def childValue (children : List (String × (String → List String))) (v c : String) : List String :=
  ((children.lookup c).map (fun child => child v)).getD []

/-- The second loop of `flattenListVars` replaces every tag that Make appends. -/
theorem flattenStatements_eq
    (hlist : v ∈ p.listVars) (children : List (String × (String → List String)))
    (statements : List Statement) :
    statements.foldl (p.flattenStatement children) (fun _ => []) v =
      replaceAll (childValue children v) (p.readFile statements v) := by
  have hvar : v ∈ p.varList := List.mem_append_right _ hlist
  have hloop : ∀ (statements : List Statement) (result : String → List String)
      (env : String → List Item), result v = replaceAll (childValue children v) (env v) →
      statements.foldl (p.flattenStatement children) result v =
        replaceAll (childValue children v) (statements.foldl p.runStatement env v) := by
    intro statements
    induction statements with
    | nil =>
        intro result env h
        exact h
    | cons statement statements ih =>
        intro result env h
        rw [List.foldl_cons, List.foldl_cons]
        refine ih _ _ ?_
        cases statement with
        | assign varName items =>
            simp only [Makefiles.flattenStatement, Makefiles.runStatement]
            by_cases hname : v = varName
            · subst hname
              rw [if_pos hlist, Makefiles.assignToListVar, Function.update_self,
                Function.update_self, replaceAll_intercalate, h]
            · rw [Function.update_of_ne hname]
              split_ifs
              · rw [Makefiles.assignToListVar, Function.update_of_ne hname, h]
              · exact h
        | inherit node =>
            simp only [Makefiles.flattenStatement, Makefiles.runStatement, if_pos hvar,
              replaceAll_append, ← h]
            cases hchild : children.lookup node with
            | none => simp [replaceAll, childValue, hchild]
            | some child => simp [replaceAll, childValue, hchild, Makefiles.appendToListVars]
  exact hloop statements _ _ rfl

/-- Replacing every tag is replacing the first one, if a tag with a value occurs once. -/
theorem substitute_eq_replaceAll
    {cur f : String → List String} {items : List Item} {seen : List String}
    (h : ∀ c ∈ tagsOf items, f c = cur c ∧ (cur c = [] ∨ items.count (.inherit c) = 1))
    (hseen : ∀ c ∈ seen, c ∈ tagsOf items → cur c = []) :
    substitute cur seen items = replaceAll f items := by
  induction items generalizing seen with
  | nil => rfl
  | cons it items ih =>
      cases it with
      | word text =>
          have h' : ∀ c ∈ tagsOf items, f c = cur c ∧
              (cur c = [] ∨ items.count (.inherit c) = 1) := by
            intro c hc
            simpa [List.count_cons] using h c (by simpa [tagsOf] using hc)
          rw [substitute, ih h' (fun c hc hmem => hseen c hc (by simpa [tagsOf] using hmem))]
          rfl
      | inherit d =>
          have hd := h d (by simp [tagsOf])
          have hmem : ∀ c ∈ tagsOf items, c ∈ tagsOf (.inherit d :: items) := by
            intro c hc
            simpa [tagsOf] using Or.inr hc
          have hagain : d ∈ tagsOf items → cur d = [] := by
            intro hdup
            refine hd.2.resolve_right ?_
            have hpos := List.count_pos_iff.mpr (mem_tagsOf.mp hdup)
            rw [List.count_cons_self]
            omega
          have h' : ∀ c ∈ tagsOf items, f c = cur c ∧
              (cur c = [] ∨ items.count (.inherit c) = 1) := by
            intro c hc
            by_cases hcd : c = d
            · subst hcd
              exact ⟨hd.1, Or.inl (hagain hc)⟩
            · have hc' := h c (hmem c hc)
              rwa [List.count_cons_of_ne (by simpa using Ne.symm hcd)] at hc'
          have hcons : replaceAll f (.inherit d :: items) = f d ++ replaceAll f items := rfl
          rw [substitute, hcons, hd.1]
          split_ifs with hds
          · rw [hseen d hds (by simp [tagsOf]), List.nil_append]
            exact ih h' (fun c hc hm => hseen c hc (hmem c hm))
          · rw [ih h']
            intro c hc hm
            rcases List.mem_cons.mp hc with rfl | hc'
            · exact hagain hm
            · exact hseen c hc' (hmem c hm)

end Statements

section Below

/-- What has been expanded is closed under inheritance. -/
def Closed (p : Makefiles) (done : List String) : Prop :=
  ∀ m ∈ done, ∀ c ∈ p.inheritedBy m, c ∈ done

variable {k : Nat} {s : Expanded} {n : String}

theorem mem_expandBelow
    {m : String} :
    m ∈ (p.expandBelow v k s n).1 ↔ m ∈ postOrder p.inheritedBy k n ∨ m ∈ s.1 :=
  mem_visitAll

theorem expandBelow_of_mem
    (hclosed : Closed p s.1) (hn : n ∈ s.1) :
    p.expandBelow v k s n = s :=
  visitAll_of_subset (postOrder_subset hclosed hn)

theorem Closed.expandBelow
    (hrank : Ranked p.inheritedBy rank) (hk : rank n ≤ k) (hclosed : Closed p s.1) :
    Closed p (p.expandBelow v k s n).1 := by
  intro m hm c hc
  rw [mem_expandBelow] at hm ⊢
  rcases hm with hm | hm
  · exact Or.inl (children_mem_postOrder hrank hk hm hc)
  · exact Or.inr (hclosed m hm c hc)

theorem foldl_expandBelow
    (l : List String) :
    l.foldl (p.expandBelow v k) s =
      visitAll (p.expandOne v) s (l.flatMap (postOrder p.inheritedBy k)) := by
  induction l generalizing s with
  | nil => rfl
  | cons c l ih =>
      rw [List.foldl_cons, ih, List.flatMap_cons, visitAll_append]
      rfl

theorem expandBelow_succ :
    p.expandBelow v (k + 1) s n =
      visit (p.expandOne v) ((p.inheritedBy n).foldl (p.expandBelow v k) s) n := by
  rw [Makefiles.expandBelow, postOrder, visitAll_append, foldl_expandBelow, visitAll_singleton]

theorem mem_foldl_expandBelow
    {l : List String} {m : String} :
    m ∈ (l.foldl (p.expandBelow v k) s).1 ↔
      (∃ c ∈ l, m ∈ postOrder p.inheritedBy k c) ∨ m ∈ s.1 := by
  induction l generalizing s with
  | nil => simp
  | cons c l ih =>
      rw [List.foldl_cons, ih, mem_expandBelow]
      simp only [List.mem_cons, exists_eq_or_imp]
      rw [or_assoc]
      exact or_left_comm

theorem not_mem_of_fresh
    {l : List String} {c : String} (hc : c ∈ p.freshIn v k s l) :
    c ∉ s.1 := by
  induction l generalizing s with
  | nil => cases hc
  | cons d l ih =>
      rw [Makefiles.freshIn, List.mem_append] at hc
      rcases hc with hc | hc
      · split_ifs at hc with hd
        · cases hc
        · rw [List.mem_singleton] at hc
          exact hc ▸ hd
      · intro hmem
        exact ih hc (mem_expandBelow.mpr (Or.inr hmem))

theorem not_mem_foldl
    (hrank : Ranked p.inheritedBy rank) (hn : n ∉ s.1) :
    n ∉ ((p.inheritedBy n).foldl (p.expandBelow v k) s).1 := by
  rw [mem_foldl_expandBelow, not_or]
  refine ⟨?_, hn⟩
  rintro ⟨c, hc, hmem⟩
  have hle := rank_le_of_mem_postOrder hrank hmem
  have hlt := hrank n c hc
  omega

/-- Values are kept over a list of files, if they are kept over each of them. -/
theorem foldl_kept
    (hrank : Ranked p.inheritedBy rank) {P : Expanded → String → Prop}
    (hkept : ∀ (s : Expanded) (c : String), rank c < k → Closed p s.1 → c ∉ s.1 → P s c →
      ∀ m ∈ s.1, (p.expandBelow v k s c).2 m = s.2 m)
    {l : List String} (hl : ∀ c ∈ l, rank c < k) (hclosed : Closed p s.1)
    (hok : p.AllFresh v k P s l) :
    ∀ m ∈ s.1, (l.foldl (p.expandBelow v k) s).2 m = s.2 m := by
  induction l generalizing s with
  | nil =>
      intro m _
      rfl
  | cons c l ih =>
      intro m hm
      rw [List.forall_mem_cons] at hl
      rw [List.foldl_cons, ih hl.2 (hclosed.expandBelow hrank hl.1.le) hok.2 m
        (mem_expandBelow.mpr (Or.inr hm))]
      by_cases hc : c ∈ s.1
      · rw [expandBelow_of_mem hclosed hc]
      · exact hkept s c hl.1 hclosed hc (hok.1 hc) m hm

/-- The values that are waiting for another file are kept. -/
theorem tagsOk_kept
    (hrank : Ranked p.inheritedBy rank) (hk : rank n < k) (hclosed : Closed p s.1)
    (hn : n ∉ s.1) (hok : p.TagsOk v k s n) :
    ∀ m ∈ s.1, (p.expandBelow v k s n).2 m = s.2 m := by
  induction k generalizing n s with
  | zero => omega
  | succ k ih =>
      have hchildren : ∀ c ∈ p.inheritedBy n, rank c < k := by
        intro c hc
        have := hrank n c hc
        omega
      intro m hm
      have hmn : m ≠ n := by
        rintro rfl
        exact hn hm
      have hkept := foldl_kept hrank (fun s c hc hs hcs hP => ih hc hs hcs hP) hchildren hclosed
        hok.1 m hm
      rw [expandBelow_succ, visit, if_neg (not_mem_foldl hrank hn)]
      simp only [Makefiles.expandOne, expandNode, if_neg hmn]
      split_ifs with htag
      · rcases hok.2 m htag with hnil | ⟨hfresh, _⟩
        · rw [← hkept, hnil]
        · exact absurd hm (not_mem_of_fresh hfresh)
      · exact hkept

end Below

section Lists

variable {k : Nat}

/-- The files that have been reached: those below `n` are added. -/
def Reaches (p : Makefiles) (k : Nat) (n : String) (seen seen' : List String) : Prop :=
  ∀ c, c ∈ seen' ↔ c ∈ seen ∨ c ≠ n ∧ c ∈ postOrder p.inheritedBy k n

theorem reaches_of_children
    (hrank : Ranked p.inheritedBy rank) {n : String} {seen seen' : List String}
    (h : ∀ c, c ∈ seen' ↔ c ∈ seen ∨ ∃ d ∈ p.inheritedBy n, c ∈ postOrder p.inheritedBy k d) :
    Reaches p (k + 1) n seen seen' := by
  intro c
  rw [h, postOrder, List.mem_append, List.mem_singleton, List.mem_flatMap]
  refine or_congr_right ?_
  constructor
  · rintro ⟨d, hd, hmem⟩
    refine ⟨?_, Or.inl ⟨d, hd, hmem⟩⟩
    rintro rfl
    have hle := rank_le_of_mem_postOrder hrank hmem
    have hlt := hrank c d hd
    omega
  · rintro ⟨hne, hmem | rfl⟩
    · exact hmem
    · exact absurd rfl hne

/-- What the flattener has seen below a rank is what Make has expanded. -/
def SameBelow (rank : String → Nat) (bound : Nat) (seen done : List String) : Prop :=
  ∀ c, rank c < bound → (c ∈ seen ↔ c ∈ done)

/-- A file has been reached and flattened. -/
theorem SameBelow.reach
    {bound : Nat} {seen seen' : List String} {s : Expanded} {c : String}
    (h : SameBelow rank bound seen s.1) (hreach : Reaches p k c (c :: seen) seen') :
    SameBelow rank bound seen' (p.expandBelow v k s c).1 := by
  intro d hd
  rw [hreach, mem_expandBelow, List.mem_cons, h d hd]
  have hself : c ∈ postOrder p.inheritedBy k c := self_mem_postOrder k c
  constructor
  · rintro ((rfl | hmem) | ⟨_, hmem⟩)
    · exact Or.inl hself
    · exact Or.inr hmem
    · exact Or.inl hmem
  · rintro (hmem | hmem)
    · by_cases hdc : d = c
      · exact Or.inl (Or.inl hdc)
      · exact Or.inr ⟨hdc, hmem⟩
    · exact Or.inl (Or.inr hmem)

/-- The flattener reaches the inherited files in the order in which Make imports them. -/
def SameOrder (p : Makefiles) (k : Nat) (n : String) : Prop :=
  ∀ m ∈ postOrder p.inheritedBy k n, p.inheritAlpha m = p.inheritedBy m

instance {n : String} : Decidable (SameOrder p k n) :=
  inferInstanceAs (Decidable (∀ m ∈ postOrder p.inheritedBy k n, p.inheritAlpha m = p.inheritedBy m))

theorem SameOrder.child
    {n c : String} (h : SameOrder p (k + 1) n) (hc : c ∈ p.inheritedBy n) :
    SameOrder p k c := by
  intro m hm
  refine h m ?_
  rw [postOrder, List.mem_append, List.mem_flatMap]
  exact Or.inl ⟨c, hc, hm⟩

/-- What flattening one file gives, when Make has expanded `s`. -/
def FlattensTo (p : Makefiles) (v : String) (k : Nat) (s : Expanded) (n : String)
    (seen : List String) (r : (String → List String) × List String) : Prop :=
  r.1 v = (p.expandBelow v k s n).2 n ∧ Reaches p k n seen r.2

/-- The files that have been flattened have the values of Make. -/
def ChildrenAgree (v : String) (s : Expanded) (children : List (String × (String → List String))) :
    Prop :=
  ∀ e ∈ children, e.1 ∈ s.1 ∧ e.2 v = s.2 e.1

/-- The first loop of `flattenListVars`. -/
theorem flattenChild_all
    (hrank : Ranked p.inheritedBy rank)
    {flattenListVars : String → List String → (String → List String) × List String} {bound : Nat}
    {l : List String} (hl : ∀ c ∈ l, rank c < k ∧ rank c < bound)
    (hflatten : ∀ c ∈ l, ∀ (s : Expanded) (seen : List String), Closed p s.1 → c ∉ s.1 →
      SameBelow rank (rank c) seen s.1 → p.TagsOk v k s c →
      FlattensTo p v k s c seen (flattenListVars c seen))
    {s : Expanded} (hclosed : Closed p s.1) {seen : List String}
    (hsame : SameBelow rank bound seen s.1) (hok : p.AllFresh v k (p.TagsOk v k) s l)
    {children : List (String × (String → List String))} (hchildren : ChildrenAgree v s children)
    {r : List (String × (String → List String)) × List String}
    (hr : l.foldl (Makefiles.flattenChild flattenListVars) (children, seen) = r) :
    ChildrenAgree v (l.foldl (p.expandBelow v k) s) r.1 ∧
      r.1.map Prod.fst = children.map Prod.fst ++ p.freshIn v k s l ∧
      ∀ c, c ∈ r.2 ↔ c ∈ seen ∨ ∃ d ∈ l, c ∈ postOrder p.inheritedBy k d := by
  induction l generalizing s seen children with
  | nil =>
      subst hr
      exact ⟨hchildren, by simp [Makefiles.freshIn], by simp⟩
  | cons d l ih =>
      rw [List.forall_mem_cons] at hl hflatten
      have hclosed' := hclosed.expandBelow (v := v) hrank hl.1.1.le
      have hbelow : ∀ c ∈ postOrder p.inheritedBy k d, rank c < bound :=
        fun c hc => (rank_le_of_mem_postOrder hrank hc).trans_lt hl.1.2
      rw [List.foldl_cons] at hr
      by_cases hd : d ∈ s.1
      · have hskip : Makefiles.flattenChild flattenListVars (children, seen) d =
            (children, seen) := if_pos ((hsame d hl.1.2).mpr hd)
        have hstay := expandBelow_of_mem (v := v) (k := k) hclosed hd
        rw [hskip] at hr
        have hok' := hok.2
        rw [hstay] at hok'
        obtain ⟨hagree, hnames, hseen⟩ := ih hl.2 hflatten.2 hclosed hsame hok' hchildren hr
        refine ⟨?_, ?_, ?_⟩
        · rwa [List.foldl_cons, hstay]
        · rw [hnames, Makefiles.freshIn, if_pos hd, List.nil_append, hstay]
        · intro c
          rw [hseen]
          simp only [List.mem_cons, exists_eq_or_imp]
          constructor
          · rintro (h | h)
            · exact Or.inl h
            · exact Or.inr (Or.inr h)
          · rintro (h | h | h)
            · exact Or.inl h
            · exact Or.inl ((hsame c (hbelow c h)).mpr (postOrder_subset hclosed hd c h))
            · exact Or.inr h
      · have hseen_d : d ∉ seen := fun h => hd ((hsame d hl.1.2).mp h)
        have hsame_d : SameBelow rank (rank d) (d :: seen) s.1 := by
          intro c hc
          rw [List.mem_cons, hsame c (hc.trans hl.1.2)]
          refine or_iff_right_of_imp ?_
          rintro rfl
          exact absurd hc (lt_irrefl _)
        obtain ⟨hvalue, hreach⟩ := hflatten.1 s (d :: seen) hclosed hd hsame_d (hok.1 hd)
        have hstep : Makefiles.flattenChild flattenListVars (children, seen) d =
            (children ++ [(d, (flattenListVars d (d :: seen)).1)],
              (flattenListVars d (d :: seen)).2) := if_neg hseen_d
        rw [hstep] at hr
        have hkept := tagsOk_kept hrank hl.1.1 hclosed hd (hok.1 hd)
        have hchildren' : ChildrenAgree v (p.expandBelow v k s d)
            (children ++ [(d, (flattenListVars d (d :: seen)).1)]) := by
          intro e he
          rcases List.mem_append.mp he with he | he
          · obtain ⟨hmem, hval⟩ := hchildren e he
            exact ⟨mem_expandBelow.mpr (Or.inr hmem), by rw [hval, hkept e.1 hmem]⟩
          · rw [List.mem_singleton] at he
            subst he
            exact ⟨mem_expandBelow.mpr (Or.inl (self_mem_postOrder k d)), hvalue⟩
        obtain ⟨hagree, hnames, hseen⟩ := ih hl.2 hflatten.2 hclosed' (hsame.reach hreach) hok.2
          hchildren' hr
        refine ⟨hagree, ?_, ?_⟩
        · rw [hnames, Makefiles.freshIn, if_neg hd]
          simp
        · intro c
          rw [hseen, hreach, List.mem_cons]
          simp only [List.mem_cons, exists_eq_or_imp]
          have hself : d ∈ postOrder p.inheritedBy k d := self_mem_postOrder k d
          constructor
          · rintro (((rfl | h) | ⟨_, h⟩) | h)
            · exact Or.inr (Or.inl hself)
            · exact Or.inl h
            · exact Or.inr (Or.inl h)
            · exact Or.inr (Or.inr h)
          · rintro (h | h | h)
            · exact Or.inl (Or.inl (Or.inr h))
            · by_cases hcd : c = d
              · exact Or.inl (Or.inl (Or.inl hcd))
              · exact Or.inl (Or.inr ⟨hcd, h⟩)
            · exact Or.inr h

theorem childValue_eq
    {children : List (String × (String → List String))} {s : Expanded}
    (h : ChildrenAgree v s children) (c : String) :
    childValue children v c = if c ∈ children.map Prod.fst then s.2 c else [] := by
  unfold childValue
  cases hlookup : children.lookup c with
  | none =>
      have hnot : c ∉ children.map Prod.fst := by
        intro hmem
        obtain ⟨e, he, rfl⟩ := List.mem_map.mp hmem
        rw [List.lookup_eq_none_iff] at hlookup
        simpa using hlookup e he
      rw [if_neg hnot]
      rfl
  | some child =>
      obtain ⟨l₁, l₂, hsplit, _⟩ := List.lookup_eq_some_iff.mp hlookup
      have hmem : (c, child) ∈ children := by simp [hsplit]
      rw [if_pos (List.mem_map.mpr ⟨_, hmem, rfl⟩)]
      exact (h _ hmem).2

/-- `flattenListVars` gives a file the value that Make expands it to. -/
theorem flattenListVars_spec
    (hrank : Ranked p.inheritedBy rank) (hlist : v ∈ p.listVars) (hsingle : v ∉ p.singleValueVars)
    {n : String} (hk : rank n < k) {depth : Nat} (hdepth : rank n < depth)
    (horder : SameOrder p k n) {s : Expanded} (hclosed : Closed p s.1) (hn : n ∉ s.1)
    {seen : List String} (hsame : SameBelow rank (rank n) seen s.1) (hok : p.TagsOk v k s n) :
    FlattensTo p v k s n seen (p.flattenListVars depth n seen) := by
  induction k generalizing n depth s seen with
  | zero => omega
  | succ k ih =>
      cases depth with
      | zero => omega
      | succ depth =>
          have hranks : ∀ c ∈ p.inheritedBy n, rank c < k ∧ rank c < rank n := by
            intro c hc
            have := hrank n c hc
            omega
          have hself : p.inheritAlpha n = p.inheritedBy n := horder n (self_mem_postOrder _ n)
          have hflatten : ∀ c ∈ p.inheritedBy n, ∀ (s : Expanded) (seen : List String),
              Closed p s.1 → c ∉ s.1 → SameBelow rank (rank c) seen s.1 → p.TagsOk v k s c →
              FlattensTo p v k s c seen (p.flattenListVars depth c seen) := by
            intro c hc s seen hs hcs hbelow hP
            have hlt := (hranks c hc).2
            exact ih (hranks c hc).1 (by omega) (horder.child hc) hs hcs hbelow hP
          have hnone : ChildrenAgree v s [] := by simp [ChildrenAgree]
          obtain ⟨r, hr⟩ : ∃ r, (p.inheritedBy n).foldl
              (Makefiles.flattenChild (p.flattenListVars depth)) ([], seen) = r := ⟨_, rfl⟩
          obtain ⟨hagree, hnames, hseen⟩ :=
            flattenChild_all hrank hranks hflatten hclosed hsame hok.1 hnone hr
          rw [List.map_nil, List.nil_append] at hnames
          have hrun : p.flattenListVars (depth + 1) n seen =
              ((p.statementsOf n).foldl (p.flattenStatement r.1) (fun _ => []), r.2) := by
            rw [Makefiles.flattenListVars, hself, hr]
          rw [hrun]
          constructor
          · have hitems : p.readFile (p.statementsOf n) v = p.itemsOf v n := rfl
            show (p.statementsOf n).foldl (p.flattenStatement r.1) (fun _ => []) v = _
            rw [flattenStatements_eq hlist, hitems, expandBelow_succ, visit,
              if_neg (not_mem_foldl hrank hn)]
            simp only [Makefiles.expandOne, expandNode, if_true, expandItems, hsingle,
              decide_false, Bool.false_eq_true, if_false]
            refine (substitute_eq_replaceAll ?_ (by simp)).symm
            intro c hc
            rw [childValue_eq hagree, hnames]
            rcases hok.2 c hc with hnil | ⟨hfresh, hcount⟩
            · refine ⟨?_, Or.inl hnil⟩
              split_ifs
              · rfl
              · exact hnil.symm
            · rw [if_pos hfresh]
              exact ⟨rfl, Or.inr hcount⟩
          · exact reaches_of_children hrank hseen

end Lists

end ProductConfig
end AndroidBuild
