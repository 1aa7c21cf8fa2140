import AndroidBuild.PostProcessProps.Readings
import Mathlib

/-!
# What becomes of each property

The program edits its list in place: an optional assignment gives way to the
assignments that are not optional, or to the last optional one, and becomes a
comment.  Each turn of the loop touches the assignments of one name, so what
becomes of a property is told by the assignments of its own name in the list
that the loop starts with.
-/

namespace AndroidBuild
namespace PostProcessProps

open Text BuildProp

section Deleting

variable {p : BuildProp} {reason : Str}

theorem isComment_makeAsComment :
    p.makeAsComment.isComment = true := by
  unfold makeAsComment
  split_ifs with hcomment
  · exact hcomment
  · simp [isComment]

theorem isComment_delete :
    (p.delete reason).isComment = true :=
  isComment_makeAsComment

theorem isOptional_eq_false_of_isComment
    (h : p.isComment = true) :
    p.isOptional = false := by
  simp [isOptional, h]

theorem isComment_eq_false_of_isOptional
    (h : p.isOptional = true) :
    p.isComment = false := by
  rw [isOptional, Bool.and_eq_true] at h
  simpa using h.1

end Deleting

section Groups

/-- The assignments of the name that are optional. -/
def optionals (name : Str) (props : List BuildProp) : List BuildProp :=
  (getProps name props).filter isOptional

/-- The assignments of the name that are not optional. -/
def requireds (name : Str) (props : List BuildProp) : List BuildProp :=
  (getProps name props).filter fun p => !p.isOptional

variable {name : Str} {props : List BuildProp} {p : BuildProp}

theorem mem_getProps :
    p ∈ getProps name props ↔ p ∈ props ∧ p.isComment = false ∧ p.name = name := by
  simp only [getProps, getAllProps, List.mem_filter, Bool.not_eq_true', beq_iff_eq, and_assoc]

theorem mem_optionals :
    p ∈ optionals name props ↔ p ∈ props ∧ p.isOptional = true ∧ p.name = name := by
  rw [optionals, List.mem_filter, mem_getProps]
  constructor
  · rintro ⟨⟨hmem, _, hname⟩, hoptional⟩
    exact ⟨hmem, hoptional, hname⟩
  · rintro ⟨hmem, hoptional, hname⟩
    exact ⟨⟨hmem, isComment_eq_false_of_isOptional hoptional, hname⟩, hoptional⟩

theorem mem_requireds :
    p ∈ requireds name props ↔
      p ∈ props ∧ p.isComment = false ∧ p.isOptional = false ∧ p.name = name := by
  rw [requireds, List.mem_filter, mem_getProps]
  simp only [Bool.not_eq_true']
  tauto

theorem mem_getAllNames :
    name ∈ getAllNames props ↔ ∃ p, p ∈ getProps name props := by
  simp only [getAllNames, getAllProps, List.mem_toFinset, List.mem_map, mem_getProps,
    List.mem_filter, Bool.not_eq_true']
  constructor
  · rintro ⟨p, ⟨hmem, hcomment⟩, hname⟩
    exact ⟨p, hmem, hcomment, hname⟩
  · rintro ⟨p, hmem, hcomment, hname⟩
    exact ⟨p, ⟨hmem, hcomment⟩, hname⟩

theorem getProps_cons
    (name : Str) (p : BuildProp) (props : List BuildProp) :
    getProps name (p :: props) =
      if p.isComment = false ∧ p.name = name then p :: getProps name props
      else getProps name props := by
  rw [getProps, getProps, getAllProps, getAllProps, List.filter_cons]
  by_cases hcomment : p.isComment = true
  · simp [hcomment]
  · rw [Bool.not_eq_true] at hcomment
    simp [hcomment, List.filter_cons]

end Groups

section Settling

/-- What becomes of a property among the assignments of its name. -/
inductive Settled (group : List BuildProp) : BuildProp → BuildProp → Prop
  | comment {p} (hcomment : p.isComment = true) : Settled group p p
  | kept {p} (hcomment : p.isComment = false) (hoptional : p.isOptional = false) :
      Settled group p p
  | overridden {p first} (hoptional : p.isOptional = true)
      (hfirst : (group.filter fun p => !p.isOptional).head? = some first) :
      Settled group p (p.delete (overriddenBy first))
  | superseded {p last} (hoptional : p.isOptional = true)
      (hnone : (group.filter fun p => !p.isOptional) = [])
      (hlast : (group.filter isOptional).getLast? = some last) :
      Settled group p (p.delete (overriddenBy last))
  | last {p} (hoptional : p.isOptional = true)
      (hnone : (group.filter fun p => !p.isOptional) = [])
      (hlast : (group.filter isOptional).getLast? = some p) :
      Settled group p { p with optional := false }

variable {group : List BuildProp} {p q : BuildProp}

theorem Settled.eq_of_isComment
    (h : Settled group p q) (hcomment : p.isComment = true) :
    q = p := by
  have hnot := isOptional_eq_false_of_isComment hcomment
  cases h with
  | comment => rfl
  | kept => rfl
  | overridden hoptional _ => rw [hnot] at hoptional; cases hoptional
  | superseded hoptional _ _ => rw [hnot] at hoptional; cases hoptional
  | last hoptional _ _ => rw [hnot] at hoptional; cases hoptional

theorem Settled.eq_of_required
    (h : Settled group p q) (hoptional : p.isOptional = false) :
    q = p := by
  cases h with
  | comment => rfl
  | kept => rfl
  | overridden h _ => rw [hoptional] at h; cases h
  | superseded h _ _ => rw [hoptional] at h; cases h
  | last h _ _ => rw [hoptional] at h; cases h

/-- A settled property is a comment, or an assignment of the same name. -/
theorem Settled.name_eq
    (h : Settled group p q) (hcomment : q.isComment = false) :
    p.isComment = false ∧ q.name = p.name := by
  cases h with
  | comment hp => rw [hp] at hcomment; cases hcomment
  | kept hp _ => exact ⟨hp, rfl⟩
  | overridden _ _ => rw [isComment_delete] at hcomment; cases hcomment
  | superseded _ _ _ => rw [isComment_delete] at hcomment; cases hcomment
  | last hoptional _ _ => exact ⟨isComment_eq_false_of_isOptional hoptional, rfl⟩

end Settling

section Turn

variable {name : Str} {props : List BuildProp}

/-- What one turn of the loop does to a property. -/
def Turned (name : Str) (group : List BuildProp) (p q : BuildProp) : Prop :=
  if p.name = name then Settled group p q else q = p

theorem turned_deleteWhere
    {first : BuildProp} (hfirst : (requireds name props).head? = some first) (l : List BuildProp) :
    List.Forall₂ (Turned name (getProps name props)) l
      (deleteWhere (fun p => p.isOptional && p.name == name) (overriddenBy first) l) := by
  rw [deleteWhere, List.forall₂_map_right_iff, List.forall₂_same]
  intro p _
  unfold Turned
  by_cases hname : p.name = name
  · rw [if_pos hname]
    by_cases hoptional : p.isOptional = true
    · rw [if_pos (by simp [hoptional, hname])]
      exact .overridden hoptional hfirst
    · rw [Bool.not_eq_true] at hoptional
      rw [if_neg (by simp [hoptional])]
      by_cases hcomment : p.isComment = true
      · exact .comment hcomment
      · exact .kept (by simpa using hcomment) hoptional
  · rw [if_neg hname, if_neg (by simp [hname])]

theorem optionals_cons
    (name : Str) (p : BuildProp) (props : List BuildProp) :
    optionals name (p :: props) =
      if p.isOptional = true ∧ p.name = name then p :: optionals name props
      else optionals name props := by
  rw [optionals, getProps_cons]
  by_cases h : p.isOptional = true ∧ p.name = name
  · rw [if_pos h, if_pos ⟨isComment_eq_false_of_isOptional h.1, h.2⟩,
      List.filter_cons_of_pos (by simp [h.1])]
    rfl
  · rw [if_neg h]
    split_ifs with hgroup
    · rw [List.filter_cons_of_neg (fun hoptional => h ⟨hoptional, hgroup.2⟩)]
      rfl
    · rfl

/-- The induction goes along the list; the last optional assignment of what is left stays the
last one of the whole list. -/
theorem turned_keepLastOptional
    {last : BuildProp} (hnone : requireds name props = [])
    (hlast : (optionals name props).getLast? = some last)
    {l : List BuildProp} (hsub : ∀ p ∈ l, p ∈ props)
    (hrest : optionals name l = [] ∨ (optionals name l).getLast? = some last) :
    List.Forall₂ (Turned name (getProps name props)) l
      (keepLastOptional name (overriddenBy last) l) := by
  induction l with
  | nil => exact .nil
  | cons p l ih =>
      have hsub' := List.forall_mem_cons.mp hsub
      rw [optionals_cons] at hrest
      rw [keepLastOptional]
      by_cases h : p.isOptional = true ∧ p.name = name
      · rw [if_pos h] at hrest
        have hlast' := hrest.resolve_left (List.cons_ne_nil _ _)
        rw [if_pos (by simp [h])]
        cases hrest' : optionals name l with
        | nil =>
            rw [hrest', List.getLast?_singleton, Option.some.injEq] at hlast'
            subst hlast'
            rw [if_neg (by simpa [optionals] using hrest')]
            refine .cons ?_ ?_
            · rw [Turned, if_pos h.2]
              exact .last h.1 hnone hlast
            · rw [List.forall₂_same]
              intro q hq
              rw [Turned]
              split_ifs with hname
              · by_cases hcomment : q.isComment = true
                · exact .comment hcomment
                · rw [Bool.not_eq_true] at hcomment
                  refine .kept hcomment ?_
                  by_contra hoptional
                  rw [Bool.not_eq_false] at hoptional
                  have hmem := mem_optionals.mpr ⟨hq, hoptional, hname⟩
                  rw [hrest'] at hmem
                  cases hmem
              · rfl
        | cons q qs =>
            rw [if_pos (by
              have hmem : q ∈ optionals name l := hrest' ▸ List.mem_cons_self
              rw [optionals, List.mem_filter] at hmem
              exact List.any_eq_true.mpr ⟨q, hmem⟩)]
            refine .cons ?_ (ih hsub'.2 (Or.inr ?_))
            · rw [Turned, if_pos h.2]
              exact .superseded h.1 hnone hlast
            · rw [hrest', List.getLast?_cons_cons] at hlast'
              rw [hrest', hlast']
      · rw [if_neg h] at hrest
        rw [if_neg (by simpa using h)]
        refine .cons ?_ (ih hsub'.2 hrest)
        rw [Turned]
        split_ifs with hname
        · by_cases hcomment : p.isComment = true
          · exact .comment hcomment
          · rw [Bool.not_eq_true] at hcomment
            refine .kept hcomment ?_
            rw [← Bool.not_eq_true]
            exact fun hoptional => h ⟨hoptional, hname⟩
        · rfl

theorem mem_keepLastOptional
    {last : BuildProp} (reason : Str) {l : List BuildProp}
    (hlast : (optionals name l).getLast? = some last) :
    { last with optional := false } ∈ keepLastOptional name reason l := by
  induction l with
  | nil => simp [optionals, getProps, getAllProps] at hlast
  | cons p l ih =>
      rw [optionals_cons] at hlast
      rw [keepLastOptional]
      by_cases h : p.isOptional = true ∧ p.name = name
      · rw [if_pos h] at hlast
        rw [if_pos (by simp [h])]
        cases hrest : optionals name l with
        | nil =>
            rw [hrest, List.getLast?_singleton, Option.some.injEq] at hlast
            subst hlast
            rw [if_neg (by simpa [optionals] using hrest)]
            exact List.mem_cons_self
        | cons q qs =>
            rw [if_pos (by
              have hmem : q ∈ optionals name l := hrest ▸ List.mem_cons_self
              rw [optionals, List.mem_filter] at hmem
              exact List.any_eq_true.mpr ⟨q, hmem⟩)]
            rw [hrest, List.getLast?_cons_cons, ← hrest] at hlast
            exact List.mem_cons_of_mem _ (ih hlast)
      · rw [if_neg h] at hlast
        rw [if_neg (by simpa using h)]
        exact List.mem_cons_of_mem _ (ih hlast)

/-- The values that are not optional agree. -/
def Agrees (group : List BuildProp) : Prop :=
  ∀ p ∈ group.filter fun p => !p.isOptional, ∀ q ∈ group.filter fun p => !p.isOptional,
    p.value = q.value

/-- One turn without an error. -/
theorem overrideName_spec
    (herror : (overrideName false name props).2 = none) :
    List.Forall₂ (Turned name (getProps name props)) props (overrideName false name props).1 ∧
      Agrees (getProps name props) ∧
      ∀ last, requireds name props = [] → (optionals name props).getLast? = some last →
        { last with optional := false } ∈ (overrideName false name props).1 := by
  unfold overrideName at herror ⊢
  have hsplit : (getProps name props).filter (fun p => !p.isOptional) = requireds name props := rfl
  have hoptionals : (getProps name props).filter isOptional = optionals name props := rfl
  simp only [hsplit, hoptionals] at herror ⊢
  unfold Agrees
  rw [hsplit]
  split at herror
  · next first second others hrequireds =>
    rw [hrequireds]
    split_ifs at herror ⊢ with hsame hdup
    · refine ⟨turned_deleteWhere (by rw [hrequireds]; rfl) props, ?_, by simp⟩
      have hfirst : ∀ p ∈ first :: second :: others, first.value = p.value := by
        intro p hp
        rcases List.mem_cons.mp hp with rfl | hp
        · rfl
        · simpa using List.all_eq_true.mp hsame p hp
      intro p hp q hq
      rw [← hfirst p hp, hfirst q hq]
    · simp at hdup
  · next first hrequireds =>
    rw [hrequireds]
    refine ⟨turned_deleteWhere (by rw [hrequireds]; rfl) props, ?_, by simp⟩
    intro p hp q hq
    rw [List.mem_singleton.mp hp, List.mem_singleton.mp hq]
  · next hrequireds =>
    rw [hrequireds]
    cases hlast : (optionals name props).getLast? with
    | some last =>
        refine ⟨?_, by simp, ?_⟩
        · exact turned_keepLastOptional hrequireds hlast (fun _ hp => hp) (Or.inr hlast)
        · rintro _ - h
          cases h
          exact mem_keepLastOptional _ hlast
    | none =>
        refine ⟨?_, by simp, by simp⟩
        rw [List.forall₂_same]
        intro p hp
        rw [Turned]
        split_ifs with hname
        · by_cases hcomment : p.isComment = true
          · exact .comment hcomment
          · rw [Bool.not_eq_true] at hcomment
            refine .kept hcomment ?_
            by_contra hoptional
            rw [Bool.not_eq_false] at hoptional
            have hmem := mem_optionals.mpr ⟨hp, hoptional, hname⟩
            rw [List.getLast?_eq_none_iff.mp hlast] at hmem
            cases hmem
        · rfl

/-- A turn leaves the assignments of the other names. -/
theorem getProps_turned
    {group l m : List BuildProp} {other : Str} (hother : other ≠ name)
    (h : List.Forall₂ (Turned name group) l m) :
    getProps other m = getProps other l := by
  induction h with
  | nil => rfl
  | @cons p q l m hpq _ ih =>
      rw [getProps_cons, getProps_cons, ih]
      rw [Turned] at hpq
      by_cases hname : p.name = name
      · rw [if_pos hname] at hpq
        rw [if_neg (fun hgroup : _ ∧ p.name = other => hother (hgroup.2 ▸ hname)), if_neg]
        rintro ⟨hcomment, hq⟩
        have hpName := (hpq.name_eq hcomment).2
        exact hother (by rw [← hq, hpName, hname])
      · rw [if_neg hname] at hpq
        rw [hpq]

end Turn

section Loop

/-- What the loop over the names makes of a list. -/
structure Overridden (names : List Str) (props result : List BuildProp) : Prop where
  settled : List.Forall₂
    (fun p q => if p.name ∈ names then Settled (getProps p.name props) p q else q = p) props result
  agrees : ∀ name ∈ names, Agrees (getProps name props)
  last : ∀ name ∈ names, ∀ last, requireds name props = [] →
    (optionals name props).getLast? = some last → { last with optional := false } ∈ result

theorem exists_mem_right
    {α β : Type*} {R : α → β → Prop} {l : List α} {m : List β} (h : List.Forall₂ R l m)
    {a : α} (ha : a ∈ l) :
    ∃ b ∈ m, R a b := by
  induction h with
  | nil => cases ha
  | cons hab _ ih =>
      rcases List.mem_cons.mp ha with rfl | ha
      · exact ⟨_, List.mem_cons_self, hab⟩
      · obtain ⟨b, hb, hR⟩ := ih ha
        exact ⟨b, List.mem_cons_of_mem _ hb, hR⟩

theorem exists_mem_left
    {α β : Type*} {R : α → β → Prop} {l : List α} {m : List β} (h : List.Forall₂ R l m)
    {b : β} (hb : b ∈ m) :
    ∃ a ∈ l, R a b :=
  exists_mem_right h.flip hb

theorem Forall₂.compose
    {α β γ : Type*} {R : α → β → Prop} {S : β → γ → Prop} {T : α → γ → Prop}
    (hT : ∀ a b c, R a b → S b c → T a c) {l : List α} {m : List β} {n : List γ}
    (h : List.Forall₂ R l m) (h' : List.Forall₂ S m n) :
    List.Forall₂ T l n := by
  induction h generalizing n with
  | nil =>
      cases h'
      exact .nil
  | cons hab _ ih =>
      cases h' with
      | cons hbc h' => exact .cons (hT _ _ _ hab hbc) (ih h')

theorem overrideOptionalProps_spec
    {names : List Str} (hnodup : names.Nodup) {props : List BuildProp}
    (herrors : (overrideOptionalProps false names props).2 = []) :
    Overridden names props (overrideOptionalProps false names props).1 := by
  induction names generalizing props with
  | nil =>
      refine ⟨?_, by simp, by simp⟩
      simp only [List.not_mem_nil, if_false]
      exact List.forall₂_same.mpr fun _ _ => rfl
  | cons name names ih =>
      obtain ⟨hname, hnodup⟩ := List.nodup_cons.mp hnodup
      simp only [overrideOptionalProps] at herrors ⊢
      rw [List.append_eq_nil_iff, Option.toList_eq_nil_iff] at herrors
      obtain ⟨hturn, hagrees, hlast⟩ := overrideName_spec herrors.1
      have hrest := ih hnodup herrors.2
      generalize (overrideName false name props).1 = turn at hturn hlast hrest
      have hframe : ∀ other ∈ names, getProps other turn = getProps other props :=
        fun other hother => getProps_turned (fun heq : other = name => hname (heq ▸ hother)) hturn
      refine ⟨?_, ?_, ?_⟩
      · refine Forall₂.compose ?_ hturn hrest.settled
        intro p q r hpq hqr
        rw [Turned] at hpq
        by_cases hp : p.name = name
        · rw [if_pos hp] at hpq
          rw [if_pos (hp ▸ List.mem_cons_self)]
          have hstays : r = q := by
            split_ifs at hqr with hq
            · by_cases hcomment : q.isComment = true
              · exact hqr.eq_of_isComment hcomment
              · rw [Bool.not_eq_true] at hcomment
                rw [(hpq.name_eq hcomment).2, hp] at hq
                exact absurd hq hname
            · exact hqr
          rw [hstays, hp]
          exact hpq
        · rw [if_neg hp] at hpq
          subst hpq
          split_ifs at hqr with hq
          · rw [if_pos (List.mem_cons_of_mem _ hq), ← hframe _ hq]
            exact hqr
          · rw [if_neg (by simp [hp, hq])]
            exact hqr
      · intro other hother
        rcases List.mem_cons.mp hother with rfl | hother
        · exact hagrees
        · rw [← hframe _ hother]
          exact hrest.agrees _ hother
      · intro other hother last hnone hlast'
        rcases List.mem_cons.mp hother with rfl | hother
        · obtain ⟨r, hr, hqr⟩ := exists_mem_right hrest.settled (hlast last hnone hlast')
          have hmem := List.mem_of_getLast? hlast'
          rw [if_neg (by rw [(mem_optionals.mp hmem).2.2]; exact hname)] at hqr
          rwa [hqr] at hr
        · rw [requireds, ← hframe _ hother] at hnone
          rw [optionals, ← hframe _ hother] at hlast'
          exact hrest.last _ hother last hnone hlast'

end Loop

section Disallowed

/-- What becomes of a property when the disallowed names are dropped. -/
def dropKey (keys : List Str) (p : BuildProp) : BuildProp :=
  if p.isComment = false ∧ p.name ∈ keys then
    p.delete (p.name ++ " is a disallowed key".toList)
  else p

theorem dropDisallowed_eq
    (keys : List Str) (props : List BuildProp) :
    dropDisallowed keys props = props.map (dropKey keys) := by
  induction keys generalizing props with
  | nil =>
      rw [dropDisallowed]
      exact (List.map_id'' (fun p => by simp [dropKey]) props).symm
  | cons key keys ih =>
      rw [dropDisallowed, ih, deleteWhere, List.map_map]
      refine List.map_congr_left fun p _ => ?_
      rw [Function.comp_apply, dropKey, dropKey]
      have hselected : ((!p.isComment && p.name == key) = true) ↔
          p.isComment = false ∧ p.name = key := by
        rw [Bool.and_eq_true, Bool.not_eq_true', beq_iff_eq]
      by_cases hkey : p.isComment = false ∧ p.name = key
      · rw [if_pos (hselected.mpr hkey),
          if_neg (fun h => by rw [isComment_delete] at h; cases h.1),
          if_pos ⟨hkey.1, hkey.2 ▸ List.mem_cons_self⟩, hkey.2]
      · rw [if_neg (mt hselected.mp hkey)]
        refine if_congr ?_ rfl rfl
        rw [List.mem_cons]
        tauto

end Disallowed

end PostProcessProps
end AndroidBuild
