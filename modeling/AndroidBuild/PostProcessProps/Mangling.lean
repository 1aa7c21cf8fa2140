import AndroidBuild.PostProcessProps.Written

/-!
# What is mangled

Two names may be rewritten before the loop: a value that is put becomes the
first assignment of its name that is not optional, below a comment, and all
other names keep their assignments.
-/

namespace AndroidBuild
namespace PostProcessProps

open Text BuildProp

section Put

variable {name value : Str} {props : List BuildProp}

theorem requireds_cons
    (name : Str) (p : BuildProp) (props : List BuildProp) :
    requireds name (p :: props) =
      if p.isComment = false ∧ p.isOptional = false ∧ p.name = name then
        p :: requireds name props
      else requireds name props := by
  rw [requireds, getProps_cons]
  by_cases h : p.isComment = false ∧ p.isOptional = false ∧ p.name = name
  · rw [if_pos h, if_pos ⟨h.1, h.2.2⟩, List.filter_cons_of_pos (by simp [h.2.1])]
    rfl
  · rw [if_neg h]
    split_ifs with hgroup
    · rw [List.filter_cons_of_neg (fun hoptional => h ⟨hgroup.1, by simpa using hoptional, hgroup.2⟩)]
      rfl
    · rfl

theorem isComment_eq_false_of_name
    {p : BuildProp} (h : p.name ≠ []) :
    p.isComment = false := by
  simp [isComment, h]

/-- A name is put where the program puts it, or behind the list. -/
theorem put_eq
    (name value : Str) (props : List BuildProp) :
    (put name value props = props ++
        [ofParts name value false (some "# Auto-added by post_process_props.py".toList)] ∧
      ∀ p ∈ props, ¬ (p.name = name ∧ p.isOptional = false)) ∨
    ∃ before p behind, props = before ++ p :: behind ∧
      (∀ p ∈ before, ¬ (p.name = name ∧ p.isOptional = false)) ∧
      p.name = name ∧ p.isOptional = false ∧
      put name value props = before ++ { p with
        comments := p.comments ++
          ["# Value overridden by post_process_props.py. Original value: ".toList ++ p.value]
        value := value } :: behind := by
  induction props with
  | nil => exact Or.inl ⟨rfl, by simp⟩
  | cons p props ih =>
      rw [put]
      have hselected : ((p.name == name && !p.isOptional) = true) ↔
          p.name = name ∧ p.isOptional = false := by
        rw [Bool.and_eq_true, beq_iff_eq, Bool.not_eq_true']
      by_cases hp : p.name = name ∧ p.isOptional = false
      · rw [if_pos (hselected.mpr hp)]
        exact Or.inr ⟨[], p, props, rfl, by simp, hp.1, hp.2, rfl⟩
      · rw [if_neg (mt hselected.mp hp)]
        rcases ih with ⟨hput, hnone⟩ | ⟨before, q, behind, rfl, hbefore, hq, hoptional, hput⟩
        · exact Or.inl ⟨by rw [hput]; rfl, List.forall_mem_cons.mpr ⟨hp, hnone⟩⟩
        · exact Or.inr ⟨p :: before, q, behind, rfl, List.forall_mem_cons.mpr ⟨hp, hbefore⟩, hq,
            hoptional, by rw [hput]; rfl⟩

end Put

section Appended

variable {name : Str}

theorem getProps_append
    (name : Str) (a b : List BuildProp) :
    getProps name (a ++ b) = getProps name a ++ getProps name b := by
  simp only [getProps, getAllProps, List.filter_append]

theorem requireds_append
    (name : Str) (a b : List BuildProp) :
    requireds name (a ++ b) = requireds name a ++ requireds name b := by
  rw [requireds, getProps_append, List.filter_append]
  rfl

theorem optionals_append
    (name : Str) (a b : List BuildProp) :
    optionals name (a ++ b) = optionals name a ++ optionals name b := by
  rw [optionals, getProps_append, List.filter_append]
  rfl

theorem requireds_eq_nil
    {props : List BuildProp} (h : ∀ p ∈ props, ¬ (p.name = name ∧ p.isOptional = false)) :
    requireds name props = [] := by
  rw [List.eq_nil_iff_forall_not_mem]
  intro p hp
  obtain ⟨hmem, _, hoptional, hname⟩ := mem_requireds.mp hp
  exact h p hmem ⟨hname, hoptional⟩

theorem commentsOf_append
    (a b : List BuildProp) :
    commentsOf (a ++ b) = commentsOf a ++ commentsOf b :=
  List.flatMap_append

theorem commentsOf_cons_of_not
    {p : BuildProp} (h : p.isComment = false) (props : List BuildProp) :
    commentsOf (p :: props) = commentsOf props := by
  simp [commentsOf, h]

theorem getValue_eq
    (name : Str) (props : List BuildProp) :
    getValue name props = ((props.find? fun p => p.name == name).map BuildProp.value).getD [] :=
  rfl

end Appended

section Mangled

/-- What mangling makes of a list: the names that were put have their value first. -/
structure Mangled (chosen : Str → Option Str) (props result : List BuildProp) : Prop where
  others : ∀ name, chosen name = none → getProps name result = getProps name props
  optionals : ∀ name, optionals name result = optionals name props
  put : ∀ name value, chosen name = some value →
    ∃ first, (requireds name result).head? = some first ∧ first.value = value ∧
      first.comments ≠ []
  fresh : (∀ p ∈ props, Fresh p) → ∀ p ∈ result, Fresh p
  comments : commentsOf result = commentsOf props
  values : ∀ name, name ≠ [] → chosen name = none → getValue name result = getValue name props

theorem Mangled.start
    (props : List BuildProp) :
    Mangled (fun _ => none) props props where
  others := fun _ _ => rfl
  optionals := fun _ => rfl
  put := fun _ _ h => by cases h
  fresh := fun h => h
  comments := rfl
  values := fun _ _ _ => rfl

variable {chosen : Str → Option Str} {props result : List BuildProp} {name value : Str}

theorem fresh_autoAdded
    (hname : OneLine name) (hvalue : OneLine value) :
    Fresh (ofParts name value false (some "# Auto-added by post_process_props.py".toList)) where
  comments := by
    intro c hc
    rw [show c = "# Auto-added by post_process_props.py".toList by simpa [ofParts] using hc]
    exact ⟨⟨by decide, by decide⟩, readLine_hash_cons _⟩
  name := hname.stripChars
  value := hvalue.stripChars
  stripped := stripChars_stripChars name
  strippedValue := stripChars_stripChars value
  bare := fun h => by simp [isOptional, ofParts] at h

theorem Fresh.overwritten
    {p : BuildProp} (h : Fresh p) (hoptional : p.isOptional = false) (hname : p.name ≠ [])
    (hvalue : OneLine value) (hstripped : stripChars value = value) :
    Fresh { p with
      comments := p.comments ++
        ["# Value overridden by post_process_props.py. Original value: ".toList ++ p.value]
      value := value } where
  comments := by
    intro c hc
    rcases List.mem_append.mp hc with hc | hc
    · exact h.comments c hc
    · rw [List.mem_singleton.mp hc]
      exact ⟨OneLine.append ⟨by decide, by decide⟩ h.value, readLine_hash_cons _⟩
  name := h.name
  value := hvalue
  stripped := h.stripped
  strippedValue := hstripped
  bare := by
    intro h'
    have hsame : p.optional = true := by
      simp only [isOptional, Bool.and_eq_true] at h'
      exact h'.2
    rw [isOptional, isComment_eq_false_of_name hname, hsame] at hoptional
    cases hoptional

theorem Mangled.put_name
    (h : Mangled chosen props result)
    (hname : OneLine name) (hne : name ≠ []) (hstrippedName : stripChars name = name)
    (hvalue : OneLine value) (hstripped : stripChars value = value) :
    Mangled (fun other => if other = name then some value else chosen other) props
      (PostProcessProps.put name value result) := by
  rcases put_eq name value result with
    ⟨hput, hnone⟩ | ⟨before, p, behind, rfl, hbefore, hp, hoptional, hput⟩
  · set added := ofParts name value false
      (some "# Auto-added by post_process_props.py".toList) with hadded
    have haddedName : added.name = name := hstrippedName
    have hcomment : added.isComment = false :=
      isComment_eq_false_of_name (haddedName ▸ hne)
    have haddedOptional : added.isOptional = false := by
      rw [isOptional, hcomment]
      rfl
    rw [hput]
    refine ⟨?_, ?_, ?_, ?_, ?_, ?_⟩
    · intro other hother
      split_ifs at hother with heq
      rw [getProps_append, getProps_cons, if_neg (fun hboth : _ ∧ added.name = other => heq (hboth.2 ▸ haddedName)),
        h.others other hother]
      exact List.append_nil _
    · intro other
      rw [optionals_append, optionals_cons, if_neg (by rw [haddedOptional]; simp), h.optionals]
      exact List.append_nil _
    · intro other val hother
      split_ifs at hother with heq
      · cases hother
        refine ⟨added, ?_, hstripped, by simp [hadded, ofParts]⟩
        rw [requireds_append, heq, requireds_eq_nil hnone, requireds_cons,
          if_pos ⟨hcomment, haddedOptional, haddedName⟩]
        rfl
      · obtain ⟨first, hfirst, hrest⟩ := h.put other val hother
        refine ⟨first, ?_, hrest⟩
        rw [requireds_append, List.head?_append, hfirst]
        rfl
    · intro hfresh q hq
      rcases List.mem_append.mp hq with hq | hq
      · exact h.fresh hfresh q hq
      · rw [List.mem_singleton.mp hq]
        exact fresh_autoAdded hname hvalue
    · rw [commentsOf_append, h.comments]
      simp [commentsOf, hcomment]
    · intro other hne' hother
      split_ifs at hother with heq
      rw [getValue_eq, List.find?_append, List.find?_singleton,
        if_neg (by simpa [haddedName] using fun h => heq h.symm), Option.or_none,
        ← getValue_eq, h.values other hne' hother]
  · have hcomment : p.isComment = false := isComment_eq_false_of_name (hp ▸ hne)
    set changed : BuildProp := { p with
      comments := p.comments ++
        ["# Value overridden by post_process_props.py. Original value: ".toList ++ p.value]
      value := value } with hchanged
    have hchangedName : changed.name = name := hp
    have hchangedComment : changed.isComment = false :=
      isComment_eq_false_of_name (hchangedName ▸ hne)
    have hchangedOptional : changed.isOptional = false := by
      rw [isOptional, hcomment] at hoptional
      rw [isOptional, hchangedComment]
      exact hoptional
    rw [hput]
    refine ⟨?_, ?_, ?_, ?_, ?_, ?_⟩
    · intro other hother
      split_ifs at hother with heq
      rw [← h.others other hother, getProps_append, getProps_append, getProps_cons, getProps_cons,
        if_neg (fun hboth : _ ∧ changed.name = other => heq (hboth.2 ▸ hchangedName)),
        if_neg (fun hboth : _ ∧ p.name = other => heq (hboth.2 ▸ hp))]
    · intro other
      rw [← h.optionals, optionals_append, optionals_append, optionals_cons, optionals_cons,
        if_neg (by rw [hchangedOptional]; simp), if_neg (by rw [hoptional]; simp)]
    · intro other val hother
      split_ifs at hother with heq
      · cases hother
        refine ⟨changed, ?_, rfl, by simp [hchanged]⟩
        rw [requireds_append, heq, requireds_eq_nil hbefore, requireds_cons,
          if_pos ⟨hchangedComment, hchangedOptional, hchangedName⟩]
        rfl
      · obtain ⟨first, hfirst, hrest⟩ := h.put other val hother
        refine ⟨first, ?_, hrest⟩
        rw [← hfirst, requireds_append, requireds_append, requireds_cons, requireds_cons,
          if_neg (fun hall : _ ∧ _ ∧ changed.name = other => heq (hall.2.2 ▸ hchangedName)),
          if_neg (fun hall : _ ∧ _ ∧ p.name = other => heq (hall.2.2 ▸ hp))]
    · intro hfresh q hq
      have hall := h.fresh hfresh
      rcases List.mem_append.mp hq with hq | hq
      · exact hall q (List.mem_append_left _ hq)
      · rcases List.mem_cons.mp hq with rfl | hq
        · have hpFresh := hall p (List.mem_append_right _ List.mem_cons_self)
          exact hpFresh.overwritten hoptional (hp ▸ hne) hvalue hstripped
        · exact hall q (List.mem_append_right _ (List.mem_cons_of_mem _ hq))
    · rw [← h.comments, commentsOf_append, commentsOf_append,
        commentsOf_cons_of_not hcomment, commentsOf_cons_of_not hchangedComment]
    · intro other hne' hother
      split_ifs at hother with heq
      rw [← h.values other hne' hother, getValue_eq, getValue_eq, List.find?_append,
        List.find?_append, List.find?_cons_of_neg, List.find?_cons_of_neg]
      · simpa [hp] using fun h => heq h.symm
      · simpa [hchangedName] using fun h => heq h.symm

/-- The value that `mangle_build_prop` chooses for a name. -/
def chosenValue (shouldEnableUffdGc : Str → Option Bool) (kernelVersionFile : Str)
    (props : List BuildProp) (name : Str) : Option Str :=
  if name = usbConfig then usbConfigValue props
  else if name = uffdGc ∧ getValue uffdGc props = "default".toList then
    (shouldEnableUffdGc kernelVersionFile).map enableText
  else none

theorem getValue_fresh
    (h : ∀ p ∈ props, Fresh p) (name : Str) :
    OneLine (getValue name props) ∧ stripChars (getValue name props) = getValue name props := by
  rw [getValue_eq]
  cases hfind : props.find? fun p => p.name == name with
  | none => exact ⟨⟨by simp, by simp⟩, rfl⟩
  | some p =>
      have hp := h p (List.mem_of_find?_eq_some hfind)
      exact ⟨hp.value, hp.strippedValue⟩

theorem usbConfigValue_fresh
    (h : ∀ p ∈ props, Fresh p) (hvalue : usbConfigValue props = some value) :
    OneLine value ∧ stripChars value = value := by
  obtain ⟨hline, hstripped⟩ := getValue_fresh h usbConfig
  rw [usbConfigValue] at hvalue
  dsimp only at hvalue
  split_ifs at hvalue with _ _ hempty <;> cases hvalue
  · exact ⟨⟨by decide, by decide⟩, by decide⟩
  · refine ⟨hline.append ⟨by decide, by decide⟩, ?_⟩
    have hhead := (stripped_stripChars (getValue usbConfig props)).head
    rw [hstripped] at hhead
    rw [show ",adb".toList = ',' :: "adb".toList from rfl, stripChars_append_cons (by decide),
      dropWhile_isSpace_eq_self hhead, show rstripChars "adb".toList = "adb".toList from by decide]

theorem mangleBuildProp_spec
    {shouldEnableUffdGc : Str → Option Bool} {kernelVersionFile : Str}
    (hfresh : ∀ p ∈ props, Fresh p)
    (h : mangleBuildProp shouldEnableUffdGc kernelVersionFile props = some result) :
    Mangled (chosenValue shouldEnableUffdGc kernelVersionFile props) props result := by
  -- the first name
  obtain ⟨mangled, hmangled, hspec⟩ : ∃ mangled,
      (usbConfigValue props).elim props (fun val => put usbConfig val props) = mangled ∧
      Mangled (fun name => if name = usbConfig then usbConfigValue props else none) props
        mangled := by
    refine ⟨_, rfl, ?_⟩
    cases hvalue : usbConfigValue props with
    | none =>
        have hstart := Mangled.start props
        simpa using hstart
    | some value =>
        obtain ⟨hline, hstripped⟩ := usbConfigValue_fresh hfresh hvalue
        exact (Mangled.start props).put_name ⟨by decide, by decide⟩ (by decide) (by decide) hline
          hstripped
  have hother : uffdGc ≠ usbConfig := by decide
  have hget : getValue uffdGc mangled = getValue uffdGc props :=
    hspec.values uffdGc (by decide) (if_neg hother)
  have hunfold : mangleBuildProp shouldEnableUffdGc kernelVersionFile props =
      if getValue uffdGc mangled = "default".toList then
        if kernelVersionFile = [] then none
        else (shouldEnableUffdGc kernelVersionFile).map fun enable =>
          put uffdGc (enableText enable) mangled
      else some mangled := by
    rw [← hmangled, mangleBuildProp]
    cases usbConfigValue props with
    | none => rfl
    | some val => rfl
  rw [hunfold, hget] at h
  split_ifs at h with hdefault hkernel
  · obtain ⟨enable, henable, hresult⟩ := Option.map_eq_some_iff.mp h
    subst hresult
    have hput := @Mangled.put_name _ _ _ uffdGc (enableText enable) hspec
      ⟨by decide, by decide⟩ (by decide) (by decide)
      (by cases enable <;> exact ⟨by decide, by decide⟩) (by cases enable <;> decide)
    have hchosen : chosenValue shouldEnableUffdGc kernelVersionFile props = fun other =>
        if other = uffdGc then some (enableText enable)
        else if other = usbConfig then usbConfigValue props else none := by
      funext other
      rw [chosenValue]
      by_cases husb : other = usbConfig
      · rw [if_pos husb, if_pos husb, if_neg (fun h : other = uffdGc => hother (h.symm.trans husb))]
      · rw [if_neg husb, if_neg husb, henable]
        simp [hdefault]
    rw [hchosen]
    exact hput
  · cases h
    have hchosen : chosenValue shouldEnableUffdGc kernelVersionFile props =
        fun other => if other = usbConfig then usbConfigValue props else none := by
      funext other
      rw [chosenValue, if_neg (fun h : other = uffdGc ∧ _ => hdefault h.2)]
    rw [hchosen]
    exact hspec

end Mangled

end PostProcessProps
end AndroidBuild
