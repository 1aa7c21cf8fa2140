import AndroidBuild.PostProcessProps.Mangling

/-!
# Whether the properties are resolved faithfully

A run is faithful when a reader finds in the written file the assignments that
a reader of the input expects.  The program itself takes the text in front of
the first `?=` for the name, prints names that a reader takes for a comment or
for an optional assignment, and pushes assignments out of comments, so a run is
faithful exactly when none of this touches the input.
-/

namespace AndroidBuild
namespace PostProcessProps

open Text BuildProp

section Input

def lastOptional (text name : Str) : Option Str :=
  (((readings text).filter fun a => a.name = name ∧ a.optional = true).getLast?).map Assignment.value

/-- The value that the assignments of a name are to carry: the chosen one, or that of the
assignments that are not optional, or that of the last optional one. -/
def Expected (chosen : Str → Option Str) (text name value : Str) : Prop :=
  match chosen name with
  | some val => value = val
  | none =>
      (∀ a ∈ readings text, a.name = name → a.optional = false → a.value = value) ∧
      ((∀ a ∈ readings text, a.name = name → a.optional = true) →
        lastOptional text name = some value)

/-- The written file says what the text says. -/
structure Faithful (chosen : Str → Option Str) (keys : List Str) (text written : Str) : Prop where
  resolved : ∀ a ∈ readings written, a.optional = false
  allowed : ∀ a ∈ readings written, a.name ∉ keys
  names : ∀ name ∉ keys, (∃ a ∈ readings written, a.name = name) ↔
    (∃ a ∈ readings text, a.name = name) ∨ chosen name ≠ none
  values : ∀ a ∈ readings written, Expected chosen text a.name a.value
  comments : (commentLines text).Sublist (commentLines written)

/-- What a text must keep clear of for a faithful run. -/
structure Unambiguous (chosen : Str → Option Str) (keys : List Str) (text : Str) : Prop where
  names : ∀ a ∈ readings text, a.name ∉ keys →
    a.name.head? ≠ some '#' ∧ a.name.getLast? ≠ some '?'
  rewritten : ∀ a ∈ readings text, a.name ∈ keys → chosen a.name ≠ none → a.optional = false
  lateDropped : ∀ line ∈ contentLines text, IsLate line → ∀ a, readLine line = some a →
    a.name ∈ keys → (fromLine line).name ∈ keys ∨ a.name.head? = some '#'
  latePut : ∀ line ∈ contentLines text, IsLate line → ∀ a, readLine line = some a →
    a.name ∉ keys → ∀ val, chosen a.name = some val →
      (fromLine line).name ∈ keys ∨
      ∃ last, (optionals (fromLine line).name (readProps text)).getLast? = some last ∧
        readLine (printed last.name last.value) = some ⟨a.name, val, false⟩
  lateKept : ∀ line ∈ contentLines text, IsLate line → ∀ a, readLine line = some a →
    a.name ∉ keys → chosen a.name = none →
      (fromLine line).name ∈ keys ∧ lastOptional text a.name = some a.value ∧
      ∀ b ∈ readings text, b.name = a.name → b.optional = false → b.value = a.value

variable {text : Str}

theorem stripChars_append_newline
    (line : Str) :
    stripChars (line ++ ['\n']) = stripChars line := by
  have hspace : isSpace '\n' = true := by decide
  by_cases h : ∃ c ∈ line, isSpace c = false
  · obtain ⟨c, hmem, hc⟩ := h
    obtain ⟨front, back, rfl⟩ := List.append_of_mem hmem
    rw [List.append_assoc, List.cons_append, stripChars_append_cons hc, stripChars_append_cons hc]
    congr 2
    rw [rstripChars, rstripChars, List.reverse_append, List.reverse_singleton,
      List.singleton_append, List.dropWhile_cons_of_pos hspace]
  · push Not at h
    have hall : ∀ c ∈ line, isSpace c = true := fun c hc => by simpa using h c hc
    have hempty : ∀ l : Str, (∀ c ∈ l, isSpace c = true) → stripChars l = [] := by
      intro l hl
      rw [stripChars, List.dropWhile_eq_nil_iff.mpr hl]
      rfl
    rw [hempty line hall, hempty]
    intro c hc
    rcases List.mem_append.mp hc with hc | hc
    · exact hall c hc
    · exact List.mem_singleton.mp hc ▸ hspace

theorem readProps_eq
    (text : Str) :
    readProps text = (contentLines text).map fromLine := by
  have hempty : OneLine [] := ⟨List.not_mem_nil, List.not_mem_nil⟩
  have hline : ∀ l ∈ fileLinesFrom [] text,
      stripChars (dropNewlines l) = stripChars l ∧ fromLine (dropNewlines l) = fromLine l := by
    intro l hl
    obtain ⟨body, hbody, rfl | rfl⟩ := oneLine_of_mem_fileLinesFrom hempty hl
    · rw [dropNewlines_eq_self hbody.1]
      exact ⟨rfl, rfl⟩
    · rw [dropNewlines_append hbody.1, stripChars_append_newline]
      refine ⟨rfl, ?_⟩
      unfold fromLine
      rw [dropNewlines_append hbody.1, dropNewlines_eq_self hbody.1]
  have hfilter : (fileLinesFrom [] text).filter
        ((fun line => decide (stripChars line ≠ [])) ∘ dropNewlines) =
      (fileLinesFrom [] text).filter fun line => stripChars line ≠ [] :=
    List.filter_congr fun l hl => by rw [Function.comp_apply, (hline l hl).1]
  rw [readProps, contentLines, linesOf, List.filter_map, List.map_map, hfilter]
  exact List.map_congr_left fun l hl => (hline l (List.mem_filter.mp hl).1).2.symm

theorem oneLine_of_mem_contentLines
    {line : Str} (h : line ∈ contentLines text) :
    OneLine line :=
  oneLine_of_mem_linesOf (List.mem_filter.mp h).1

theorem readings_eq
    (text : Str) :
    readings text = (contentLines text).filterMap readLine := by
  rw [readings, contentLines, List.filterMap_filter]
  refine List.filterMap_congr fun line _ => ?_
  by_cases h : stripChars line = []
  · rw [if_neg (by simp [h])]
    refine readLine_no_equals fun hmem => ?_
    obtain ⟨front, back, rfl⟩ := List.append_of_mem hmem
    rw [stripChars_append_cons (by decide)] at h
    simp at h
  · rw [if_pos (by simpa using h)]

theorem mem_readings
    {a : Assignment} :
    a ∈ readings text ↔ ∃ line ∈ contentLines text, readLine line = some a := by
  rw [readings_eq, List.mem_filterMap]

theorem LineKind.isLate_iff
    {line : Str} (h : LineKind line) :
    IsLate line ↔ ∃ a merged, LateReading line a merged := by
  constructor
  · intro hlate
    cases h with
    | comment _ hprop =>
        rw [IsLate, hprop] at hlate
        simp [ofParts, stripChars] at hlate
    | plain _ hname _ _ => exact absurd hlate hname
    | late front middle back hlate => exact ⟨_, _, hlate.reading⟩
  · rintro ⟨a, merged, hreading⟩
    cases h with
    | comment hread _ =>
        rw [hreading.read] at hread
        cases hread
    | plain hread _ _ _ =>
        have hoptional := hreading.required
        rw [hreading.read, Option.some.injEq] at hread
        rw [hread] at hoptional
        exact absurd (hreading.optional.symm.trans hoptional) (by decide)
    | late front middle back hlate => exact hlate.isLate

theorem fresh_readProps
    (text : Str) :
    ∀ p ∈ readProps text, Fresh p := by
  rw [readProps_eq]
  intro p hp
  obtain ⟨line, hline, rfl⟩ := List.mem_map.mp hp
  have hone := oneLine_of_mem_contentLines hline
  rcases fromLine_parts hone with ⟨name, value, optional, hprop, hname, hvalue⟩ | hprop
  · rw [hprop]
    exact {
      comments := fun c hc => by simp [ofParts] at hc
      name := (hone.of_subset hname).stripChars
      value := (hone.of_subset hvalue).stripChars
      stripped := stripChars_stripChars name
      strippedValue := stripChars_stripChars value
      bare := fun _ => rfl }
  · have hread : readLine line = none := by
      cases lineKind hone with
      | comment hread _ => exact hread
      | plain _ _ _ hcomments =>
          rw [hprop] at hcomments
          simp [ofParts] at hcomments
      | late front middle back hlate =>
          have hcomments := hlate.reading.comments
          rw [hprop] at hcomments
          simp [ofParts] at hcomments
    rw [hprop]
    exact {
      comments := fun c hc => by
        rw [show c = line by simpa [ofParts] using hc]
        exact ⟨hone, hread⟩
      name := ⟨by simp [ofParts, stripChars], by simp [ofParts, stripChars]⟩
      value := ⟨by simp [ofParts, stripChars], by simp [ofParts, stripChars]⟩
      stripped := rfl
      strippedValue := rfl
      bare := fun h => by simp [isOptional, ofParts] at h }

theorem commentsOf_readProps
    (text : Str) :
    commentsOf (readProps text) = commentLines text := by
  have hcomments : commentLines text = (contentLines text).filter fun line => readLine line = none := by
    rw [contentLines, List.filter_filter, commentLines]
    refine List.filter_congr fun line _ => ?_
    rw [← Bool.decide_and, decide_eq_decide]
    exact and_comm
  rw [readProps_eq, hcomments, commentsOf, List.flatMap_map]
  clear hcomments
  have hlines : ∀ line ∈ contentLines text, OneLine line := fun _ => oneLine_of_mem_contentLines
  generalize contentLines text = content at hlines ⊢
  induction content with
  | nil => rfl
  | cons line lines ih =>
      rw [List.forall_mem_cons] at hlines
      rw [List.flatMap_cons, ih hlines.2]
      cases lineKind hlines.1 with
      | comment hread hprop =>
          rw [List.filter_cons_of_pos (by simpa using hread), hprop]
          rfl
      | plain hread _ _ hcomments' =>
          rw [List.filter_cons_of_neg (by simp [hread])]
          simp [isComment, hcomments']
      | late front middle back hlate =>
          rw [List.filter_cons_of_neg (by simp [hlate.read])]
          simp [isComment, hlate.reading.comments]

/-- The optional readings of a name are the optional assignments that the program has of it. -/
theorem optionals_readProps
    {name : Str} (hname : '=' ∉ name) :
    (readings text).filter (fun a => a.name = name ∧ a.optional = true) =
      (optionals name (readProps text)).map BuildProp.reading := by
  rw [readings_eq, readProps_eq]
  have hlines : ∀ line ∈ contentLines text, OneLine line := fun _ => oneLine_of_mem_contentLines
  generalize contentLines text = content at hlines ⊢
  induction content with
  | nil => rfl
  | cons line lines ih =>
      rw [List.forall_mem_cons] at hlines
      have ih' := ih hlines.2
      rw [List.map_cons, optionals_cons]
      cases lineKind hlines.1 with
      | comment hread hprop =>
          rw [List.filterMap_cons_none hread, ih', hprop, if_neg]
          simp [isOptional, ofParts]
      | plain hread _ _ hcomments =>
          have hoptional : (fromLine line).isOptional = (fromLine line).optional := by
            simp [isOptional, isComment, hcomments]
          rw [List.filterMap_cons_some hread, List.filter_cons, hoptional]
          by_cases h : (fromLine line).optional = true ∧ (fromLine line).name = name
          · have hreading : (fromLine line).reading.name = name ∧
                (fromLine line).reading.optional = true := h.symm
            rw [if_pos h, if_pos (decide_eq_true hreading), ih', List.map_cons]
          · rw [if_neg h, if_neg, ih']
            simpa [BuildProp.reading, and_comm] using h
      | late front middle back hlate =>
          have hmem : '=' ∈ (fromLine line).name := hlate.isLate
          rw [List.filterMap_cons_some hlate.read, List.filter_cons_of_neg (by simp), ih', if_neg]
          rintro ⟨_, rfl⟩
          exact hname hmem

theorem lastOptional_eq
    {name : Str} (hname : '=' ∉ name) :
    lastOptional text name =
      ((optionals name (readProps text)).getLast?).map BuildProp.value := by
  rw [lastOptional, optionals_readProps hname, List.getLast?_map, Option.map_map]
  rfl

/-- A required assignment of the program is read by any reader. -/
theorem reading_of_requireds
    {name : Str} {p : BuildProp} (h : p ∈ requireds name (readProps text)) :
    p.reading ∈ readings text ∧ p.optional = false ∧ '=' ∉ p.name ∧ ¬ "?=".toList <:+: p.value ∧
      p.comments = [] := by
  obtain ⟨hmem, hcomment, hoptional, _⟩ := mem_requireds.mp h
  rw [readProps_eq] at hmem
  obtain ⟨line, hline, rfl⟩ := List.mem_map.mp hmem
  have hsame : (fromLine line).optional = false := by
    rw [isOptional, hcomment] at hoptional
    simpa using hoptional
  cases lineKind (oneLine_of_mem_contentLines hline) with
  | comment _ hprop =>
      rw [hprop] at hcomment
      simp [isComment, ofParts, stripChars] at hcomment
  | plain hread hname hvalue hcomments =>
      exact ⟨mem_readings.mpr ⟨line, hline, hread⟩, hsame, hname, hvalue hsame, hcomments⟩
  | late front middle back hlate =>
      rw [hlate.reading.optional] at hsame
      cases hsame

theorem requireds_eq_nil_of_late
    {name : Str} (h : '=' ∈ name) :
    requireds name (readProps text) = [] := by
  rw [List.eq_nil_iff_forall_not_mem]
  intro p hp
  have hname := (reading_of_requireds hp).2.2.1
  rw [(mem_requireds.mp hp).2.2.2] at hname
  exact hname h

theorem optional_of_late
    {line : Str} {a : Assignment} {merged : Str → Str} (hline : line ∈ contentLines text)
    (h : LateReading line a merged) :
    fromLine line ∈ optionals (fromLine line).name (readProps text) := by
  refine mem_optionals.mpr ⟨?_, ?_, rfl⟩
  · rw [readProps_eq]
    exact List.mem_map_of_mem hline
  · simp [isOptional, isComment, h.comments, h.optional]

theorem late_of_optional
    {name : Str} {p : BuildProp} (hname : '=' ∈ name) (h : p ∈ optionals name (readProps text)) :
    ∃ line ∈ contentLines text, fromLine line = p ∧ IsLate line ∧
      ∃ a merged, LateReading line a merged := by
  obtain ⟨hmem, _, rfl⟩ := mem_optionals.mp h
  rw [readProps_eq] at hmem
  obtain ⟨line, hline, rfl⟩ := List.mem_map.mp hmem
  exact ⟨line, hline, rfl, hname,
    (lineKind (oneLine_of_mem_contentLines hline)).isLate_iff.mp hname⟩

/-- A reading that is not late is an assignment of the program. -/
theorem reading_cases
    {a : Assignment} (h : a ∈ readings text) :
    (∃ p ∈ getProps a.name (readProps text), p.reading = a ∧ p.isOptional = a.optional) ∨
    ∃ line ∈ contentLines text, IsLate line ∧ ∃ merged, LateReading line a merged := by
  obtain ⟨line, hline, hread⟩ := mem_readings.mp h
  cases lineKind (oneLine_of_mem_contentLines hline) with
  | comment hnone _ =>
      rw [hread] at hnone
      cases hnone
  | plain hplain _ _ hcomments =>
      rw [hread, Option.some.injEq] at hplain
      subst hplain
      refine Or.inl ⟨fromLine line, mem_getProps.mpr ⟨?_, ?_, rfl⟩, rfl, ?_⟩
      · rw [readProps_eq]
        exact List.mem_map_of_mem hline
      · simp [isComment, hcomments]
      · simp [isOptional, isComment, hcomments, BuildProp.reading]
  | late front middle back hlate =>
      have hreading := hlate.reading
      rw [hreading.read, Option.some.injEq] at hread
      subst hread
      exact Or.inr ⟨line, hline, hlate.isLate, _, hreading⟩

end Input

section Outcome

variable {chosen : Str → Option Str} {keys : List Str} {text written : Str}

/-- The value that the assignments of a name come to in a run. -/
def RunValue (chosen : Str → Option Str) (text name value : Str) : Prop :=
  match chosen name with
  | some val => value = val
  | none => Live name value (readProps text)

/-- A name that a reader takes as it is printed. -/
structure PlainName (name : Str) : Prop where
  equals : '=' ∉ name
  hash : name.head? ≠ some '#'
  mark : name.getLast? ≠ some '?'
  stripped : stripChars name = name

/-- What a run that succeeds has written. -/
structure Outcome (chosen : Str → Option Str) (keys : List Str) (text written : Str) : Prop where
  mem : ∀ a, a ∈ readings written ↔ ∃ name value, RunValue chosen text name value ∧
    (name ∉ keys ∨ (chosen name ≠ none ∧ optionals name (readProps text) ≠ [])) ∧
    readLine (printed name value) = some a
  agrees : ∀ name, chosen name = none → Agrees (getProps name (readProps text))
  comments : (commentLines text).Sublist (commentLines written)
  plain : ∀ name, chosen name ≠ none → PlainName name
  stripped : ∀ name val, chosen name = some val → stripChars val = val

theorem chosenValue_names
    {shouldEnableUffdGc : Str → Option Bool} {kernelVersionFile name : Str}
    {props : List BuildProp}
    (h : chosenValue shouldEnableUffdGc kernelVersionFile props name ≠ none) :
    name = usbConfig ∨ name = uffdGc := by
  rw [chosenValue] at h
  split_ifs at h with husb huffd
  · exact Or.inl husb
  · exact Or.inr huffd.1
  · exact absurd rfl h

theorem main_outcome
    {order : HashOrder Str} {shouldEnableUffdGc : Str → Option Bool} {args : Args}
    (hdup : args.allowDup = false) (h : main order shouldEnableUffdGc args text = .ok written) :
    Outcome (chosenValue shouldEnableUffdGc args.kernelVersionFile (readProps text))
      args.disallowedKeys text written := by
  set chosen := chosenValue shouldEnableUffdGc args.kernelVersionFile (readProps text) with hchosen
  -- the run, step by step
  obtain ⟨props, hmangle, result, hresult, herrors, hwritten⟩ : ∃ props,
      mangleBuildProp shouldEnableUffdGc args.kernelVersionFile (readProps text) = some props ∧
      ∃ result,
        (overrideOptionalProps false (order.iterate (getAllNames props)) props).1 = result ∧
        (overrideOptionalProps false (order.iterate (getAllNames props)) props).2 = [] ∧
        written = writeProps (dropDisallowed args.disallowedKeys result) := by
    unfold main at h
    split_ifs at h with hname
    · cases h
    · cases hmangle :
          mangleBuildProp shouldEnableUffdGc args.kernelVersionFile (readProps text) with
      | none =>
          rw [hmangle] at h
          cases h
      | some props =>
          rw [hmangle, hdup] at h
          dsimp only [pure_bind] at h
          refine ⟨props, rfl, _, rfl, ?_⟩
          generalize overrideOptionalProps false (order.iterate (getAllNames props)) props =
            overridden at h ⊢
          split_ifs at h with herrors
          · cases h
          · refine ⟨by simpa using herrors, ?_⟩
            cases hgrf : validateGrfProps overridden.1 with
            | error e =>
                rw [hgrf] at h
                cases h
            | ok u =>
                rw [hgrf] at h
                cases hvalid : validate overridden.1 with
                | error e =>
                    rw [hvalid] at h
                    cases h
                | ok u =>
                    rw [hvalid] at h
                    cases h
                    rfl
  have hfresh := fresh_readProps text
  have hspec := mangleBuildProp_spec hfresh hmangle
  rw [← hchosen] at hspec
  have hfresh' := hspec.fresh hfresh
  have hnames : ∀ name ∈ getAllNames props, name ∈ order.iterate (getAllNames props) :=
    fun name hname => (order.mem_iterate _ _).mpr hname
  have hover := overrideOptionalProps_spec (order.nodup _) herrors
  rw [hresult] at hover
  have hagrees : ∀ name, Agrees (getProps name props) := by
    intro name
    by_cases hname : name ∈ getAllNames props
    · exact hover.agrees name (hnames name hname)
    · intro p hp
      exact absurd (mem_getAllNames.mpr ⟨p, (List.mem_filter.mp hp).1⟩) hname
  have hrequireds : ∀ name, chosen name = none →
      requireds name props = requireds name (readProps text) := fun name hnone => by
    rw [requireds, hspec.others name hnone]
    rfl
  have hlive : ∀ name value, Live name value props ↔ RunValue chosen text name value := by
    intro name value
    rw [RunValue]
    cases hval : chosen name with
    | none =>
        simp only [Live, hrequireds name hval, hspec.optionals]
    | some val =>
        obtain ⟨first, hfirst, hvalue, _⟩ := hspec.put name val hval
        have hmem := List.mem_of_mem_head? hfirst
        constructor
        · rintro (⟨p, hp, rfl⟩ | ⟨hnone, _⟩)
          · rw [← hvalue]
            exact hagrees name p hp first hmem
          · rw [hnone] at hmem
            cases hmem
        · rintro rfl
          exact Or.inl ⟨first, hmem, hvalue⟩
  have hleaks : ∀ name, Leaks name props ↔
      chosen name ≠ none ∧ optionals name (readProps text) ≠ [] := by
    intro name
    rw [Leaks, hspec.optionals]
    constructor
    · rintro ⟨hsome, first, hfirst, hcomments⟩
      refine ⟨fun hnone => ?_, hsome⟩
      have hmem := List.mem_of_mem_head? hfirst
      rw [hrequireds name hnone] at hmem
      exact hcomments (reading_of_requireds hmem).2.2.2.2
    · rintro ⟨hput, hsome⟩
      obtain ⟨val, hval⟩ := Option.ne_none_iff_exists'.mp hput
      obtain ⟨first, hfirst, _, hcomments⟩ := hspec.put name val hval
      exact ⟨hsome, first, hfirst, hcomments⟩
  refine ⟨?_, ?_, ?_, ?_, ?_⟩
  · intro a
    rw [hwritten, mem_readings_written hfresh' hover hnames]
    simp only [hlive, hleaks]
  · intro name hnone
    rw [← hspec.others name hnone]
    exact hagrees name
  · rw [hwritten, ← commentsOf_readProps, ← hspec.comments]
    refine commentsOf_sublist hfresh' ?_ hover hnames
    rw [hspec.comments, commentsOf_readProps]
    intro line hline
    have hboth := (List.mem_filter.mp hline).2
    exact (of_decide_eq_true hboth).1
  · intro name hname
    rcases chosenValue_names hname with rfl | rfl
    · exact ⟨by decide, by decide, by decide, by decide⟩
    · exact ⟨by decide, by decide, by decide, by decide⟩
  · intro name val hval
    obtain ⟨first, hfirst, rfl, _⟩ := hspec.put name val hval
    exact (hfresh' first (mem_requireds.mp (List.mem_of_mem_head? hfirst)).1).strippedValue

/-- The names and values of the program, as a reader meets them. -/
theorem RunValue.stripped
    (ho : Outcome chosen keys text written) {name value : Str}
    (h : RunValue chosen text name value) :
    stripChars name = name ∧ stripChars value = value := by
  rw [RunValue] at h
  cases hval : chosen name with
  | some val =>
      rw [hval] at h
      subst h
      exact ⟨(ho.plain name (by rw [hval]; simp)).stripped, ho.stripped name value hval⟩
  | none =>
      rw [hval] at h
      have hfresh := fresh_readProps text
      rcases h with ⟨p, hp, rfl⟩ | ⟨_, p, hp, rfl⟩
      · obtain ⟨hmem, _, _, rfl⟩ := mem_requireds.mp hp
        exact ⟨(hfresh p hmem).stripped, (hfresh p hmem).strippedValue⟩
      · obtain ⟨hmem, _, rfl⟩ := mem_optionals.mp (List.mem_of_getLast? hp)
        exact ⟨(hfresh p hmem).stripped, (hfresh p hmem).strippedValue⟩

/-- A late name that is not dropped, with the line that gives it its value. -/
structure LateWritten (keys : List Str) (text : Str) (line : Str) (a : Assignment)
    (merged : Str → Str) : Prop where
  mem : line ∈ contentLines text
  late : IsLate line
  reading : LateReading line a merged
  kept : (fromLine line).name ∉ keys
  last : (optionals (fromLine line).name (readProps text)).getLast? = some (fromLine line)
  hash : a.name.head? ≠ some '#'

theorem Outcome.chosen_late
    (ho : Outcome chosen keys text written) {name : Str} (h : '=' ∈ name) :
    chosen name = none := by
  by_contra hput
  exact (ho.plain name hput).equals h

/-- What stands in the written file is a name as the program has it, or a late one. -/
theorem Outcome.written_cases
    (ho : Outcome chosen keys text written) {a : Assignment} (h : a ∈ readings written) :
    (∃ name value, '=' ∉ name ∧ name.head? ≠ some '#' ∧ RunValue chosen text name value ∧
      (name ∉ keys ∨ (chosen name ≠ none ∧ optionals name (readProps text) ≠ [])) ∧
      a = if name.getLast? = some '?' then ⟨stripChars name.dropLast, value, true⟩
        else ⟨name, value, false⟩) ∨
    ∃ line b merged, LateWritten keys text line b merged ∧
      a = ⟨b.name, merged (fromLine line).value, false⟩ := by
  obtain ⟨name, value, hvalue, hkeys, hread⟩ := (ho.mem a).mp h
  obtain ⟨hname, hstripped⟩ := hvalue.stripped ho
  have hhash : name.head? ≠ some '#' := by
    intro hhash
    rw [readLine_printed_hash hhash] at hread
    cases hread
  by_cases hequals : '=' ∈ name
  · right
    have hnone := ho.chosen_late hequals
    rw [RunValue, hnone] at hvalue
    rcases hvalue with ⟨p, hp, _⟩ | ⟨_, last, hlast, rfl⟩
    · rw [requireds_eq_nil_of_late hequals] at hp
      cases hp
    · have hmem := List.mem_of_getLast? hlast
      obtain ⟨line, hline, rfl, hlate, b, merged, hreading⟩ := late_of_optional hequals hmem
      obtain rfl := (mem_optionals.mp hmem).2.2
      have hb : b.name.head? ≠ some '#' := mt hreading.hash.mp hhash
      have hkept := hkeys.resolve_right fun hboth => hboth.1 hnone
      refine ⟨line, b, merged, ⟨hline, hlate, hreading, hkept, hlast, hb⟩, ?_⟩
      rw [hreading.printed hb, Option.some.injEq] at hread
      exact hread.symm
  · left
    refine ⟨name, value, hequals, hhash, hvalue, hkeys, ?_⟩
    rw [readLine_printed hequals hname hstripped hhash] at hread
    split_ifs at hread ⊢ <;> exact (Option.some.inj hread).symm

/-- A name that a reader takes as it is printed is read back. -/
theorem Outcome.mem_of_plain
    (ho : Outcome chosen keys text written) {name value : Str} (hequals : '=' ∉ name)
    (hhash : name.head? ≠ some '#') (hmark : name.getLast? ≠ some '?')
    (hvalue : RunValue chosen text name value)
    (hkeys : name ∉ keys ∨ (chosen name ≠ none ∧ optionals name (readProps text) ≠ [])) :
    ⟨name, value, false⟩ ∈ readings written := by
  obtain ⟨hname, hstripped⟩ := hvalue.stripped ho
  refine (ho.mem _).mpr ⟨name, value, hvalue, hkeys, ?_⟩
  rw [readLine_printed hequals hname hstripped hhash, if_neg hmark]

/-- The last line of a late name is written. -/
theorem Outcome.exists_late
    (ho : Outcome chosen keys text written) {line : Str} {a : Assignment} {merged : Str → Str}
    (hline : line ∈ contentLines text) (hreading : LateReading line a merged)
    (hlate : IsLate line) (hkept : (fromLine line).name ∉ keys)
    (hhash : a.name.head? ≠ some '#') :
    ∃ last b merged', LateWritten keys text last b merged' ∧ b.name = a.name ∧
      (fromLine last).name = (fromLine line).name ∧
      ⟨a.name, merged' (fromLine last).value, false⟩ ∈ readings written := by
  have hne := List.ne_nil_of_mem (optional_of_late hline hreading)
  obtain ⟨p, hp⟩ := Option.ne_none_iff_exists'.mp (mt List.getLast?_eq_none_iff.mp hne)
  have hmem := List.mem_of_getLast? hp
  obtain ⟨last, hlast, rfl, hlastLate, b, merged', hreading'⟩ := late_of_optional hlate hmem
  have hsame := (mem_optionals.mp hmem).2.2
  have hb : b.name.head? ≠ some '#' := by
    rw [Ne, hreading'.hash, hsame, ← hreading.hash]
    exact hhash
  -- both lines print the same name
  have hname : b.name = a.name := by
    have hprinted := hreading'.printed hb []
    rw [hsame, hreading.printed hhash [], Option.some.injEq, Assignment.mk.injEq] at hprinted
    exact hprinted.1.symm
  refine ⟨last, b, merged', ⟨hlast, hlastLate, hreading', hsame ▸ hkept, hsame ▸ hp, hb⟩, hname,
    hsame, ?_⟩
  refine (ho.mem _).mpr ⟨(fromLine last).name, (fromLine last).value, ?_, Or.inl (hsame ▸ hkept), ?_⟩
  · rw [RunValue, ho.chosen_late hlastLate]
    exact Or.inr ⟨requireds_eq_nil_of_late hlastLate, fromLine last, hsame ▸ hp, rfl⟩
  · rw [hreading'.printed hb, hname]

end Outcome

section Sufficient

variable {chosen : Str → Option Str} {keys : List Str} {text written : Str}

theorem exists_live
    {name : Str} {props : List BuildProp} {p : BuildProp} (h : p ∈ getProps name props) :
    ∃ value, Live name value props := by
  by_cases hnone : requireds name props = []
  · have hp : p ∈ optionals name props := by
      refine List.mem_filter.mpr ⟨h, ?_⟩
      by_contra hoptional
      rw [Bool.not_eq_true] at hoptional
      have hmem : p ∈ requireds name props := List.mem_filter.mpr ⟨h, by simp [hoptional]⟩
      rw [hnone] at hmem
      cases hmem
    obtain ⟨last, hlast⟩ := Option.ne_none_iff_exists'.mp
      (mt List.getLast?_eq_none_iff.mp (List.ne_nil_of_mem hp))
    exact ⟨last.value, Or.inr ⟨hnone, last, hlast, rfl⟩⟩
  · obtain ⟨q, hq⟩ := List.exists_mem_of_ne_nil _ hnone
    exact ⟨q.value, Or.inl ⟨q, hq, rfl⟩⟩

theorem reading_of_optionals
    {name : Str} {p : BuildProp} (hname : '=' ∉ name) (h : p ∈ optionals name (readProps text)) :
    p.reading ∈ readings text ∧ p.reading.optional = true := by
  have hmem := List.mem_map_of_mem (f := BuildProp.reading) h
  rw [← optionals_readProps hname, List.mem_filter] at hmem
  exact ⟨hmem.1, (of_decide_eq_true hmem.2).2⟩

theorem exists_reading_of_live
    {name value : Str} (hname : '=' ∉ name) (h : Live name value (readProps text)) :
    ∃ a ∈ readings text, a.name = name := by
  rcases h with ⟨p, hp, _⟩ | ⟨_, p, hp, _⟩
  · exact ⟨p.reading, (reading_of_requireds hp).1, (mem_requireds.mp hp).2.2.2⟩
  · have hmem := List.mem_of_getLast? hp
    exact ⟨p.reading, (reading_of_optionals hname hmem).1, (mem_optionals.mp hmem).2.2⟩

theorem exists_reading_of_runValue
    {name value : Str} (hequals : '=' ∉ name)
    (h : RunValue chosen text name value) :
    (∃ a ∈ readings text, a.name = name) ∨ chosen name ≠ none := by
  by_cases hput : chosen name = none
  · rw [RunValue, hput] at h
    exact Or.inl (exists_reading_of_live hequals h)
  · exact Or.inr hput

theorem Unambiguous.written_cases
    (hu : Unambiguous chosen keys text) (ho : Outcome chosen keys text written)
    {a : Assignment} (h : a ∈ readings written) :
    (∃ name value, '=' ∉ name ∧ RunValue chosen text name value ∧ name ∉ keys ∧
      a = ⟨name, value, false⟩) ∨
    ∃ b ∈ readings text, b.name ∉ keys ∧ ∃ val, chosen b.name = some val ∧
      a = ⟨b.name, val, false⟩ := by
  rcases ho.written_cases h with
    ⟨name, value, hequals, hhash, hvalue, hkeys, ha⟩ | ⟨line, b, merged, hline, ha⟩
  · have hkept : name ∉ keys := by
      rcases hkeys with hkept | ⟨hput, hsome⟩
      · exact hkept
      · intro hmem
        obtain ⟨p, hp⟩ := List.exists_mem_of_ne_nil _ hsome
        obtain ⟨hread, hoptional⟩ := reading_of_optionals hequals hp
        have hname : p.reading.name = name := (mem_optionals.mp hp).2.2
        have hrequired := hu.rewritten p.reading hread (hname ▸ hmem) (hname ▸ hput)
        rw [hoptional] at hrequired
        cases hrequired
    have hmark : name.getLast? ≠ some '?' := by
      rcases exists_reading_of_runValue hequals hvalue with ⟨b, hb, rfl⟩ | hput
      · exact (hu.names b hb hkept).2
      · exact (ho.plain name hput).mark
    rw [if_neg hmark] at ha
    exact Or.inl ⟨name, value, hequals, hvalue, hkept, ha⟩
  · right
    have hread := hline.reading.read
    have hb : b ∈ readings text := mem_readings.mpr ⟨line, hline.mem, hread⟩
    have hkept : b.name ∉ keys := by
      intro hmem
      rcases hu.lateDropped line hline.mem hline.late b hread hmem with hdropped | hhash
      · exact hline.kept hdropped
      · exact hline.hash hhash
    refine ⟨b, hb, hkept, ?_⟩
    cases hval : chosen b.name with
    | none => exact absurd (hu.lateKept line hline.mem hline.late b hread hkept hval).1 hline.kept
    | some val =>
        refine ⟨val, rfl, ?_⟩
        obtain ⟨last, hlast, hprinted⟩ :=
          (hu.latePut line hline.mem hline.late b hread hkept val hval).resolve_left hline.kept
        rw [hline.last, Option.some.injEq] at hlast
        subst hlast
        rw [hline.reading.printed hline.hash, Option.some.injEq] at hprinted
        rw [ha, hprinted]

theorem Unambiguous.expected
    (hu : Unambiguous chosen keys text) (ho : Outcome chosen keys text written)
    {name value : Str} (hequals : '=' ∉ name) (hkept : name ∉ keys)
    (h : RunValue chosen text name value) :
    Expected chosen text name value := by
  rw [RunValue] at h
  rw [Expected]
  cases hval : chosen name with
  | some val =>
      rw [hval] at h
      exact h
  | none =>
      rw [hval] at h
      refine ⟨fun a ha hname hoptional => ?_, fun hall => ?_⟩
      · subst hname
        rcases reading_cases ha with ⟨p, hp, rfl, hp'⟩ | ⟨line, hline, hlate, merged, hreading⟩
        · have hmem : p ∈ requireds p.reading.name (readProps text) :=
            List.mem_filter.mpr ⟨hp, by rw [hp', hoptional]; rfl⟩
          rcases h with ⟨q, hq, rfl⟩ | ⟨hnone, _⟩
          · exact ho.agrees _ hval p hmem q hq
          · rw [hnone] at hmem
            cases hmem
        · obtain ⟨_, hlast, hothers⟩ := hu.lateKept line hline hlate a hreading.read hkept hval
          rcases h with ⟨q, hq, rfl⟩ | ⟨_, last, hgroup, rfl⟩
          · obtain ⟨hread, hrequired, _⟩ := reading_of_requireds hq
            exact (hothers q.reading hread (mem_requireds.mp hq).2.2.2 hrequired).symm
          · rw [lastOptional_eq hequals, hgroup] at hlast
            exact (Option.some.inj hlast).symm
      · rcases h with ⟨q, hq, rfl⟩ | ⟨_, last, hgroup, rfl⟩
        · obtain ⟨hread, hrequired, _⟩ := reading_of_requireds hq
          have hoptional := hall q.reading hread (mem_requireds.mp hq).2.2.2
          exact absurd (hoptional.symm.trans hrequired) (by decide)
        · rw [lastOptional_eq hequals, hgroup]
          rfl

theorem Unambiguous.exists_written
    (hu : Unambiguous chosen keys text) (ho : Outcome chosen keys text written)
    {name : Str} (hkept : name ∉ keys)
    (h : (∃ a ∈ readings text, a.name = name) ∨ chosen name ≠ none) :
    ∃ a ∈ readings written, a.name = name := by
  by_cases hput : chosen name = none
  · obtain ⟨a, ha, rfl⟩ := h.resolve_right (fun hne => hne hput)
    obtain ⟨line, _, hread⟩ := mem_readings.mp ha
    have hequals := not_mem_equals_of_readLine hread
    have hgroup : ∃ p, p ∈ getProps a.name (readProps text) := by
      rcases reading_cases ha with ⟨p, hp, _⟩ | ⟨line, hline, hlate, merged, hreading⟩
      · exact ⟨p, hp⟩
      · have hlast := (hu.lateKept line hline hlate a hreading.read hkept hput).2.1
        rw [lastOptional_eq hequals] at hlast
        obtain ⟨p, hp, _⟩ := Option.map_eq_some_iff.mp hlast
        exact ⟨p, (List.mem_filter.mp (List.mem_of_getLast? hp)).1⟩
    obtain ⟨p, hp⟩ := hgroup
    obtain ⟨value, hvalue⟩ := exists_live hp
    have hrun : RunValue chosen text a.name value := by
      rw [RunValue, hput]
      exact hvalue
    have hnames := hu.names a ha hkept
    exact ⟨_, ho.mem_of_plain hequals hnames.1 hnames.2 hrun (Or.inl hkept), rfl⟩
  · obtain ⟨val, hval⟩ := Option.ne_none_iff_exists'.mp hput
    have hplain := ho.plain name hput
    have hrun : RunValue chosen text name val := by
      rw [RunValue, hval]
    exact ⟨_, ho.mem_of_plain hplain.equals hplain.hash hplain.mark hrun (Or.inl hkept), rfl⟩

theorem Unambiguous.faithful
    (hu : Unambiguous chosen keys text) (ho : Outcome chosen keys text written) :
    Faithful chosen keys text written where
  resolved := by
    intro a ha
    rcases hu.written_cases ho ha with ⟨_, _, _, _, _, rfl⟩ | ⟨_, _, _, _, _, rfl⟩ <;> rfl
  allowed := by
    intro a ha
    rcases hu.written_cases ho ha with ⟨_, _, _, _, hkept, rfl⟩ | ⟨_, _, hkept, _, _, rfl⟩
    · exact hkept
    · exact hkept
  names := by
    intro name hkept
    refine ⟨?_, hu.exists_written ho hkept⟩
    rintro ⟨a, ha, rfl⟩
    rcases hu.written_cases ho ha with ⟨_, _, hequals, hvalue, _, rfl⟩ | ⟨b, hb, _, _, _, rfl⟩
    · exact exists_reading_of_runValue hequals hvalue
    · exact Or.inl ⟨b, hb, rfl⟩
  values := by
    intro a ha
    rcases hu.written_cases ho ha with
      ⟨_, _, hequals, hvalue, hkept, rfl⟩ | ⟨_, _, _, val, hval, rfl⟩
    · exact hu.expected ho hequals hkept hvalue
    · rw [Expected, hval]
  comments := ho.comments

end Sufficient

section Necessary

variable {chosen : Str → Option Str} {keys : List Str} {text written : Str}

/-- A late name that is written reads as a name whose value was chosen. -/
theorem Faithful.chosen_of_late
    (hf : Faithful chosen keys text written) {line : Str} {b : Assignment} {merged : Str → Str}
    (hline : LateWritten keys text line b merged)
    (hmem : ⟨b.name, merged (fromLine line).value, false⟩ ∈ readings written) :
    chosen b.name = some (merged (fromLine line).value) := by
  have hexpected := hf.values _ hmem
  rw [Expected] at hexpected
  cases hval : chosen b.name with
  | some val =>
      rw [hval] at hexpected
      exact congrArg some hexpected.symm
  | none =>
      rw [hval] at hexpected
      have hb : b ∈ readings text := mem_readings.mpr ⟨line, hline.mem, hline.reading.read⟩
      have hsame := hexpected.1 b hb rfl hline.reading.required
      have hshorter := hline.reading.shorter
      rw [hsame] at hshorter
      exact absurd hshorter (lt_irrefl _)

/-- A name that is read in the input is written as the program has it, or was chosen. -/
theorem Faithful.written_of_reading
    (hf : Faithful chosen keys text written) (ho : Outcome chosen keys text written)
    {a : Assignment} (ha : a ∈ readings text) (hkept : a.name ∉ keys) :
    chosen a.name ≠ none ∨ ∃ value, '=' ∉ a.name ∧ a.name.head? ≠ some '#' ∧
      a.name.getLast? ≠ some '?' ∧ RunValue chosen text a.name value ∧
      ⟨a.name, value, false⟩ ∈ readings written := by
  obtain ⟨w, hw, hname⟩ := (hf.names a.name hkept).mpr (Or.inl ⟨a, ha, rfl⟩)
  rcases ho.written_cases hw with
    ⟨name, value, hequals, hhash, hvalue, _, hw'⟩ | ⟨line, b, merged, hline, rfl⟩
  · right
    have hmark : name.getLast? ≠ some '?' := by
      intro hmark
      rw [if_pos hmark] at hw'
      have hresolved := hf.resolved w hw
      rw [hw'] at hresolved
      cases hresolved
    rw [if_neg hmark] at hw'
    subst hw'
    change name = a.name at hname
    subst hname
    exact ⟨value, hequals, hhash, hmark, hvalue, hw⟩
  · left
    change b.name = a.name at hname
    rw [← hname, hf.chosen_of_late hline hw]
    simp

theorem Faithful.unambiguous
    (hf : Faithful chosen keys text written) (ho : Outcome chosen keys text written) :
    Unambiguous chosen keys text where
  names := by
    intro a ha hkept
    rcases hf.written_of_reading ho ha hkept with hput | ⟨_, _, hhash, hmark, _⟩
    · exact ⟨(ho.plain _ hput).hash, (ho.plain _ hput).mark⟩
    · exact ⟨hhash, hmark⟩
  rewritten := by
    intro a ha hmem hput
    by_contra hoptional
    rw [Bool.not_eq_false] at hoptional
    obtain ⟨val, hval⟩ := Option.ne_none_iff_exists'.mp hput
    have hplain := ho.plain _ hput
    have hgroup : optionals a.name (readProps text) ≠ [] := by
      intro hnil
      have hown : a ∈ (readings text).filter fun b => b.name = a.name ∧ b.optional = true :=
        List.mem_filter.mpr ⟨ha, decide_eq_true ⟨rfl, hoptional⟩⟩
      rw [optionals_readProps hplain.equals, hnil] at hown
      cases hown
    have hrun : RunValue chosen text a.name val := by
      rw [RunValue, hval]
    exact hf.allowed _ (ho.mem_of_plain hplain.equals hplain.hash hplain.mark hrun
      (Or.inr ⟨hput, hgroup⟩)) hmem
  lateDropped := by
    intro line hline hlate a hread hmem
    by_contra hneither
    rw [not_or] at hneither
    obtain ⟨b, merged, hreading⟩ :=
      (lineKind (oneLine_of_mem_contentLines hline)).isLate_iff.mp hlate
    rw [hreading.read, Option.some.injEq] at hread
    subst hread
    obtain ⟨_, _, _, _, _, _, hwritten⟩ :=
      ho.exists_late hline hreading hlate hneither.1 hneither.2
    exact hf.allowed _ hwritten hmem
  latePut := by
    intro line hline hlate a hread hkept val hval
    by_contra hneither
    rw [not_or] at hneither
    obtain ⟨b, merged, hreading⟩ :=
      (lineKind (oneLine_of_mem_contentLines hline)).isLate_iff.mp hlate
    rw [hreading.read, Option.some.injEq] at hread
    subst hread
    have hhash := (ho.plain _ (by rw [hval]; simp)).hash
    obtain ⟨last, c, merged', hlast, hname, hsame, hwritten⟩ :=
      ho.exists_late hline hreading hlate hneither.1 hhash
    rw [← hname] at hwritten
    have hchosen := hf.chosen_of_late hlast hwritten
    rw [hname, hval, Option.some.injEq] at hchosen
    refine hneither.2 ⟨fromLine last, hsame ▸ hlast.last, ?_⟩
    rw [hlast.reading.printed hlast.hash, hname, hchosen]
  lateKept := by
    intro line hline hlate a hread hkept hnone
    obtain ⟨b, merged, hreading⟩ :=
      (lineKind (oneLine_of_mem_contentLines hline)).isLate_iff.mp hlate
    rw [hreading.read, Option.some.injEq] at hread
    subst hread
    have hb : b ∈ readings text := mem_readings.mpr ⟨line, hline, hreading.read⟩
    obtain ⟨value, hequals, hhash, _, hvalue, hwritten⟩ :=
      (hf.written_of_reading ho hb hkept).resolve_left (fun hput => hput hnone)
    have hexpected := hf.values _ hwritten
    rw [Expected, hnone] at hexpected
    have hvalues := hexpected.1
    have hown : b.value = value := hvalues b hb rfl hreading.required
    refine ⟨?_, ?_, fun c hc hname hoptional => ?_⟩
    · by_contra hdropped
      obtain ⟨last, c, merged', hlast, hname, _, hwritten'⟩ :=
        ho.exists_late hline hreading hlate hdropped hhash
      rw [← hname] at hwritten'
      have hchosen := hf.chosen_of_late hlast hwritten'
      rw [hname, hnone] at hchosen
      cases hchosen
    · -- a required assignment of the program has no value with `?=`
      rw [RunValue, hnone] at hvalue
      rcases hvalue with ⟨p, hp, rfl⟩ | ⟨_, last, hgroup, rfl⟩
      · have hmark := hreading.mark
        rw [hown] at hmark
        exact absurd hmark (reading_of_requireds hp).2.2.2.1
      · rw [lastOptional_eq hequals, hgroup, hown]
        rfl
    · rw [hown]
      exact hvalues c hc hname hoptional

end Necessary

section Main

/-- A run that succeeds without `--allow-dup` resolves the properties faithfully if and only if the
text is not ambiguous. -/
theorem main_faithful_iff
    {order : HashOrder Str} {shouldEnableUffdGc : Str → Option Bool} {args : Args}
    {text written : Str} (hdup : args.allowDup = false)
    (h : main order shouldEnableUffdGc args text = .ok written) :
    Faithful (chosenValue shouldEnableUffdGc args.kernelVersionFile (readProps text))
        args.disallowedKeys text written ↔
      Unambiguous (chosenValue shouldEnableUffdGc args.kernelVersionFile (readProps text))
        args.disallowedKeys text := by
  have ho := main_outcome hdup h
  exact ⟨fun hf => hf.unambiguous ho, fun hu => hu.faithful ho⟩

def sampleArgs : Args where
  filename := "system/build.prop".toList
  disallowedKeys := []
  kernelVersionFile := []
  allowDup := false
  commandLine := []

/-- A run over a text with one name, which is visited in any order. -/
theorem main_of_oneName
    (order : HashOrder Str) {text name : Str} (props out : List BuildProp)
    (hread : readProps text = props) (hnames : getAllNames props = {name})
    (husb : usbConfigValue props = none) (huffd : getValue uffdGc props ≠ "default".toList)
    (hoverride : overrideOptionalProps false [name] props = (out, []))
    (hgrf : validateGrfProps out = .ok ()) (hvalid : validate out = .ok ()) :
    main order (fun _ => none) sampleArgs text = .ok (writeProps (dropDisallowed [] out)) := by
  have hfile : ¬ "/build.prop".toList.isSuffixOf sampleArgs.filename = false := by decide
  have hmangle : mangleBuildProp (fun _ => none) [] props = some props := by
    unfold mangleBuildProp
    rw [husb]
    exact if_neg huffd
  unfold main
  rw [if_neg hfile, hread]
  rw [show sampleArgs.kernelVersionFile = [] from rfl, hmangle]
  dsimp only [pure_bind]
  rw [hnames, order.iterate_singleton, show sampleArgs.allowDup = false from rfl, hoverride]
  dsimp only
  rw [hgrf, hvalid]
  rfl

def lateText : Str :=
  "a=b?=c".toList

theorem readProps_lateText :
    readProps lateText = [ofParts "a=b".toList "c".toList true none] := by
  decide

theorem main_lateText
    (order : HashOrder Str) :
    main order (fun _ => none) sampleArgs lateText = .ok "a=b=c\n".toList :=
  main_of_oneName order _ [ofParts "a=b".toList "c".toList false none] readProps_lateText rfl
    (by decide) (by decide) (by decide) rfl rfl

def overriddenText : Str :=
  "a?=b\na=c".toList

def overriddenWritten : Str :=
  "# Removed by post_process_props.py because overridden by a=c\n#a?=b\na=c\n".toList

theorem main_overriddenText
    (order : HashOrder Str) :
    main order (fun _ => none) sampleArgs overriddenText = .ok overriddenWritten :=
  main_of_oneName order
    [ofParts "a".toList "b".toList true none, ofParts "a".toList "c".toList false none] _
    (by decide) rfl (by decide) (by decide) rfl rfl rfl

/-- A run is not always faithful: the program reads `a=b` for the name, and the value loses its
`?`. -/
theorem not_always_faithful :
    ¬ ∀ (order : HashOrder Str) (shouldEnableUffdGc : Str → Option Bool) (args : Args)
        (text written : Str), args.allowDup = false →
      main order shouldEnableUffdGc args text = .ok written →
      Faithful (chosenValue shouldEnableUffdGc args.kernelVersionFile (readProps text))
        args.disallowedKeys text written := by
  intro h
  have hfaithful := h default (fun _ => none) sampleArgs lateText _ rfl (main_lateText default)
  have hvalue := hfaithful.values ⟨"a".toList, "b=c".toList, false⟩ (by decide)
  have hnone : chosenValue (fun _ => none) [] (readProps lateText) "a".toList = none := by decide
  rw [Expected, show sampleArgs.kernelVersionFile = [] from rfl, hnone] at hvalue
  exact absurd (hvalue.1 ⟨"a".toList, "b?=c".toList, false⟩ (by decide) rfl rfl) (by decide)

/-- The run is faithful on the text with a default, and not on the text with two signs. -/
theorem main_faithful_iff_sampleTexts :
    (main default (fun _ => none) sampleArgs overriddenText = .ok overriddenWritten ∧
      Faithful (chosenValue (fun _ => none) [] (readProps overriddenText)) [] overriddenText
        overriddenWritten) ∧
    main default (fun _ => none) sampleArgs lateText = .ok "a=b=c\n".toList ∧
      ¬ Faithful (chosenValue (fun _ => none) [] (readProps lateText)) [] lateText
        "a=b=c\n".toList := by
  have hearly : ∀ line ∈ contentLines overriddenText, ¬ IsLate line := by decide
  refine ⟨⟨main_overriddenText default,
    (main_faithful_iff rfl (main_overriddenText default)).mpr ?_⟩, main_lateText default,
    fun h => ?_⟩
  · exact {
      names := by decide
      rewritten := fun _ _ hmem => absurd hmem List.not_mem_nil
      lateDropped := fun line hline hlate => absurd hlate (hearly line hline)
      latePut := fun line hline hlate => absurd hlate (hearly line hline)
      lateKept := fun line hline hlate => absurd hlate (hearly line hline) }
  · have hkept := ((main_faithful_iff rfl (main_lateText default)).mp h).lateKept lateText
      (by decide) (by decide) ⟨"a".toList, "b?=c".toList, false⟩ (by decide) (by decide) (by decide)
    exact absurd hkept.1 List.not_mem_nil

end Main

end PostProcessProps
end AndroidBuild
