import AndroidBuild.SignTargetFilesApks.AvbPrinting

/-!
# Reading printed AVB information back

The trees that `ParseAvbInfo` gives back.  An empty value is taken for the start
of a block, and the property matcher splits at the last arrow with a quoted text
behind it, which has to be non-empty.
-/

namespace AndroidBuild
namespace SignTargetFilesApks

open Text

section Properties

/-- The matcher of a property finds an arrow in the value. -/
def HasArrow (value : Str) : Prop :=
  ∃ front b b' tail, isSpace b = true ∧ isSpace b' = true ∧ tail ≠ [] ∧
    value = front ++ b :: '-' :: '>' :: b' :: '\'' :: tail

theorem quoted_concat
    (value : Str) :
    quoted (value ++ ['\'']) = if value = [] then none else some value := by
  rw [quoted, List.reverse_append, List.reverse_singleton, List.singleton_append,
    List.dropWhile_cons_of_neg (by decide), List.drop_one, List.tail_cons, List.reverse_reverse]

theorem arrowValue_arrow
    {b b' : Char} (hb : isSpace b = true) (hb' : isSpace b' = true) (rest : Str) :
    arrowValue (b :: '-' :: '>' :: b' :: '\'' :: rest) = quoted rest := by
  rw [arrowValue, hb, hb']
  rfl

theorem of_arrowValue
    {s value : Str} (h : arrowValue s = some value) :
    ∃ b b' rest, isSpace b = true ∧ isSpace b' = true ∧
      s = b :: '-' :: '>' :: b' :: '\'' :: rest ∧ quoted rest = some value := by
  unfold arrowValue at h
  split at h
  · rename_i b b' rest
    split_ifs at h with hblank
    rw [Bool.and_eq_true] at hblank
    exact ⟨b, b', rest, hblank.1, hblank.2, rfl, h⟩
  · cases h

/-- The groups of a match. -/
theorem of_matchPropFrom
    {before text key value : Str} (h : matchPropFrom before text = some (key, value)) :
    key ≠ [] ∧ ∃ front rest, text = front ++ rest ∧ key = before ++ front ∧
      arrowValue rest = some value := by
  induction text generalizing before with
  | nil => cases h
  | cons c text ih =>
      rw [matchPropFrom] at h
      cases hlonger : matchPropFrom (before ++ [c]) text with
      | some groups =>
          rw [hlonger] at h
          cases h
          obtain ⟨hne, front, rest, htext, hkey, hvalue⟩ := ih hlonger
          refine ⟨hne, c :: front, rest, by rw [htext, List.cons_append], ?_, hvalue⟩
          rw [hkey, List.append_assoc, List.singleton_append]
      | none =>
          rw [hlonger] at h
          dsimp only at h
          split_ifs at h with hbefore
          obtain ⟨v, hv, hpair⟩ := Option.map_eq_some_iff.mp h
          cases hpair
          exact ⟨hbefore, [], _, rfl, (List.append_nil _).symm, hv⟩

/-- The first group of a match is as long as possible. -/
theorem matchPropFrom_longest
    {before front rest value : Str} (hne : before ++ front ≠ [])
    (h : arrowValue rest = some value) :
    ∃ groups, matchPropFrom before (front ++ rest) = some groups ∧
      (before ++ front).length ≤ groups.1.length := by
  induction front generalizing before with
  | nil =>
      obtain ⟨b, b', tail, _, _, rfl, _⟩ := of_arrowValue h
      rw [List.append_nil] at hne ⊢
      rw [List.nil_append, matchPropFrom]
      cases hlonger : matchPropFrom (before ++ [b]) ('-' :: '>' :: b' :: '\'' :: tail) with
      | some groups =>
          obtain ⟨key, value'⟩ := groups
          obtain ⟨_, front, _, _, hkey, _⟩ := of_matchPropFrom hlonger
          refine ⟨_, rfl, ?_⟩
          simp [hkey]
      | none =>
          refine ⟨(before, value), ?_, le_refl _⟩
          dsimp only
          rw [if_neg hne, h]
          rfl
  | cons c front ih =>
      have hne' : before ++ [c] ++ front ≠ [] := by
        simp
      obtain ⟨groups, hmatch, hlen⟩ := ih hne'
      refine ⟨groups, ?_, ?_⟩
      · rw [List.cons_append, matchPropFrom, hmatch]
      · rw [List.append_assoc, List.singleton_append] at hlen
        exact hlen

theorem stripChars_of_ends
    {c d : Char} (hc : isSpace c = false) (hd : isSpace d = false) (cs : Str) :
    stripChars (c :: (cs ++ [d])) = c :: (cs ++ [d]) := by
  have hreverse : (c :: (cs ++ [d])).reverse = d :: (cs.reverse ++ [c]) := by
    simp
  rw [stripChars, List.dropWhile_cons_of_neg (by simp [hc]), hreverse,
    List.dropWhile_cons_of_neg (by simp [hd]), ← hreverse, List.reverse_reverse]

theorem strip_propText
    {key : Str} (hkey : ∀ c ∈ key, isSpace c = false) (hne : key ≠ []) (value : Str) :
    stripChars (propText key value) = propText key value := by
  obtain ⟨c, rest, rfl⟩ := List.exists_cons_of_ne_nil hne
  have hsplit : propText (c :: rest) value =
      c :: ((rest ++ ' ' :: '-' :: '>' :: ' ' :: '\'' :: value) ++ ['\'']) := by
    simp [propText]
  rw [hsplit]
  exact stripChars_of_ends (hkey c List.mem_cons_self) (by decide) _

/-- A match behind the first arrow needs an arrow in the value. -/
theorem hasArrow_of_split
    {value front rest found : Str} (hne : front ≠ [])
    (hsplit : ' ' :: '-' :: '>' :: ' ' :: '\'' :: (value ++ ['\'']) = front ++ rest)
    (hfound : arrowValue rest = some found) :
    HasArrow value := by
  obtain ⟨b, b', tail, hb, hb', hrest, hquoted⟩ := of_arrowValue hfound
  subst hrest
  -- the second match starts in the value: no character of the first arrow can begin it
  obtain ⟨inner, hinner⟩ : ∃ inner,
      value ++ ['\''] = inner ++ b :: '-' :: '>' :: b' :: '\'' :: tail := by
    rcases front with _ | ⟨_, _ | ⟨_, _ | ⟨_, _ | ⟨_, _ | ⟨_, inner⟩⟩⟩⟩⟩
    · exact absurd rfl hne
    · cases hsplit
    · cases hsplit
    · cases hsplit
    · simp only [List.cons_append, List.nil_append, List.cons.injEq] at hsplit
      obtain ⟨_, _, _, _, rfl, _⟩ := hsplit
      exact absurd hb (by decide)
    · simp only [List.cons_append, List.cons.injEq] at hsplit
      exact ⟨inner, hsplit.2.2.2.2.2⟩
  have htail : tail ≠ [] := by
    rintro rfl
    cases hquoted
  obtain ⟨tail', last, rfl⟩ : ∃ tail' last, tail = tail' ++ [last] :=
    ⟨tail.dropLast, tail.getLast htail, (List.dropLast_append_getLast htail).symm⟩
  have hconcat : inner ++ b :: '-' :: '>' :: b' :: '\'' :: (tail' ++ [last]) =
      (inner ++ b :: '-' :: '>' :: b' :: '\'' :: tail') ++ [last] := by
    simp
  rw [hconcat] at hinner
  obtain ⟨hvalue, hlast⟩ := List.append_inj' hinner rfl
  cases hlast
  refine ⟨inner, b, b', tail', hb, hb', ?_, hvalue⟩
  rintro rfl
  rw [quoted_concat] at hquoted
  cases hquoted

theorem matchProp_propText
    {key : Str} (hkey : ∀ c ∈ key, isSpace c = false) (value : Str) :
    matchProp (stripChars (propText key value)) = some (key, value) ↔
      key ≠ [] ∧ value ≠ [] ∧ ¬ HasArrow value := by
  have harrow : arrowValue (' ' :: '-' :: '>' :: ' ' :: '\'' :: (value ++ ['\''])) =
      if value = [] then none else some value := by
    rw [arrowValue_arrow (by decide) (by decide), quoted_concat]
  constructor
  · intro h
    have hne := (of_matchPropFrom h).1
    rw [strip_propText hkey hne] at h
    obtain ⟨_, front, rest, htext, hfront, hvalue⟩ := of_matchPropFrom h
    rw [List.nil_append] at hfront
    subst hfront
    rw [← List.append_cancel_left htext, harrow] at hvalue
    refine ⟨hne, ?_, ?_⟩
    · rintro rfl
      cases hvalue
    · rintro ⟨inner, b, b', tail, hb, hb', htail, rfl⟩
      have hinner : arrowValue (b :: '-' :: '>' :: b' :: '\'' :: (tail ++ ['\''])) =
          some tail := by
        rw [arrowValue_arrow hb hb', quoted_concat, if_neg htail]
      have hfront : [] ++ (key ++ ' ' :: '-' :: '>' :: ' ' :: '\'' :: inner) ≠ [] := by
        simp
      obtain ⟨groups, hmatch, hlen⟩ := matchPropFrom_longest hfront hinner
      have htext' : (key ++ ' ' :: '-' :: '>' :: ' ' :: '\'' :: inner) ++
            b :: '-' :: '>' :: b' :: '\'' :: (tail ++ ['\'']) =
          propText key (inner ++ b :: '-' :: '>' :: b' :: '\'' :: tail) := by
        simp [propText]
      rw [htext'] at hmatch
      rw [matchProp, hmatch] at h
      rw [Option.some.inj h] at hlen
      simp only [List.nil_append, List.length_append, List.length_cons] at hlen
      omega
  · rintro ⟨hne, hvalue, hno⟩
    rw [if_neg hvalue] at harrow
    rw [strip_propText hkey hne]
    have hkey' : [] ++ key ≠ [] := hne
    obtain ⟨⟨front, found⟩, hmatch, hlen⟩ := matchPropFrom_longest hkey' harrow
    obtain ⟨_, front', rest, htext, hfront, hfound⟩ := of_matchPropFrom hmatch
    rw [List.nil_append] at hfront hlen
    subst hfront
    change matchPropFrom [] (propText key value) = _
    refine hmatch.trans ?_
    rcases List.append_eq_append_iff.mp htext with ⟨extra, hextra, hrest⟩ | ⟨extra, hextra, hrest⟩
    · by_cases hnil : extra = []
      · subst hnil
        rw [List.nil_append] at hrest
        rw [List.append_nil] at hextra
        rw [← hrest, harrow] at hfound
        rw [hextra, Option.some.inj hfound]
      · exact absurd (hasArrow_of_split hnil hrest hfound) hno
    · have hnil : extra = [] := by
        rw [hextra, List.length_append] at hlen
        exact List.length_eq_zero_iff.mp (by dsimp only at hlen; omega)
      subst hnil
      rw [List.nil_append] at hrest
      rw [List.append_nil] at hextra
      rw [hrest, harrow] at hfound
      rw [← hextra, Option.some.inj hfound]

end Properties

section RoundTrip

/-- A field whose value is no block for the parser. -/
structure ReadableField (f : Str × Str) : Prop where
  value_ne_nil : f.2 ≠ []
  value_strip : stripChars f.2 = f.2
  name_ne : f.1 ≠ "Prop".toList

def Descriptor.Readable : Descriptor → Prop
  | .block title fields =>
      title ≠ "Descriptors".toList ∧ ∀ f ∈ fields, ReadableField f
  | .prop key value => key ≠ [] ∧ value ≠ [] ∧ ¬ HasArrow value

def AvbTree.Readable (t : AvbTree) : Prop :=
  (∀ f ∈ t.fields, ReadableField f) ∧ ∀ d ∈ t.descriptors, d.Readable

theorem parsedField_iff
    {f : Str × Str} :
    parsedField f = .ok (f.1, .text f.2) ↔ ReadableField f := by
  rw [parsedField]
  constructor
  · intro h
    split_ifs at h with hvalue hkey hprop
    · cases h
    · split at h <;> cases h
    · have hstrip : stripChars f.2 = f.2 := by
        simpa using h
      refine ⟨?_, hstrip, hprop⟩
      rwa [← hstrip]
  · rintro ⟨hvalue, hstrip, hprop⟩
    rw [hstrip, if_neg hvalue, if_neg hprop]

theorem mapM_parsedField_iff
    {fields : List (Str × Str)} :
    fields.mapM parsedField = .ok (textEntries fields) ↔ ∀ f ∈ fields, ReadableField f := by
  rw [textEntries, Loop.mapM_eq_ok_map]
  exact forall₂_congr fun _ _ => parsedField_iff

theorem parsedDescriptor_iff
    {d : Descriptor} (hd : d.WellFormed) :
    parsedDescriptor d = .ok d.toInfo ↔ d.Readable := by
  cases d with
  | block title fields =>
      rw [parsedDescriptor, Descriptor.toInfo, Descriptor.Readable, ← mapM_parsedField_iff]
      split_ifs with htitle
      · exact iff_of_false (fun h => by cases h) (fun h => h.1 htitle)
      · rw [and_iff_right htitle]
        cases fields.mapM parsedField with
        | error e => exact iff_of_false (fun h => by cases h) (fun h => by cases h)
        | ok entries =>
            change Except.ok (Info.dict [(title, .dict entries)]) = _ ↔ _
            simp
  | prop key value =>
      rw [parsedDescriptor, Descriptor.toInfo, Descriptor.Readable,
        ← matchProp_propText hd.1 value]
      cases matchProp (stripChars (propText key value)) with
      | none => exact iff_of_false (fun h => by cases h) (fun h => by cases h)
      | some groups =>
          obtain ⟨k, v⟩ := groups
          simp

/-- A printed tree is read back exactly when it is readable. -/
theorem parseAvbInfo_print_iff
    (layout : Layout) {t : AvbTree} (ht : t.WellFormed) :
    parseAvbInfo (t.print layout) = .ok t.toInfo ↔ t.Readable := by
  have hdescriptors : t.descriptors.mapM parsedDescriptor =
      .ok (t.descriptors.map Descriptor.toInfo) ↔ ∀ d ∈ t.descriptors, d.Readable := by
    rw [Loop.mapM_eq_ok_map]
    exact forall₂_congr fun d hd => parsedDescriptor_iff (ht.descriptors d hd)
  rw [parseAvbInfo_print layout ht, AvbTree.Readable, ← mapM_parsedField_iff, ← hdescriptors,
    AvbTree.parsed, Loop.bind_eq_ok]
  constructor
  · rintro ⟨entries, hentries, h⟩
    obtain ⟨items, hitems, h⟩ := Loop.bind_eq_ok.mp h
    rw [AvbTree.toInfo, Except.ok.injEq, Info.dict.injEq] at h
    obtain ⟨rfl, hlast⟩ := List.append_inj' h rfl
    simp only [List.cons.injEq, Prod.mk.injEq, Info.list.injEq, true_and, and_true] at hlast
    subst hlast
    exact ⟨hentries, hitems⟩
  · rintro ⟨hentries, hitems⟩
    exact ⟨_, hentries, Loop.bind_eq_ok.mpr ⟨_, hitems, rfl⟩⟩

end RoundTrip

section Samples

def sampleLayout : Layout where
  outer := 0
  descriptor := 4
  field := 6
  pad := fun _ => 1
  outer_lt := by decide
  descriptor_lt := by decide

def sampleTree (salt : String) : AvbTree where
  fields := [("Image size".toList, "4096 bytes".toList)]
  descriptors :=
    [.block "Hashtree descriptor".toList
      [("Salt".toList, salt.toList), ("Root Digest".toList, "ef:01".toList)],
      .prop "prop.key".toList "it's".toList]

/-- A tree without empty values is read back. -/
theorem parseAvbInfo_print_sample :
    parseAvbInfo ((sampleTree "cd").print sampleLayout) = .ok (sampleTree "cd").toInfo := by
  have hwf : (sampleTree "cd").WellFormed := by
    decide +kernel
  rw [parseAvbInfo_print_iff sampleLayout hwf]
  refine ⟨fun f hf => ?_, fun d hd => ?_⟩
  · obtain rfl := List.mem_singleton.mp hf
    exact ⟨by decide, by decide, by decide⟩
  · rcases List.mem_cons.mp hd with rfl | hd
    · refine ⟨by decide, fun f hf => ?_⟩
      rcases List.mem_cons.mp hf with rfl | hf
      · exact ⟨by decide, by decide, by decide⟩
      · obtain rfl := List.mem_singleton.mp hf
        exact ⟨by decide, by decide, by decide⟩
    · obtain rfl := List.mem_singleton.mp hd
      refine ⟨by decide, by decide, ?_⟩
      rintro ⟨front, b, b', tail, _, _, _, h⟩
      have hdash : '-' ∈ "it's".toList := by
        rw [h]
        simp
      revert hdash
      decide

/-- An empty salt ends in an exception. -/
theorem parseAvbInfo_emptySalt :
    (sampleTree "").WellFormed ∧
      parseAvbInfo ((sampleTree "").print sampleLayout) = .error .attributeError := by
  refine ⟨by decide +kernel, by rfl⟩

end Samples

end SignTargetFilesApks
end AndroidBuild
