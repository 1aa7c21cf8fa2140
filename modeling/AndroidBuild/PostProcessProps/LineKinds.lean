import AndroidBuild.PostProcessProps.Readings

/-!
# Lines as the program reads them

A line of a build.prop file is a comment, an assignment that the program reads
as any reader does, or a late one: there the program takes a text with a `=`
for the name.  What a late assignment prints is read back with a shorter value.
-/

namespace AndroidBuild
namespace PostProcessProps

open Text BuildProp

section Printed

def printed (name value : Str) : Str :=
  name ++ '=' :: value

/-- The assignment that the program reads off a line. -/
def BuildProp.reading (p : BuildProp) : Assignment :=
  ⟨p.name, p.value, p.optional⟩

/-- The program takes a text with a `=` for the name. -/
def IsLate (line : Str) : Prop :=
  '=' ∈ (fromLine line).name

instance : DecidablePred IsLate := fun line =>
  inferInstanceAs (Decidable ('=' ∈ (fromLine line).name))

theorem isPrefixOf_hash
    (line : Str) :
    "#".toList.isPrefixOf line = true ↔ line.head? = some '#' := by
  cases line with
  | nil => simp
  | cons c cs =>
      rw [List.head?_cons, Option.some.injEq, show "#".toList = ['#'] from rfl, List.isPrefixOf_cons_cons,
        List.isPrefixOf_nil_left, Bool.and_true, beq_iff_eq]
      exact eq_comm

theorem readLine_hash
    {line : Str} (h : line.head? = some '#') :
    readLine line = none := by
  rw [readLine, if_pos ((isPrefixOf_hash line).mpr h)]

theorem readLine_no_equals
    {line : Str} (h : '=' ∉ line) :
    readLine line = none := by
  rw [readLine]
  split_ifs
  · rfl
  · rw [show "=".toList = ['='] from rfl, splitOnce_char_none h]

/-- A line that is split at its first `=`. -/
theorem readLine_split
    {front : Str} (hfront : '=' ∉ front) (value : Str)
    (hhash : (front ++ '=' :: value).head? ≠ some '#') :
    readLine (front ++ '=' :: value) =
      if front.getLast? = some '?' then
        some ⟨stripChars front.dropLast, stripChars value, true⟩
      else some ⟨stripChars front, stripChars value, false⟩ := by
  rw [readLine, if_neg (by rwa [isPrefixOf_hash]), show "=".toList = ['='] from rfl,
    splitOnce_char hfront]

theorem head?_printed_ne_hash
    {name value : Str} (h : name.head? ≠ some '#') :
    (printed name value).head? ≠ some '#' := by
  cases name with
  | nil => simp [printed]
  | cons c cs => simpa [printed] using h

theorem head?_printed_hash
    {name value : Str} (h : name.head? = some '#') :
    (printed name value).head? = some '#' := by
  cases name with
  | nil => simp at h
  | cons c cs => simpa [printed] using h

theorem readLine_printed_hash
    {name : Str} (h : name.head? = some '#') (value : Str) :
    readLine (printed name value) = none :=
  readLine_hash (head?_printed_hash h)

theorem readLine_printed
    {name value : Str} (hname : '=' ∉ name) (hstripped : stripChars name = name)
    (hvalue : stripChars value = value) (hhash : name.head? ≠ some '#') :
    readLine (printed name value) =
      if name.getLast? = some '?' then some ⟨stripChars name.dropLast, value, true⟩
      else some ⟨name, value, false⟩ := by
  rw [printed, readLine_split hname value (head?_printed_ne_hash hhash), hstripped, hvalue]

theorem not_mem_equals_of_readLine
    {line : Str} {a : Assignment} (h : readLine line = some a) :
    '=' ∉ a.name := by
  rw [readLine] at h
  split_ifs at h
  split at h
  · cases h
  · next front value hsplit =>
    have hfront : '=' ∉ front := by
      have hnot := (splitOnce_eq_some (by simp) hsplit).2
      rwa [show "=".toList = ['='] from rfl, List.singleton_infix_iff] at hnot
    split_ifs at h <;> cases h
    · exact fun hmem => hfront (List.mem_of_mem_dropLast (mem_of_mem_stripChars hmem))
    · exact fun hmem => hfront (mem_of_mem_stripChars hmem)

end Printed

section Kinds

/-- A line in which the program finds `?=` behind an earlier `=`. -/
structure LateLine (line front middle back : Str) : Prop where
  text : line = front ++ '=' :: (middle ++ '?' :: '=' :: back)
  hash : line.head? ≠ some '#'
  first : '=' ∉ front
  mark : front.getLast? ≠ some '?'
  prop : fromLine line = ofParts (front ++ '=' :: middle) back true none

/-- What the program makes of a line, beside what a reader makes of it. -/
inductive LineKind (line : Str) : Prop
  | comment
      (read : readLine line = none)
      (prop : fromLine line = ofParts [] [] false (some line))
  | plain
      (read : readLine line = some (fromLine line).reading)
      (name : '=' ∉ (fromLine line).name)
      (value : (fromLine line).optional = false → ¬ "?=".toList <:+: (fromLine line).value)
      (comments : (fromLine line).comments = [])
  | late (front middle back : Str) (late : LateLine line front middle back)

theorem fromLine_hash
    {line : Str} (hline : '\n' ∉ line) (h : line.head? = some '#') :
    fromLine line = ofParts [] [] false (some line) := by
  simp only [fromLine, dropNewlines_eq_self hline]
  rw [if_pos ((isPrefixOf_hash line).mpr h)]

theorem fromLine_mark
    {line front back : Str} (hline : '\n' ∉ line) (hhash : line.head? ≠ some '#')
    (h : splitOnce "?=".toList line = some (front, back)) :
    fromLine line = ofParts front back true none := by
  simp only [fromLine, dropNewlines_eq_self hline]
  rw [if_neg (by rwa [isPrefixOf_hash]), h]

theorem fromLine_equals
    {line front back : Str} (hline : '\n' ∉ line) (hhash : line.head? ≠ some '#')
    (hmark : splitOnce "?=".toList line = none) (h : splitOnce "=".toList line = some (front, back)) :
    fromLine line = ofParts front back false none := by
  simp only [fromLine, dropNewlines_eq_self hline]
  rw [if_neg (by rwa [isPrefixOf_hash]), hmark]
  simp only [h]

theorem fromLine_none
    {line : Str} (hline : '\n' ∉ line) (hhash : line.head? ≠ some '#')
    (hmark : splitOnce "?=".toList line = none) (h : splitOnce "=".toList line = none) :
    fromLine line = ofParts [] [] false (some line) := by
  simp only [fromLine, dropNewlines_eq_self hline]
  rw [if_neg (by rwa [isPrefixOf_hash]), hmark]
  simp only [h]

theorem lineKind
    {line : Str} (hline : OneLine line) :
    LineKind line := by
  have hmarkNe : "?=".toList ≠ [] := by simp
  have hequalsNe : "=".toList ≠ [] := by simp
  by_cases hhash : line.head? = some '#'
  · exact .comment (readLine_hash hhash) (fromLine_hash hline.1 hhash)
  cases hmark : splitOnce "?=".toList line with
  | some parts =>
      obtain ⟨front, back⟩ := parts
      obtain ⟨htext, hnot⟩ := splitOnce_eq_some hmarkNe hmark
      have hprop := fromLine_mark hline.1 hhash hmark
      have htext' : line = (front ++ ['?']) ++ '=' :: back := by
        rw [htext]
        simp
      by_cases hfront : '=' ∈ front
      · obtain ⟨start, middle, rfl, hstart⟩ := List.eq_append_cons_of_mem hfront
        refine .late start middle back ⟨by rw [htext]; simp, hhash, hstart, ?_, hprop⟩
        intro hlast
        obtain ⟨init, rfl⟩ := List.getLast?_eq_some_iff.mp hlast
        exact hnot ⟨init, middle, by simp⟩
      · have hname : '=' ∉ front ++ ['?'] := by
          simpa using hfront
        rw [htext'] at hhash
        have hread := readLine_split hname back hhash
        rw [← htext', if_pos (by simp), List.dropLast_concat] at hread
        refine .plain (by rw [hread, hprop]; rfl) ?_ ?_ (by rw [hprop]; rfl)
        · rw [hprop]
          exact fun hmem => hfront (mem_of_mem_stripChars hmem)
        · rw [hprop]
          exact fun h => Bool.noConfusion h
  | none =>
      have hno := (splitOnce_eq_none_iff hmarkNe).mp hmark
      cases hequals : splitOnce "=".toList line with
      | none =>
          have hmem : '=' ∉ line := by
            have hnot := (splitOnce_eq_none_iff hequalsNe).mp hequals
            rwa [show "=".toList = ['='] from rfl, List.singleton_infix_iff] at hnot
          exact .comment (readLine_no_equals hmem) (fromLine_none hline.1 hhash hmark hequals)
      | some parts =>
          obtain ⟨front, back⟩ := parts
          obtain ⟨htext, hnot⟩ := splitOnce_eq_some hequalsNe hequals
          have hprop := fromLine_equals hline.1 hhash hmark hequals
          have hfront : '=' ∉ front := by
            rwa [show "=".toList = ['='] from rfl, List.singleton_infix_iff] at hnot
          have htext' : line = front ++ '=' :: back := by
            rw [htext]
            simp
          have hlast : front.getLast? ≠ some '?' := by
            intro hlast
            obtain ⟨init, rfl⟩ := List.getLast?_eq_some_iff.mp hlast
            exact hno ⟨init, back, by rw [htext]; simp⟩
          have hread := readLine_split hfront back (htext' ▸ hhash)
          rw [← htext', if_neg hlast] at hread
          refine .plain (by rw [hread, hprop]; rfl) ?_ ?_ (by rw [hprop]; rfl)
          · rw [hprop]
            exact fun hmem => hfront (mem_of_mem_stripChars hmem)
          · rw [hprop]
            intro _ hwithin
            refine hno ((hwithin.trans (isInfix_stripChars back)).trans ?_)
            exact ⟨front ++ "=".toList, [], by rw [htext, List.append_nil]⟩

end Kinds

section Late

variable {line front middle back : Str}

theorem LateLine.name_eq
    (h : LateLine line front middle back) :
    (fromLine line).name = front.dropWhile isSpace ++ '=' :: rstripChars middle := by
  rw [h.prop]
  exact stripChars_append_cons (by decide) front middle

theorem LateLine.isLate
    (h : LateLine line front middle back) :
    IsLate line := by
  rw [IsLate, h.name_eq]
  simp

theorem LateLine.read
    (h : LateLine line front middle back) :
    readLine line =
      some ⟨stripChars front, stripChars (middle ++ '?' :: '=' :: back), false⟩ := by
  have hread := readLine_split h.first (middle ++ '?' :: '=' :: back) (h.text ▸ h.hash)
  rwa [← h.text, if_neg h.mark] at hread

theorem LateLine.hash_iff
    (h : LateLine line front middle back) :
    (stripChars front).head? = some '#' ↔ (fromLine line).name.head? = some '#' := by
  rw [h.name_eq, head?_stripChars, List.head?_append]
  cases front.dropWhile isSpace with
  | nil => simp
  | cons c cs => simp

/-- What the printed form of a late assignment is read as. -/
theorem LateLine.read_printed
    (h : LateLine line front middle back) (hhash : (stripChars front).head? ≠ some '#')
    (value : Str) :
    readLine (printed (fromLine line).name value) =
      some ⟨stripChars front, stripChars (rstripChars middle ++ '=' :: value), false⟩ := by
  have hhead : (printed (fromLine line).name value).head? ≠ some '#' :=
    head?_printed_ne_hash (mt h.hash_iff.mpr hhash)
  have htext : printed (fromLine line).name value =
      front.dropWhile isSpace ++ '=' :: (rstripChars middle ++ '=' :: value) := by
    rw [printed, h.name_eq]
    simp
  have hfirst : '=' ∉ front.dropWhile isSpace :=
    fun hmem => h.first ((List.dropWhile_suffix _).subset hmem)
  have hmark : (front.dropWhile isSpace).getLast? ≠ some '?' := by
    intro hlast
    obtain ⟨spaces, hspaces⟩ := List.dropWhile_suffix isSpace (l := front)
    refine h.mark ?_
    rw [← hspaces, List.getLast?_append, hlast]
    rfl
  rw [htext] at hhead ⊢
  rw [readLine_split hfirst _ hhead, if_neg hmark, stripChars_dropWhile]

theorem length_merged_lt
    (middle back : Str) :
    (stripChars (rstripChars middle ++ '=' :: stripChars back)).length <
      (stripChars (middle ++ '?' :: '=' :: back)).length := by
  have hequals : rstripChars ('=' :: back) = '=' :: rstripChars back := by
    simpa using rstripChars_append_cons (c := '=') (by decide) [] back
  rw [stripChars_append_cons (by decide), stripChars_append_cons (by decide), hequals]
  have hmiddle := length_dropWhile_le (rstripChars_starts middle)
  have hstrip : (rstripChars (stripChars back)).length ≤ (rstripChars back).length := by
    calc (rstripChars (stripChars back)).length
        ≤ (stripChars back).length := (rstripChars_starts _).length_le
      _ = (rstripChars (back.dropWhile isSpace)).length := rfl
      _ ≤ (rstripChars back).length := length_rstripChars_le (List.dropWhile_suffix _)
  simp only [List.length_append, List.length_cons]
  omega

/-- A late line with what a reader takes it for, and `merged value` as what is read where the
name is printed with `value`. -/
structure LateReading (line : Str) (a : Assignment) (merged : Str → Str) : Prop where
  read : readLine line = some a
  required : a.optional = false
  mark : "?=".toList <:+: a.value
  optional : (fromLine line).optional = true
  comments : (fromLine line).comments = []
  hash : a.name.head? = some '#' ↔ (fromLine line).name.head? = some '#'
  printed : a.name.head? ≠ some '#' → ∀ value,
    readLine (printed (fromLine line).name value) = some ⟨a.name, merged value, false⟩
  shorter : (merged (fromLine line).value).length < a.value.length

theorem LateLine.reading
    (h : LateLine line front middle back) :
    LateReading line ⟨stripChars front, stripChars (middle ++ '?' :: '=' :: back), false⟩
      fun value => stripChars (rstripChars middle ++ '=' :: value) where
  read := h.read
  required := rfl
  mark := by
    rw [stripChars_append_cons (by decide), show '=' :: back = [] ++ '=' :: back from rfl,
      rstripChars_append_cons (by decide)]
    exact ⟨middle.dropWhile isSpace, rstripChars back, by simp⟩
  optional := by
    rw [h.prop]
    rfl
  comments := by
    rw [h.prop]
    rfl
  hash := h.hash_iff
  printed := h.read_printed
  shorter := by
    rw [h.prop]
    exact length_merged_lt middle back

end Late

section Parts

/-- The parts of what the program reads are parts of the line. -/
theorem fromLine_parts
    {line : Str} (hline : OneLine line) :
    (∃ name value optional, fromLine line = ofParts name value optional none ∧
      name ⊆ line ∧ value ⊆ line) ∨
    fromLine line = ofParts [] [] false (some line) := by
  by_cases hhash : line.head? = some '#'
  · exact Or.inr (fromLine_hash hline.1 hhash)
  cases hmark : splitOnce "?=".toList line with
  | some parts =>
      obtain ⟨front, back⟩ := parts
      have htext := (splitOnce_eq_some (by simp) hmark).1
      refine Or.inl ⟨front, back, true, fromLine_mark hline.1 hhash hmark, ?_, ?_⟩ <;>
        simp [htext, List.subset_def] <;> tauto
  | none =>
      cases hequals : splitOnce "=".toList line with
      | none => exact Or.inr (fromLine_none hline.1 hhash hmark hequals)
      | some parts =>
          obtain ⟨front, back⟩ := parts
          have htext := (splitOnce_eq_some (by simp) hequals).1
          refine Or.inl ⟨front, back, false, fromLine_equals hline.1 hhash hmark hequals, ?_, ?_⟩ <;>
            simp [htext, List.subset_def] <;> tauto

end Parts

end PostProcessProps
end AndroidBuild
