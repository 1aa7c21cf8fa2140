import AndroidBuild.Lib.Strip
import AndroidBuild.PostProcessProps.PropList

/-!
# Reading the assignments of a build.prop file

A line is read as an assignment split at its first `=`, optional when a `?`
stands directly before it.  The program itself looks for `?=` anywhere in the
line first, so a line is *late* when the program finds `?=` behind an earlier
`=`.  Every other line is read as the program reads it.
-/

namespace AndroidBuild
namespace PostProcessProps

open Text BuildProp

section Readings

/-- An assignment as a reader of the file sees it. -/
structure Assignment where
  name : Str
  value : Str
  optional : Bool
  deriving DecidableEq, Repr

/-- Read a line as an assignment; `none` is a comment. -/
def readLine (line : Str) : Option Assignment :=
  if "#".toList.isPrefixOf line then none
  else
    match splitOnce "=".toList line with
    | none => none
    | some (front, value) =>
        if front.getLast? = some '?' then
          some ⟨stripChars front.dropLast, stripChars value, true⟩
        else some ⟨stripChars front, stripChars value, false⟩

def linesOf (text : Str) : List Str :=
  (fileLinesFrom [] text).map dropNewlines

def readings (text : Str) : List Assignment :=
  (linesOf text).filterMap readLine

/-- The comments of the text of a file; a blank line is none. -/
def commentLines (text : Str) : List Str :=
  (linesOf text).filter fun line => stripChars line ≠ [] ∧ readLine line = none

def contentLines (text : Str) : List Str :=
  (linesOf text).filter fun line => stripChars line ≠ []

end Readings

section SplitOnce

variable {sep : Str}

theorem splitOnce_eq_none_iff
    (hsep : sep ≠ []) {text : Str} :
    splitOnce sep text = none ↔ ¬ sep <:+: text := by
  induction text with
  | nil => simp [splitOnce, hsep]
  | cons c cs ih =>
      rw [splitOnce, List.infix_cons_iff, not_or]
      by_cases h : sep <+: c :: cs
      · simp [h]
      · rw [if_neg (by simpa using h), Option.map_eq_none_iff, ih]
        simp [h]

/-- The separator does not end inside the part in front of it. -/
theorem splitOnce_eq_some
    (hsep : sep ≠ []) {text front back : Str} (h : splitOnce sep text = some (front, back)) :
    text = front ++ sep ++ back ∧ ¬ sep <:+: front := by
  induction text generalizing front with
  | nil => simp [splitOnce] at h
  | cons c cs ih =>
      rw [splitOnce] at h
      split_ifs at h with hstart
      · obtain ⟨rfl, rfl⟩ : [] = front ∧ (c :: cs).drop sep.length = back := by
          simpa using h
        refine ⟨?_, by simpa using hsep⟩
        rw [List.nil_append]
        exact (List.prefix_iff_eq_append.mp (List.isPrefixOf_iff_prefix.mp hstart)).symm
      · obtain ⟨⟨front', back'⟩, hrest, heq⟩ := Option.map_eq_some_iff.mp h
        obtain ⟨rfl, rfl⟩ : c :: front' = front ∧ back' = back := by simpa using heq
        obtain ⟨rfl, hwithin⟩ := ih hrest
        refine ⟨by simp, ?_⟩
        rw [List.infix_cons_iff, not_or]
        refine ⟨fun hbegin => hstart ?_, hwithin⟩
        rw [List.isPrefixOf_iff_prefix]
        exact hbegin.trans ⟨sep ++ back', by simp⟩

theorem splitOnce_char
    {c : Char} {front : Str} (h : c ∉ front) (back : Str) :
    splitOnce [c] (front ++ c :: back) = some (front, back) := by
  induction front with
  | nil => simp [splitOnce]
  | cons d front ih =>
      rw [List.mem_cons, not_or] at h
      rw [List.cons_append, splitOnce, if_neg (by simpa using h.1), ih h.2]
      rfl

theorem splitOnce_char_none
    {c : Char} {text : Str} (h : c ∉ text) :
    splitOnce [c] text = none := by
  rw [splitOnce_eq_none_iff (by simp)]
  exact fun hwithin => h (hwithin.subset (by simp))

end SplitOnce

section Strips

theorem dropWhile_isSpace_append_cons
    {c : Char} (hc : isSpace c = false) (a b : Str) :
    (a ++ c :: b).dropWhile isSpace = a.dropWhile isSpace ++ c :: b := by
  rw [List.dropWhile_append]
  split_ifs with h
  · rw [List.isEmpty_iff.mp h, List.dropWhile_cons_of_neg (by simp [hc])]
    rfl
  · rfl

theorem rstripChars_append_cons
    {c : Char} (hc : isSpace c = false) (a b : Str) :
    rstripChars (a ++ c :: b) = a ++ c :: rstripChars b := by
  have hreverse : (a ++ c :: b).reverse = b.reverse ++ c :: a.reverse := by simp
  rw [rstripChars, hreverse, dropWhile_isSpace_append_cons hc]
  simp [rstripChars]

theorem stripChars_append_cons
    {c : Char} (hc : isSpace c = false) (a b : Str) :
    stripChars (a ++ c :: b) = a.dropWhile isSpace ++ c :: rstripChars b := by
  change rstripChars ((a ++ c :: b).dropWhile isSpace) = _
  rw [dropWhile_isSpace_append_cons hc, rstripChars_append_cons hc]

theorem stripChars_dropWhile
    (s : Str) :
    stripChars (s.dropWhile isSpace) = stripChars s := by
  unfold stripChars
  rw [dropWhile_isSpace_eq_self fun _ => head?_dropWhile_isSpace]

theorem head?_stripChars
    (s : Str) :
    (stripChars s).head? = (s.dropWhile isSpace).head? := by
  change (rstripChars (s.dropWhile isSpace)).head? = _
  cases hs : s.dropWhile isSpace with
  | nil => rfl
  | cons c cs =>
      have hc : isSpace c = false := head?_dropWhile_isSpace (s := s) (by rw [hs]; rfl)
      rw [← List.nil_append (c :: cs), rstripChars_append_cons hc]
      rfl

theorem length_dropWhile_le
    {a b : Str} (h : a <+: b) :
    (a.dropWhile isSpace).length ≤ (b.dropWhile isSpace).length := by
  obtain ⟨t, rfl⟩ := h
  rw [List.dropWhile_append]
  split_ifs with hempty
  · rw [List.isEmpty_iff.mp hempty]
    exact Nat.zero_le _
  · simp

theorem rstripChars_starts
    (s : Str) :
    rstripChars s <+: s := by
  rw [rstripChars, ← List.reverse_suffix, List.reverse_reverse]
  exact List.dropWhile_suffix _

theorem length_rstripChars_le
    {a b : Str} (h : a <:+ b) :
    (rstripChars a).length ≤ (rstripChars b).length := by
  rw [rstripChars, rstripChars, List.length_reverse, List.length_reverse]
  exact length_dropWhile_le (List.reverse_prefix.mpr h)

end Strips

section Newlines

theorem dropNewlines_eq_self
    {line : Str} (h : '\n' ∉ line) :
    dropNewlines line = line := by
  rw [dropNewlines, List.dropWhile_eq_self_iff.mpr, List.reverse_reverse]
  intro hpos
  have hmem := List.getElem_mem hpos
  rw [List.mem_reverse] at hmem
  simp only [decide_eq_true_eq]
  intro heq
  exact h (heq ▸ hmem)

theorem dropNewlines_append
    {line : Str} (h : '\n' ∉ line) :
    dropNewlines (line ++ ['\n']) = line := by
  have hline := dropNewlines_eq_self h
  unfold dropNewlines at hline ⊢
  rw [List.reverse_append, List.reverse_singleton, List.singleton_append,
    List.dropWhile_cons_of_pos (by simp), hline]

/-- A text that is on one line of a file. -/
def OneLine (text : Str) : Prop :=
  '\n' ∉ text ∧ '\r' ∉ text

theorem OneLine.of_subset
    {a b : Str} (h : OneLine b) (hsub : a ⊆ b) :
    OneLine a :=
  ⟨fun hmem => h.1 (hsub hmem), fun hmem => h.2 (hsub hmem)⟩

theorem OneLine.append
    {a b : Str} (ha : OneLine a) (hb : OneLine b) :
    OneLine (a ++ b) := by
  simp only [OneLine, List.mem_append, not_or]
  exact ⟨⟨ha.1, hb.1⟩, ha.2, hb.2⟩

theorem OneLine.stripChars
    {text : Str} (h : OneLine text) :
    OneLine (stripChars text) :=
  h.of_subset fun _ => mem_of_mem_stripChars

/-- A line of a file ends at its line feed, or is the last one. -/
theorem oneLine_of_mem_fileLinesFrom
    {line text l : Str} (hline : OneLine line) (h : l ∈ fileLinesFrom line text) :
    ∃ body, OneLine body ∧ (l = body ∨ l = body ++ ['\n']) := by
  have hempty : OneLine [] := ⟨List.not_mem_nil, List.not_mem_nil⟩
  fun_induction fileLinesFrom line text with
  | case1 => simp at h
  | case2 line _ => exact ⟨line, hline, Or.inl (List.mem_singleton.mp h)⟩
  | case3 line _ ih | case4 line _ _ _ _ ih =>
      rcases List.mem_cons.mp h with rfl | h
      · exact ⟨line, hline, Or.inr rfl⟩
      · exact ih hempty h
  | case5 line c _ _ hc ih =>
      rw [not_or] at hc
      refine ih (hline.append ?_) h
      simp only [OneLine, List.mem_singleton]
      exact ⟨fun heq => hc.1 heq.symm, fun heq => hc.2 heq.symm⟩

theorem oneLine_of_mem_linesOf
    {text line : Str} (h : line ∈ linesOf text) :
    OneLine line := by
  obtain ⟨l, hl, rfl⟩ := List.mem_map.mp h
  obtain ⟨body, hbody, rfl | rfl⟩ :=
    oneLine_of_mem_fileLinesFrom ⟨List.not_mem_nil, List.not_mem_nil⟩ hl
  · rwa [dropNewlines_eq_self hbody.1]
  · rwa [dropNewlines_append hbody.1]

theorem fileLinesFrom_append
    {l : Str} (h : OneLine l) (line rest : Str) :
    fileLinesFrom line (l ++ '\n' :: rest) = (line ++ l ++ ['\n']) :: fileLinesFrom [] rest := by
  induction l generalizing line with
  | nil =>
      rw [List.nil_append, List.append_nil, fileLinesFrom.eq_3 line '\n' rest (by simp)]
      simp
  | cons c l ih =>
      have hc : c ≠ '\n' ∧ c ≠ '\r' :=
        ⟨fun heq => h.1 (by simp [heq]), fun heq => h.2 (by simp [heq])⟩
      have hl : OneLine l := h.of_subset (List.subset_cons_self c l)
      rw [List.cons_append, fileLinesFrom.eq_3 line c (l ++ '\n' :: rest) (by
        rintro _ rfl _
        exact hc.2 rfl), if_neg (by simp [hc]), ih hl]
      simp

theorem linesOf_flatMap
    {lines : List Str} (h : ∀ line ∈ lines, OneLine line) :
    linesOf (lines.flatMap fun line => line ++ ['\n']) = lines := by
  induction lines with
  | nil => rfl
  | cons line lines ih =>
      rw [List.forall_mem_cons] at h
      have hrest := ih h.2
      unfold linesOf at hrest ⊢
      rw [List.flatMap_cons, List.append_assoc, List.singleton_append, fileLinesFrom_append h.1,
        List.map_cons, hrest, List.nil_append, dropNewlines_append h.1.1]

end Newlines

end PostProcessProps
end AndroidBuild
