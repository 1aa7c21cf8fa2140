import AndroidBuild.Lib.Text

/-!
# Lines of a text

`str.splitlines`, the lines of a file opened in text mode, and the splits of a
line at the first separator.
-/

namespace AndroidBuild
namespace Text

section Lines

/-- The line boundaries of `str.splitlines`, next to the pair of a carriage return and a
line feed. -/
def isLineBreak (c : Char) : Bool :=
  let n := c.toNat
  (10 ≤ n && n ≤ 13) || (28 ≤ n && n ≤ 30) || n == 133 || n == 8232 || n == 8233

/-- The lines of a text, `line` being the part of the current line already read. -/
def splitLinesFrom (line : List Char) : List Char → List (List Char)
  | [] => if line = [] then [] else [line]
  | '\r' :: '\n' :: cs => line :: splitLinesFrom [] cs
  | c :: cs =>
      if isLineBreak c then line :: splitLinesFrom [] cs
      else splitLinesFrom (line ++ [c]) cs

/-- `s.splitlines()`. -/
def splitLines (s : String) : List String :=
  (splitLinesFrom [] s.toList).map String.ofList

/-- The lines of a file opened in text mode, which end at a line feed, a carriage return or
both, `line` being the part of the current line already read. -/
def fileLinesFrom (line : List Char) : List Char → List (List Char)
  | [] => if line = [] then [] else [line]
  | '\r' :: '\n' :: cs => (line ++ ['\n']) :: fileLinesFrom [] cs
  | c :: cs =>
      if c = '\n' ∨ c = '\r' then (line ++ ['\n']) :: fileLinesFrom [] cs
      else fileLinesFrom (line ++ [c]) cs

/-- `for line in f`. -/
def fileLines (s : String) : List String :=
  (fileLinesFrom [] s.toList).map String.ofList

end Lines

section Splits

/-- `s.rstrip()`, on characters. -/
def rstripChars (cs : List Char) : List Char :=
  (cs.reverse.dropWhile isSpace).reverse

/-- `first, rest = s.split(None, 1)`; `none` is the `ValueError` of the assignment. -/
def splitWord (cs : List Char) : Option (String × String) :=
  let cs := cs.dropWhile isSpace
  let word := cs.takeWhile (fun c => !isSpace c)
  let rest := (cs.dropWhile (fun c => !isSpace c)).dropWhile isSpace
  if word = [] ∨ rest = [] then none else some (String.ofList word, String.ofList rest)

/-- `first, rest = s.split(sep, 1)`; `none` is the `ValueError` of the assignment. -/
def splitFirst (sep : Char) (cs : List Char) : Option (String × String) :=
  if sep ∈ cs then
    some (String.ofList (cs.takeWhile (fun c => decide (c ≠ sep))),
      String.ofList ((cs.dropWhile (fun c => decide (c ≠ sep))).drop 1))
  else none

end Splits

section SplitJoin

theorem splitLinesFrom_cons
    {c : Char} (hc : isLineBreak c = false) (line cs : List Char) :
    splitLinesFrom line (c :: cs) = splitLinesFrom (line ++ [c]) cs := by
  rw [splitLinesFrom.eq_3 line c cs ?_, hc]
  · rfl
  · rintro cs' rfl _
    exact absurd hc (by decide)

/-- The lines of a text hold no line boundary. -/
theorem not_isLineBreak_of_mem
    {line cs : List Char} (hline : ∀ c ∈ line, isLineBreak c = false) :
    ∀ l ∈ splitLinesFrom line cs, ∀ c ∈ l, isLineBreak c = false := by
  fun_induction splitLinesFrom line cs with
  | case1 => simp
  | case2 line hne =>
      intro l hl
      rw [List.mem_singleton.mp hl]
      exact hline
  | case3 line cs ih =>
      exact List.forall_mem_cons.mpr ⟨hline, ih (by simp)⟩
  | case4 line c cs hnot hbreak ih =>
      exact List.forall_mem_cons.mpr ⟨hline, ih (by simp)⟩
  | case5 line c cs hnot hbreak ih =>
      apply ih
      intro d hd
      rcases List.mem_append.mp hd with hd | hd
      · exact hline d hd
      · rw [List.mem_singleton.mp hd]
        simpa using hbreak

theorem splitLinesFrom_append
    {l : List Char} (hl : ∀ c ∈ l, isLineBreak c = false) (line rest : List Char) :
    splitLinesFrom line (l ++ rest) = splitLinesFrom (line ++ l) rest := by
  induction l generalizing line with
  | nil => simp
  | cons c l ih =>
      rw [List.forall_mem_cons] at hl
      rw [List.cons_append, splitLinesFrom_cons hl.1, ih hl.2, List.append_assoc]
      rfl

theorem splitLinesFrom_newline
    (line rest : List Char) :
    splitLinesFrom line ('\n' :: rest) = line :: splitLinesFrom [] rest := by
  rw [splitLinesFrom.eq_3 line '\n' rest (by simp)]
  rfl

/-- `splitlines` undoes the joining of lines. -/
theorem splitLines_join
    {lines : List String}
    (h : ∀ l ∈ lines, l.toList ≠ [] ∧ ∀ c ∈ l.toList, isLineBreak c = false) :
    splitLines (join '\n' lines) = lines := by
  unfold splitLines
  induction lines with
  | nil => rfl
  | cons l lines ih =>
      rw [List.forall_mem_cons] at h
      cases lines with
      | nil =>
          have hsplit := splitLinesFrom_append h.1.2 [] []
          rw [List.append_nil, List.nil_append, splitLinesFrom, if_neg h.1.1] at hsplit
          rw [join, hsplit]
          simp
      | cons l' lines =>
          rw [join.eq_3 '\n' l (l' :: lines) (by simp), String.toList_append, String.toList_append,
            List.append_assoc, splitLinesFrom_append h.1.2]
          have hsep : (String.singleton '\n').toList ++ (join '\n' (l' :: lines)).toList =
              '\n' :: (join '\n' (l' :: lines)).toList := by simp
          rw [hsep, splitLinesFrom_newline, List.map_cons, ih h.2, List.nil_append,
            String.ofList_toList]

theorem mem_splitLines
    {text line : String} (h : line ∈ splitLines text) :
    ∀ c ∈ line.toList, isLineBreak c = false := by
  obtain ⟨l, hl, rfl⟩ := List.mem_map.mp h
  rw [String.toList_ofList]
  exact not_isLineBreak_of_mem (by simp) l hl

end SplitJoin

end Text
end AndroidBuild
