import AndroidBuild.Lib.IntLiteral
import AndroidBuild.Lib.OrderedDict
import AndroidBuild.Lib.Strip
import AndroidBuild.Lib.TextLines

/-!
# Event log tag files

`TagFile` of `event_log_tags.py`, which reads the lines of a file into tags,
and the line that a tag is written as.
-/

namespace AndroidBuild
namespace EventLogTags

open Text (Str)

/-- What a line tells of a tag. -/
@[ext] structure TagData where
  tagnum : Int
  tagname : Str
  description : Option Str
deriving DecidableEq

structure Tag extends TagData where
  filename : Str
  linenum : Nat
deriving DecidableEq

/-- An error or a warning with its file and line. -/
abbrev Message :=
  Str × Nat × Str

section Lines

/-- `re.split(r"\s+", line, 2)`, for a line without spaces around it. -/
def splitTwice (line : Str) : List Str :=
  let first := line.takeWhile fun c => !Text.isSpace c
  match (line.dropWhile fun c => !Text.isSpace c).dropWhile Text.isSpace with
  | [] => [first]
  | c :: cs =>
      let second := (c :: cs).takeWhile fun c => !Text.isSpace c
      match ((c :: cs).dropWhile fun c => !Text.isSpace c).dropWhile Text.isSpace with
      | [] => [first, second]
      | d :: ds => [first, second, d :: ds]

/-- `re.match(r"\(.*\)\s*$", description)`. -/
def inParens : Str → Bool
  | [] => false
  | c :: cs => c = '(' && (Text.rstripChars cs).getLast? = some ')'

/-- The line without its comment and the spaces around it. -/
def stripComment (line : Str) : Str :=
  Text.stripChars (line.takeWhile (· ≠ '#'))

/-- What `TagFile` makes of a line. -/
inductive LineResult where
  | blank
  | option (key : Str) (rest : List Str)
  | tag (t : TagData)
  | error (message : Str)
deriving DecidableEq

variable (U : Unicode)

/-- One round of the loop of `TagFile.__init__`. -/
def readLine (line : Str) : LineResult :=
  let line := stripComment line
  if line = [] then .blank
  else
    match splitTwice line with
    | first :: tagname :: rest =>
        if first = "option".toList then .option tagname rest
        else
          match IntLiteral.readInt U 10 first with
          | none => .error ("\"".toList ++ first ++ "\" isn't an integer tag".toList)
          | some tag =>
              match rest.head? with
              | none => .tag ⟨tag, tagname, none⟩
              | some description =>
                  if description ≠ [] ∧ inParens description = false then
                    .error ("tag \"".toList ++ tagname ++ "\" has unparseable description".toList)
                  else .tag ⟨tag, tagname, some description⟩
    | _ => .error ("failed to parse \"".toList ++ line ++ "\"".toList)

/-- The tags and the errors of a file. -/
structure TagFile where
  filename : Str
  tags : List Tag
  errors : List Message
  options : OrderedDict Str (List Str)

/-- The loop over the lines; `linenum` is the number of the first one. -/
def readLines (file : TagFile) (linenum : Nat) : List Str → TagFile
  | [] => file
  | line :: lines =>
      let file :=
        match readLine U line with
        | .blank => file
        | .option key rest => { file with options := file.options.set key rest }
        | .tag t => { file with tags := file.tags ++ [⟨t, file.filename, linenum⟩] }
        | .error message =>
            { file with errors := file.errors ++ [(file.filename, linenum, message)] }
      readLines file (linenum + 1) lines

def rawLines (text : Str) : List Str :=
  Text.partsFrom '\n' [] text

/-- `TagFile(filename)`, for a file that can be read. -/
def tagFile (filename text : Str) : TagFile :=
  readLines U ⟨filename, [], [], .empty⟩ 1 (rawLines text)

end Lines

section Content

variable (U : Unicode)

def tagOf (line : Str) : Option TagData :=
  match readLine U line with
  | .tag t => some t
  | _ => none

/-- The line is rejected. -/
def Rejected (line : Str) : Prop :=
  ∃ message, readLine U line = .error message

variable {U}

theorem readLines_tags
    (file : TagFile) (linenum : Nat) (lines : List Str) :
    (readLines U file linenum lines).tags.map Tag.toTagData =
      file.tags.map Tag.toTagData ++ lines.filterMap (tagOf U) := by
  induction lines generalizing file linenum with
  | nil => simp [readLines]
  | cons line lines ih =>
      rw [readLines, ih, List.filterMap_cons, tagOf]
      cases readLine U line <;> simp

theorem readLines_errors
    (file : TagFile) (linenum : Nat) (lines : List Str) :
    (readLines U file linenum lines).errors = [] ↔
      file.errors = [] ∧ ∀ line ∈ lines, ¬ Rejected U line := by
  induction lines generalizing file linenum with
  | nil => simp [readLines]
  | cons line lines ih =>
      rw [readLines, ih, List.forall_mem_cons, ← and_assoc]
      refine and_congr_left fun _ => ?_
      rw [Rejected]
      cases readLine U line <;> simp

theorem tagFile_tags
    (filename text : Str) :
    (tagFile U filename text).tags.map Tag.toTagData = (rawLines text).filterMap (tagOf U) := by
  rw [tagFile, readLines_tags]
  rfl

theorem tagFile_errors
    (filename text : Str) :
    (tagFile U filename text).errors = [] ↔ ∀ line ∈ rawLines text, ¬ Rejected U line := by
  rw [tagFile, readLines_errors]
  exact and_iff_right rfl

end Content

section Printing

def TagData.line (t : TagData) : Str :=
  match t.description with
  | none => (toString t.tagnum).toList ++ ' ' :: t.tagname
  | some description =>
      if description = [] then (toString t.tagnum).toList ++ ' ' :: t.tagname
      else (toString t.tagnum).toList ++ ' ' :: (t.tagname ++ ' ' :: description)

/-- A description is stripped and in parentheses. -/
structure IsDescription (d : Str) : Prop where
  inParens : inParens d = true
  stripped : Text.Stripped d
  plain : ∀ c ∈ d, c ≠ '#' ∧ c ≠ '\n'

/-- What the lines of a file can tell of a tag. -/
structure IsTag (t : TagData) : Prop where
  name_ne : t.tagname ≠ []
  name_plain : ∀ c ∈ t.tagname, Text.isSpace c = false ∧ c ≠ '#'
  description : ∀ d, t.description = some d → IsDescription d

theorem takeWhile_word
    {w : Str} (hw : ∀ c ∈ w, Text.isSpace c = false) (rest : Str) :
    ((w ++ ' ' :: rest).takeWhile fun c => !Text.isSpace c) = w := by
  rw [List.takeWhile_append_of_pos fun c hc => by simp [hw c hc]]
  simp [Text.isSpace]

theorem dropWhile_word
    {w : Str} (hw : ∀ c ∈ w, Text.isSpace c = false) (rest : Str) :
    ((w ++ ' ' :: rest).dropWhile fun c => !Text.isSpace c) = ' ' :: rest := by
  rw [List.dropWhile_append_of_pos fun c hc => by simp [hw c hc]]
  simp [Text.isSpace]

theorem dropWhile_blank
    {s : Str} (h : ∀ c, s.head? = some c → Text.isSpace c = false) :
    (' ' :: s).dropWhile Text.isSpace = s := by
  rw [List.dropWhile_cons_of_pos (by decide), Text.dropWhile_isSpace_eq_self h]

theorem head?_word
    {w rest : Str} (hne : w ≠ []) (hw : ∀ c ∈ w, Text.isSpace c = false) :
    ∀ c, (w ++ rest).head? = some c → Text.isSpace c = false := by
  obtain ⟨c, w, rfl⟩ := List.exists_cons_of_ne_nil hne
  intro d hd
  cases hd
  exact hw c List.mem_cons_self

theorem splitTwice_two
    {first second : Str} (hfirst : ∀ c ∈ first, Text.isSpace c = false) (hne : second ≠ [])
    (hsecond : ∀ c ∈ second, Text.isSpace c = false) :
    splitTwice (first ++ ' ' :: second) = [first, second] := by
  have hhead : ∀ c, (second ++ []).head? = some c → Text.isSpace c = false :=
    head?_word hne hsecond
  rw [List.append_nil] at hhead
  have hall : ∀ c ∈ second, (!Text.isSpace c) = true := fun c hc => by simp [hsecond c hc]
  rw [splitTwice, takeWhile_word hfirst, dropWhile_word hfirst, dropWhile_blank hhead]
  obtain ⟨c, second, rfl⟩ := List.exists_cons_of_ne_nil hne
  dsimp only
  rw [List.takeWhile_eq_self_iff.mpr hall, List.dropWhile_eq_nil_iff.mpr hall]
  rfl

theorem splitTwice_three
    {first second third : Str} (hfirst : ∀ c ∈ first, Text.isSpace c = false) (hne : second ≠ [])
    (hsecond : ∀ c ∈ second, Text.isSpace c = false) (hthird : third ≠ [])
    (hhead : ∀ c, third.head? = some c → Text.isSpace c = false) :
    splitTwice (first ++ ' ' :: (second ++ ' ' :: third)) = [first, second, third] := by
  rw [splitTwice, takeWhile_word hfirst, dropWhile_word hfirst,
    dropWhile_blank (head?_word hne hsecond)]
  obtain ⟨c, second, rfl⟩ := List.exists_cons_of_ne_nil hne
  dsimp only [List.cons_append]
  rw [← List.cons_append, takeWhile_word hsecond, dropWhile_word hsecond, dropWhile_blank hhead]
  obtain ⟨d, third, rfl⟩ := List.exists_cons_of_ne_nil hthird
  rfl

/-- The second word of a line has no spaces, and a third part begins with none. -/
theorem of_splitTwice
    {line first second : Str} {rest : List Str}
    (h : splitTwice line = first :: second :: rest) :
    second ≠ [] ∧ (∀ c ∈ second, Text.isSpace c = false ∧ c ∈ line) ∧
      ∀ d, rest.head? = some d → d <:+ line ∧ d ≠ [] ∧
        ∀ c, d.head? = some c → Text.isSpace c = false := by
  rw [splitTwice] at h
  cases htail : (line.dropWhile fun c => !Text.isSpace c).dropWhile Text.isSpace with
  | nil =>
      rw [htail] at h
      cases h
  | cons c cs =>
      have hc : Text.isSpace c = false :=
        Text.head?_dropWhile_isSpace (by rw [htail]; rfl)
      have hsuffix : c :: cs <:+ line := by
        rw [← htail]
        exact (List.dropWhile_suffix _).trans (List.dropWhile_suffix _)
      have hword : ∀ e ∈ ((c :: cs).takeWhile fun c => !Text.isSpace c),
          Text.isSpace e = false ∧ e ∈ line := by
        intro e he
        refine ⟨by simpa using List.mem_takeWhile_imp he, ?_⟩
        exact hsuffix.subset (( List.takeWhile_prefix _).subset he)
      have hne : ((c :: cs).takeWhile fun c => !Text.isSpace c) ≠ [] := by
        rw [List.takeWhile_cons_of_pos (by simp [hc])]
        exact List.cons_ne_nil _ _
      rw [htail] at h
      dsimp only at h
      cases hthird : ((c :: cs).dropWhile fun c => !Text.isSpace c).dropWhile Text.isSpace with
      | nil =>
          rw [hthird] at h
          cases h
          exact ⟨hne, hword, fun d hd => by cases hd⟩
      | cons d ds =>
          rw [hthird] at h
          cases h
          refine ⟨hne, hword, fun e he => ?_⟩
          cases he
          refine ⟨?_, List.cons_ne_nil _ _, ?_⟩
          · rw [← hthird]
            exact ((List.dropWhile_suffix _).trans (List.dropWhile_suffix _)).trans hsuffix
          · intro e he
            exact Text.head?_dropWhile_isSpace (by rw [hthird]; exact he)

variable {U : Unicode}

theorem isTag_of_tagOf
    {line : Str} {t : TagData} (hline : '\n' ∉ line) (h : tagOf U line = some t) :
    IsTag t := by
  have hread : readLine U line = .tag t := by
    rw [tagOf] at h
    cases hread : readLine U line <;> rw [hread] at h <;> cases h
    rfl
  have hplain : ∀ c ∈ stripComment line, c ≠ '#' ∧ c ≠ '\n' := by
    intro c hc
    have hmem := Text.mem_of_mem_stripChars hc
    refine ⟨by simpa using List.mem_takeWhile_imp hmem, ?_⟩
    rintro rfl
    exact hline (( List.takeWhile_prefix _).subset hmem)
  have hstripped : Text.Stripped (stripComment line) := Text.stripped_stripChars _
  rw [readLine] at hread
  generalize stripComment line = s at hplain hstripped hread
  split_ifs at hread with hnil
  split at hread
  case h_2 => cases hread
  case h_1 first name rest hsplit =>
    obtain ⟨hne, hname, hrest⟩ := of_splitTwice hsplit
    have hname' : ∀ c ∈ name, Text.isSpace c = false ∧ c ≠ '#' := fun c hc =>
      ⟨(hname c hc).1, (hplain c (hname c hc).2).1⟩
    split_ifs at hread with hoption
    cases hint : IntLiteral.readInt U 10 first with
    | none =>
        rw [hint] at hread
        cases hread
    | some n =>
        rw [hint] at hread
        dsimp only at hread
        cases hhead : rest.head? with
        | none =>
            rw [hhead] at hread
            cases hread
            exact ⟨hne, hname', fun d hd => by cases hd⟩
        | some d =>
            rw [hhead] at hread
            dsimp only at hread
            obtain ⟨hsuffix, hd, hfirst⟩ := hrest d hhead
            split_ifs at hread with hparens
            cases hread
            refine ⟨hne, hname', fun e he => ?_⟩
            cases he
            refine ⟨by simpa [hd] using hparens, ⟨hfirst, fun c hc => ?_⟩, fun c hc => ?_⟩
            · refine hstripped.last c ?_
              obtain ⟨front, rfl⟩ := hsuffix
              rw [List.getLast?_append, hc]
              rfl
            · exact hplain c (hsuffix.subset hc)

theorem mem_toString_int
    {i : Int} {c : Char} (h : c ∈ (toString i).toList) :
    c.isDigit = true ∨ c = '-' := by
  cases i with
  | ofNat n => exact Or.inl ((Text.isNumeral_toString n).digits c h)
  | negSucc n =>
      have happend : toString (Int.negSucc n) = "-" ++ toString (n + 1) := rfl
      rw [happend, String.toList_append, List.mem_append] at h
      rcases h with h | h
      · exact Or.inr (List.mem_singleton.mp h)
      · exact Or.inl ((Text.isNumeral_toString (n + 1)).digits c h)

theorem plain_of_mem_toString
    {i : Int} {c : Char} (h : c ∈ (toString i).toList) :
    Text.isSpace c = false ∧ c ≠ '#' ∧ c ≠ '\n' ∧ c ≠ 'o' := by
  rcases mem_toString_int h with h | rfl
  · refine ⟨Text.isSpace_of_isDigit h, ?_, ?_, ?_⟩
    all_goals
      rintro rfl
      exact absurd h (by decide)
  · decide

theorem toString_ne_nil
    (i : Int) :
    (toString i).toList ≠ [] := by
  cases i with
  | ofNat n => exact (Text.isNumeral_toString n).nonempty
  | negSucc n =>
      have happend : toString (Int.negSucc n) = "-" ++ toString (n + 1) := rfl
      rw [happend, String.toList_append]
      simp

theorem stripped_append
    (i : Int) {rest : Str} (hne : rest ≠ [])
    (hlast : ∀ c, rest.getLast? = some c → Text.isSpace c = false) :
    Text.Stripped ((toString i).toList ++ ' ' :: rest) := by
  constructor
  · exact head?_word (toString_ne_nil i) fun c hc => (plain_of_mem_toString hc).1
  · intro c hc
    rw [← List.singleton_append, ← List.append_assoc, List.getLast?_append_of_ne_nil _ hne] at hc
    exact hlast c hc

theorem stripComment_eq
    {s : Str} (hs : Text.Stripped s) (hplain : ∀ c ∈ s, c ≠ '#') :
    stripComment s = s := by
  rw [stripComment, List.takeWhile_eq_self_iff.mpr (by simpa using hplain), hs.stripChars_eq]

theorem IsTag.description_ne_nil
    {t : TagData} (h : IsTag t) {d : Str} (hd : t.description = some d) :
    d ≠ [] := by
  rintro rfl
  exact absurd (h.description _ hd).inParens (by decide)

theorem IsTag.mem_line
    {t : TagData} (h : IsTag t) {c : Char} (hc : c ∈ t.line) :
    c ≠ '#' ∧ c ≠ '\n' := by
  have hname : ∀ c ∈ t.tagname, c ≠ '#' ∧ c ≠ '\n' := by
    intro c hc
    refine ⟨(h.name_plain c hc).2, ?_⟩
    rintro rfl
    exact absurd (h.name_plain _ hc).1 (by decide)
  have hnum : ∀ c ∈ (toString t.tagnum).toList, c ≠ '#' ∧ c ≠ '\n' := fun c hc =>
    ⟨(plain_of_mem_toString hc).2.1, (plain_of_mem_toString hc).2.2.1⟩
  rw [TagData.line] at hc
  cases hd : t.description with
  | none =>
      rw [hd, List.mem_append, List.mem_cons] at hc
      rcases hc with hc | rfl | hc
      · exact hnum c hc
      · decide
      · exact hname c hc
  | some d =>
      rw [hd] at hc
      dsimp only at hc
      rw [if_neg (h.description_ne_nil hd), List.mem_append, List.mem_cons, List.mem_append,
        List.mem_cons] at hc
      rcases hc with hc | rfl | hc | rfl | hc
      · exact hnum c hc
      · decide
      · exact hname c hc
      · decide
      · exact (h.description d hd).plain c hc

/-- A tag is read back from its line. -/
theorem IsTag.readLine_line
    {t : TagData} (h : IsTag t) (hU : IntLiteral.KeepsAscii U) :
    readLine U t.line = .tag t := by
  have hnum : ∀ c ∈ (toString t.tagnum).toList, Text.isSpace c = false := fun c hc =>
    (plain_of_mem_toString hc).1
  have hname : ∀ c ∈ t.tagname, Text.isSpace c = false := fun c hc => (h.name_plain c hc).1
  have hoption : (toString t.tagnum).toList ≠ "option".toList := by
    intro heq
    refine (plain_of_mem_toString (i := t.tagnum) (c := 'o') ?_).2.2.2 rfl
    rw [heq]
    decide
  have hint := IntLiteral.readInt_toString hU t.tagnum
  have hplain : ∀ c ∈ t.line, c ≠ '#' := fun c hc => (h.mem_line hc).1
  obtain ⟨num, name, description⟩ := t
  cases description with
  | none =>
      have hline : TagData.line ⟨num, name, none⟩ = (toString num).toList ++ ' ' :: name := rfl
      have hstripped := stripped_append num h.name_ne fun c hc =>
        hname c (List.mem_of_getLast? hc)
      rw [hline] at hplain ⊢
      rw [readLine, stripComment_eq hstripped hplain]
      dsimp only
      rw [if_neg (by simp), splitTwice_two hnum h.name_ne hname]
      dsimp only
      rw [if_neg hoption, hint]
      rfl
  | some d =>
      have hd := h.description d rfl
      have hne := h.description_ne_nil rfl
      have hline : TagData.line ⟨num, name, some d⟩ =
          (toString num).toList ++ ' ' :: (name ++ ' ' :: d) := if_neg hne
      have hlast : ∀ c, (name ++ ' ' :: d).getLast? = some c → Text.isSpace c = false := by
        intro c hc
        rw [← List.singleton_append, ← List.append_assoc,
          List.getLast?_append_of_ne_nil _ hne] at hc
        exact hd.stripped.last c hc
      have hstripped := stripped_append num (by simp) hlast
      rw [hline] at hplain ⊢
      rw [readLine, stripComment_eq hstripped hplain]
      rw [if_neg (by simp), splitTwice_three hnum h.name_ne hname hne hd.stripped.head]
      dsimp only
      rw [if_neg hoption, hint]
      dsimp only [List.head?_cons]
      rw [if_neg]
      simp [hd.inParens]

end Printing

end EventLogTags
end AndroidBuild
