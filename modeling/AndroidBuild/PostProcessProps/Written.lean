import AndroidBuild.PostProcessProps.LineKinds
import AndroidBuild.PostProcessProps.Overriding

/-!
# Reading the written file

The lines that the properties print, and what a reader of them finds.  A
deletion puts the printed form of another property into a comment; where that
property has a comment of its own, its assignment stands on a line by itself.
-/

namespace AndroidBuild
namespace PostProcessProps

open Text BuildProp

section Prints

def ended (lines : List Str) : Str :=
  lines.flatMap fun line => line ++ ['\n']

/-- A text prints the lines. -/
structure Prints (text : Str) (lines : List Str) : Prop where
  text : text ++ ['\n'] = ended lines
  oneLine : ∀ line ∈ lines, OneLine line

theorem ended_append
    (a b : List Str) :
    ended (a ++ b) = ended a ++ ended b :=
  List.flatMap_append

theorem Prints.single
    {line : Str} (h : OneLine line) :
    Prints line [line] where
  text := by simp [ended]
  oneLine := by simpa using h

theorem intercalate_append_newline
    {texts : List Str} (h : texts ≠ []) :
    ['\n'].intercalate texts ++ ['\n'] = ended texts := by
  induction texts with
  | nil => exact absurd rfl h
  | cons a texts ih =>
      cases texts with
      | nil => simp [ended]
      | cons b texts =>
          rw [List.intercalate_cons_cons, List.append_assoc, List.append_assoc,
            ih (List.cons_ne_nil _ _)]
          simp [ended]

theorem Prints.join
    {texts : List Str} {lines : List (List Str)} (hne : texts ≠ [])
    (h : List.Forall₂ Prints texts lines) :
    Prints (['\n'].intercalate texts) lines.flatten := by
  constructor
  · rw [intercalate_append_newline hne]
    clear hne
    induction h with
    | nil => rfl
    | cons hab _ ih =>
        rw [List.flatten_cons, ended_append, ← hab.text, ← ih]
        simp [ended]
  · intro line hline
    obtain ⟨ls, hls, hmem⟩ := List.mem_flatten.mp hline
    obtain ⟨_, _, hprints⟩ := exists_mem_left h hls
    exact hprints.oneLine line hmem

theorem Prints.intercalate
    {lines : List Str} (hne : lines ≠ []) (h : ∀ line ∈ lines, OneLine line) :
    Prints (['\n'].intercalate lines) lines :=
  ⟨intercalate_append_newline hne, h⟩

/-- A text that is put in front stands on the first line. -/
theorem Prints.prepend
    {text line : Str} {lines : List Str} (h : Prints text (line :: lines))
    {front : Str} (hfront : OneLine front) :
    Prints (front ++ text) ((front ++ line) :: lines) where
  text := by
    rw [List.append_assoc, h.text]
    simp [ended]
  oneLine := by
    have hlines := List.forall_mem_cons.mp h.oneLine
    exact List.forall_mem_cons.mpr ⟨hfront.append hlines.1, hlines.2⟩

theorem linesOf_ended
    {lines : List Str} (h : ∀ line ∈ lines, OneLine line) :
    linesOf (ended lines) = lines :=
  linesOf_flatMap h

/-- The lines that a property prints. -/
def printedLines (p : BuildProp) : List Str :=
  linesOf (p.toText ++ ['\n'])

theorem Prints.printedLines_eq
    {p : BuildProp} {lines : List Str} (h : Prints p.toText lines) :
    printedLines p = lines := by
  rw [printedLines, h.text, linesOf_ended h.oneLine]

/-- The lines of a file of printed properties. -/
theorem linesOf_writeProps
    {props : List BuildProp} (h : ∀ p ∈ props, ∃ lines, Prints p.toText lines) :
    linesOf (writeProps props) = props.flatMap printedLines := by
  have hprints : ∀ p ∈ props, Prints p.toText (printedLines p) := by
    intro p hp
    obtain ⟨lines, hlines⟩ := h p hp
    rwa [hlines.printedLines_eq]
  have htext : writeProps props = ended (props.flatMap printedLines) := by
    rw [ended, List.flatMap_assoc, writeProps]
    exact List.flatMap_congr fun p hp => (hprints p hp).text
  rw [htext]
  refine linesOf_ended fun line hline => ?_
  obtain ⟨p, hp, hmem⟩ := List.mem_flatMap.mp hline
  exact (hprints p hp).oneLine line hmem

theorem lastLine_append_newline
    (front : Str) {line : Str} (h : '\n' ∉ line) :
    lastLine (front ++ '\n' :: line) = line := by
  have hline : ∀ c ∈ line.reverse, decide (c ≠ '\n') = true := by
    intro c hc
    rw [decide_eq_true_eq]
    rintro rfl
    exact h (List.mem_reverse.mp hc)
  rw [lastLine, List.reverse_append, List.reverse_cons, List.append_assoc,
    List.takeWhile_append_of_pos hline]
  simp

theorem lastLine_eq_self
    {line : Str} (h : '\n' ∉ line) :
    lastLine line = line := by
  rw [lastLine, List.takeWhile_eq_self_iff.mpr, List.reverse_reverse]
  intro c hc
  rw [decide_eq_true_eq]
  rintro rfl
  exact h (List.mem_reverse.mp hc)

theorem lastLine_intercalate
    (texts : List Str) {line : Str} (h : '\n' ∉ line) :
    lastLine (['\n'].intercalate (texts ++ [line])) = line := by
  cases texts with
  | nil => simpa using lastLine_eq_self h
  | cons a texts =>
      have hsplit : ['\n'].intercalate (a :: texts ++ [line]) =
          ['\n'].intercalate (a :: texts) ++ '\n' :: line := by
        refine (List.append_left_inj ['\n']).mp ?_
        rw [intercalate_append_newline (by simp), ended_append,
          ← intercalate_append_newline (List.cons_ne_nil a texts)]
        simp [ended]
      rw [hsplit, lastLine_append_newline _ h]

end Prints

section Fresh

/-- A property as the loop finds it: what it prints above an assignment are comments, and an
optional assignment has none. -/
structure Fresh (p : BuildProp) : Prop where
  comments : ∀ c ∈ p.comments, OneLine c ∧ readLine c = none
  name : OneLine p.name
  value : OneLine p.value
  stripped : stripChars p.name = p.name
  strippedValue : stripChars p.value = p.value
  bare : p.isOptional = true → p.comments = []

variable {p : BuildProp}

/-- The assignment of a property as it is printed. -/
def assignmentLine (p : BuildProp) : Str :=
  p.name ++ (if p.isOptional then "?=".toList else "=".toList) ++ p.value

theorem assignment_eq
    (h : p.isComment = false) :
    p.assignment = [assignmentLine p] := by
  rw [assignment, h]
  rfl

theorem Fresh.oneLine_assignment
    (h : Fresh p) :
    OneLine (assignmentLine p) := by
  refine (h.name.append ?_).append h.value
  split_ifs <;> exact ⟨by decide, by decide⟩

theorem assignmentLine_required
    (h : p.isOptional = false) :
    assignmentLine p = printed p.name p.value := by
  simp [assignmentLine, printed, h]

theorem Fresh.prints
    (h : Fresh p) (hcomment : p.isComment = false) :
    Prints p.toText (p.comments ++ [assignmentLine p]) := by
  rw [toText, assignment_eq hcomment]
  refine .intercalate (by simp) fun line hline => ?_
  rcases List.mem_append.mp hline with hline | hline
  · exact (h.comments line hline).1
  · exact List.mem_singleton.mp hline ▸ h.oneLine_assignment

theorem Fresh.prints_comment
    (h : Fresh p) (hcomment : p.isComment = true) :
    Prints p.toText p.comments := by
  rw [toText, assignment, if_pos hcomment, List.append_nil]
  rw [isComment, Bool.and_eq_true, Bool.not_eq_true'] at hcomment
  refine .intercalate (fun hnil => ?_) fun line hline => (h.comments line hline).1
  rw [hnil] at hcomment
  simp at hcomment

/-- The comment that a deletion turns the assignment into; an assignment without a name leaves
none. -/
def struckOut (p : BuildProp) : List Str :=
  if p.name = [] then [] else ['#' :: assignmentLine p]

def removedBecause : Str :=
  "# Removed by post_process_props.py because ".toList

theorem toText_delete
    (hline : '\n' ∉ assignmentLine p) (reason : Str) :
    (p.delete reason).toText =
      ['\n'].intercalate (p.comments ++ (removedBecause ++ reason) :: struckOut p) := by
  have hdeleted : (p.delete reason).assignment = [] := by
    rw [assignment, if_pos isComment_delete]
  rw [toText, hdeleted, List.append_nil]
  congr 1
  rw [delete, makeAsComment, struckOut]
  by_cases hname : p.name = []
  · rw [if_pos (by simp [isComment, hname]), if_pos hname]
    rfl
  · rw [if_neg (by simp [isComment, hname]), if_neg hname]
    have hassignment : lastLine (BuildProp.toText
        { p with comments := p.comments ++ [removedBecause ++ reason] }) = assignmentLine p := by
      have hnot : BuildProp.isComment
          { p with comments := p.comments ++ [removedBecause ++ reason] } = false := by
        simp [isComment, hname]
      rw [toText, assignment_eq hnot]
      have hsame : assignmentLine { p with comments := p.comments ++ [removedBecause ++ reason] } =
          assignmentLine p := by
        simp [assignmentLine, isOptional, isComment, hname]
      rw [hsame, lastLine_intercalate _ hline]
    rw [List.append_assoc]
    exact congrArg (fun line => p.comments ++ ([removedBecause ++ reason] ++ ['#' :: line]))
      hassignment

theorem readLine_hash_cons
    (line : Str) :
    readLine ('#' :: line) = none :=
  readLine_hash rfl

theorem removedBecause_append
    (reason : Str) :
    readLine (removedBecause ++ reason) = none :=
  readLine_hash_cons _

theorem oneLine_removedBecause :
    OneLine removedBecause :=
  ⟨by decide, by decide⟩

theorem Fresh.struckOut_lines
    (h : Fresh p) :
    ∀ line ∈ struckOut p, OneLine line ∧ readLine line = none := by
  intro line hline
  rw [struckOut] at hline
  split_ifs at hline
  · cases hline
  · rw [List.mem_singleton.mp hline]
    refine ⟨?_, readLine_hash_cons _⟩
    exact OneLine.append (a := ['#']) ⟨by decide, by decide⟩ h.oneLine_assignment

/-- What a deletion prints, when its reason prints the lines. -/
theorem Fresh.prints_delete
    (h : Fresh p) {reason line : Str} {lines : List Str}
    (hreason : Prints reason (line :: lines)) :
    Prints (p.delete reason).toText
      (p.comments ++ (removedBecause ++ line) :: lines ++ struckOut p) := by
  rw [toText_delete h.oneLine_assignment.1]
  have hjoin : Prints
      (['\n'].intercalate (p.comments ++ (removedBecause ++ reason) :: struckOut p))
      (p.comments.map (fun c => [c]) ++
        ((removedBecause ++ line) :: lines) :: (struckOut p).map fun c => [c]).flatten := by
    refine .join (by simp) ?_
    refine List.rel_append ?_ (.cons (hreason.prepend oneLine_removedBecause) ?_)
    · exact List.forall₂_map_right_iff.mpr
        (List.forall₂_same.mpr fun c hc => .single (h.comments c hc).1)
    · exact List.forall₂_map_right_iff.mpr
        (List.forall₂_same.mpr fun c hc => .single (h.struckOut_lines c hc).1)
  simpa [← List.flatMap_def] using hjoin

end Fresh

section Saying

variable {group : List BuildProp} {keys : List Str} {p q : BuildProp}

/-- The assignments that a property says, once it is settled and the disallowed names are
dropped: its own, or that of the property it gave way to. -/
def Says (group : List BuildProp) (keys : List Str) (p q : BuildProp) (a : Assignment) : Prop :=
  (q.isComment = false ∧ q.name ∉ keys ∧ readLine (printed q.name q.value) = some a) ∨
  (p.isOptional = true ∧ ∃ first, (group.filter fun p => !p.isOptional).head? = some first ∧
    first.comments ≠ [] ∧ readLine (printed first.name first.value) = some a)

theorem not_exists_read
    {lines : List Str} (h : ∀ line ∈ lines, readLine line = none) (a : Assignment) :
    ¬ ∃ line ∈ lines, readLine line = some a := by
  rintro ⟨line, hline, hread⟩
  rw [h line hline] at hread
  cases hread

/-- A reason that is on one line leaves comments only. -/
theorem Fresh.delete_silent
    (h : Fresh p) {reason : Str} (hreason : OneLine reason) :
    ∃ lines, Prints (p.delete reason).toText lines ∧ ∀ line ∈ lines, readLine line = none := by
  refine ⟨_, h.prints_delete (.single hreason), fun line hline => ?_⟩
  rcases List.mem_append.mp hline with hline | hline
  · rcases List.mem_append.mp hline with hline | hline
    · exact (h.comments line hline).2
    · exact List.mem_singleton.mp hline ▸ removedBecause_append _
  · exact (h.struckOut_lines line hline).2

theorem Fresh.oneLine_overriddenBy
    (h : Fresh p) (hcomment : p.isComment = false) (hbare : p.comments = []) :
    OneLine (overriddenBy p) := by
  refine OneLine.append ⟨by decide, by decide⟩ ?_
  rw [toText, assignment_eq hcomment, hbare]
  simpa using h.oneLine_assignment

/-- An assignment that is kept says itself, unless its name is disallowed. -/
theorem Fresh.kept_says
    (h : Fresh q) (hcomment : q.isComment = false) (hoptional : q.isOptional = false)
    (keys : List Str) :
    ∃ lines, Prints (dropKey keys q).toText lines ∧
      ∀ a, (∃ line ∈ lines, readLine line = some a) ↔
        q.name ∉ keys ∧ readLine (printed q.name q.value) = some a := by
  by_cases hkeys : q.name ∈ keys
  · rw [dropKey, if_pos ⟨hcomment, hkeys⟩]
    obtain ⟨lines, hprints, hnone⟩ := h.delete_silent
      (h.name.append (b := " is a disallowed key".toList) ⟨by decide, by decide⟩)
    refine ⟨lines, hprints, fun a => ⟨fun hread => absurd hread (not_exists_read hnone a), ?_⟩⟩
    exact fun hread => absurd hkeys hread.1
  · rw [dropKey, if_neg (fun hboth => hkeys hboth.2)]
    refine ⟨_, h.prints hcomment, fun a => ?_⟩
    rw [assignmentLine_required hoptional]
    constructor
    · rintro ⟨line, hline, hread⟩
      rcases List.mem_append.mp hline with hline | hline
      · rw [(h.comments line hline).2] at hread
        cases hread
      · exact ⟨hkeys, List.mem_singleton.mp hline ▸ hread⟩
    · rintro ⟨-, hread⟩
      exact ⟨_, List.mem_append_right _ (List.mem_singleton_self _), hread⟩

theorem dropKey_comment
    (hcomment : p.isComment = true) :
    dropKey keys p = p :=
  if_neg fun hboth => by rw [hcomment] at hboth; cases hboth.1

theorem Fresh.required
    (h : Fresh p) :
    Fresh { p with optional := false } where
  comments := h.comments
  name := h.name
  value := h.value
  stripped := h.stripped
  strippedValue := h.strippedValue
  bare := fun hoptional => by simp [isOptional] at hoptional

/-- The two ways in which an assignment gives way to `first`: a comment of `first` pushes its
assignment onto a line by itself. -/
theorem Fresh.overridden_says
    {first : BuildProp} (h : Fresh p) (hbare : p.comments = [])
    (hfirst : Fresh first) (hcomment : first.isComment = false)
    (hoptional : first.isOptional = false) :
    ∃ lines, Prints (p.delete (overriddenBy first)).toText lines ∧
      ∀ a, (∃ line ∈ lines, readLine line = some a) ↔
        first.comments ≠ [] ∧ readLine (printed first.name first.value) = some a := by
  cases hcomments : first.comments with
  | nil =>
      obtain ⟨lines, hprints, hnone⟩ :=
        h.delete_silent (hfirst.oneLine_overriddenBy hcomment hcomments)
      refine ⟨lines, hprints, fun a => ⟨fun hread => absurd hread (not_exists_read hnone a), ?_⟩⟩
      exact fun hread => absurd rfl hread.1
  | cons c cs =>
      have hprints := hfirst.prints hcomment
      rw [hcomments, List.cons_append, assignmentLine_required hoptional] at hprints
      have hword : OneLine "overridden by ".toList := ⟨by decide, by decide⟩
      have hreason := hprints.prepend hword
      refine ⟨_, h.prints_delete hreason, fun a => ?_⟩
      rw [hbare, List.nil_append]
      constructor
      · rintro ⟨line, hline, hread⟩
        refine ⟨List.cons_ne_nil _ _, ?_⟩
        rcases List.mem_append.mp hline with hline | hline
        · rcases List.mem_cons.mp hline with rfl | hline
          · rw [removedBecause_append] at hread
            cases hread
          · rcases List.mem_append.mp hline with hline | hline
            · rw [(hfirst.comments line (hcomments ▸ List.mem_cons_of_mem _ hline)).2] at hread
              cases hread
            · exact List.mem_singleton.mp hline ▸ hread
        · rw [(h.struckOut_lines line hline).2] at hread
          cases hread
      · rintro ⟨-, hread⟩
        refine ⟨_, List.mem_append_left _ (List.mem_cons_of_mem _ ?_), hread⟩
        exact List.mem_append_right _ (List.mem_singleton_self _)

theorem Settled.says
    (h : Settled group p q) (hp : Fresh p) (hgroup : ∀ g ∈ group, Fresh g ∧ g.isComment = false)
    (keys : List Str) :
    ∃ lines, Prints (dropKey keys q).toText lines ∧
      ∀ a, (∃ line ∈ lines, readLine line = some a) ↔ Says group keys p q a := by
  cases h with
  | comment hcomment =>
      rw [dropKey_comment hcomment]
      refine ⟨_, hp.prints_comment hcomment, fun a => ⟨fun hread => ?_, ?_⟩⟩
      · exact absurd hread (not_exists_read (fun line hline => (hp.comments line hline).2) a)
      · rintro (⟨hnot, _⟩ | ⟨hoptional, _⟩)
        · rw [hcomment] at hnot
          cases hnot
        · rw [isOptional_eq_false_of_isComment hcomment] at hoptional
          cases hoptional
  | kept hcomment hoptional =>
      obtain ⟨lines, hprints, hreads⟩ := hp.kept_says hcomment hoptional keys
      refine ⟨lines, hprints, fun a => (hreads a).trans ⟨fun hread => Or.inl ⟨hcomment, hread⟩, ?_⟩⟩
      rintro (⟨_, hread⟩ | ⟨h, _⟩)
      · exact hread
      · rw [hoptional] at h
        cases h
  | @overridden first hoptional hfirst =>
      have hmem := List.mem_filter.mp (List.mem_of_mem_head? hfirst)
      obtain ⟨lines, hprints, hreads⟩ := hp.overridden_says (hp.bare hoptional)
        (hgroup first hmem.1).1 (hgroup first hmem.1).2 (by simpa using hmem.2)
      rw [dropKey_comment isComment_delete]
      refine ⟨lines, hprints, fun a => (hreads a).trans ⟨fun hread => ?_, ?_⟩⟩
      · exact Or.inr ⟨hoptional, first, hfirst, hread⟩
      · rintro (⟨hnot, _⟩ | ⟨_, other, hother, hread⟩)
        · rw [isComment_delete] at hnot
          cases hnot
        · rw [hfirst, Option.some.injEq] at hother
          exact hother ▸ hread
  | @superseded last hoptional hnone hlast =>
      have hmem := List.mem_filter.mp (List.mem_of_getLast? hlast)
      obtain ⟨hfresh, hcomment⟩ := hgroup last hmem.1
      obtain ⟨lines, hprints, hsilent⟩ := hp.delete_silent
        (hfresh.oneLine_overriddenBy hcomment (hfresh.bare hmem.2))
      rw [dropKey_comment isComment_delete]
      refine ⟨lines, hprints, fun a => ⟨fun hread => absurd hread (not_exists_read hsilent a), ?_⟩⟩
      rintro (⟨hnot, _⟩ | ⟨_, first, hfirst, _⟩)
      · rw [isComment_delete] at hnot
        cases hnot
      · rw [hnone] at hfirst
        cases hfirst
  | last hoptional hnone hlast =>
      have hcomment := isComment_eq_false_of_isOptional hoptional
      have hname : ({ p with optional := false } : BuildProp).isComment = false := by
        rw [← hcomment]
        rfl
      obtain ⟨lines, hprints, hreads⟩ := hp.required.kept_says hname
        (by simp [isOptional]) keys
      refine ⟨lines, hprints, fun a => (hreads a).trans ⟨fun hread => Or.inl ⟨hname, hread⟩, ?_⟩⟩
      rintro (⟨_, hread⟩ | ⟨_, first, hfirst, _⟩)
      · exact hread
      · rw [hnone] at hfirst
        cases hfirst

end Saying

section Reading

variable {names keys : List Str} {props result : List BuildProp}

/-- The value that the assignments of a name come to. -/
def Live (name value : Str) (props : List BuildProp) : Prop :=
  (∃ p ∈ requireds name props, p.value = value) ∨
  (requireds name props = [] ∧
    ∃ last, (optionals name props).getLast? = some last ∧ last.value = value)

/-- An optional assignment of the name gives way to one under a comment. -/
def Leaks (name : Str) (props : List BuildProp) : Prop :=
  optionals name props ≠ [] ∧
    ∃ first, (requireds name props).head? = some first ∧ first.comments ≠ []

theorem forall₂_imp_mem
    {α β : Type*} {R S : α → β → Prop} {l : List α} {m : List β} (h : List.Forall₂ R l m)
    (hS : ∀ a ∈ l, ∀ b, R a b → S a b) :
    List.Forall₂ S l m := by
  induction h with
  | nil => exact .nil
  | cons hab _ ih =>
      rw [List.forall_mem_cons] at hS
      exact .cons (hS.1 _ hab) (ih hS.2)

theorem flatMap_sublist_flatMap
    {α β γ : Type*} {f : α → List γ} {g : β → List γ} {l : List α} {m : List β}
    (h : List.Forall₂ (fun a b => (f a).Sublist (g b)) l m) :
    (l.flatMap f).Sublist (m.flatMap g) := by
  induction h with
  | nil => exact .slnil
  | cons hab _ ih => exact hab.append ih

theorem Overridden.settled_all
    (h : Overridden names props result) (hnames : ∀ name ∈ getAllNames props, name ∈ names) :
    List.Forall₂ (fun p q => Settled (getProps p.name props) p q) props result := by
  refine forall₂_imp_mem h.settled fun p hp q hpq => ?_
  by_cases hname : p.name ∈ names
  · rwa [if_pos hname] at hpq
  · rw [if_neg hname] at hpq
    rw [hpq]
    refine .comment ?_
    by_contra hcomment
    rw [Bool.not_eq_true] at hcomment
    exact hname (hnames _ (mem_getAllNames.mpr ⟨p, mem_getProps.mpr ⟨hp, hcomment, rfl⟩⟩))

theorem Settled.live
    {p q : BuildProp} (hp : p ∈ props) (h : Settled (getProps p.name props) p q)
    (hcomment : q.isComment = false) :
    Live q.name q.value props := by
  cases h with
  | comment hp' => rw [hp'] at hcomment; cases hcomment
  | kept _ hoptional => exact Or.inl ⟨p, mem_requireds.mpr ⟨hp, hcomment, hoptional, rfl⟩, rfl⟩
  | overridden _ _ => rw [isComment_delete] at hcomment; cases hcomment
  | superseded _ _ _ => rw [isComment_delete] at hcomment; cases hcomment
  | last _ hnone hlast => exact Or.inr ⟨hnone, p, hlast, rfl⟩

/-- What a reader of the written file finds: each name with the value it comes to, unless it is
dropped, and where a comment pushed out an assignment, that too. -/
theorem mem_readings_written
    (hfresh : ∀ p ∈ props, Fresh p) (h : Overridden names props result)
    (hnames : ∀ name ∈ getAllNames props, name ∈ names) {a : Assignment} :
    a ∈ readings (writeProps (dropDisallowed keys result)) ↔
      ∃ name value, Live name value props ∧ (name ∉ keys ∨ Leaks name props) ∧
        readLine (printed name value) = some a := by
  have hsettled := h.settled_all hnames
  have hgroup : ∀ name, ∀ g ∈ getProps name props, Fresh g ∧ g.isComment = false := by
    intro name g hg
    obtain ⟨hmem, hcomment, _⟩ := mem_getProps.mp hg
    exact ⟨hfresh g hmem, hcomment⟩
  have hlines : ∀ r ∈ result.map (dropKey keys), ∃ lines, Prints r.toText lines := by
    intro r hr
    obtain ⟨q, hq, rfl⟩ := List.mem_map.mp hr
    obtain ⟨p, hp, hpq⟩ := exists_mem_left hsettled hq
    obtain ⟨lines, hprints, _⟩ := hpq.says (hfresh p hp) (hgroup _) keys
    exact ⟨lines, hprints⟩
  have hsaying : ∀ p ∈ props, ∀ q, Settled (getProps p.name props) p q →
      ((∃ line ∈ printedLines (dropKey keys q), readLine line = some a) ↔
        Says (getProps p.name props) keys p q a) := by
    intro p hp q hpq
    obtain ⟨lines, hprints, hreads⟩ := hpq.says (hfresh p hp) (hgroup _) keys
    rw [hprints.printedLines_eq]
    exact hreads a
  rw [readings, dropDisallowed_eq, linesOf_writeProps hlines, List.mem_filterMap]
  constructor
  · rintro ⟨line, hline, hread⟩
    obtain ⟨r, hr, hline⟩ := List.mem_flatMap.mp hline
    obtain ⟨q, hq, rfl⟩ := List.mem_map.mp hr
    obtain ⟨p, hp, hpq⟩ := exists_mem_left hsettled hq
    rcases (hsaying p hp q hpq).mp ⟨line, hline, hread⟩ with
      ⟨hcomment, hkeys, hread⟩ | ⟨hoptional, first, hfirst, hcomments, hread⟩
    · exact ⟨q.name, q.value, hpq.live hp hcomment, Or.inl hkeys, hread⟩
    · have hmem := List.mem_of_mem_head? hfirst
      refine ⟨first.name, first.value, ?_, Or.inr ?_, hread⟩
      · rw [(mem_requireds.mp hmem).2.2.2]
        exact Or.inl ⟨first, hmem, rfl⟩
      · rw [(mem_requireds.mp hmem).2.2.2]
        refine ⟨fun hnil => ?_, first, hfirst, hcomments⟩
        have hp' := mem_optionals.mpr ⟨hp, hoptional, rfl⟩
        rw [hnil] at hp'
        cases hp'
  · rintro ⟨name, value, hlive, hkeys, hread⟩
    -- the property that says it
    have hsaid : ∃ p ∈ props, ∃ q ∈ result, Settled (getProps p.name props) p q ∧
        Says (getProps p.name props) keys p q a := by
      rcases hlive with ⟨p, hp, rfl⟩ | ⟨hnone, last, hlast, rfl⟩
      · obtain ⟨hmem, hcomment, hoptional, rfl⟩ := mem_requireds.mp hp
        rcases hkeys with hkeys | ⟨hsome, first, hfirst, hcomments⟩
        · obtain ⟨q, hq, hpq⟩ := exists_mem_right hsettled hmem
          have hsame := hpq.eq_of_required hoptional
          subst hsame
          exact ⟨q, hmem, q, hq, hpq, Or.inl ⟨hcomment, hkeys, hread⟩⟩
        · obtain ⟨o, ho⟩ := List.exists_mem_of_ne_nil _ hsome
          obtain ⟨homem, hooptional, honame⟩ := mem_optionals.mp ho
          obtain ⟨q, hq, hoq⟩ := exists_mem_right hsettled homem
          have hfirstMem := List.mem_of_mem_head? hfirst
          have hvalue := h.agrees p.name (hnames _ (mem_getAllNames.mpr
            ⟨p, mem_getProps.mpr ⟨hmem, hcomment, rfl⟩⟩)) first hfirstMem p hp
          refine ⟨o, homem, q, hq, hoq, Or.inr ⟨hooptional, first, ?_, hcomments, ?_⟩⟩
          · rw [honame]
            exact hfirst
          · rw [hvalue, (mem_requireds.mp hfirstMem).2.2.2]
            exact hread
      · have hlastMem := mem_optionals.mp (List.mem_of_getLast? hlast)
        have hcomment := isComment_eq_false_of_isOptional hlastMem.2.1
        have hname : name ∈ names := hnames _ (mem_getAllNames.mpr
          ⟨last, mem_getProps.mpr ⟨hlastMem.1, hcomment, hlastMem.2.2⟩⟩)
        rcases hkeys with hkeys | ⟨_, first, hfirst, _⟩
        · have hmem := h.last name hname last hnone hlast
          obtain ⟨p, hp, hpq⟩ := exists_mem_left hsettled hmem
          refine ⟨p, hp, _, hmem, hpq, Or.inl ⟨?_, ?_, ?_⟩⟩
          · rw [← hcomment]
            rfl
          · rw [hlastMem.2.2]
            exact hkeys
          · rw [hlastMem.2.2]
            exact hread
        · rw [hnone] at hfirst
          cases hfirst
    obtain ⟨p, hp, q, hq, hpq, hsaid⟩ := hsaid
    obtain ⟨line, hline, hread⟩ := (hsaying p hp q hpq).mpr hsaid
    exact ⟨line, List.mem_flatMap.mpr ⟨_, List.mem_map_of_mem hq, hline⟩, hread⟩

/-- The comments among the properties, as lines. -/
def commentsOf (props : List BuildProp) : List Str :=
  props.flatMap fun p => if p.isComment then p.comments else []

theorem commentsOf_sublist
    (hfresh : ∀ p ∈ props, Fresh p)
    (hcontent : ∀ line ∈ commentsOf props, stripChars line ≠ [])
    (h : Overridden names props result) (hnames : ∀ name ∈ getAllNames props, name ∈ names) :
    (commentsOf props).Sublist (commentLines (writeProps (dropDisallowed keys result))) := by
  have hsettled := h.settled_all hnames
  have hlines : ∀ r ∈ result.map (dropKey keys), ∃ lines, Prints r.toText lines := by
    intro r hr
    obtain ⟨q, hq, rfl⟩ := List.mem_map.mp hr
    obtain ⟨p, hp, hpq⟩ := exists_mem_left hsettled hq
    obtain ⟨lines, hprints, _⟩ := hpq.says (hfresh p hp) (fun g hg => by
      obtain ⟨hmem, hcomment, _⟩ := mem_getProps.mp hg
      exact ⟨hfresh g hmem, hcomment⟩) keys
    exact ⟨lines, hprints⟩
  rw [commentLines, dropDisallowed_eq, linesOf_writeProps hlines, List.flatMap_map,
    List.filter_flatMap, commentsOf]
  refine flatMap_sublist_flatMap (forall₂_imp_mem hsettled fun p hp q hpq => ?_)
  split_ifs with hcomment
  · have hsame := hpq.eq_of_isComment hcomment
    subst hsame
    rw [dropKey_comment hcomment,
      ((hfresh q hp).prints_comment hcomment).printedLines_eq, List.filter_eq_self.mpr]
    intro line hline
    rw [decide_eq_true_eq]
    refine ⟨hcontent line (List.mem_flatMap.mpr ⟨q, hp, ?_⟩), ((hfresh q hp).comments line hline).2⟩
    rwa [if_pos hcomment]
  · exact List.nil_sublist _

end Reading

end PostProcessProps
end AndroidBuild
