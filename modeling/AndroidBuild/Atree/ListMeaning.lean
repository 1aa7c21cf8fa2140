import AndroidBuild.Atree.ListFile

/-!
# Whether every line of a list file is accounted for

The program and the usage text split a line alike exactly when each quote
surrounds a whole word that is not empty and has no `#`.  Words in another
order, and a last line without a terminator, are lost or taken for something
else without an error.
-/

namespace AndroidBuild
namespace Atree

open Text Placeholders Expansion

section Quotes

/-- Where a reader stands that looks at the quotes of a line. -/
inductive QuoteState where
  | white
  | text
  | opened
  | body
  | closed
  deriving DecidableEq, Repr

/-- Each quote surrounds a whole word that is not empty and has no `#`. -/
def wellQuotedFrom : QuoteState → Str → Bool
  | state, [] => state != .opened && state != .body
  | .white, c :: line =>
      if c = '#' then true
      else if isspace c then wellQuotedFrom .white line
      else wellQuotedFrom (if c = '"' then .opened else .text) line
  | .text, c :: line =>
      if c = '#' then true
      else if isspace c then wellQuotedFrom .white line
      else c != '"' && wellQuotedFrom .text line
  | .opened, c :: line => c != '#' && c != '"' && wellQuotedFrom .body line
  | .body, c :: line =>
      c != '#' && wellQuotedFrom (if c = '"' then .closed else .body) line
  | .closed, c :: line =>
      if c = '#' then true else isspace c && wellQuotedFrom .white line

def wellQuoted (line : Str) : Bool :=
  wellQuotedFrom .white line

/-- How the words of the usage text and of the program compare: they are the same, or the
difference can be seen in a word. -/
def Compares (quoted : Bool) (documented : Option (List Str)) (words : List Str) : Prop :=
  if quoted = true then documented = some words
  else documented = none ∨ (∃ word ∈ words, '"' ∈ word) ∨
    ∃ ws, documented = some ws ∧ ∃ word ∈ ws, '#' ∈ word

variable {b : Bool} {documented : Option (List Str)} {words : List Str} {word : Str}

theorem Compares.same
    (h : documented = some words) :
    Compares true documented words := by
  rw [Compares, if_pos rfl]
  exact h

theorem Compares.different
    (h : documented = none ∨ (∃ word ∈ words, '"' ∈ word) ∨
      ∃ ws, documented = some ws ∧ ∃ word ∈ ws, '#' ∈ word) :
    Compares false documented words := by
  rw [Compares, if_neg Bool.false_ne_true]
  exact h

theorem Compares.cons
    (h : Compares b documented words) (word : Str) :
    Compares b (documented.map ([word] ++ ·)) (word :: words) := by
  cases b with
  | true =>
      rw [Compares, if_pos rfl] at h
      exact .same (by rw [h]; rfl)
  | false =>
      rw [Compares, if_neg Bool.false_ne_true] at h
      refine .different ?_
      rcases h with rfl | ⟨q, hq, hquote⟩ | ⟨ws, rfl, q, hq, hhash⟩
      · exact Or.inl rfl
      · exact Or.inr (Or.inl ⟨q, List.mem_cons_of_mem _ hq, hquote⟩)
      · exact Or.inr (Or.inr ⟨_, rfl, q, List.mem_cons_of_mem _ hq, hhash⟩)

theorem pushed_of_head
    (h : word.head? ≠ some '"') :
    pushed word = word :=
  if_neg fun hquoted => h hquoted.2.1

theorem head?_ne_of_not_mem
    {c : Char} (h : c ∉ word) :
    word.head? ≠ some c :=
  fun hhead => h (List.mem_of_mem_head? hhead)

/-- The quotes of a word in quotes are left off. -/
theorem pushed_quoted
    (hne : word ≠ []) :
    pushed ('"' :: (word ++ ['"'])) = word := by
  have hlength : 2 < ('"' :: (word ++ ['"'])).length := by
    have hpos := List.length_pos_iff.mpr hne
    simp only [List.length_cons, List.length_append, List.length_nil]
    omega
  rw [pushed, if_pos ⟨hlength, rfl, by rw [← List.cons_append, List.getLast?_concat]⟩]
  simp

/-- A quote stays, whatever else is read of the word. -/
def Stuck (word : Str) : Prop :=
  ∀ tail, '"' ∈ pushed (word ++ tail)

theorem Stuck.append
    (h : Stuck word) (tail : Str) :
    Stuck (word ++ tail) := by
  intro rest
  rw [List.append_assoc]
  exact h (tail ++ rest)

theorem stuck_of_head
    (hhead : word.head? ≠ some '"') (hne : word ≠ []) (hmem : '"' ∈ word) :
    Stuck word := by
  intro tail
  rw [pushed_of_head]
  · exact List.mem_append_left _ hmem
  · cases word with
    | nil => exact absurd rfl hne
    | cons c cs => exact hhead

/-- A quote that is neither the first nor the last character of a word. -/
theorem stuck_of_inner
    (front : Str) (c : Char) (back : Str) :
    Stuck ('"' :: (front ++ '"' :: c :: back)) := by
  intro tail
  rw [pushed]
  split_ifs
  · have hdrop : ('"' :: (front ++ '"' :: c :: back) ++ tail).drop 1 =
        (front ++ ['"']) ++ (c :: (back ++ tail)) := by simp
    rw [hdrop, List.dropLast_append_of_ne_nil (List.cons_ne_nil _ _)]
    simp
  · simp

theorem stuck_empty :
    Stuck ['"', '"'] := by
  intro tail
  cases tail with
  | nil => simp [pushed]
  | cons c tail =>
      have h := stuck_of_inner [] c tail []
      simpa using h

theorem Stuck.exists_quote
    (h : Stuck word) (line : Str) :
    ∃ q ∈ splitFrom .text word line, '"' ∈ q := by
  induction line generalizing word with
  | nil =>
      refine ⟨pushed word, List.mem_singleton_self _, ?_⟩
      simpa using h []
  | cons c line ih =>
      have hnow : '"' ∈ pushed word := by simpa using h []
      rw [splitFrom]
      by_cases hhash : c = '#'
      · rw [if_pos hhash, if_pos rfl]
        exact ⟨pushed word, List.mem_singleton_self _, hnow⟩
      · rw [if_neg hhash]
        by_cases hspace : isspace c = true
        · simp only [if_pos hspace]
          exact ⟨pushed word, List.mem_cons_self, hnow⟩
        · simp only [if_neg hspace]
          exact ih (h.append [c])

/-- The words of the usage text go on with the word that is read already. -/
theorem documentedFrom_some
    {quoted : Bool} {line : Str} {ws : List Str}
    (h : documentedFrom quoted (some word) line = some ws) :
    ∃ tail rest, ws = (word ++ tail) :: rest := by
  induction line generalizing quoted word with
  | nil =>
      rw [documentedFrom] at h
      split_ifs at h
      cases h
      exact ⟨[], [], by simp⟩
  | cons c line ih =>
      rw [documentedFrom] at h
      split_ifs at h
      · exact ih h
      · obtain ⟨tail, rest, rfl⟩ := ih h
        exact ⟨c :: tail, rest, by simp⟩
      · cases h
        exact ⟨[], [], by simp⟩
      · obtain ⟨ws', _, rfl⟩ := Option.map_eq_some_iff.mp h
        exact ⟨[], ws', by simp⟩
      · obtain ⟨tail, rest, rfl⟩ := ih h
        exact ⟨c :: tail, rest, by simp⟩

/-- A `#` in quotes ends the line for the program only. -/
theorem different_of_quoted_hash
    (word line : Str) (words : List Str) :
    Compares false (documentedFrom true (some (word ++ ['#'])) line) words := by
  refine .different ?_
  cases h : documentedFrom true (some (word ++ ['#'])) line with
  | none => exact Or.inl rfl
  | some ws =>
      obtain ⟨tail, rest, rfl⟩ := documentedFrom_some h
      exact Or.inr (Or.inr ⟨_, rfl, _, List.mem_cons_self, by simp⟩)

/-- The two splitters side by side; the induction is on the line, in each state that the two can
be in together. -/
theorem compares_from
    (line : Str) :
    Compares (wellQuotedFrom .white line) (documentedFrom false none line)
      (splitFrom .white [] line) ∧
    (∀ word, word ≠ [] → '"' ∉ word →
      Compares (wellQuotedFrom .text line) (documentedFrom false (some word) line)
        (splitFrom .text word line)) ∧
    (∀ word, '"' ∉ word →
      Compares (wellQuotedFrom (if word = [] then .opened else .body) line)
        (documentedFrom true (some word) line) (splitFrom .inQuote ('"' :: word) line)) ∧
    ∀ word, word ≠ [] → '"' ∉ word →
      Compares (wellQuotedFrom .closed line) (documentedFrom false (some word) line)
        (splitFrom .text ('"' :: (word ++ ['"'])) line) := by
  induction line with
  | nil =>
      refine ⟨.same rfl, fun word hne hquote => .same ?_, fun word _ => ?_,
        fun word hne hquote => .same ?_⟩
      · rw [splitFrom, if_pos rfl, pushed_of_head (head?_ne_of_not_mem hquote)]
        rfl
      · have hstate : wellQuotedFrom (if word = [] then .opened else .body) [] = false := by
          split_ifs <;> rfl
        rw [hstate]
        exact .different (Or.inl rfl)
      · rw [splitFrom, if_pos rfl, pushed_quoted hne]
        rfl
  | cons c line ih =>
      obtain ⟨hwhite, htext, hbody, hclosed⟩ := ih
      refine ⟨?_, fun word hne hquote => ?_, fun word hquote => ?_, fun word hne hquote => ?_⟩
      · rw [wellQuotedFrom, documentedFrom, splitFrom]
        by_cases hhash : c = '#'
        · subst hhash
          exact .same rfl
        rw [if_neg hhash, if_neg hhash, if_neg hhash]
        by_cases hdouble : c = '"'
        · subst hdouble
          exact hbody [] List.not_mem_nil
        by_cases hspace : isspace c = true
        · simp only [if_neg hdouble, if_neg Bool.false_ne_true, if_pos hspace]
          simpa using hwhite
        · simp only [if_neg hdouble, if_neg Bool.false_ne_true, if_neg hspace]
          refine htext [c] (List.cons_ne_nil _ _) ?_
          simpa using fun h => hdouble h.symm
      · rw [wellQuotedFrom, documentedFrom, splitFrom]
        have hpushed : pushed word = word := pushed_of_head (head?_ne_of_not_mem hquote)
        by_cases hhash : c = '#'
        · subst hhash
          refine .same ?_
          rw [if_pos rfl, if_pos rfl, hpushed]
          rfl
        rw [if_neg hhash, if_neg hhash, if_neg hhash]
        by_cases hdouble : c = '"'
        · subst hdouble
          have hstuck : Stuck (word ++ ['"']) := by
            refine stuck_of_head ?_ (by simp) (by simp)
            rw [List.head?_append_of_ne_nil _ hne]
            exact head?_ne_of_not_mem hquote
          exact .different (Or.inr (Or.inl (hstuck.exists_quote line)))
        rw [if_neg hdouble, if_neg Bool.false_ne_true]
        by_cases hspace : isspace c = true
        · rw [if_pos hspace, if_pos hspace, if_pos hspace, hpushed]
          exact hwhite.cons word
        · rw [if_neg hspace, if_neg hspace, if_neg hspace, bne_iff_ne.mpr hdouble, Bool.true_and]
          refine htext (word ++ [c]) (by simp) ?_
          rw [List.mem_append, not_or]
          exact ⟨hquote, by simpa using fun h => hdouble h.symm⟩
      · rw [documentedFrom, splitFrom]
        by_cases hhash : c = '#'
        · subst hhash
          have hstate : wellQuotedFrom (if word = [] then .opened else .body) ('#' :: line) =
              false := by
            split_ifs <;> rfl
          rw [hstate]
          exact different_of_quoted_hash word line _
        rw [if_neg hhash]
        by_cases hdouble : c = '"'
        · subst hdouble
          by_cases hempty : word = []
          · subst hempty
            exact .different (Or.inr (Or.inl (stuck_empty.exists_quote line)))
          · rw [if_neg hempty]
            exact hclosed word hempty hquote
        simp only [if_neg hhash, if_neg hdouble, if_pos]
        have hnext : '"' ∉ word ++ [c] := by
          rw [List.mem_append, not_or]
          exact ⟨hquote, by simpa using fun h => hdouble h.symm⟩
        have hgo := hbody (word ++ [c]) hnext
        rw [if_neg (by simp)] at hgo
        have hstate : wellQuotedFrom (if word = [] then .opened else .body) (c :: line) =
            wellQuotedFrom .body line := by
          split_ifs <;> simp [wellQuotedFrom, hhash, hdouble]
        rw [hstate]
        exact hgo
      · rw [wellQuotedFrom, documentedFrom, splitFrom]
        by_cases hhash : c = '#'
        · subst hhash
          refine .same ?_
          rw [if_pos rfl, if_pos rfl, pushed_quoted hne]
          rfl
        rw [if_neg hhash, if_neg hhash, if_neg hhash]
        by_cases hspace : isspace c = true
        · have hdouble : c ≠ '"' := by
            rintro rfl
            exact absurd hspace (by decide)
          rw [if_neg hdouble, if_neg Bool.false_ne_true, if_pos hspace, if_pos hspace, hspace,
            Bool.true_and, pushed_quoted hne]
          exact hwhite.cons word
        · rw [if_neg hspace, Bool.eq_false_iff.mpr hspace, Bool.false_and]
          have hstuck := stuck_of_inner word c []
          have hword : '"' :: (word ++ '"' :: c :: []) = '"' :: (word ++ ['"']) ++ [c] := by simp
          rw [hword] at hstuck
          exact .different (Or.inr (Or.inl (hstuck.exists_quote line)))

theorem compares_words
    (line : Str) :
    Compares (wellQuoted line) (documentedWords line) (splitLine line) :=
  (compares_from line).1

theorem hash_not_mem_pushed
    (h : '#' ∉ word) :
    '#' ∉ pushed word := by
  rw [pushed]
  split_ifs
  · exact fun hmem => h (List.mem_of_mem_drop (List.mem_of_mem_dropLast hmem))
  · exact h

theorem hash_not_mem_splitFrom
    (state : SplitState) {word : Str} (h : '#' ∉ word) (line : Str) :
    ∀ q ∈ splitFrom state word line, '#' ∉ q := by
  induction line generalizing state word with
  | nil =>
      rw [splitFrom]
      split_ifs
      · simpa using hash_not_mem_pushed h
      · simp
  | cons c line ih =>
      rw [splitFrom.eq_def]
      dsimp only
      by_cases hhash : c = '#'
      · rw [if_pos hhash]
        split_ifs
        · simpa using hash_not_mem_pushed h
        · simp
      have hnext : '#' ∉ word ++ [c] := by
        rw [List.mem_append, not_or]
        exact ⟨h, by simpa using fun heq => hhash heq.symm⟩
      rw [if_neg hhash]
      cases state with
      | white =>
          dsimp only
          split_ifs
          · exact ih _ List.not_mem_nil
          · exact ih _ (by simpa using fun heq => hhash heq.symm)
          · exact ih _ (by simpa using fun heq => hhash heq.symm)
      | text =>
          dsimp only
          split_ifs
          · exact List.forall_mem_cons.mpr ⟨hash_not_mem_pushed h, ih _ List.not_mem_nil⟩
          · exact ih _ hnext
      | inQuote => exact ih _ hnext

/-- The words of the usage text have no quote. -/
theorem quote_not_mem_documentedFrom
    {quoted : Bool} {word : Option Str} (h : ∀ w, word = some w → '"' ∉ w) {line : Str}
    {ws : List Str} (hws : documentedFrom quoted word line = some ws) :
    ∀ q ∈ ws, '"' ∉ q := by
  have hgetD : '"' ∉ word.getD [] := by
    cases word with
    | none => exact List.not_mem_nil
    | some w => exact h w rfl
  have htoList : ∀ q ∈ word.toList, '"' ∉ q := fun q hq => h q (Option.mem_toList.mp hq)
  induction line generalizing quoted word ws with
  | nil =>
      rw [documentedFrom] at hws
      split_ifs at hws
      cases hws
      exact htoList
  | cons c line ih =>
      have hall : ∀ v : Str, '"' ∉ v → ∀ {quoted ws},
          documentedFrom quoted (some v) line = some ws → ∀ q ∈ ws, '"' ∉ q := fun v hv _ _ hws =>
        ih (fun w hw => by cases hw; exact hv) hws hv (by simpa using hv)
      rw [documentedFrom] at hws
      by_cases hdouble : c = '"'
      · rw [if_pos hdouble] at hws
        exact hall _ hgetD hws
      have hnext : '"' ∉ word.getD [] ++ [c] := by
        rw [List.mem_append, not_or]
        exact ⟨hgetD, by simpa using fun heq => hdouble heq.symm⟩
      rw [if_neg hdouble] at hws
      split_ifs at hws
      · exact hall _ hnext hws
      · cases hws
        exact htoList
      · obtain ⟨ws', hws', rfl⟩ := Option.map_eq_some_iff.mp hws
        intro q hq
        rcases List.mem_append.mp hq with hq | hq
        · exact htoList q hq
        · exact ih (by simp) hws' (by simp) (by simp) q hq
      · exact hall _ hnext hws

end Quotes

section Replacing

variable {vars : Variables} {word : Str}

/-- The variables have neither quotes nor `#`, in their names and in their values. -/
def Quiet (vars : Variables) : Prop :=
  ∀ e ∈ vars, e.1 ≠ [] ∧ ∀ c ∈ ['"', '#'], c ∉ e.1 ∧ c ∉ e.2

theorem mem_substituteFrom
    {p v : Str} (hne : p ≠ []) {c : Char} (hc : c ∉ p) {n : Nat} {text : Str}
    (h : c ∈ text.drop n) :
    c ∈ substituteFrom [(p, v)] n text := by
  induction text generalizing n with
  | nil => simp at h
  | cons a rest ih =>
      cases n with
      | succ n => exact ih h
      | zero =>
          rw [substituteFrom]
          cases hmatch : matchAt [(p, v)] (a :: rest) with
          | none =>
              rcases List.mem_cons.mp h with rfl | h
              · exact List.mem_cons_self
              · exact List.mem_cons_of_mem _ (ih (by simpa using h))
          | some e =>
              have hfound := List.find?_some hmatch
              have hmem := List.mem_of_find?_eq_some hmatch
              rw [List.mem_singleton] at hmem
              subst hmem
              obtain ⟨back, hback⟩ : p <+: a :: rest := by simpa using hfound
              refine List.mem_append_right _ (ih ?_)
              obtain ⟨b, p', rfl⟩ := List.exists_cons_of_ne_nil hne
              have hrest : rest = p' ++ back := (List.cons.inj hback).2.symm
              rw [List.drop_zero, ← hback] at h
              have hmem := (List.mem_append.mp h).resolve_left hc
              rw [hrest]
              simpa using hmem

theorem mem_of_mem_substituteFrom
    {p v : Str} {c : Char} {n : Nat} {text : Str} (h : c ∈ substituteFrom [(p, v)] n text) :
    c ∈ text ∨ c ∈ v := by
  induction text generalizing n with
  | nil => simp [substituteFrom] at h
  | cons a rest ih =>
      cases n with
      | succ n => exact (ih h).imp_left (List.mem_cons_of_mem _)
      | zero =>
          rw [substituteFrom] at h
          cases hmatch : matchAt [(p, v)] (a :: rest) with
          | none =>
              rw [hmatch] at h
              rcases List.mem_cons.mp h with rfl | h
              · exact Or.inl List.mem_cons_self
              · exact (ih h).imp_left (List.mem_cons_of_mem _)
          | some e =>
              have hmem := List.mem_of_find?_eq_some hmatch
              rw [List.mem_singleton] at hmem
              subst hmem
              rw [hmatch] at h
              rcases List.mem_append.mp h with h | h
              · exact Or.inr h
              · exact (ih h).imp_left (List.mem_cons_of_mem _)

/-- What holds of a word and is kept by each replacement holds of the result. -/
theorem replaceVariables_rule
    {P : Str → Prop} (hkeep : ∀ e ∈ vars, ∀ x, P x → P (replace e.1 e.2 x)) (h : P word) :
    P (replaceVariables word vars).1 := by
  have hpasses : ∀ n x, P x → P (passes vars n x).1 := by
    intro n
    induction n with
    | zero => exact fun x hx => hx
    | succ n ih =>
        intro x hx
        have hpass : P (pass vars x).1 :=
          foldl_replaceFound_rule (fun e he y _ hy => hkeep e he y hy) false hx
        rw [passes]
        split_ifs
        · exact ih _ hpass
        · exact hpass
  rw [replaceVariables]
  split_ifs
  · exact h
  · exact hpasses _ _ h
  · exact h

theorem Quiet.mem_replaceVariables
    (hquiet : Quiet vars) {c : Char} (hc : c ∈ ['"', '#']) (h : c ∈ word) :
    c ∈ (replaceVariables word vars).1 := by
  refine replaceVariables_rule (P := fun x => c ∈ x) (fun e he x hx => ?_) h
  obtain ⟨hne, hchars⟩ := hquiet e he
  exact mem_substituteFrom hne (hchars c hc).1 (by simpa using hx)

theorem Quiet.not_mem_replaceVariables
    (hquiet : Quiet vars) {c : Char} (hc : c ∈ ['"', '#']) (h : c ∉ word) :
    c ∉ (replaceVariables word vars).1 := by
  refine replaceVariables_rule (P := fun x => c ∉ x) (fun e he x hx hmem => ?_) h
  rcases mem_of_mem_substituteFrom hmem with hmem | hmem
  · exact hx hmem
  · exact ((hquiet e he).2 c hc).2 hmem

end Replacing

section Words

variable {vars : Variables}

def IsPathWord (word : Str) : Bool :=
  (keywordOp word).isNone

def pathWords (words : List Str) : List Str :=
  words.filter IsPathWord

def keywordCount (words : List Str) : Nat :=
  (words.filter fun word => !IsPathWord word).length

/-- The number of keywords that an operation stands for. -/
def opCount (op : FileOpType) : Nat :=
  if op = .copy then 0 else 1

theorem keywordOp_ne_copy
    {word : Str} {op : FileOpType} (h : keywordOp word = some op) :
    op ≠ .copy := by
  rw [keywordOp] at h
  split_ifs at h <;> cases h <;> decide

/-- The loop over the words ends well if and only if there is at most one keyword, there are at most
two paths and their variables can be replaced. -/
theorem readWords_done_iff
    (words : List Str) (op : FileOpType) {paths : List Str} (hpaths : paths.length ≤ 2) :
    (∃ op' paths', readWords vars words op paths = .done op' paths') ↔
      opCount op + keywordCount words ≤ 1 ∧ paths.length + (pathWords words).length ≤ 2 ∧
        ∀ word ∈ pathWords words, (replaceVariables word vars).2 = false := by
  induction words generalizing op paths with
  | nil =>
      have hop : opCount op ≤ 1 := by
        rw [opCount]
        split_ifs <;> omega
      simpa [readWords, keywordCount, pathWords] using ⟨hop, hpaths⟩
  | cons word words ih =>
      rw [readWords]
      cases hkeyword : keywordOp word with
      | some keyword =>
          have hpath : IsPathWord word = false := by simp [IsPathWord, hkeyword]
          have hcount : keywordCount (word :: words) = keywordCount words + 1 := by
            simp [keywordCount, hpath]
          have hwords : pathWords (word :: words) = pathWords words := by
            simp [pathWords, hpath]
          have hone : opCount keyword = 1 := if_neg (keywordOp_ne_copy hkeyword)
          rw [hcount, hwords]
          dsimp only
          split_ifs with hop
          · have htwo : opCount op = 1 := if_neg hop
            simp only [exists_false, false_iff, not_and]
            omega
          · have hzero : opCount op = 0 := if_pos (not_not.mp hop)
            rw [ih keyword hpaths, hone, hzero, Nat.zero_add, Nat.add_comm 1]
      | none =>
          have hpath : IsPathWord word = true := by simp [IsPathWord, hkeyword]
          have hcount : keywordCount (word :: words) = keywordCount words := by
            simp [keywordCount, hpath]
          have hwords : pathWords (word :: words) = word :: pathWords words := by
            simp [pathWords, hpath]
          rw [hcount, hwords, List.forall_mem_cons, List.length_cons]
          dsimp only
          split_ifs with hfew hflag
          · simp [hflag]
          · rw [Bool.not_eq_true] at hflag
            rw [ih op (by simp; omega), hflag]
            simp only [List.length_append, List.length_singleton, true_and]
            rw [Nat.add_assoc, Nat.add_comm 1]
          · simp only [exists_false, false_iff, not_and]
            omega

theorem readWords_paths
    {words : List Str} {op op' : FileOpType} {paths paths' : List Str}
    (h : readWords vars words op paths = .done op' paths') :
    paths' = paths ++ (pathWords words).map fun word => (replaceVariables word vars).1 := by
  induction words generalizing op paths with
  | nil =>
      cases h
      simp [pathWords]
  | cons word words ih =>
      rw [readWords] at h
      cases hkeyword : keywordOp word with
      | some keyword =>
          rw [hkeyword] at h
          dsimp only at h
          split_ifs at h
          rw [ih h]
          simp [pathWords, IsPathWord, hkeyword]
      | none =>
          rw [hkeyword] at h
          dsimp only at h
          split_ifs at h
          rw [ih h]
          simp [pathWords, IsPathWord, hkeyword]

theorem documentedLine_cases
    {words : List Str} {op : FileOpType} {source dest : Str}
    (h : documentedLine words = some (op, source, dest)) :
    IsPath source ∧ IsPath dest ∧
      (words = [dest] ∧ op = .copy ∧ source = dest ∨
       (∃ keyword, words = [keyword, dest] ∧ keywordOp keyword = some op ∧ source = dest) ∨
       words = [source, dest] ∧ op = .copy ∨
       words = [source, "strip".toList, dest] ∧ op = .strip) := by
  match words with
  | [] => cases h
  | [path] =>
      rw [documentedLine] at h
      split_ifs at h with hpath
      cases h
      exact ⟨hpath, hpath, Or.inl ⟨rfl, rfl, rfl⟩⟩
  | [first, path] =>
      rw [documentedLine] at h
      by_cases hpath : IsPath path
      swap
      · rw [if_neg hpath] at h
        cases h
      rw [if_pos hpath] at h
      cases hkeyword : keywordOp first with
      | some keyword =>
          rw [hkeyword] at h
          cases h
          exact ⟨hpath, hpath, Or.inr (Or.inl ⟨first, rfl, hkeyword, rfl⟩)⟩
      | none =>
          rw [hkeyword] at h
          dsimp only at h
          split_ifs at h with hfirst
          cases h
          exact ⟨⟨hfirst, hkeyword⟩, hpath, Or.inr (Or.inr (Or.inl ⟨rfl, rfl⟩))⟩
  | [first, word, path] =>
      rw [documentedLine] at h
      split_ifs at h with hpaths
      cases h
      obtain ⟨hsource, hdest, rfl⟩ := hpaths
      exact ⟨hsource, hdest, Or.inr (Or.inr (Or.inr ⟨rfl, rfl⟩))⟩
  | _ :: _ :: _ :: _ :: _ => cases h

end Words

section Outcomes

variable {vars : Variables} {line : Str}

/-- A line that is to give a record. -/
def IsContent (line : Str) : Prop :=
  (isWhitespaceLine line || isCommentLine line) = false ∧ isExcludeLine line = false

instance : DecidablePred IsContent := fun line =>
  inferInstanceAs (Decidable ((isWhitespaceLine line || isCommentLine line) = false ∧
    isExcludeLine line = false))

def LineOutcome.fails : LineOutcome → Bool
  | badFormat _ => true
  | recursive => true
  | _ => false

/-- A line with two keywords, with three paths or with a path whose variables are recursive. -/
def Refused (vars : Variables) (line : Str) : Prop :=
  IsContent line ∧
    (1 < keywordCount (splitLine line) ∨ 2 < (pathWords (splitLine line)).length ∨
      ∃ word ∈ pathWords (splitLine line), (replaceVariables word vars).2 = true)

theorem readLine_content
    (h : IsContent line) :
    readLine vars line =
      match readWords vars (splitLine line) .copy [] with
      | .recursive => .recursive
      | .error errstr pcount => .badFormat (if pcount = 0 then noPathError else errstr)
      | .done op [] => .record op [] []
      | .done op [path] => .record op path path
      | .done op (source :: dest :: _) => .record op source dest :=
  (if_neg (by simpa using h.1)).trans (if_neg (by simpa using h.2))

theorem readLine_fails_iff :
    (readLine vars line).fails = true ↔ Refused vars line := by
  by_cases hcontent : IsContent line
  · have hdone : (∃ op paths, readWords vars (splitLine line) .copy [] = .done op paths) ↔ _ :=
      readWords_done_iff (splitLine line) .copy (by simp)
    rw [readLine_content hcontent, Refused, and_iff_right hcontent]
    have hrefused : (1 < keywordCount (splitLine line) ∨ 2 < (pathWords (splitLine line)).length ∨
        ∃ word ∈ pathWords (splitLine line), (replaceVariables word vars).2 = true) ↔
        ¬ ∃ op' paths', readWords vars (splitLine line) .copy [] = .done op' paths' := by
      rw [hdone]
      simp only [opCount, if_true, Nat.zero_add, List.length_nil, not_and_or, not_le, not_forall,
        Bool.not_eq_false, exists_prop]
    rw [hrefused]
    cases readWords vars (splitLine line) .copy [] with
    | done op paths =>
        have hnot : ¬ ¬ ∃ op' paths', WordsEnd.done op paths = .done op' paths' :=
          not_not.mpr ⟨op, paths, rfl⟩
        match paths with
        | [] => simp [LineOutcome.fails]
        | [_] => simp [LineOutcome.fails]
        | _ :: _ :: _ => simp [LineOutcome.fails]
    | error errstr pcount => simp [LineOutcome.fails]
    | recursive => simp [LineOutcome.fails]
  · constructor
    · intro hfails
      rw [readLine] at hfails
      split_ifs at hfails with hfirst hexclude
      · cases hfails
      · cases hfails
      · exact absurd ⟨by simpa using hfirst, by simpa using hexclude⟩ hcontent
    · exact fun hrefused => absurd hrefused.1 hcontent

def Meaning.outcome : Meaning → LineOutcome
  | nothing => .nothing
  | exclude pattern => .exclude pattern
  | record op sourceName outName => .record op sourceName outName

theorem meaning_of_not_content
    (h : ¬ IsContent line) :
    ∃ m, meaning vars line = some m ∧ readLine vars line = m.outcome ∧ m.recordOf = none := by
  rw [meaning, readLine]
  split_ifs with hfirst hexclude
  · exact ⟨.nothing, rfl, rfl, rfl⟩
  · exact ⟨.exclude (excludePattern line), rfl, rfl, rfl⟩
  · exact absurd ⟨by simpa using hfirst, by simpa using hexclude⟩ h

theorem meaning_content
    (h : IsContent line) :
    meaning vars line = (documentedWords line).bind fun words =>
      (documentedLine words).bind fun r =>
        (replacedPath vars r.2.1).bind fun source =>
          (replacedPath vars r.2.2).map fun dest => Meaning.record r.1 source dest := by
  rw [meaning, if_neg (by simpa using h.1), if_neg (by simpa using h.2)]
  cases documentedWords line with
  | none => rfl
  | some words =>
      change (documentedLine words >>= _) = (documentedLine words).bind _
      cases documentedLine words with
      | none => rfl
      | some r =>
          obtain ⟨op, source, dest⟩ := r
          change (replacedPath vars source >>= _) = (replacedPath vars source).bind _
          cases replacedPath vars source with
          | none => rfl
          | some source' => cases replacedPath vars dest <;> rfl

theorem replacedPath_of_not_refused
    (hcontent : IsContent line) (hrefused : ¬ Refused vars line) {word : Str}
    (hword : word ∈ splitLine line) (hpath : keywordOp word = none) :
    (replaceVariables word vars).2 = false := by
  by_contra hflag
  rw [Bool.not_eq_false] at hflag
  refine hrefused ⟨hcontent, Or.inr (Or.inr ⟨word, List.mem_filter.mpr ⟨hword, ?_⟩, hflag⟩)⟩
  simp [IsPathWord, hpath]

/-- A line that the program does not refuse and whose words are those of the grammar gives the
record that it means. -/
theorem meaning_of_documented
    (hcontent : IsContent line) (hrefused : ¬ Refused vars line)
    (hwords : documentedWords line = some (splitLine line))
    (hline : (documentedLine (splitLine line)).isSome = true) :
    ∃ op source dest, meaning vars line = some (.record op source dest) ∧
      readLine vars line = .record op source dest := by
  obtain ⟨⟨op, source, dest⟩, hparsed⟩ := Option.isSome_iff_exists.mp hline
  obtain ⟨hsource, hdest, hcases⟩ := documentedLine_cases hparsed
  have hmem : source ∈ splitLine line ∧ dest ∈ splitLine line := by
    rcases hcases with ⟨h, _, rfl⟩ | ⟨_, h, _, rfl⟩ | ⟨h, _⟩ | ⟨h, _⟩ <;> rw [h] <;> simp
  have hsourceFlag := replacedPath_of_not_refused hcontent hrefused hmem.1 hsource.2
  have hdestFlag := replacedPath_of_not_refused hcontent hrefused hmem.2 hdest.2
  refine ⟨op, (replaceVariables source vars).1, (replaceVariables dest vars).1, ?_, ?_⟩
  · rw [meaning_content hcontent, hwords]
    simp [hparsed, replacedPath, hsourceFlag, hdestFlag]
  · rw [readLine_content hcontent]
    rcases hcases with ⟨h, rfl, rfl⟩ | ⟨keyword, h, hkeyword, rfl⟩ | ⟨h, rfl⟩ | ⟨h, rfl⟩
    · rw [h]
      simp [readWords, hdest.2, hdestFlag]
    · rw [h]
      simp [readWords, hkeyword, hdest.2, hdestFlag]
    · rw [h]
      simp [readWords, hsource.2, hdest.2, hsourceFlag, hdestFlag]
    · have hstrip : keywordOp ['s', 't', 'r', 'i', 'p'] = some .strip := by decide
      rw [h]
      simp [readWords, hstrip, hsource.2, hdest.2, hsourceFlag, hdestFlag]

/-- The paths of a record are those of the words. -/
theorem record_paths
    (hcontent : IsContent line) {op : FileOpType} {source dest : Str}
    (h : readLine vars line = .record op source dest) :
    (∀ word ∈ pathWords (splitLine line), (replaceVariables word vars).1 = source ∨
      (replaceVariables word vars).1 = dest) ∧
    ∀ name, name = source ∨ name = dest → name = [] ∨
      ∃ word ∈ splitLine line, (replaceVariables word vars).1 = name := by
  rw [readLine_content hcontent] at h
  cases hdone : readWords vars (splitLine line) .copy [] with
  | error errstr pcount =>
      rw [hdone] at h
      cases h
  | recursive =>
      rw [hdone] at h
      cases h
  | done op' paths =>
      have hpaths := readWords_paths hdone
      rw [List.nil_append] at hpaths
      rw [hdone] at h
      have hlength := ((readWords_done_iff (splitLine line) .copy (by simp)).mp
        ⟨op', paths, hdone⟩).2.1
      have hsource : ∀ name ∈ paths, ∃ word ∈ splitLine line,
          (replaceVariables word vars).1 = name := by
        intro name hname
        rw [hpaths] at hname
        obtain ⟨word, hword, rfl⟩ := List.mem_map.mp hname
        exact ⟨word, (List.mem_filter.mp hword).1, rfl⟩
      have hback : ∀ word ∈ pathWords (splitLine line), (replaceVariables word vars).1 ∈ paths := by
        intro word hword
        rw [hpaths]
        exact List.mem_map_of_mem hword
      have hcount : paths.length ≤ 2 := by
        rw [hpaths, List.length_map]
        simpa using hlength
      match paths, h with
      | [], h =>
          cases h
          exact ⟨fun word hword => absurd (hback word hword) List.not_mem_nil,
            fun name hname => Or.inl (hname.elim id id)⟩
      | [path], h =>
          cases h
          refine ⟨fun word hword => Or.inl (List.mem_singleton.mp (hback word hword)), ?_⟩
          rintro name (rfl | rfl) <;> exact Or.inr (hsource name (by simp))
      | [first, second], h =>
          cases h
          refine ⟨fun word hword => by simpa using hback word hword, ?_⟩
          rintro name (rfl | rfl) <;> exact Or.inr (hsource name (by simp))
      | _ :: _ :: _ :: _, _ =>
          simp at hcount

theorem quote_not_mem_keyword
    {word : Str} (h : '"' ∈ word ∨ '#' ∈ word) :
    keywordOp word = none := by
  rw [keywordOp]
  split_ifs with hrm hstrip
  · rw [hrm] at h
    exact absurd h (by decide)
  · rw [hstrip] at h
    exact absurd h (by decide)
  · rfl

/-- A line that gives the record that it means has quotes around whole words, and its words are in
an order of the grammar. -/
theorem documented_of_meaning
    (hquiet : Quiet vars) (hcontent : IsContent line) {op : FileOpType} {source dest : Str}
    (hmeaning : meaning vars line = some (.record op source dest))
    (hread : readLine vars line = .record op source dest) :
    wellQuoted line = true ∧ (documentedLine (splitLine line)).isSome = true := by
  obtain ⟨hpaths, hwords⟩ := record_paths hcontent hread
  rw [meaning_content hcontent] at hmeaning
  obtain ⟨ws, hws, hmeaning⟩ := Option.bind_eq_some_iff.mp hmeaning
  obtain ⟨⟨op', source', dest'⟩, hparsed, hmeaning⟩ := Option.bind_eq_some_iff.mp hmeaning
  obtain ⟨s, hs, hmeaning⟩ := Option.bind_eq_some_iff.mp hmeaning
  obtain ⟨d, hd, hmeaning⟩ := Option.map_eq_some_iff.mp hmeaning
  cases hmeaning
  have hreplaced : (replaceVariables source' vars).1 = source ∧
      (replaceVariables dest' vars).1 = dest := by
    rw [replacedPath] at hs hd
    dsimp only at hs hd
    split_ifs at hs hd
    exact ⟨Option.some.inj hs, Option.some.inj hd⟩
  obtain ⟨_, _, hcases⟩ := documentedLine_cases hparsed
  have hmem : source' ∈ ws ∧ dest' ∈ ws := by
    rcases hcases with ⟨h, _, rfl⟩ | ⟨_, h, _, rfl⟩ | ⟨h, _⟩ | ⟨h, _⟩ <;> rw [h] <;> simp
  have hfree : ∀ q ∈ ws, '"' ∉ q := quote_not_mem_documentedFrom (by simp) hws
  have hnoQuote : '"' ∉ source ∧ '"' ∉ dest := by
    rw [← hreplaced.1, ← hreplaced.2]
    exact ⟨hquiet.not_mem_replaceVariables (by simp) (hfree _ hmem.1),
      hquiet.not_mem_replaceVariables (by simp) (hfree _ hmem.2)⟩
  have hnoHash : '#' ∉ source ∧ '#' ∉ dest := by
    have hall : ∀ name, name = source ∨ name = dest → '#' ∉ name := by
      intro name hname
      rcases hwords name hname with rfl | ⟨word, hword, rfl⟩
      · exact List.not_mem_nil
      · exact hquiet.not_mem_replaceVariables (by simp)
          (hash_not_mem_splitFrom .white List.not_mem_nil line word hword)
    exact ⟨hall source (Or.inl rfl), hall dest (Or.inr rfl)⟩
  have hquoted : wellQuoted line = true := by
    by_contra hnot
    rw [Bool.not_eq_true] at hnot
    have hcompare := compares_words line
    rw [hnot, Compares, if_neg Bool.false_ne_true] at hcompare
    rcases hcompare with hnone | ⟨q, hq, hquote⟩ | ⟨ws', hws', q, hq, hhash⟩
    · rw [hws] at hnone
      cases hnone
    · -- a quote is left in a path of the program
      have hpath : q ∈ pathWords (splitLine line) :=
        List.mem_filter.mpr ⟨hq, by simp [IsPathWord, quote_not_mem_keyword (Or.inl hquote)]⟩
      have hkept := hquiet.mem_replaceVariables (c := '"') (by simp) hquote
      rcases hpaths q hpath with h | h <;> rw [h] at hkept
      · exact hnoQuote.1 hkept
      · exact hnoQuote.2 hkept
    · -- the program leaves off a path with a `#`
      rw [hws, Option.some.injEq] at hws'
      subst hws'
      have hkept := hquiet.mem_replaceVariables (c := '#') (by simp) hhash
      have hkeyword := quote_not_mem_keyword (Or.inr hhash)
      have hown : q = source' ∨ q = dest' := by
        rcases hcases with ⟨h, _, rfl⟩ | ⟨keyword, h, hop, rfl⟩ | ⟨h, _⟩ | ⟨h, _⟩ <;> rw [h] at hq
        · exact Or.inr (List.mem_singleton.mp hq)
        · rcases List.mem_cons.mp hq with rfl | hq
          · rw [hkeyword] at hop
            cases hop
          · exact Or.inr (List.mem_singleton.mp hq)
        · simpa using hq
        · rcases List.mem_cons.mp hq with rfl | hq
          · exact Or.inl rfl
          · rcases List.mem_cons.mp hq with rfl | hq
            · exact absurd hhash (by decide)
            · exact Or.inr (List.mem_singleton.mp hq)
      rcases hown with rfl | rfl
      · exact hnoHash.1 (hreplaced.1 ▸ hkept)
      · exact hnoHash.2 (hreplaced.2 ▸ hkept)
  have hsame := compares_words line
  rw [hquoted, Compares, if_pos rfl, hws, Option.some.injEq] at hsame
  exact ⟨hquoted, by rw [← hsame, hparsed]; rfl⟩

end Outcomes

section Files

variable {vars : Variables} {text : Str}

namespace LineOutcome

def recordOf : LineOutcome → Option (FileOpType × Str × Str)
  | record op sourceName outName => some (op, sourceName, outName)
  | _ => none

def patternOf : LineOutcome → Option Str
  | exclude pattern => some pattern
  | _ => none

end LineOutcome

theorem Meaning.outcome_recordOf
    (m : Meaning) :
    m.outcome.recordOf = m.recordOf := by
  cases m <;> rfl

theorem Meaning.outcome_patternOf
    (m : Meaning) :
    m.outcome.patternOf = m.patternOf := by
  cases m <;> rfl

def FileRecord.triple (r : FileRecord) : FileOpType × Str × Str :=
  (r.fileOp, r.sourceName, r.outName)

theorem filterMap_cons_toList
    {α β : Type*} (f : α → Option β) (a : α) (l : List α) :
    (a :: l).filterMap f = (f a).toList ++ l.filterMap f := by
  cases h : f a <;> simp [h]

theorem readLines_of_no_failure
    {lines : List Str} (h : ∀ line ∈ lines, (readLine vars line).fails = false)
    (i : Nat) (out : ListFile) :
    (readLines vars i lines out).err = out.err ∧
      (readLines vars i lines out).files.map FileRecord.triple =
        out.files.map FileRecord.triple ++
          lines.filterMap (fun line => (readLine vars line).recordOf) ∧
      (readLines vars i lines out).excludes =
        out.excludes ++ lines.filterMap fun line => (readLine vars line).patternOf := by
  induction lines generalizing i out with
  | nil => simp [readLines]
  | cons line lines ih =>
      rw [List.forall_mem_cons] at h
      have hline := h.1
      rw [readLines, filterMap_cons_toList, filterMap_cons_toList]
      cases hread : readLine vars line with
      | nothing => exact ih h.2 _ _
      | exclude pattern =>
          obtain ⟨herr, hfiles, hexcludes⟩ :=
            ih h.2 (i + 1) { out with excludes := out.excludes ++ [pattern] }
          exact ⟨herr, hfiles, by rw [hexcludes, List.append_assoc]; rfl⟩
      | record op source dest =>
          obtain ⟨herr, hfiles, hexcludes⟩ :=
            ih h.2 (i + 1) { out with files := out.files ++ [⟨i, op, source, dest⟩] }
          exact ⟨herr, by rw [hfiles, List.map_append, List.append_assoc]; rfl, hexcludes⟩
      | badFormat errstr =>
          rw [hread] at hline
          cases hline
      | recursive =>
          rw [hread] at hline
          cases hline

theorem readLines_err_ne_zero
    {lines : List Str} (i : Nat) {out : ListFile}
    (h : out.err ≠ 0 ∨ ∃ line ∈ lines, (readLine vars line).fails = true) :
    (readLines vars i lines out).err ≠ 0 := by
  induction lines generalizing i out with
  | nil => simpa [readLines] using h
  | cons line lines ih =>
      rw [readLines]
      have hrest : (readLine vars line).fails = false →
          out.err ≠ 0 ∨ ∃ line ∈ lines, (readLine vars line).fails = true := by
        intro hfine
        rcases h with h | ⟨other, hother, hfails⟩
        · exact Or.inl h
        · rcases List.mem_cons.mp hother with rfl | hother
          · rw [hfine] at hfails
            cases hfails
          · exact Or.inr ⟨other, hother, hfails⟩
      cases hread : readLine vars line with
      | nothing => exact ih _ (hrest (by rw [hread]; rfl))
      | exclude pattern => exact ih _ (hrest (by rw [hread]; rfl))
      | record op source dest => exact ih _ (hrest (by rw [hread]; rfl))
      | badFormat errstr => exact ih _ (Or.inl Nat.one_ne_zero)
      | recursive => exact Nat.one_ne_zero

/-- A line on which the program does what the usage text says. -/
def Clear (line : Str) : Prop :=
  IsContent line → wellQuoted line = true ∧ (documentedLine (splitLine line)).isSome = true

/-- A text on which the program does what the usage text says: it refuses a line, or each line is
clear and nothing is left behind the last terminator. -/
def ClearText (vars : Variables) (text : Str) : Prop :=
  (∃ line ∈ endedLines [] text, Refused vars line) ∨
  ((isWhitespaceLine (openLine [] text) || isCommentLine (openLine [] text)) = true ∧
    ∀ line ∈ endedLines [] text, Clear line)

/-- An error is returned, or every line is accounted for. -/
def Reports (errno : Nat) (vars : Variables) (text : Str) : Prop :=
  (readListFile errno vars text).err ≠ 0 ∨
    Accounted vars text (readListFile errno vars text).files (readListFile errno vars text).excludes

theorem meaning_of_clear
    {line : Str} (hclear : Clear line) (hrefused : ¬ Refused vars line) :
    ∃ m, meaning vars line = some m ∧ readLine vars line = m.outcome := by
  by_cases hcontent : IsContent line
  · obtain ⟨hquoted, hline⟩ := hclear hcontent
    have hcompare := compares_words line
    rw [hquoted, Compares, if_pos rfl] at hcompare
    obtain ⟨op, source, dest, hmeaning, hread⟩ :=
      meaning_of_documented hcontent hrefused hcompare hline
    exact ⟨_, hmeaning, hread⟩
  · obtain ⟨m, hmeaning, hread, _⟩ := @meaning_of_not_content vars line hcontent
    exact ⟨m, hmeaning, hread⟩

theorem exists_meanings
    {lines : List Str}
    (h : ∀ line ∈ lines, ∃ m, meaning vars line = some m ∧ readLine vars line = m.outcome) :
    ∃ meanings : List Meaning, lines.map (meaning vars) = meanings.map some ∧
      lines.map (readLine vars) = meanings.map Meaning.outcome := by
  induction lines with
  | nil => exact ⟨[], rfl, rfl⟩
  | cons line lines ih =>
      rw [List.forall_mem_cons] at h
      obtain ⟨m, hm, hread⟩ := h.1
      obtain ⟨ms, hms, hreads⟩ := ih h.2
      exact ⟨m :: ms, by simp [hm, hms], by simp [hread, hreads]⟩

theorem filterMap_outcomes
    {β : Type*} {f : LineOutcome → Option β} {g : Meaning → Option β}
    (hfg : ∀ m : Meaning, f m.outcome = g m) {lines : List Str} {meanings : List Meaning}
    (h : lines.map (readLine vars) = meanings.map Meaning.outcome) :
    lines.filterMap (fun line => f (readLine vars line)) = meanings.filterMap g := by
  calc lines.filterMap (fun line => f (readLine vars line))
      = (lines.map (readLine vars)).filterMap f := by rw [List.filterMap_map]; rfl
    _ = meanings.filterMap g := by
        rw [h, List.filterMap_map]
        exact List.filterMap_congr fun m _ => hfg m

theorem readListFile_eq
    (errno : Nat) (hne : text ≠ []) :
    readListFile errno vars text = readLines vars 1 (endedLines [] text) ⟨0, [], []⟩ :=
  if_neg hne

theorem reports_of_clearText
    (errno : Nat) (h : ClearText vars text) :
    Reports errno vars text := by
  by_cases hempty : text = []
  · subst hempty
    right
    refine ⟨[.nothing], ?_, rfl, rfl⟩
    rfl
  rw [Reports, readListFile_eq errno hempty]
  by_cases hfails : ∃ line ∈ endedLines [] text, (readLine vars line).fails = true
  · exact Or.inl (readLines_err_ne_zero 1 (Or.inr hfails))
  right
  have hrefused : ∀ line ∈ endedLines [] text, ¬ Refused vars line :=
    fun line hline hrefused => hfails ⟨line, hline, readLine_fails_iff.mpr hrefused⟩
  have hclear := h.resolve_left fun ⟨line, hline, hrefuse⟩ => hrefused line hline hrefuse
  have hfine : ∀ line ∈ endedLines [] text, (readLine vars line).fails = false := by
    intro line hline
    by_contra hfail
    exact hfails ⟨line, hline, by simpa using hfail⟩
  have hmeant : ∀ line ∈ endedLines [] text,
      ∃ m, meaning vars line = some m ∧ readLine vars line = m.outcome :=
    fun line hline => meaning_of_clear (hclear.2 line hline) (hrefused line hline)
  obtain ⟨_, hfiles, hexcludes⟩ := readLines_of_no_failure hfine 1 ⟨0, [], []⟩
  obtain ⟨meanings, hmeanings, hreads⟩ := exists_meanings hmeant
  have hlast : meaning vars (openLine [] text) = some .nothing := by
    rw [meaning, if_pos hclear.1]
  refine ⟨meanings ++ [.nothing], ?_, ?_, ?_⟩
  · rw [allLines, List.map_append, hmeanings, List.map_singleton, hlast, List.map_append]
    rfl
  · rw [List.filterMap_append, ← filterMap_outcomes Meaning.outcome_recordOf hreads]
    rw [show [Meaning.nothing].filterMap Meaning.recordOf = [] from rfl, List.append_nil]
    exact hfiles
  · rw [List.filterMap_append, ← filterMap_outcomes Meaning.outcome_patternOf hreads]
    rw [show [Meaning.nothing].filterMap Meaning.patternOf = [] from rfl, List.append_nil]
    exact hexcludes

theorem record_of_content
    {line : Str} (hcontent : IsContent line) (hfine : (readLine vars line).fails = false) :
    ∃ op source dest, readLine vars line = .record op source dest := by
  rw [readLine_content hcontent] at hfine ⊢
  cases hdone : readWords vars (splitLine line) .copy [] with
  | error errstr pcount =>
      rw [hdone] at hfine
      cases hfine
  | recursive =>
      rw [hdone] at hfine
      cases hfine
  | done op paths =>
      match paths with
      | [] => exact ⟨op, [], [], rfl⟩
      | [path] => exact ⟨op, path, path, rfl⟩
      | source :: dest :: _ => exact ⟨op, source, dest, rfl⟩

theorem meaning_record
    {line : Str} (hcontent : IsContent line) {m : Meaning} (h : meaning vars line = some m) :
    ∃ op source dest, m = .record op source dest := by
  rw [meaning_content hcontent] at h
  obtain ⟨_, _, h⟩ := Option.bind_eq_some_iff.mp h
  obtain ⟨r, _, h⟩ := Option.bind_eq_some_iff.mp h
  obtain ⟨source, _, h⟩ := Option.bind_eq_some_iff.mp h
  obtain ⟨dest, _, rfl⟩ := Option.map_eq_some_iff.mp h
  exact ⟨r.1, source, dest, rfl⟩

/-- The records in the order of the lines tell which record a line gave. -/
theorem outcome_of_records
    {lines : List Str} {meanings : List Meaning}
    (hmeanings : lines.map (meaning vars) = meanings.map some)
    (hfine : ∀ line ∈ lines, (readLine vars line).fails = false)
    {rest : List (FileOpType × Str × Str)}
    (hrecords : (lines.filterMap fun line => (readLine vars line).recordOf) =
      meanings.filterMap Meaning.recordOf ++ rest) :
    (∀ line ∈ lines, ∃ m, meaning vars line = some m ∧ readLine vars line = m.outcome) ∧
      rest = [] := by
  induction lines generalizing meanings with
  | nil =>
      cases meanings with
      | nil => exact ⟨by simp, by simpa using hrecords.symm⟩
      | cons m ms => simp at hmeanings
  | cons line lines ih =>
      cases meanings with
      | nil => simp at hmeanings
      | cons m ms =>
          rw [List.map_cons, List.map_cons, List.cons.injEq] at hmeanings
          rw [List.forall_mem_cons] at hfine
          by_cases hcontent : IsContent line
          · obtain ⟨op, source, dest, hread⟩ := record_of_content hcontent hfine.1
            obtain ⟨op', source', dest', rfl⟩ := meaning_record hcontent hmeanings.1
            rw [filterMap_cons_toList, filterMap_cons_toList, hread, List.append_assoc] at hrecords
            obtain ⟨hsame, htail⟩ := List.cons.inj hrecords
            cases hsame
            obtain ⟨hall, hrest⟩ := ih hmeanings.2 hfine.2 htail
            exact ⟨List.forall_mem_cons.mpr ⟨⟨_, hmeanings.1, hread⟩, hall⟩, hrest⟩
          · obtain ⟨m', hm', hread, hrecord⟩ := @meaning_of_not_content vars line hcontent
            rw [hmeanings.1, Option.some.injEq] at hm'
            subst hm'
            rw [filterMap_cons_toList, filterMap_cons_toList, hread, Meaning.outcome_recordOf,
              hrecord] at hrecords
            obtain ⟨hall, hrest⟩ := ih hmeanings.2 hfine.2 hrecords
            exact ⟨List.forall_mem_cons.mpr ⟨⟨m, hmeanings.1, hread⟩, hall⟩, hrest⟩

theorem clearText_of_reports
    (errno : Nat) (hquiet : Quiet vars) (h : Reports errno vars text) :
    ClearText vars text := by
  by_cases hempty : text = []
  · subst hempty
    exact Or.inr ⟨rfl, by simp [endedLines]⟩
  rw [Reports, readListFile_eq errno hempty] at h
  by_cases hfails : ∃ line ∈ endedLines [] text, (readLine vars line).fails = true
  · obtain ⟨line, hline, hfail⟩ := hfails
    exact Or.inl ⟨line, hline, readLine_fails_iff.mp hfail⟩
  have hfine : ∀ line ∈ endedLines [] text, (readLine vars line).fails = false := by
    intro line hline
    by_contra hfail
    exact hfails ⟨line, hline, by simpa using hfail⟩
  obtain ⟨herr, hfiles, hexcludes⟩ := readLines_of_no_failure hfine 1 ⟨0, [], []⟩
  obtain ⟨meanings, hmeanings, hrecords, hpatterns⟩ := h.resolve_left (not_not.mpr herr)
  -- the meaning of what stands behind the last terminator
  obtain ⟨ms, m, rfl⟩ : ∃ ms m, meanings = ms ++ [m] := by
    refine List.eq_nil_or_concat' meanings |>.resolve_left fun hnil => ?_
    rw [hnil, allLines] at hmeanings
    simp at hmeanings
  rw [allLines, List.map_append, List.map_append, List.map_singleton,
    List.map_singleton] at hmeanings
  obtain ⟨hmeanings, hlast⟩ := List.append_inj' hmeanings rfl
  rw [List.cons.injEq] at hlast
  have hrecords' : (readLines vars 1 (endedLines [] text) ⟨0, [], []⟩).files.map FileRecord.triple =
      (ms ++ [m]).filterMap Meaning.recordOf := hrecords
  rw [hfiles, List.map_nil, List.nil_append, List.filterMap_append] at hrecords'
  rw [hexcludes, List.nil_append, List.filterMap_append] at hpatterns
  obtain ⟨hall, hrest⟩ := outcome_of_records hmeanings hfine hrecords'
  have hown : (endedLines [] text).filterMap (fun line => (readLine vars line).patternOf) =
      ms.filterMap Meaning.patternOf := by
    have hreads : (endedLines [] text).map (readLine vars) = ms.map Meaning.outcome := by
      obtain ⟨ms', hms', hreads⟩ := exists_meanings hall
      rw [hmeanings, List.map_inj_right fun _ _ h => Option.some.inj h] at hms'
      rw [hms', hreads]
    exact filterMap_outcomes Meaning.outcome_patternOf hreads
  rw [hown] at hpatterns
  have hexcluded : [m].filterMap Meaning.patternOf = [] := by simpa using hpatterns
  have hnothing : m = .nothing := by
    cases m with
    | nothing => rfl
    | exclude pattern => simp [Meaning.patternOf] at hexcluded
    | record op source dest => simp [Meaning.recordOf] at hrest
  subst hnothing
  refine Or.inr ⟨?_, fun line hline hcontent => ?_⟩
  · by_contra hcontent
    have hmeaning := hlast.1
    by_cases hboth : IsContent (openLine [] text)
    · obtain ⟨_, _, _, hrecord⟩ := meaning_record hboth hmeaning
      cases hrecord
    · rw [meaning, if_neg hcontent] at hmeaning
      split_ifs at hmeaning with hexclude
      · cases hmeaning
      · exact hboth ⟨by simpa using hcontent, by simpa using hexclude⟩
  · obtain ⟨m, hmeaning, hread⟩ := hall line hline
    obtain ⟨op, source, dest, rfl⟩ := meaning_record hcontent hmeaning
    exact documented_of_meaning hquiet hcontent hmeaning hread

/-- On a clear text an error is returned or every line is accounted for; where the variables have
neither quotes nor `#`, on no other text. -/
theorem readListFile_reports
    (errno : Nat) (vars : Variables) (text : Str) :
    (ClearText vars text → Reports errno vars text) ∧
      (Quiet vars → (Reports errno vars text ↔ ClearText vars text)) :=
  ⟨reports_of_clearText errno, fun hquiet =>
    ⟨clearText_of_reports errno hquiet, reports_of_clearText errno⟩⟩

/-- A keyword by itself gives a record without a destination. -/
theorem not_reports_rm :
    ¬ ∀ (errno : Nat) (vars : Variables) (text : Str), Reports errno vars text := by
  intro h
  have hfile : readListFile 0 [] "rm\n".toList = ⟨0, [⟨1, .remove, [], []⟩], []⟩ := by decide
  have hmeaning : meaning [] "rm".toList = none := by decide
  rcases h 0 [] "rm\n".toList with herr | ⟨meanings, hmeanings, _⟩
  · rw [hfile] at herr
    exact herr rfl
  · cases meanings with
    | nil => simp [allLines] at hmeanings
    | cons m ms =>
        have hfirst : meaning [] "rm".toList = some m := (List.cons.inj hmeanings).1
        rw [hmeaning] at hfirst
        cases hfirst

end Files

end Atree
end AndroidBuild
