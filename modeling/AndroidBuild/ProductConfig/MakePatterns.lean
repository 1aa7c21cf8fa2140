import Mathlib.Tactic

/-!
# Make's patterns in `product_config.rbc`

`_mkpatsubst` and `_filter` parse a pattern with the same function and then
match it in two ways.  `MatchesPattern` and `IsPatsubst` say how Make matches a
pattern and builds a word, for patterns whose escapes are those of
`__mkparse_pattern`: a backslash hides any character behind it, where Make
keeps the backslashes that are not before a `%`.  `mkPatsubst_iff` says for
which inputs the two functions do the same.

The texts are lists of characters.
-/

namespace AndroidBuild
namespace ProductConfig

abbrev Chars :=
  List Char

section Words

/-- `unicode.IsSpace`, which `strip` and `split` use. -/
def isSpace (c : Char) : Bool :=
  let n := c.toNat
  (9 ≤ n && n ≤ 13) || n == 32 || n == 133 || n == 160 || n == 5760 ||
    (8192 ≤ n && n ≤ 8202) || n == 8232 || n == 8233 || n == 8239 || n == 8287 || n == 12288

/-- `isspace` of the elements of a text, which are bytes. -/
def elemIsSpace (c : Char) : Bool :=
  isSpace c && c.toNat < 128

/-- `s.strip()`. -/
def strip (s : Chars) : Chars :=
  ((s.dropWhile isSpace).reverse.dropWhile isSpace).reverse

/-- One character in the loop of `_mkstrip`. -/
def mkStripStep (s : Chars × Bool) (ch : Char) : Chars × Bool :=
  if elemIsSpace ch then (s.1, true)
  else if s.2 then (s.1 ++ [' '] ++ [ch], false)
  else (s.1 ++ [ch], false)

/-- The loop of `_mkstrip`. -/
def collapse (s : Chars) : Chars :=
  (s.foldl mkStripStep ([], false)).1

/-- The words of a text, `word` being the part of the current word already read. -/
def splitFrom (word : Chars) : Chars → List Chars
  | [] => if word = [] then [] else [word]
  | c :: cs =>
      if isSpace c then
        if word = [] then splitFrom [] cs else word :: splitFrom [] cs
      else splitFrom (word ++ [c]) cs

/-- `s.split()`. -/
def split (s : Chars) : List Chars :=
  splitFrom [] s

/-- A text, or a list of texts. -/
inductive Words where
  | text (s : Chars)
  | list (l : List Chars)
  deriving DecidableEq, Repr

/-- `" ".join(l)`. -/
def joinWords (l : List Chars) : Chars :=
  List.intercalate [' '] l

def mkStrip : Words → Chars
  | .text s => collapse (strip s)
  | .list l => collapse (strip (joinWords l))

/-- `__words`. -/
def mkWords (s : Words) : List Chars :=
  split (mkStrip s)

end Words

section Patterns

/-- The result of `__mkparse_pattern`: a list of one or two texts. -/
inductive ParsedPattern where
  | literal (text : Chars)
  | wildcard (before after : Chars)
  deriving DecidableEq, Repr

/-- The loop of `__mkparse_pattern`; `res` is the part before the `%`. -/
structure ParseState where
  inEscape : Bool
  res : Option Chars
  acc : Chars

def parseStep (s : ParseState) (c : Char) : ParseState :=
  if s.inEscape then { s with inEscape := false, acc := s.acc ++ [c] }
  else if c = '\\' then { s with inEscape := true }
  else if c = '%' ∧ s.res = none then { s with res := some s.acc, acc := [] }
  else { s with acc := s.acc ++ [c] }

def parseEnd (s : ParseState) : ParsedPattern :=
  let acc := if s.inEscape then s.acc ++ ['\\'] else s.acc
  match s.res with
  | none => .literal acc
  | some before => .wildcard before acc

def mkParsePattern (pattern : Chars) : ParsedPattern :=
  parseEnd (pattern.foldl parseStep ⟨false, none, []⟩)

def mkPatternMatches (pattern : ParsedPattern) (word : Chars) : Bool :=
  match pattern with
  | .literal text => text == word
  | .wildcard before after =>
      decide (before.length + after.length ≤ word.length) && before.isPrefixOf word &&
        after.isSuffixOf word

/-- `_filter`. -/
def mkFilter (pattern text : Words) : List Chars :=
  let patterns := (mkWords pattern).map mkParsePattern
  (mkWords text).filter (fun w => patterns.any (fun p => mkPatternMatches p w))

def mkPatsubstWord (before after : Chars) (parsedSubst : ParsedPattern) (word : Chars) : Chars :=
  if !before.isPrefixOf word then word
  else if !after.isSuffixOf word then word
  else
    match parsedSubst with
    | .literal text => text
    | .wildcard first second =>
        first ++ (word.take (word.length - after.length)).drop before.length ++ second

def mkPatsubst (pattern replacement : Chars) (s : Words) : Words :=
  let outWords :=
    match mkParsePattern pattern with
    | .literal _ => (mkWords s).map (fun x => if x = pattern then replacement else x)
    | .wildcard before after =>
        (mkWords s).map (mkPatsubstWord before after (mkParsePattern replacement))
  match s with
  | .list _ => .list outWords
  | .text _ => .text (joinWords outWords)

end Patterns

section Make

/-- The characters of a pattern, and whether each of them was escaped. -/
def unescape : Chars → List (Char × Bool)
  | [] => []
  | '\\' :: c :: cs => (c, true) :: unescape cs
  | c :: cs => (c, false) :: unescape cs

/-- The unescaped `%`. -/
def percent : Char × Bool :=
  ('%', false)

/-- The text of a pattern, without the escapes. -/
def literalOf (pattern : Chars) : Chars :=
  (unescape pattern).map Prod.fst

/-- The parts around the first unescaped `%`, if there is one. -/
def splitPercent : List (Char × Bool) → Option (Chars × Chars)
  | [] => none
  | t :: ts =>
      if t = percent then some ([], ts.map Prod.fst)
      else (splitPercent ts).map (fun parts => (t.1 :: parts.1, parts.2))

def partsOf (pattern : Chars) : Option (Chars × Chars) :=
  splitPercent (unescape pattern)

/-- The pattern matches the word. -/
def MatchesPattern (pattern word : Chars) : Prop :=
  match partsOf pattern with
  | none => word = literalOf pattern
  | some (before, after) => ∃ stem, word = before ++ stem ++ after

/-- The replacement, with the stem for its first unescaped `%`. -/
def withStem (replacement stem : Chars) : Chars :=
  match partsOf replacement with
  | none => literalOf replacement
  | some (first, second) => first ++ stem ++ second

/-- `out` is the word after Make's `patsubst`. -/
def IsPatsubst (pattern replacement word out : Chars) : Prop :=
  match partsOf pattern with
  | none => word = literalOf pattern ∧ out = replacement ∨ word ≠ literalOf pattern ∧ out = word
  | some (before, after) =>
      (∃ stem, word = before ++ stem ++ after ∧ out = withStem replacement stem) ∨
        (¬ ∃ stem, word = before ++ stem ++ after) ∧ out = word

end Make

section Parse

theorem unescape_cons
    {c : Char} (hc : c ≠ '\\') (cs : Chars) :
    unescape (c :: cs) = (c, false) :: unescape cs := by
  rw [unescape]
  intro d ds h
  exact absurd h hc

/-- After the first `%`, all characters go to the second part. -/
theorem foldl_parseStep_some
    (before acc pattern : Chars) :
    parseEnd (pattern.foldl parseStep ⟨false, some before, acc⟩) =
      .wildcard before (acc ++ literalOf pattern) := by
  induction pattern using unescape.induct generalizing acc with
  | case1 => simp [parseEnd, literalOf, unescape]
  | case2 c cs ih =>
      have hstep : parseStep (parseStep ⟨false, some before, acc⟩ '\\') c =
          ⟨false, some before, acc ++ [c]⟩ := rfl
      rw [List.foldl_cons, List.foldl_cons, hstep, ih, literalOf, literalOf, unescape,
        List.map_cons, List.append_assoc]
      rfl
  | case3 c cs hcs ih =>
      by_cases hc : c = '\\'
      · subst hc
        cases cs with
        | nil => rfl
        | cons d ds => exact absurd rfl (hcs d ds rfl)
      · have hstep : parseStep ⟨false, some before, acc⟩ c = ⟨false, some before, acc ++ [c]⟩ := by
          simp [parseStep, hc]
        rw [List.foldl_cons, hstep, ih, literalOf, literalOf, unescape_cons hc, List.map_cons,
          List.append_assoc]
        rfl

theorem foldl_parseStep_none
    (acc pattern : Chars) :
    parseEnd (pattern.foldl parseStep ⟨false, none, acc⟩) =
      match partsOf pattern with
      | none => .literal (acc ++ literalOf pattern)
      | some (before, after) => .wildcard (acc ++ before) after := by
  induction pattern using unescape.induct generalizing acc with
  | case1 => simp [parseEnd, partsOf, splitPercent, literalOf, unescape]
  | case2 c cs ih =>
      have hstep : parseStep (parseStep ⟨false, none, acc⟩ '\\') c = ⟨false, none, acc ++ [c]⟩ := rfl
      have hne : (c, true) ≠ percent := by simp [percent]
      rw [List.foldl_cons, List.foldl_cons, hstep, ih, partsOf, partsOf, literalOf, literalOf,
        unescape, splitPercent, if_neg hne]
      cases splitPercent (unescape cs) with
      | none => simp
      | some parts => simp
  | case3 c cs hcs ih =>
      by_cases hc : c = '\\'
      · subst hc
        cases cs with
        | nil => rfl
        | cons d ds => exact absurd rfl (hcs d ds rfl)
      · rw [List.foldl_cons, partsOf, literalOf, unescape_cons hc, splitPercent]
        by_cases hpercent : c = '%'
        · subst hpercent
          have hstep : parseStep ⟨false, none, acc⟩ '%' = ⟨false, some acc, []⟩ := rfl
          rw [hstep, foldl_parseStep_some, if_pos (show ('%', false) = percent from rfl), List.nil_append]
          simp [literalOf]
        · have hne : (c, false) ≠ percent := by simp [percent, hpercent]
          have hstep : parseStep ⟨false, none, acc⟩ c = ⟨false, none, acc ++ [c]⟩ := by
            simp [parseStep, hc, hpercent]
          rw [hstep, ih, if_neg hne, partsOf, literalOf]
          cases splitPercent (unescape cs) with
          | none => simp
          | some parts => simp

/-- `__mkparse_pattern` finds the parts around the first unescaped `%`. -/
theorem mkParsePattern_eq (pattern : Chars) :
    mkParsePattern pattern =
      match partsOf pattern with
      | none => .literal (literalOf pattern)
      | some (before, after) => .wildcard before after :=
  foldl_parseStep_none [] pattern

end Parse

section Match

variable {before after word : Chars}

theorem exists_stem_iff :
    (∃ stem, word = before ++ stem ++ after) ↔
      before.length + after.length ≤ word.length ∧ before <+: word ∧ after <:+ word := by
  constructor
  · rintro ⟨stem, rfl⟩
    refine ⟨by simp only [List.length_append]; omega, ⟨stem ++ after, by simp⟩,
      ⟨before ++ stem, rfl⟩⟩
  · rintro ⟨hlength, ⟨rest, rfl⟩, ⟨front, hfront⟩⟩
    rw [List.length_append] at hlength
    have hle : after.length ≤ rest.length := by omega
    have hsuffix : after <:+ rest :=
      List.suffix_of_suffix_length_le ⟨front, hfront⟩ (List.suffix_append before rest) hle
    obtain ⟨stem, rfl⟩ := hsuffix
    exact ⟨stem, by rw [List.append_assoc]⟩

/-- `__mkpattern_matches` is Make's match. -/
theorem mkPatternMatches_iff (pattern word : Chars) :
    mkPatternMatches (mkParsePattern pattern) word = true ↔ MatchesPattern pattern word := by
  rw [mkParsePattern_eq, MatchesPattern]
  cases partsOf pattern with
  | none =>
      simp only [mkPatternMatches, beq_iff_eq]
      exact eq_comm
  | some parts =>
      simp only [mkPatternMatches, Bool.and_eq_true, decide_eq_true_eq, List.isPrefixOf_iff_prefix,
        List.isSuffixOf_iff_suffix, exists_stem_iff, and_assoc]

theorem slice_stem (before stem after : Chars) :
    ((before ++ stem ++ after).take ((before ++ stem ++ after).length - after.length)).drop
      before.length = stem := by
  have htake : (before ++ stem ++ after).length - after.length = (before ++ stem).length := by
    simp only [List.length_append]
    omega
  rw [htake, List.take_left, List.drop_left]

/-- The word begins and ends as the pattern does, but is too short for both. -/
def Overlaps (before after word : Chars) : Prop :=
  before <+: word ∧ after <:+ word ∧ word.length < before.length + after.length

instance (before after word : Chars) : Decidable (Overlaps before after word) :=
  inferInstanceAs (Decidable (_ ∧ _ ∧ _))

/-- A word that the pattern matches gets its stem in the replacement. -/
theorem mkPatsubstWord_stem (replacement stem : Chars) :
    mkPatsubstWord before after (mkParsePattern replacement) (before ++ stem ++ after) =
      withStem replacement stem := by
  have hprefix : before.isPrefixOf (before ++ stem ++ after) = true :=
    List.isPrefixOf_iff_prefix.mpr ⟨stem ++ after, by simp⟩
  have hsuffix : after.isSuffixOf (before ++ stem ++ after) = true :=
    List.isSuffixOf_iff_suffix.mpr ⟨before ++ stem, rfl⟩
  rw [mkPatsubstWord.eq_def, hprefix, hsuffix, mkParsePattern_eq, withStem]
  cases partsOf replacement with
  | none => rfl
  | some parts =>
      simp only [Bool.not_true, Bool.false_eq_true, if_false, slice_stem]

theorem mkPatsubstWord_overlaps
    (replacement : Chars) (h : Overlaps before after word) :
    mkPatsubstWord before after (mkParsePattern replacement) word = withStem replacement [] := by
  obtain ⟨hbefore, hafter, hlength⟩ := h
  rw [mkPatsubstWord.eq_def, List.isPrefixOf_iff_prefix.mpr hbefore,
    List.isSuffixOf_iff_suffix.mpr hafter, mkParsePattern_eq, withStem]
  cases partsOf replacement with
  | none => rfl
  | some parts =>
      have hnil : (word.take (word.length - after.length)).drop before.length = [] := by
        rw [List.drop_eq_nil_iff, List.length_take]
        omega
      simp only [Bool.not_true, Bool.false_eq_true, if_false, hnil]

theorem mkPatsubstWord_other
    (replacement : Chars) (h : ¬ (before <+: word ∧ after <:+ word)) :
    mkPatsubstWord before after (mkParsePattern replacement) word = word := by
  rw [mkPatsubstWord.eq_def]
  by_cases hbefore : before <+: word
  · have hafter : ¬ after.isSuffixOf word = true :=
      fun hsuffix => h ⟨hbefore, List.isSuffixOf_iff_suffix.mp hsuffix⟩
    simp [hafter]
  · have hprefix : ¬ before.isPrefixOf word = true :=
      fun hprefix => hbefore (List.isPrefixOf_iff_prefix.mp hprefix)
    simp [ hprefix]

end Match

section WordsOfText

/-- A text without spaces that is not empty. -/
def IsWord (w : Chars) : Prop :=
  w ≠ [] ∧ ∀ c ∈ w, isSpace c = false

theorem splitFrom_isWord
    {word s : Chars} (hword : ∀ c ∈ word, isSpace c = false) :
    ∀ w ∈ splitFrom word s, IsWord w := by
  induction s generalizing word with
  | nil =>
      rw [splitFrom]
      split
      · simp
      · rename_i hne
        intro w hw
        rw [List.mem_singleton.mp hw]
        exact ⟨hne, hword⟩
  | cons c cs ih =>
      have hempty : ∀ w ∈ splitFrom [] cs, IsWord w := ih (by simp)
      rw [splitFrom]
      split
      · split
        · exact hempty
        · rename_i hne
          rw [List.forall_mem_cons]
          exact ⟨⟨hne, hword⟩, hempty⟩
      · rename_i hc
        refine ih ?_
        intro d hd
        rcases List.mem_append.mp hd with hd | hd
        · exact hword d hd
        · rw [List.mem_singleton.mp hd]
          exact Bool.eq_false_iff.mpr hc

theorem mkWords_isWord (s : Words) :
    ∀ w ∈ mkWords s, IsWord w :=
  splitFrom_isWord (by simp)

theorem splitFrom_of_noSpace
    {word s : Chars} (hs : ∀ c ∈ s, isSpace c = false) (hne : word ++ s ≠ []) :
    splitFrom word s = [word ++ s] := by
  induction s generalizing word with
  | nil =>
      rw [List.append_nil] at hne ⊢
      rw [splitFrom, if_neg hne]
  | cons c cs ih =>
      rw [List.forall_mem_cons] at hs
      rw [splitFrom, hs.1, if_neg Bool.false_ne_true, ih hs.2 (by simp), List.append_assoc]
      rfl

theorem dropWhile_of_noSpace
    {s : Chars} (hs : ∀ c ∈ s, isSpace c = false) :
    s.dropWhile isSpace = s := by
  cases s with
  | nil => rfl
  | cons c cs => rw [List.dropWhile_cons, hs c List.mem_cons_self, if_neg Bool.false_ne_true]

theorem collapse_of_noSpace
    {s : Chars} (hs : ∀ c ∈ s, isSpace c = false) :
    collapse s = s := by
  suffices H : ∀ acc : Chars, s.foldl mkStripStep (acc, false) = (acc ++ s, false) by
    rw [collapse, H, List.nil_append]
  induction s with
  | nil => simp
  | cons c cs ih =>
      intro acc
      rw [List.forall_mem_cons] at hs
      have hstep : mkStripStep (acc, false) c = (acc ++ [c], false) := by
        simp [mkStripStep, elemIsSpace, hs.1]
      rw [List.foldl_cons, hstep, ih hs.2, List.append_assoc]
      rfl

/-- A word is its own only word. -/
theorem IsWord.mkWords_eq
    {w : Chars} (hw : IsWord w) :
    mkWords (.text w) = [w] := by
  have hreverse : ∀ c ∈ w.reverse, isSpace c = false :=
    fun c hc => hw.2 c (List.mem_reverse.mp hc)
  have hstrip : strip w = w := by
    rw [strip, dropWhile_of_noSpace hw.2, dropWhile_of_noSpace hreverse, List.reverse_reverse]
  rw [mkWords, mkStrip, hstrip, collapse_of_noSpace hw.2, split,
    splitFrom_of_noSpace hw.2 (by simpa using hw.1), List.nil_append]

theorem mem_literalOf
    {c : Char} (hc : c ≠ '\\') {pattern : Chars} (hmem : c ∈ pattern) :
    c ∈ literalOf pattern := by
  induction pattern using unescape.induct with
  | case1 => cases hmem
  | case2 d cs ih =>
      rw [literalOf, unescape, List.map_cons, List.mem_cons]
      rcases List.mem_cons.mp hmem with rfl | hmem
      · exact absurd rfl hc
      · rcases List.mem_cons.mp hmem with rfl | hmem
        · exact Or.inl rfl
        · exact Or.inr (ih hmem)
  | case3 d cs hcs ih =>
      by_cases hd : d = '\\'
      · subst hd
        cases cs with
        | nil => exact absurd (List.mem_singleton.mp hmem) hc
        | cons e es => exact absurd rfl (hcs e es rfl)
      · rw [literalOf, unescape_cons hd, List.map_cons, List.mem_cons]
        rcases List.mem_cons.mp hmem with rfl | hmem
        · exact Or.inl rfl
        · exact Or.inr (ih hmem)

theorem mem_splitPercent
    {c : Char} (hc : c ≠ '%') {ts : List (Char × Bool)} {before after : Chars}
    (hsplit : splitPercent ts = some (before, after)) (hmem : c ∈ ts.map Prod.fst) :
    c ∈ before ∨ c ∈ after := by
  induction ts generalizing before after with
  | nil => cases hmem
  | cons t ts ih =>
      rw [splitPercent] at hsplit
      rw [List.map_cons, List.mem_cons] at hmem
      split_ifs at hsplit with ht
      · cases hsplit
        rcases hmem with rfl | hmem
        · rw [ht] at hc
          exact absurd rfl hc
        · exact Or.inr hmem
      · obtain ⟨⟨front, back⟩, hparts, heq⟩ := Option.map_eq_some_iff.mp hsplit
        cases heq
        rcases hmem with rfl | hmem
        · exact Or.inl List.mem_cons_self
        · exact (ih hparts hmem).imp_left (List.mem_cons_of_mem _)

/-- A pattern that matches a word is a word itself. -/
theorem isWord_of_matchesPattern
    {pattern w : Chars} (hw : IsWord w) (hmatch : MatchesPattern pattern w) :
    IsWord pattern := by
  refine ⟨?_, ?_⟩
  · rintro rfl
    exact hw.1 hmatch
  · intro c hc
    rw [MatchesPattern] at hmatch
    by_cases hescape : c = '\\'
    · rw [hescape]
      rfl
    have hliteral := mem_literalOf hescape hc
    by_cases hpercent : c = '%'
    · rw [hpercent]
      rfl
    cases hparts : partsOf pattern with
    | none =>
        rw [hparts] at hmatch
        refine hw.2 c ?_
        rw [hmatch]
        exact hliteral
    | some parts =>
        obtain ⟨before, after⟩ := parts
        rw [hparts] at hmatch
        obtain ⟨stem, rfl⟩ := hmatch
        refine hw.2 c ?_
        rcases mem_splitPercent hpercent hparts hliteral with hmem | hmem
        · simp [hmem]
        · simp [hmem]

end WordsOfText

section Patsubst

/-- Where `_mkpatsubst` does what Make does with these escapes: no word overlaps the parts of the
pattern, and a pattern without `%` has no escapes, unless it does not show. -/
def PatsubstFits (pattern replacement : Chars) (ws : List Chars) : Prop :=
  match partsOf pattern with
  | none =>
      pattern = literalOf pattern ∨
        (pattern ∈ ws → replacement = pattern) ∧
          (literalOf pattern ∈ ws → replacement = literalOf pattern)
  | some (before, after) =>
      ∀ w ∈ ws, Overlaps before after w → w = withStem replacement []

/-- Where `_filter` takes the pattern as one pattern, unless it does not show. -/
def FilterFits (pattern : Chars) (ws : List Chars) : Prop :=
  mkWords (.text pattern) = [pattern] ∨
    ∀ w ∈ ws, ∀ p ∈ mkWords (.text pattern), ¬ MatchesPattern p w

theorem isPatsubst_wildcard
    {pattern before after : Chars} (hparts : partsOf pattern = some (before, after))
    (replacement w : Chars) :
    IsPatsubst pattern replacement w
        (mkPatsubstWord before after (mkParsePattern replacement) w) ↔
      (Overlaps before after w → w = withStem replacement []) := by
  rw [IsPatsubst, hparts]
  by_cases hstem : ∃ stem, w = before ++ stem ++ after
  · have hlength := (exists_stem_iff.mp hstem).1
    obtain ⟨stem, rfl⟩ := hstem
    rw [mkPatsubstWord_stem]
    refine iff_of_true (Or.inl ⟨stem, rfl, rfl⟩) ?_
    intro hoverlaps
    exact absurd hoverlaps.2.2 (Nat.not_lt_of_le hlength)
  · by_cases hoverlaps : Overlaps before after w
    · rw [mkPatsubstWord_overlaps replacement hoverlaps]
      constructor
      · rintro (⟨stem, hw, _⟩ | ⟨_, hout⟩)
        · exact absurd ⟨stem, hw⟩ hstem
        · exact fun _ => hout.symm
      · intro h
        exact Or.inr ⟨hstem, (h hoverlaps).symm⟩
    · have hother : ¬ (before <+: w ∧ after <:+ w) := by
        rintro ⟨hbefore, hafter⟩
        rw [exists_stem_iff] at hstem
        exact hoverlaps ⟨hbefore, hafter, by
          by_contra hle
          exact hstem ⟨Nat.le_of_not_lt hle, hbefore, hafter⟩⟩
      rw [mkPatsubstWord_other replacement hother]
      exact iff_of_true (Or.inr ⟨hstem, rfl⟩) (fun h => absurd h hoverlaps)

theorem isPatsubst_literal
    {pattern : Chars} (hparts : partsOf pattern = none) (replacement w : Chars) :
    IsPatsubst pattern replacement w (if w = pattern then replacement else w) ↔
      (pattern = literalOf pattern ∨
        (w = pattern → replacement = pattern) ∧
          (w = literalOf pattern → replacement = literalOf pattern)) := by
  rw [IsPatsubst, hparts]
  dsimp only
  by_cases hraw : w = pattern
  · subst hraw
    rw [if_pos rfl]
    by_cases hliteral : w = literalOf w
    · exact iff_of_true (Or.inl ⟨hliteral, rfl⟩) (Or.inl hliteral)
    · simp only [hliteral, not_false_eq_true, true_and, false_or, false_implies,
        and_true, ne_eq, forall_const]
  · rw [if_neg hraw]
    by_cases hliteral : w = literalOf pattern
    · have hne : pattern ≠ literalOf pattern := fun h => hraw (hliteral.trans h.symm)
      rw [← hliteral] at hne ⊢
      simp only [hne, hraw, true_and, not_true_eq_false, false_and, or_false, ne_eq, false_implies,
        forall_const, false_or]
      exact eq_comm
    · refine iff_of_true (Or.inr ⟨hliteral, rfl⟩) (Or.inr ⟨?_, ?_⟩)
      · exact fun h => absurd h hraw
      · exact fun h => absurd h hliteral

/-- The words that `_mkpatsubst` leaves are Make's iff the inputs fit. -/
theorem isPatsubst_iff (pattern replacement : Chars) (l : List Chars) :
    (∃ out, mkPatsubst pattern replacement (.list l) = .list out ∧
        List.Forall₂ (IsPatsubst pattern replacement) (mkWords (.list l)) out) ↔
      PatsubstFits pattern replacement (mkWords (.list l)) := by
  have hmap : ∀ f : Chars → Chars, (∃ out, Words.list ((mkWords (.list l)).map f) = .list out ∧
        List.Forall₂ (IsPatsubst pattern replacement) (mkWords (.list l)) out) ↔
      ∀ w ∈ mkWords (.list l), IsPatsubst pattern replacement w (f w) := by
    intro f
    simp only [Words.list.injEq, exists_eq_left', List.forall₂_map_right_iff, List.forall₂_same]
  rw [mkPatsubst, mkParsePattern_eq, PatsubstFits]
  cases hparts : partsOf pattern with
  | none =>
      dsimp only
      rw [hmap]
      simp only [isPatsubst_literal hparts]
      constructor
      · intro h
        by_cases hliteral : pattern = literalOf pattern
        · exact Or.inl hliteral
        · refine Or.inr ⟨?_, ?_⟩
          · intro hmem
            exact ((h pattern hmem).resolve_left hliteral).1 rfl
          · intro hmem
            exact ((h _ hmem).resolve_left hliteral).2 rfl
      · rintro (hliteral | ⟨hraw, hescaped⟩) w hw
        · exact Or.inl hliteral
        · refine Or.inr ⟨?_, ?_⟩
          · rintro rfl
            exact hraw hw
          · rintro rfl
            exact hescaped hw
  | some parts =>
      obtain ⟨before, after⟩ := parts
      dsimp only
      rw [hmap]
      exact forall₂_congr fun w _ => isPatsubst_wildcard hparts replacement w

theorem mem_mkFilter
    {pattern s : Words} {w : Chars} :
    w ∈ mkFilter pattern s ↔ w ∈ mkWords s ∧ ∃ p ∈ mkWords pattern, MatchesPattern p w := by
  simp only [mkFilter, List.mem_filter, List.any_map, List.any_eq_true, Function.comp_apply,
    mkPatternMatches_iff]

/-- `_filter` finds the words that the pattern matches iff the inputs fit. -/
theorem mkFilter_iff (pattern : Chars) (s : Words) :
    (∀ w, w ∈ mkFilter (.text pattern) s ↔ w ∈ mkWords s ∧ MatchesPattern pattern w) ↔
      FilterFits pattern (mkWords s) := by
  constructor
  · intro h
    by_cases hone : mkWords (.text pattern) = [pattern]
    · exact Or.inl hone
    · refine Or.inr ?_
      intro w hw p hp hmatch
      have hpattern := ((h w).mp (mem_mkFilter.mpr ⟨hw, p, hp, hmatch⟩)).2
      exact hone (isWord_of_matchesPattern (mkWords_isWord s w hw) hpattern).mkWords_eq
  · rintro (hone | hnone) w
    · rw [mem_mkFilter, hone]
      simp only [List.mem_singleton, exists_eq_left]
    · rw [mem_mkFilter]
      constructor
      · rintro ⟨hw, p, hp, hmatch⟩
        exact absurd hmatch (hnone w hw p hp)
      · rintro ⟨hw, hmatch⟩
        have hone := (isWord_of_matchesPattern (mkWords_isWord s w hw) hmatch).mkWords_eq
        exact absurd hmatch (hnone w hw pattern (by simp [hone]))

/-- `_mkpatsubst` and `_filter` do what Make does with these escapes iff the inputs fit both. -/
theorem mkPatsubst_iff (pattern replacement : Chars) (l : List Chars) :
    ((∃ out, mkPatsubst pattern replacement (.list l) = .list out ∧
        List.Forall₂ (IsPatsubst pattern replacement) (mkWords (.list l)) out) ∧
      ∀ w, w ∈ mkFilter (.text pattern) (.list l) ↔
        w ∈ mkWords (.list l) ∧ MatchesPattern pattern w) ↔
      PatsubstFits pattern replacement (mkWords (.list l)) ∧
        FilterFits pattern (mkWords (.list l)) :=
  and_congr (isPatsubst_iff pattern replacement l) (mkFilter_iff pattern (.list l))

/-- The parts of the pattern overlap in the word: it is rewritten, and not filtered. -/
theorem mkPatsubst_overlap :
    mkPatsubst "ab%ba".toList "x%y".toList (.list ["aba".toList]) = .list ["xy".toList] ∧
    mkFilter (.text "ab%ba".toList) (.list ["aba".toList]) = [] ∧
    ¬ ∃ out, mkPatsubst "ab%ba".toList "x%y".toList (.list ["aba".toList]) = .list out ∧
      List.Forall₂ (IsPatsubst "ab%ba".toList "x%y".toList) (mkWords (.list ["aba".toList])) out := by
  have hout : mkPatsubst "ab%ba".toList "x%y".toList (.list ["aba".toList]) =
      .list ["xy".toList] := by
    decide +kernel
  refine ⟨hout, by decide +kernel, ?_⟩
  rintro ⟨out, heq, hall⟩
  rw [hout, Words.list.injEq] at heq
  subst heq
  have hwords : mkWords (.list ["aba".toList]) = ["aba".toList] := by decide +kernel
  rw [hwords] at hall
  have hword := (List.forall₂_cons.mp hall).1
  have hparts : partsOf "ab%ba".toList = some ("ab".toList, "ba".toList) := by decide +kernel
  rw [IsPatsubst, hparts] at hword
  rcases hword with ⟨stem, hstem, _⟩ | ⟨_, hsame⟩
  · have hlength := congrArg List.length hstem
    simp only [List.length_append] at hlength
    have hlong : "aba".toList.length = 3 := by decide +kernel
    have hbefore : "ab".toList.length = 2 := by decide +kernel
    have hafter : "ba".toList.length = 2 := by decide +kernel
    omega
  · exact absurd hsame (by decide +kernel)

end Patsubst

end ProductConfig
end AndroidBuild
