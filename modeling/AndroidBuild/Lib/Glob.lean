import AndroidBuild.Lib.Text

/-!
# File name patterns

Python's `fnmatch` on POSIX: a pattern is read as a list of tokens, and a star
stands for any text, slashes included.  What a set in brackets holds is a
parameter.
-/

namespace AndroidBuild
namespace Glob

open Text

/-- The parts of a pattern. -/
inductive Token where
  | literal (c : Char)
  | anyChar
  | star
  | set (stuff : Str)
  deriving DecidableEq, Repr

/-- The text in front of the first `]`, and the text behind it. -/
def splitClose : Str → Option (Str × Str)
  | [] => none
  | c :: cs =>
      if c = ']' then some ([], cs)
      else (splitClose cs).map fun parts => (c :: parts.1, parts.2)

/-- What stands behind a `[`: a `]` that is the first of the set belongs to it. -/
def splitSet : Str → Option (Str × Str)
  | '!' :: ']' :: cs => (splitClose cs).map fun parts => ('!' :: ']' :: parts.1, parts.2)
  | '!' :: cs => (splitClose cs).map fun parts => ('!' :: parts.1, parts.2)
  | ']' :: cs => (splitClose cs).map fun parts => (']' :: parts.1, parts.2)
  | cs => splitClose cs

/-- The loop of `fnmatch.translate`; every round takes a character at least. -/
def tokensFrom : Nat → Str → List Token
  | 0, _ => []
  | _ + 1, [] => []
  | fuel + 1, c :: cs =>
      if c = '*' then .star :: tokensFrom fuel cs
      else if c = '?' then .anyChar :: tokensFrom fuel cs
      else if c = '[' then
        match splitSet cs with
        | some (stuff, rest) => .set stuff :: tokensFrom fuel rest
        | none => .literal '[' :: tokensFrom fuel cs
      else .literal c :: tokensFrom fuel cs

def tokens (pattern : Str) : List Token :=
  tokensFrom pattern.length pattern

/-- The whole text is matched. -/
def matchTokens (inSet : Str → Char → Bool) : List Token → Str → Bool
  | [], s => s.isEmpty
  | .literal c :: ts, s =>
      match s with
      | [] => false
      | d :: s => decide (d = c) && matchTokens inSet ts s
  | .anyChar :: ts, s =>
      match s with
      | [] => false
      | _ :: s => matchTokens inSet ts s
  | .set stuff :: ts, s =>
      match s with
      | [] => false
      | d :: s => inSet stuff d && matchTokens inSet ts s
  | .star :: ts, s => s.tails.any fun t => matchTokens inSet ts t

/-- `fnmatch.fnmatch(name, pattern)`. -/
def fnmatch (inSet : Str → Char → Bool) (name pattern : Str) : Bool :=
  matchTokens inSet (tokens pattern) name

section Literal

/-- There is no special character in the text. -/
def IsLiteral (text : Str) : Prop :=
  ∀ c ∈ text, c ≠ '*' ∧ c ≠ '?' ∧ c ≠ '['

instance (text : Str) : Decidable (IsLiteral text) :=
  decidable_of_iff (text.all (fun c => decide (c ≠ '*' ∧ c ≠ '?' ∧ c ≠ '[')) = true)
    (by simp [IsLiteral, List.all_eq_true])

theorem tokensFrom_append
    {text : Str} (h : IsLiteral text) (fuel : Nat) (rest : Str) :
    tokensFrom (text.length + fuel) (text ++ rest) =
      text.map Token.literal ++ tokensFrom fuel rest := by
  induction text with
  | nil => rw [List.length_nil, Nat.zero_add, List.nil_append, List.map_nil, List.nil_append]
  | cons c text ih =>
      obtain ⟨⟨hstar, hany, hset⟩, htail⟩ := List.forall_mem_cons.mp h
      rw [List.length_cons, Nat.add_right_comm, List.cons_append, tokensFrom, if_neg hstar,
        if_neg hany, if_neg hset, ih htail, List.map_cons, List.cons_append]

theorem tokens_literal
    {text : Str} (h : IsLiteral text) :
    tokens text = text.map Token.literal := by
  have happend := tokensFrom_append h 0 []
  rw [List.append_nil, Nat.add_zero] at happend
  rw [tokens, happend, tokensFrom, List.append_nil]

theorem tokens_star
    {text : Str} (h : IsLiteral text) :
    tokens (text ++ ['*']) = text.map Token.literal ++ [.star] := by
  rw [tokens, List.length_append, List.length_singleton, tokensFrom_append h]
  rfl

theorem matchTokens_literals
    (inSet : Str → Char → Bool) (text : Str) (ts : List Token) (s : Str) :
    matchTokens inSet (text.map Token.literal ++ ts) s = true ↔
      ∃ rest, s = text ++ rest ∧ matchTokens inSet ts rest = true := by
  induction text generalizing s with
  | nil => simp
  | cons c text ih =>
      rw [List.map_cons, List.cons_append]
      cases s with
      | nil => simp [matchTokens]
      | cons d s =>
          simp only [matchTokens, Bool.and_eq_true, decide_eq_true_eq, ih, List.cons_append, List.cons.injEq]
          constructor
          · rintro ⟨rfl, rest, rfl, hrest⟩
            exact ⟨rest, ⟨rfl, rfl⟩, hrest⟩
          · rintro ⟨rest, ⟨rfl, rfl⟩, hrest⟩
            exact ⟨rfl, rest, rfl, hrest⟩

/-- A pattern without special characters matches itself only. -/
theorem fnmatch_literal_iff
    {inSet : Str → Char → Bool} {pattern : Str} (h : IsLiteral pattern) {name : Str} :
    fnmatch inSet name pattern = true ↔ name = pattern := by
  have hmatch := matchTokens_literals inSet pattern [] name
  rw [List.append_nil] at hmatch
  rw [fnmatch, tokens_literal h, hmatch]
  simp [matchTokens]

/-- With a star behind it, it matches what it is a prefix of. -/
theorem fnmatch_star_iff
    {inSet : Str → Char → Bool} {pattern : Str} (h : IsLiteral pattern) {name : Str} :
    fnmatch inSet name (pattern ++ ['*']) = true ↔ pattern <+: name := by
  have hstar (s : Str) : matchTokens inSet [.star] s = true := by
    rw [matchTokens, List.any_eq_true]
    exact ⟨[], (List.mem_tails _ _).mpr List.nil_suffix, rfl⟩
  rw [fnmatch, tokens_star h, matchTokens_literals]
  constructor
  · rintro ⟨rest, rfl, _⟩
    exact List.prefix_append _ _
  · rintro ⟨rest, rfl⟩
    exact ⟨rest, rfl, hstar rest⟩

end Literal

end Glob
end AndroidBuild
