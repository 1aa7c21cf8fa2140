import Mathlib.Tactic

/-!
# Python's `shlex.split`

The function by which the lists in the configuration of a build are read, with
its defaults: POSIX mode, splitting at whitespace only, no comments.
-/

namespace AndroidBuild
namespace Shlex

/-- The two errors of `shlex.split`, both a `ValueError`. -/
inductive ShlexError where
  | noClosingQuotation
  | noEscapedCharacter
  deriving DecidableEq, Repr

/-- `shlex.state`.  An escape returns to the word or to the quotation it is in. -/
inductive Mode where
  | space
  | word
  | quote (q : Char)
  | escape (back : Option Char)
  deriving DecidableEq, Repr

/-- The lexer between two characters: the token being read, and those read before. -/
structure Lexer where
  mode : Mode := .space
  token : String := ""
  quoted : Bool := false
  tokens : List String := []
  deriving Repr

namespace Lexer

/-- `shlex.whitespace`. -/
def isWhitespace (c : Char) : Bool :=
  c == ' ' || c == '\t' || c == '\r' || c == '\n'

/-- `shlex.quotes`. -/
def isQuote (c : Char) : Bool :=
  c == '\'' || c == '"'

def push (s : Lexer) (c : Char) : Lexer :=
  { s with token := s.token.push c }

/-- The end of a word.  An empty token counts only if it was quoted. -/
def finishToken (s : Lexer) : Lexer :=
  if s.token ≠ "" ∨ s.quoted = true then
    { tokens := s.tokens ++ [s.token] }
  else { s with mode := .space }

/-- The branches of `shlex.read_token` on one character. -/
def readChar (s : Lexer) (c : Char) : Lexer :=
  match s.mode with
  | .space =>
      if isWhitespace c then s.finishToken
      else if c = '\\' then { s with mode := .escape none }
      else if isQuote c then { s with mode := .quote c, quoted := true }
      else { s.push c with mode := .word }
  | .word =>
      if isWhitespace c then s.finishToken
      else if isQuote c then { s with mode := .quote c, quoted := true }
      else if c = '\\' then { s with mode := .escape none }
      else s.push c
  | .quote q =>
      if c = q then { s with mode := .word }
      else if c = '\\' ∧ q = '"' then { s with mode := .escape (some q) }
      else s.push c
  | .escape none => { s.push c with mode := .word }
  | .escape (some q) =>
      -- within quotation marks only the mark and the backslash can be escaped
      let s := if c ≠ '\\' ∧ c ≠ q then s.push '\\' else s
      { s.push c with mode := .quote q }

/-- The end of the text. -/
def finish (s : Lexer) : Except ShlexError (List String) :=
  match s.mode with
  | .space => .ok s.finishToken.tokens
  | .word => .ok s.finishToken.tokens
  | .quote _ => .error .noClosingQuotation
  | .escape _ => .error .noEscapedCharacter

end Lexer

/-- `shlex.split(s)`. -/
def shlexSplit (s : String) : Except ShlexError (List String) :=
  (s.toList.foldl Lexer.readChar {}).finish

example : shlexSplit " system  'vendor dlkm' \"\" a\\ b" =
    .ok ["system", "vendor dlkm", "", "a b"] := by
  decide +kernel

end Shlex
end AndroidBuild
