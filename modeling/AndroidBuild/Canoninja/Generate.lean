import AndroidBuild.Lib.OrderedDict

/-!
# Canonical Ninja files

`Generate` of `canoninja`, which names each rule by the digest of its text.  A
slice of a line is its bytes and where they start; the code finds the start by
the capacities of the two slices.
-/

namespace AndroidBuild
namespace Canoninja

abbrev Bytes :=
  List UInt8

def ascii (s : String) : Bytes :=
  s.toList.map fun c => UInt8.ofNat c.toNat

def rulePrefix : Bytes := ascii "rule "

def buildPrefix : Bytes := ascii "build "

def phonyRule : Bytes := ascii "phony"

def newline : UInt8 := 10

def colon : UInt8 := 58

def blank : UInt8 := 32

def isSpace (b : UInt8) : Bool :=
  b == 32 || b == 9 || b == 13 || b == 10

/-- The errors of `Generate`, with the number of the line. -/
inductive GenerateError where
  | ruleNameMissing (line : Nat)
  | ruleRedefined (line : Nat) (name : Bytes)
  | buildLacksRule (line : Nat)
  | noRule (line : Nat)
  | indexOutOfRange
deriving DecidableEq

section Lines

def lines : Bytes → List Bytes
  | [] => []
  | b :: rest =>
      if b = newline then [b] :: lines rest
      else
        match lines rest with
        | [] => [[b]]
        | line :: more => (b :: line) :: more

/-- A slice of a line. -/
structure Slice where
  start : Nat
  bytes : Bytes
deriving DecidableEq

/-- The part of the line before the slice and the part behind it. -/
def Slice.before (s : Slice) (line : Bytes) : Bytes :=
  line.take s.start

def Slice.behind (s : Slice) (line : Bytes) : Bytes :=
  line.drop (s.start + s.bytes.length)

/-- The blanks at the front are trimmed, and the name ends before the next space. -/
def trimName (start : Nat) (rest : Bytes) : Slice :=
  let trimmed := rest.dropWhile (· = blank)
  ⟨start + (rest.length - trimmed.length), trimmed.takeWhile fun b => !isSpace b⟩

def ruleName (line : Bytes) : Slice :=
  trimName rulePrefix.length (line.drop rulePrefix.length)

/-- `getBuildRuleName`, which reads the byte behind the first colon. -/
def getBuildRuleName (line : Bytes) : Except GenerateError Slice :=
  let front := line.takeWhile (· ≠ colon)
  match line.dropWhile (· ≠ colon) with
  | [] => .ok ⟨0, []⟩
  | _ :: rest =>
      if front = [] then .ok ⟨0, []⟩
      else if rest = [] then .error .indexOutOfRange
      else .ok (trimName (front.length + 1) rest)

end Lines

section Generate

variable (sha1 : Bytes → Bytes)

/-- `hex.EncodeToString`. -/
def encodeToString (b : Bytes) : Bytes :=
  b.flatMap fun x => (ascii "0123456789abcdef").getD (x.toNat / 16) 0 ::
    [(ascii "0123456789abcdef").getD (x.toNat % 16) 0]

def ruleBody (rest : List Bytes) : List Bytes :=
  rest.takeWhile fun line => line.head? = some blank

/-- The digest of a rule's text, from the digests of its lines. -/
def textDigest (text : List Bytes) : Bytes :=
  ascii "R" ++ encodeToString (sha1 (text.flatMap sha1))

/-- The digests of the rules; `n` is the number of the line.  The lines of a body are no rule
lines, so that the loop passes them by. -/
def ruleDigests (n : Nat) (ruleDigest : OrderedDict Bytes Bytes) :
    List Bytes → Except GenerateError (OrderedDict Bytes Bytes)
  | [] => .ok ruleDigest
  | line :: rest =>
      if rulePrefix <+: line then
        let rn := ruleName line
        if rn.bytes = [] then .error (.ruleNameMissing n)
        else if (ruleDigest.get? rn.bytes).isSome then .error (.ruleRedefined n rn.bytes)
        else
          ruleDigests (n + 1)
            (ruleDigest.set rn.bytes (textDigest sha1 (rn.behind line :: ruleBody rest))) rest
      else ruleDigests (n + 1) ruleDigest rest

def rewriteLine (ruleDigest : OrderedDict Bytes Bytes) (n : Nat) (line : Bytes) :
    Except GenerateError Bytes :=
  if buildPrefix <+: line then do
    let brn ← getBuildRuleName line
    if brn.bytes = phonyRule then .ok line
    else if brn.bytes = [] then .error (.buildLacksRule n)
    else
      match ruleDigest.get? brn.bytes with
      | some digest => .ok (brn.before line ++ digest ++ brn.behind line)
      | none => .error (.noRule n)
  else if rulePrefix <+: line then
    let rn := ruleName line
    .ok (rn.before line ++ (ruleDigest.get? rn.bytes).getD [] ++ rn.behind line)
  else .ok line

def rewriteLines (ruleDigest : OrderedDict Bytes Bytes) (n : Nat) :
    List Bytes → Except GenerateError (List Bytes)
  | [] => .ok []
  | line :: rest => do
      let written ← rewriteLine ruleDigest n line
      let more ← rewriteLines ruleDigest (n + 1) rest
      .ok (written :: more)

/-- `Generate`: the bytes that are written when there is no error. -/
def generate (buffer : Bytes) : Except GenerateError Bytes := do
  let ruleDigest ← ruleDigests sha1 1 OrderedDict.empty (lines buffer)
  let written ← rewriteLines ruleDigest 1 (lines buffer)
  .ok written.flatten

end Generate

end Canoninja
end AndroidBuild
