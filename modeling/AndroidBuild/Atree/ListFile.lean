import AndroidBuild.Atree.ReplaceVariables

/-!
# The list files of atree

The model of `split_line` and `read_list_file`, from the text of the file.  The
pointers into the buffer become the characters read so far: a word is kept from
where it starts, and a line ends where its terminator was.  What the file says
by the usage text is defined beside it: words are split at blanks outside of
double quotes, and a line is `[rm|strip] DEST` or `SRC [strip] DEST`.
-/

namespace AndroidBuild
namespace Atree

open Text

section Lines

def isspace (c : Char) : Bool :=
  c == ' ' || (9 ≤ c.toNat && c.toNat ≤ 13)

def isWhitespaceLine (line : Str) : Bool :=
  line.all isspace

def isCommentLine (line : Str) : Bool :=
  (line.dropWhile isspace).head? == some '#'

def isExcludeLine (line : Str) : Bool :=
  (line.dropWhile isspace).head? == some '-'

/-- The text behind the `-` of an exclude line. -/
def excludePattern (line : Str) : Str :=
  (line.dropWhile (· ≠ '-')).drop 1

/-- The lines that have a terminator, `line` being read already. -/
def endedLines (line : Str) : Str → List Str
  | [] => []
  | c :: text =>
      if c = '\r' ∨ c = '\n' then line :: endedLines [] text
      else endedLines (line ++ [c]) text

def openLine (line : Str) : Str → Str
  | [] => line
  | c :: text =>
      if c = '\r' ∨ c = '\n' then openLine [] text
      else openLine (line ++ [c]) text

end Lines

section SplitLine

inductive SplitState where
  | white
  | text
  | inQuote
  deriving DecidableEq, Repr

def pushed (word : Str) : Str :=
  if 2 < word.length ∧ word.head? = some '"' ∧ word.getLast? = some '"' then
    (word.drop 1).dropLast
  else word

/-- `split_line` in a state, `word` being the text from `q` to `p`. -/
def splitFrom : SplitState → Str → Str → List Str
  | state, word, [] => if state = .text then [pushed word] else []
  | state, word, c :: line =>
      if c = '#' then (if state = .text then [pushed word] else [])
      else
        match state with
        | .white =>
            if isspace c then splitFrom .white [] line
            else splitFrom (if c = '"' then .inQuote else .text) [c] line
        | .inQuote => splitFrom (if c = '"' then .text else .inQuote) (word ++ [c]) line
        | .text =>
            if isspace c then pushed word :: splitFrom .white [] line
            else splitFrom .text (word ++ [c]) line

def splitLine (line : Str) : List Str :=
  splitFrom .white [] line

end SplitLine

section ReadListFile

inductive FileOpType where
  | copy
  | remove
  | strip
  deriving DecidableEq, Repr

/-- What `add_file` keeps of a line. -/
structure FileRecord where
  listLine : Nat
  fileOp : FileOpType
  sourceName : Str
  outName : Str
  deriving DecidableEq, Repr

/-- The end of the loop over the words of a line. -/
inductive WordsEnd where
  | done (op : FileOpType) (paths : List Str)
  | error (errstr : Str) (pcount : Nat)
  | recursive
  deriving DecidableEq, Repr

def keywordOp (word : Str) : Option FileOpType :=
  if word = "rm".toList then some .remove
  else if word = "strip".toList then some .strip
  else none

def onceError : Str :=
  "Error: you can only specifiy 'rm' or 'strip' once per line.".toList

def morePathsError : Str :=
  "Error: More than 2 paths per line.".toList

def noPathError : Str :=
  "Error: No path found on line.".toList

/-- The loop over the words, with the operation and the paths found so far. -/
def readWords (vars : Variables) : List Str → FileOpType → List Str → WordsEnd
  | [], op, paths => .done op paths
  | word :: words, op, paths =>
      match keywordOp word with
      | some keyword =>
          if op ≠ .copy then .error onceError paths.length
          else readWords vars words keyword paths
      | none =>
          if paths.length < 2 then
            let replaced := replaceVariables word vars
            if replaced.2 then .recursive
            else readWords vars words op (paths ++ [replaced.1])
          else .error morePathsError paths.length

/-- What comes of a line; `badFormat` has the message that is written. -/
inductive LineOutcome where
  | nothing
  | exclude (pattern : Str)
  | record (op : FileOpType) (sourceName outName : Str)
  | badFormat (errstr : Str)
  | recursive
  deriving DecidableEq, Repr

def readLine (vars : Variables) (line : Str) : LineOutcome :=
  if isWhitespaceLine line || isCommentLine line then .nothing
  else if isExcludeLine line then .exclude (excludePattern line)
  else
    match readWords vars (splitLine line) .copy [] with
    | .recursive => .recursive
    -- the message is changed only where there is an error already
    | .error errstr pcount => .badFormat (if pcount = 0 then noPathError else errstr)
    | .done op [] => .record op [] []
    | .done op [path] => .record op path path
    | .done op (source :: dest :: _) => .record op source dest

/-- What `read_list_file` returns and appends. -/
structure ListFile where
  err : Nat
  files : List FileRecord
  excludes : List Str
  deriving DecidableEq, Repr

/-- The loop over the lines, `i` being the number of the first one. -/
def readLines (vars : Variables) : Nat → List Str → ListFile → ListFile
  | _, [], out => out
  | i, line :: lines, out =>
      match readLine vars line with
      | .nothing => readLines vars (i + 1) lines out
      | .exclude pattern =>
          readLines vars (i + 1) lines { out with excludes := out.excludes ++ [pattern] }
      | .record op sourceName outName =>
          readLines vars (i + 1) lines
            { out with files := out.files ++ [⟨i, op, sourceName, outName⟩] }
      | .badFormat _ => readLines vars (i + 1) lines { out with err := 1 }
      | .recursive => { out with err := 1 }

/-- `read_list_file`; of an empty file nothing is read, and `errno` is returned as it is. -/
def readListFile (errno : Nat) (vars : Variables) (text : Str) : ListFile :=
  if text = [] then ⟨errno, [], []⟩
  else readLines vars 1 (endedLines [] text) ⟨0, [], []⟩

end ReadListFile

section Documented

/-- The words of a line by the usage text: split at blanks outside of double quotes, the quotes
removed, up to an unquoted `#`.  A quote that is not finished has no words. -/
def documentedFrom : Bool → Option Str → Str → Option (List Str)
  | quoted, word, [] => if quoted then none else some word.toList
  | quoted, word, c :: line =>
      if c = '"' then documentedFrom (!quoted) (some (word.getD [])) line
      else if quoted then documentedFrom true (some (word.getD [] ++ [c])) line
      else if c = '#' then some word.toList
      else if isspace c then (documentedFrom false none line).map (word.toList ++ ·)
      else documentedFrom false (some (word.getD [] ++ [c])) line

def documentedWords (line : Str) : Option (List Str) :=
  documentedFrom false none line

/-- A path: neither empty nor a keyword. -/
def IsPath (word : Str) : Prop :=
  word ≠ [] ∧ keywordOp word = none

instance : DecidablePred IsPath := fun word =>
  inferInstanceAs (Decidable (word ≠ [] ∧ keywordOp word = none))

/-- `[rm|strip] DEST` and `SRC [strip] DEST`. -/
def documentedLine : List Str → Option (FileOpType × Str × Str)
  | [dest] => if IsPath dest then some (.copy, dest, dest) else none
  | [first, dest] =>
      if IsPath dest then
        match keywordOp first with
        | some op => some (op, dest, dest)
        | none => if first ≠ [] then some (.copy, first, dest) else none
      else none
  | [source, word, dest] =>
      if IsPath source ∧ IsPath dest ∧ word = "strip".toList then some (.strip, source, dest)
      else none
  | _ => none

def replacedPath (vars : Variables) (path : Str) : Option Str :=
  let replaced := replaceVariables path vars
  if replaced.2 then none else some replaced.1

/-- What a line means by the usage text. -/
inductive Meaning where
  | nothing
  | exclude (pattern : Str)
  | record (op : FileOpType) (sourceName outName : Str)
  deriving DecidableEq, Repr

def meaning (vars : Variables) (line : Str) : Option Meaning :=
  if isWhitespaceLine line || isCommentLine line then some .nothing
  else if isExcludeLine line then some (.exclude (excludePattern line))
  else do
    let words ← documentedWords line
    let (op, source, dest) ← documentedLine words
    return .record op (← replacedPath vars source) (← replacedPath vars dest)

/-- All lines of a text, the last one with or without a terminator. -/
def allLines (text : Str) : List Str :=
  endedLines [] text ++ [openLine [] text]

namespace Meaning

def recordOf : Meaning → Option (FileOpType × Str × Str)
  | record op sourceName outName => some (op, sourceName, outName)
  | _ => none

def patternOf : Meaning → Option Str
  | exclude pattern => some pattern
  | _ => none

end Meaning

/-- Every line of the text is accounted for. -/
def Accounted (vars : Variables) (text : Str) (files : List FileRecord) (excludes : List Str) :
    Prop :=
  ∃ meanings : List Meaning, (allLines text).map (meaning vars) = meanings.map some ∧
    files.map (fun r => (r.fileOp, r.sourceName, r.outName)) =
      meanings.filterMap Meaning.recordOf ∧
    excludes = meanings.filterMap Meaning.patternOf

end Documented

end Atree
end AndroidBuild
