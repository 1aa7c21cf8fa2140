import AndroidBuild.Lib.OrderedDict
import AndroidBuild.Lib.Text

/-!
# The output of `avbtool info_image`

`ParseAvbInfo`.  The dictionaries and lists on the indentation stack are parts
of each other.  A frame of the stack has the key under which its container
stands in the one below, where it is put when the frame is left; until then
only the top of the stack is read or changed.
-/

namespace AndroidBuild
namespace SignTargetFilesApks

open Text

/-- The values that the parser builds. -/
inductive Info where
  | text (s : Str)
  | list (items : List Info)
  | dict (entries : List (Str × Info))

/-- The Python exceptions of the functions on AVB information. -/
inductive AvbError where
  | attributeError
  | typeError
  | valueError
  | keyError
  | assertionError
  | externalError
deriving DecidableEq

section Lines

/-- The match of `^(\s*)([^:]+):\s*(.*)$`: the length of the first group and the other two without
the blanks at their ends.  Before a colon without a name the first group gives one blank
back. -/
def matchLine (line : Str) : Option (Nat × Str × Str) :=
  let blanks := line.takeWhile isSpace
  let rest := line.dropWhile isSpace
  let name := rest.takeWhile (· ≠ ':')
  match rest.dropWhile (· ≠ ':') with
  | [] => none
  | _ :: value =>
      if name ≠ [] then some (blanks.length, stripChars name, stripChars value)
      else if blanks ≠ [] then some (blanks.length - 1, [], stripChars value)
      else none

/-- The match of `(.+)'`, up to the last quote. -/
def quoted (s : Str) : Option Str :=
  let value := ((s.reverse.dropWhile (· ≠ '\'')).drop 1).reverse
  if value = [] then none else some value

/-- The match of `\s->\s'(.+)'`. -/
def arrowValue : Str → Option Str
  | b :: '-' :: '>' :: b' :: '\'' :: rest => if isSpace b && isSpace b' then quoted rest else none
  | _ => none

/-- The match of `(.+)\s->\s'(.+)'`, the longest first group first; `before` is in it. -/
def matchPropFrom (before : Str) : Str → Option (Str × Str)
  | [] => none
  | c :: rest =>
      match matchPropFrom (before ++ [c]) rest with
      | some groups => some groups
      | none =>
          if before = [] then none
          else (arrowValue (c :: rest)).map fun value => (before, value)

def matchProp (value : Str) : Option (Str × Str) :=
  matchPropFrom [] value

end Lines

section Stack

/-- An entry of the indentation stack. -/
structure Frame where
  indent : Int
  key : Str
  container : Info

def Frame.put (below top : Frame) : Frame :=
  { below with
    container :=
      match below.container with
      | .dict entries => .dict (OrderedDict.setEntries top.key top.container entries)
      | .list items => .list (items ++ [.dict [(top.key, top.container)]])
      | .text s => .text s }

/-- `while indent <= indent_stack[-1][0]: del indent_stack[-1]`. -/
def settle (indent : Int) (top : Frame) : List Frame → Frame × List Frame
  | [] => (top, [])
  | below :: rest =>
      if indent ≤ top.indent then settle indent (below.put top) rest else (top, below :: rest)

def insertLine (indent : Nat) (key value : Str) (top : Frame) (below : List Frame) :
    Except AvbError (Frame × List Frame) :=
  if value = [] then
    if key = "Descriptors".toList then
      match top.container with
      | .dict _ => .ok (⟨indent, key, .list []⟩, top :: below)
      | _ => .error .typeError
    else
      match top.container with
      | .list _ => .ok (⟨indent, key, .dict []⟩, top :: below)
      | _ => .error .attributeError
  else if key = "Prop".toList then
    match matchProp value with
    | none => .error .valueError
    | some (k, v) =>
        match top.container with
        | .list items =>
            .ok ({ top with container := .list (items ++ [.dict [(key, .dict [(k, .text v)])]]) },
              below)
        | _ => .error .attributeError
  else
    match top.container with
    | .dict entries =>
        .ok ({ top with container := .dict (OrderedDict.setEntries key (.text value) entries) },
          below)
    | _ => .error .typeError

def parseAvbLine (stack : Frame × List Frame) (line : Str) : Except AvbError (Frame × List Frame) :=
  match matchLine line with
  | none => .ok stack
  | some (indent, key, value) =>
      let (top, below) := settle indent stack.1 stack.2
      insertLine indent key value top below

/-- The stack with nothing but `info`. -/
def initStack : Frame × List Frame :=
  (⟨-1, [], .dict []⟩, [])

def parseAvbInfo (info_raw : Str) : Except AvbError Info :=
  ((partsFrom '\n' [] info_raw).foldlM parseAvbLine initStack).map fun stack =>
    (settle 0 stack.1 stack.2).1.container

end Stack

end SignTargetFilesApks
end AndroidBuild
