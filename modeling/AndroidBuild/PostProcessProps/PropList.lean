import AndroidBuild.Lib.TextLines
import AndroidBuild.Lib.SetMap

/-!
# The properties of a build.prop file

The model of `post_process_props.py`: a line of the file is an assignment or a
comment, an assignment keeps the comment lines that are printed over it, and
the list of them is edited in place before it is printed.  Whether the garbage
collector of the kernel is to be used is asked of code outside the program, and
the order in which the set of names is visited is not promised.
-/

namespace AndroidBuild
namespace PostProcessProps

open Text

section Lines

/-- `text.split(sep, 1)` of a text that holds the separator. -/
def splitOnce (sep : Str) : Str → Option (Str × Str)
  | [] => none
  | c :: cs =>
      if sep.isPrefixOf (c :: cs) then some ([], (c :: cs).drop sep.length)
      else (splitOnce sep cs).map fun parts => (c :: parts.1, parts.2)

/-- `text.rsplit("\n", 1)[-1]`. -/
def lastLine (text : Str) : Str :=
  (text.reverse.takeWhile (· ≠ '\n')).reverse

/-- `line.rstrip("\n")`. -/
def dropNewlines (line : Str) : Str :=
  (line.reverse.dropWhile (· = '\n')).reverse

end Lines

/-- The source's `Prop`: an assignment under its comments, or comments only. -/
structure BuildProp where
  name : Str
  value : Str
  optional : Bool
  comments : List Str
  deriving DecidableEq, Repr

namespace BuildProp

/-- `Prop(name, value, optional, comment)`. -/
def ofParts (name value : Str) (optional : Bool) (comment : Option Str) : BuildProp where
  name := stripChars name
  value := stripChars value
  optional := optional
  comments := comment.toList

/-- `Prop.from_line`. -/
def fromLine (line : Str) : BuildProp :=
  let line := dropNewlines line
  if "#".toList.isPrefixOf line then ofParts [] [] false (some line)
  else
    match splitOnce "?=".toList line with
    | some (name, value) => ofParts name value true none
    | none =>
        match splitOnce "=".toList line with
        | some (name, value) => ofParts name value false none
        | none => ofParts [] [] false (some line)

def isComment (p : BuildProp) : Bool :=
  !p.comments.isEmpty && p.name.isEmpty

def isOptional (p : BuildProp) : Bool :=
  !p.isComment && p.optional

/-- The line that `__str__` puts below the comments. -/
def assignment (p : BuildProp) : List Str :=
  if p.isComment then []
  else [p.name ++ (if p.isOptional then "?=".toList else "=".toList) ++ p.value]

/-- `Prop.__str__`. -/
def toText (p : BuildProp) : Str :=
  ['\n'].intercalate (p.comments ++ p.assignment)

def makeAsComment (p : BuildProp) : BuildProp :=
  if p.isComment then p
  else
    { p with
      comments := p.comments ++ ["#".toList ++ lastLine p.toText]
      name := []
      value := [] }

def delete (reason : Str) (p : BuildProp) : BuildProp :=
  { p with
    comments :=
      p.comments ++ ["# Removed by post_process_props.py because ".toList ++ reason] }.makeAsComment

end BuildProp

open BuildProp

section PropList

/-- `PropList(filename)`, of the text of the file. -/
def readProps (text : Str) : List BuildProp :=
  ((fileLinesFrom [] text).filter fun line => stripChars line ≠ []).map fromLine

def getAllProps (props : List BuildProp) : List BuildProp :=
  props.filter fun p => !p.isComment

def getAllNames (props : List BuildProp) : Finset Str :=
  ((getAllProps props).map BuildProp.name).toFinset

def getProps (name : Str) (props : List BuildProp) : List BuildProp :=
  (getAllProps props).filter fun p => p.name == name

/-- The value of the first property of the name, and the empty text if there is none. -/
def getValue (name : Str) (props : List BuildProp) : Str :=
  ((props.find? fun p => p.name == name).map BuildProp.value).getD []

/-- `PropList.put`: the first assignment of the name that is not optional gets the value. -/
def put (name value : Str) : List BuildProp → List BuildProp
  | [] =>
      [ofParts name value false (some "# Auto-added by post_process_props.py".toList)]
  | p :: props =>
      if p.name == name && !p.isOptional then
        { p with
          comments := p.comments ++
            ["# Value overridden by post_process_props.py. Original value: ".toList ++ p.value]
          value := value } :: props
      else p :: put name value props

/-- `PropList.write`. -/
def writeProps (props : List BuildProp) : Str :=
  props.flatMap fun p => p.toText ++ ['\n']

/-- `for p in …: p.delete(reason)`, over the properties with `selected`. -/
def deleteWhere (selected : BuildProp → Bool) (reason : Str) (props : List BuildProp) :
    List BuildProp :=
  props.map fun p => if selected p then p.delete reason else p

end PropList

section Mangle

def debuggable : Str :=
  "ro.debuggable".toList

def usbConfig : Str :=
  "persist.sys.usb.config".toList

def uffdGc : Str :=
  "ro.dalvik.vm.enable_uffd_gc".toList

/-- The value that `persist.sys.usb.config` gets on a debuggable build. -/
def usbConfigValue (props : List BuildProp) : Option Str :=
  if getValue debuggable props = "1".toList then
    let val := getValue usbConfig props
    if "adb".toList <:+: val then none
    else if val = [] then some "adb".toList
    else some (val ++ ",adb".toList)
  else none

/-- `"true" if enable_uffd_gc else "false"`. -/
def enableText (enable : Bool) : Str :=
  if enable then "true".toList else "false".toList

/-- `mangle_build_prop`; `none` is the failed assertion or the exception of
`should_enable_uffd_gc`. -/
def mangleBuildProp (shouldEnableUffdGc : Str → Option Bool) (kernelVersionFile : Str)
    (props : List BuildProp) : Option (List BuildProp) :=
  let mangled :=
    match usbConfigValue props with
    | some val => put usbConfig val props
    | none => props
  if getValue uffdGc mangled = "default".toList then
    if kernelVersionFile = [] then none
    else
      (shouldEnableUffdGc kernelVersionFile).map fun enable =>
        put uffdGc (enableText enable) mangled
  else some mangled

end Mangle

section Override

/-- The reason that is written when an assignment gives way to `p`. -/
def overriddenBy (p : BuildProp) : Str :=
  "overridden by ".toList ++ p.toText

/-- The last optional assignment of the name is made non-optional, the ones before it are
deleted. -/
def keepLastOptional (name reason : Str) : List BuildProp → List BuildProp
  | [] => []
  | p :: props =>
      if p.isOptional && p.name == name then
        if (getProps name props).any isOptional then
          p.delete reason :: keepLastOptional name reason props
        else { p with optional := false } :: props
      else p :: keepLastOptional name reason props

/-- One turn of the loop of `override_optional_props`, with the error it writes. -/
def overrideName (allowDup : Bool) (name : Str) (props : List BuildProp) :
    List BuildProp × Option Str :=
  let selected := fun p : BuildProp => p.isOptional && p.name == name
  let optionalProps := (getProps name props).filter isOptional
  let overridingProps := (getProps name props).filter fun p => !p.isOptional
  match overridingProps with
  | first :: second :: others =>
      -- duplicates are allowed when they have the same value
      if (second :: others).all fun p => first.value == p.value then
        (deleteWhere selected (overriddenBy first) props, none)
      else if allowDup then
        (props.map fun p => if selected p then { p with optional := false } else p, none)
      else
        (props, some ("error: found duplicate sysprop assignments:\n".toList ++
          overridingProps.flatMap fun p => p.toText ++ ['\n']))
  | [first] => (deleteWhere selected (overriddenBy first) props, none)
  | [] =>
      match optionalProps.getLast? with
      | some last => (keepLastOptional name (overriddenBy last) props, none)
      | none => (props, none)

/-- `override_optional_props` over the names, with the errors it writes. -/
def overrideOptionalProps (allowDup : Bool) :
    List Str → List BuildProp → List BuildProp × List Str
  | [], props => (props, [])
  | name :: names, props =>
      let turn := overrideName allowDup name props
      let rest := overrideOptionalProps allowDup names turn.1
      (rest.1, turn.2.toList ++ rest.2)

end Override

section Validate

def propValueMax : Nat :=
  91

/-- How a run fails: it exits with what it wrote, or an exception is raised. -/
inductive Failure where
  | exit (stderr : Str)
  | raised
  deriving DecidableEq, Repr

/-- `int(text)`. -/
def readInt (text : Str) : Except Failure Int :=
  match parseSigned (stripChars text) with
  | some n => .ok n
  | none => .error .raised

def validateGrfProps (props : List BuildProp) : Except Failure Unit := do
  let grfApiLevel := getValue "ro.board.first_api_level".toList props
  let boardApiLevel := getValue "ro.board.api_level".toList props
  if grfApiLevel ≠ [] ∧ boardApiLevel ≠ [] then
    let grf ← readInt grfApiLevel
    let board ← readInt boardApiLevel
    if board < grf then
      throw (.exit ("error: ro.board.api_level(".toList ++ (toString board).toList ++
        ") must not be less than ro.board.first_api_level(".toList ++ (toString grf).toList ++
        ")\n".toList))

/-- What `validate` writes about one property. -/
def propErrors (p : BuildProp) : Str :=
  (if p.value.length > propValueMax ∧ "ro.".toList.isPrefixOf p.name = false then
    "error: ".toList ++ p.name ++ " cannot exceed ".toList ++ (toString propValueMax).toList ++
      " bytes: ".toList ++ p.value ++ " (".toList ++ (toString p.value.length).toList ++
      ")\n".toList
  else []) ++
  (if p.isOptional then
    "error: found unresolved optional prop assignment:\n".toList ++ p.toText ++ "\n".toList
  else [])

def validate (props : List BuildProp) : Except Failure Unit :=
  let errors := (getAllProps props).flatMap propErrors
  if errors = [] then .ok () else .error (.exit errors)

end Validate

section Main

/-- The arguments of a run, with the text of the whole command line. -/
structure Args where
  filename : Str
  disallowedKeys : List Str
  kernelVersionFile : Str
  allowDup : Bool
  commandLine : Str

/-- `for key in args.disallowed_keys`. -/
def dropDisallowed : List Str → List BuildProp → List BuildProp
  | [], props => props
  | key :: keys, props =>
      dropDisallowed keys
        (deleteWhere (fun p => !p.isComment && p.name == key)
          (key ++ " is a disallowed key".toList) props)

/-- `main`, from the text of the file to the text it is replaced by. -/
def main (order : HashOrder Str) (shouldEnableUffdGc : Str → Option Bool) (args : Args)
    (text : Str) : Except Failure Str := do
  if "/build.prop".toList.isSuffixOf args.filename = false then
    throw (.exit ("bad command line: ".toList ++ args.commandLine ++ "\n".toList))
  let some props :=
      mangleBuildProp shouldEnableUffdGc args.kernelVersionFile (readProps text)
    | throw .raised
  let overridden :=
    overrideOptionalProps args.allowDup (order.iterate (getAllNames props)) props
  if overridden.2 ≠ [] then throw (.exit overridden.2.flatten)
  validateGrfProps overridden.1
  validate overridden.1
  return writeProps (dropDisallowed args.disallowedKeys overridden.1)

end Main

end PostProcessProps
end AndroidBuild
