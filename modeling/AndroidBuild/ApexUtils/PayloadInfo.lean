import AndroidBuild.Lib.OrderedDict
import AndroidBuild.Lib.PyRepr
import AndroidBuild.Lib.Shlex

/-!
# Re-signing the payload of an APEX

The model of `SignUncompressedApex` up to the footer of the payload.  The
parameters of the payload are read from the text that `avbtool info_image`
prints, and are given to `avbtool add_hashtree_footer`.  The tree size is
compared as a text with the number 0, and quotes are only stripped from what
`repr` has printed.
-/

namespace AndroidBuild
namespace ApexUtils

open Text PyRepr

/-- What is raised, with the text of the message where the program makes it. -/
inductive ApexError where
  | apexInfoError (message : Str)
  | apexSigningError (message : Str)
  | valueError
  | keyError
  | other (message : Str)
  deriving DecidableEq, Repr

section PayloadInfo

/-- The keys of `PAYLOAD_INFO_PATTERN`. -/
def payloadKeys : List Str :=
  ["Algorithm".toList, "Hash Algorithm".toList, "Salt".toList, "Prop".toList, "Tree Size".toList]

/-- `payload_info_matcher.match(line)`. -/
def matchPayloadInfo (line : Str) : Option (Str × Str) :=
  let rest := line.dropWhile isSpace
  (payloadKeys.find? fun key => (key ++ [':']).isPrefixOf rest).map fun key =>
    (key, (rest.drop (key.length + 1)).dropWhile isSpace)

/-- The texts in front of the first `\s->` and behind it. -/
def splitArrow : Str → Option (Str × Str)
  | [] => none
  | c :: cs =>
      if isSpace c && "->".toList.isPrefixOf cs then some ([], cs.drop 2)
      else (splitArrow cs).map fun parts => (c :: parts.1, parts.2)

/-- `prop_matcher.match(value)`, of a value that does not begin with white space. -/
def matchProperty (value : Str) : Option (Str × Str) :=
  (splitArrow value).map fun parts => (parts.1, parts.2.dropWhile isSpace)

/-- The loop of `ParseApexPayloadInfo` on one line. -/
def readPayloadLine (payload_info : OrderedDict Str Str) (line : Str) :
    Except ApexError (OrderedDict Str Str) :=
  match matchPayloadInfo line with
  | none => .ok payload_info
  | some (key, value) =>
      if key = "Prop".toList then
        match matchProperty value with
        | none => .error (.apexInfoError ("Failed to parse prop string ".toList ++ value))
        | some (prop_key, prop_value) =>
            if prop_key = "apex.key".toList then
              .ok (payload_info.set prop_key (stripQuotes prop_value))
            else .ok payload_info
      else .ok (payload_info.set key value)

/-- The keys that have to be found. -/
def requiredKeys : List Str :=
  ["Algorithm".toList, "Salt".toList, "apex.key".toList, "Hash Algorithm".toList]

def validatePayloadInfo (payload_path : Str) (payload_info : OrderedDict Str Str) :
    Except ApexError (OrderedDict Str Str) :=
  match requiredKeys.find? fun key => (payload_info.get? key).isNone with
  | some key =>
      .error (.apexInfoError
        ("Failed to find ".toList ++ key ++ " prop in ".toList ++ payload_path))
  | none => .ok payload_info

/-- What `ParseApexPayloadInfo` makes of the output of `avbtool`. -/
def readPayloadInfo (payload_path output : Str) : Except ApexError (OrderedDict Str Str) := do
  let payload_info ← (partsFrom '\n' [] output).foldlM readPayloadLine OrderedDict.empty
  validatePayloadInfo payload_path payload_info

end PayloadInfo

/-- The result of a call and the commands that were run for it. -/
structure Outcome (α : Type) where
  commands : List (List Str)
  result : Except ApexError α

namespace Outcome

instance : Monad Outcome where
  pure a := ⟨[], .ok a⟩
  bind x f :=
    match x.result with
    | .ok a => ⟨x.commands ++ (f a).commands, (f a).result⟩
    | .error e => ⟨x.commands, .error e⟩

/-- A result for which no command is run. -/
def ofExcept {α : Type} (result : Except ApexError α) : Outcome α :=
  ⟨[], result⟩

variable {α β : Type}

@[simp] theorem ofExcept_ok_bind
    (a : α) (f : α → Outcome β) :
    (ofExcept (.ok a) >>= f) = f a := by
  rfl

@[simp] theorem mk_ok_bind
    (commands : List (List Str)) (a : α) (f : α → Outcome β) :
    ((⟨commands, .ok a⟩ : Outcome α) >>= f) = ⟨commands ++ (f a).commands, (f a).result⟩ := by
  rfl

@[simp] theorem mk_error_bind
    (commands : List (List Str)) (e : ApexError) (f : α → Outcome β) :
    ((⟨commands, .error e⟩ : Outcome α) >>= f) = ⟨commands, .error e⟩ := by
  rfl

theorem commands_bind_ofExcept
    (x : Outcome α) (result : α → Except ApexError β) :
    (x >>= fun a => ofExcept (result a)).commands = x.commands := by
  obtain ⟨commands, outcome⟩ := x
  cases outcome with
  | ok a => exact List.append_nil commands
  | error e => rfl

end Outcome

/-- The code around the payload: the signing of the files inside, the ZIP file, the commands, and
what is done with the APEX after its payload. -/
structure Tools where
  processApexFile : Str → Str → Option Str → Except ApexError Str
  extractPayload : Str → Except ApexError Str
  pathExists : Str → Bool
  runAndCheckOutput : List Str → Except Str Str
  signContainer : Str → Str → Except ApexError Str

section Signing

variable (tools : Tools)

def runCommand (failure : Str → ApexError) (cmd : List Str) : Outcome Str :=
  ⟨[cmd], (tools.runAndCheckOutput cmd).mapError failure⟩

def parseApexPayloadInfo (avbtool payload_path : Str) : Outcome (OrderedDict Str Str) :=
  if tools.pathExists payload_path then do
    let output ← runCommand tools
      (fun e => .apexInfoError
        ("Failed to get APEX payload info for ".toList ++ payload_path ++ ":\n".toList ++ e))
      [avbtool, "info_image".toList, "--image".toList, payload_path]
    Outcome.ofExcept (readPayloadInfo payload_path output)
  else .ofExcept (.error (.apexInfoError ("Failed to find image: ".toList ++ payload_path)))

def verifyApexPayload (avbtool payload_file payload_key : Str) (no_hashtree : Bool) :
    Outcome Unit := do
  let _ ← runCommand tools
    (fun e => .apexSigningError
      ("Failed to validate payload signing for ".toList ++ payload_file ++ " with ".toList ++
        payload_key ++ ":\n".toList ++ e))
    ([avbtool, "verify_image".toList, "--image".toList, payload_file, "--key".toList,
      payload_key] ++ (if no_hashtree then ["--accept_zeroed_hashtree".toList] else []))
  pure ()

/-- `shlex.split(signing_args)`, if there are any. -/
def signingWords (signing_args : Option Str) : Except ApexError (List Str) :=
  match signing_args with
  | none => .ok []
  | some [] => .ok []
  | some args =>
      match Shlex.shlexSplit (String.ofList args) with
      | .ok words => .ok (words.map String.toList)
      | .error _ => .error .valueError

def signApexPayload (avbtool payload_file payload_key_path payload_key_name algorithm salt
    hash_algorithm : Str) (no_hashtree : Bool) (signing_args : Option Str) : Outcome Unit := do
  let cmd := [avbtool, "add_hashtree_footer".toList,
    "--do_not_generate_fec".toList,
    "--algorithm".toList, algorithm,
    "--key".toList, payload_key_path,
    "--prop".toList, "apex.key:".toList ++ payload_key_name,
    "--image".toList, payload_file,
    "--salt".toList, salt,
    "--hash_algorithm".toList, hash_algorithm]
  let cmd := if no_hashtree then cmd ++ ["--no_hashtree".toList] else cmd
  let words ← Outcome.ofExcept (signingWords signing_args)
  let _ ← runCommand tools
    (fun e => .apexSigningError
      ("Failed to sign APEX payload ".toList ++ payload_file ++ " with ".toList ++
        payload_key_path ++ ":\n".toList ++ e))
    (cmd ++ words)
  verifyApexPayload tools avbtool payload_file payload_key_path no_hashtree

/-- `payload_info[key]`. -/
def lookupKey (payload_info : OrderedDict Str Str) (key : Str) : Outcome Str :=
  match payload_info.get? key with
  | some value => pure value
  | none => .ofExcept (.error .keyError)

/-- `payload_info.get("Tree Size", 0) == 0`.  A text is never equal to the number. -/
def hasNoTree (payload_info : OrderedDict Str Str) : Bool :=
  match payload_info.get? "Tree Size".toList with
  | none => true
  | some _ => false

def signUncompressedApex (avbtool apex_file payload_key : Str) (no_hashtree : Option Bool)
    (signing_args : Option Str) : Outcome Str := do
  let apex_file ← Outcome.ofExcept (tools.processApexFile apex_file payload_key signing_args)
  let payload_file ← Outcome.ofExcept (tools.extractPayload apex_file)
  let payload_info ← parseApexPayloadInfo tools avbtool payload_file
  let no_hashtree := no_hashtree.getD (hasNoTree payload_info)
  let name ← lookupKey payload_info "apex.key".toList
  let algorithm ← lookupKey payload_info "Algorithm".toList
  let salt ← lookupKey payload_info "Salt".toList
  let hash_algorithm ← lookupKey payload_info "Hash Algorithm".toList
  signApexPayload tools avbtool payload_file payload_key name algorithm salt hash_algorithm
    no_hashtree signing_args
  Outcome.ofExcept (tools.signContainer apex_file payload_file)

end Signing

end ApexUtils
end AndroidBuild
