import AndroidBuild.Aconfig.Merge

/-!
# Parsing flag declarations and values

`parse_flags` turns the declarations of a package into parsed flags and then
goes through the files with values, each of which may change the state and the
permission of a flag.  The storage backend follows the permission and the
namespace of the flag.  A check for mainline beta namespaces panics on exported
flags of platform containers.
-/

namespace AndroidBuild
namespace Aconfig

section Namespaces

structure NamespaceSetting where
  container : String
  allowExported : Bool
  deriving DecidableEq, Repr

structure MainlineBetaNamespaces where
  namespaces : String → Option NamespaceSetting

namespace MainlineBetaNamespaces

variable (beta : MainlineBetaNamespaces) (pf : ProtoParsedFlag)

def hasFlag : Bool :=
  (beta.namespaces pf.flagNamespace).isSome

def isMainlineBetaFlag : Bool :=
  match beta.namespaces pf.flagNamespace with
  | some setting => setting.container == pf.container
  | none => false

def supportsContainer : Checked String Bool :=
  match beta.namespaces pf.flagNamespace with
  | some setting =>
      .ok (setting.container == pf.container || platformContainers.contains pf.container)
  | none => .error .panic

def supportsExportedMode : Checked String Bool :=
  match beta.namespaces pf.flagNamespace with
  | some setting =>
      if setting.container == pf.container then .ok setting.allowExported else .error .panic
  | none => .error .panic

end MainlineBetaNamespaces

def ProtoFlagMetadata.setStorage (m : ProtoFlagMetadata) (storage : StorageBackend) :
    ProtoFlagMetadata :=
  { m with storage? := some (.known storage) }

def assignStorageBackend (beta : Option MainlineBetaNamespaces) (pf : ProtoParsedFlag) :
    Checked String ProtoParsedFlag :=
  let isMainlineBeta := match beta with
    | some namespaces => namespaces.isMainlineBetaFlag pf
    | none => false
  let isReadOnly := pf.permission == .readOnly
  let storage : StorageBackend :=
    if isReadOnly then .none else if isMainlineBeta then .deviceConfig else .aconfigd
  match pf.metadata? with
  | some m => .ok { pf with metadata? := some (m.setStorage storage) }
  | none => .error (.err "missing metadata")

def verifyMainlineBetaNamespaceFlag (beta : Option MainlineBetaNamespaces)
    (pf : ProtoParsedFlag) : Checked String Unit :=
  match beta with
  | none => .ok ()
  | some namespaces =>
      if !namespaces.hasFlag pf then .ok ()
      else do
        let supports ← namespaces.supportsContainer pf
        ensure supports ("Creating " ++ pf.container ++ " container flag in namespace " ++
          pf.flagNamespace ++ " is not allowed")
        if pf.isExported then do
          let exported ← namespaces.supportsExportedMode pf
          ensure exported ("Creating exported flag " ++ pf.fullyQualifiedName ++ " in namespace " ++
            pf.flagNamespace ++ " is not allowed")

end Namespaces

section Parse

/-- `Input`: what reading the file gives. -/
structure Input where
  source : String
  contents : Except String String

structure ExtendedPermissionsOptions where
  defaultPermission : FlagPermission
  allowReadWrite : Bool
  forceReadOnly : Bool
  deriving DecidableEq, Repr

/-- `with_context`, for an error of another library. -/
def withContext {α : Type} (context : String) : Except String α → Checked String α
  | .ok a => .ok a
  | .error e => .error (.err (context ++ ": " ++ e))

/-- `with_context`. -/
def addContext {α : Type} (context : String) : Checked String α → Checked String α :=
  Checked.mapErr (fun e => context ++ ": " ++ e)

/-- The parsers of the text format, which belong to the protobuf library. -/
structure TextFormat where
  flagDeclarations : String → Except String ProtoFlagDeclarations
  flagValues : String → Except String (List ProtoFlagValue)

/-- The arguments of `parse_flags`, up to the files. -/
structure ParseArgs where
  textFormat : TextFormat
  package : String
  container : String
  beta : Option MainlineBetaNamespaces
  options : ExtendedPermissionsOptions

variable (args : ParseArgs)

def ParseArgs.declaredPermission (d : ProtoFlagDeclaration) : FlagPermission :=
  if d.isFixedReadOnly || args.options.forceReadOnly then .readOnly
  else args.options.defaultPermission

def ParseArgs.parsedFlag (source : String) (d : ProtoFlagDeclaration) : ProtoParsedFlag where
  package? := some args.package
  name? := some d.name; namespace? := some d.flagNamespace
  description? := some d.description
  bug := d.bug
  state? := some (.known .disabled)
  permission? := some (.known (args.declaredPermission d))
  trace := [⟨some source, some (.known .disabled), some (.known (args.declaredPermission d))⟩]
  isFixedReadOnly? := some d.isFixedReadOnly
  isExported? := some d.isExported
  container? := some args.container
  metadata? := some ⟨some (.known (purposeOf d.metadata?)), none⟩

def declareFlag (source : String) (flags : ProtoParsedFlags) (d : ProtoFlagDeclaration) :
    Checked String ProtoParsedFlags := do
  addContext ("failed to parse " ++ source) d.verifyFields
  let parsedFlag ← assignStorageBackend args.beta (args.parsedFlag source d)
  verifyMainlineBetaNamespaceFlag args.beta parsedFlag
  parsedFlag.verifyFields
  ensure (flags.all (fun other => other.name != parsedFlag.name))
    ("failed to declare flag " ++ parsedFlag.name ++ " from " ++ source ++ ": flag already declared")
  pure (flags ++ [parsedFlag])

def readDeclarations (input : Input) : Checked String ProtoFlagDeclarations := do
  let contents ← withContext ("failed to read " ++ input.source) input.contents
  let pdf ← withContext ("failed to parse " ++ input.source)
    (args.textFormat.flagDeclarations contents)
  addContext ("failed to parse " ++ input.source) pdf.verifyFields
  ensure (args.package == pdf.package) ("failed to parse " ++ input.source ++
    ": expected package " ++ args.package ++ ", got " ++ pdf.package)
  ensure (args.container == pdf.container) ("failed to parse " ++ input.source ++
    ": expected container " ++ args.container ++ ", got " ++ pdf.container)
  pure pdf

def declareFile (flags : ProtoParsedFlags) (input : Input) : Checked String ProtoParsedFlags := do
  let pdf ← readDeclarations args input
  pdf.flag.foldlM (declareFlag args input.source) flags

def ParseArgs.valuePermission (value : ProtoFlagValue) : FlagPermission :=
  if args.options.forceReadOnly then .readOnly else value.permission

/-- `set_permission`, with the storage backend when the permission changes. -/
def changePermission (permission : FlagPermission) (pf : ProtoParsedFlag) :
    Checked String ProtoParsedFlag :=
  if pf.permission ≠ permission then
    assignStorageBackend args.beta { pf with permission? := some (.known permission) }
  else .ok pf

def applyValue (source : String) (value : ProtoFlagValue) (pf : ProtoParsedFlag) :
    Checked String ProtoParsedFlag := do
  ensure (!pf.isFixedReadOnly || value.permission == .readOnly)
    ("failed to set permission of flag " ++ value.name ++
      ", since this flag is fixed read only flag")
  let permission := args.valuePermission value
  let pf ← changePermission args permission { pf with state? := some (.known value.state) }
  pure { pf with trace := pf.trace ++
    [⟨some source, some (.known value.state), some (.known permission)⟩] }

def updateFlag (source : String) (value : ProtoFlagValue) :
    ProtoParsedFlags → Checked String ProtoParsedFlags
  | [] => .ok []
  | pf :: flags =>
      if pf.package == value.package && pf.name == value.name then do
        let pf ← applyValue args source value pf
        pure (pf :: flags)
      else do
        let flags ← updateFlag source value flags
        pure (pf :: flags)

def setValue (source : String) (flags : ProtoParsedFlags) (value : ProtoFlagValue) :
    Checked String ProtoParsedFlags := do
  addContext ("failed to parse " ++ source) value.verifyFields
  updateFlag args source value flags

def readValues (input : Input) : Checked String (List ProtoFlagValue) := do
  let contents ← withContext ("failed to read " ++ input.source) input.contents
  let values ← withContext ("failed to parse " ++ input.source)
    (args.textFormat.flagValues contents)
  addContext ("failed to parse " ++ input.source) (values.forM ProtoFlagValue.verifyFields)
  pure values

def setValues (flags : ProtoParsedFlags) (input : Input) : Checked String ProtoParsedFlags := do
  let values ← readValues args input
  values.foldlM (setValue args input.source) flags

/-- The check of `allow_read_write`. -/
def checkReadWrite (flags : ProtoParsedFlags) : Checked String Unit :=
  if args.options.allowReadWrite then .ok ()
  else
    match flags.find? (fun pf => pf.permission == .readWrite) with
    | some pf => .error (.err ("flag " ++ pf.name ++
        " has permission READ_WRITE, but allow_read_write is false"))
    | none => .ok ()

/-- `parse_flags`, with the namespaces of the configuration, up to the serialization. -/
def parseFlags (declarations values : List Input) : Checked String ProtoParsedFlags := do
  let flags ← declarations.foldlM (declareFile args) []
  let flags ← values.foldlM (setValues args) flags
  checkReadWrite args flags
  let flags := KeySort.sortByKey ProtoParsedFlag.fullyQualifiedName flags
  verifyParsedFlags flags
  pure flags

end Parse

section Results

variable (args : ParseArgs)

def ParseArgs.storageFor (d : ProtoFlagDeclaration) (permission : FlagPermission) :
    StorageBackend :=
  if permission = .readOnly then .none
  else if (args.beta.bind (fun beta => beta.namespaces d.flagNamespace)).any
    (fun setting => setting.container == args.container) then .deviceConfig
  else .aconfigd

def ParseArgs.valuesFor (values : List (String × ProtoFlagValue)) (d : ProtoFlagDeclaration) :
    List (String × ProtoFlagValue) :=
  values.filter (fun v => v.2.package == args.package && v.2.name == d.name)

/-- The state that the values give to a flag: the one of the last value. -/
def ParseArgs.finalState (values : List (String × ProtoFlagValue)) (d : ProtoFlagDeclaration) :
    FlagState :=
  ((args.valuesFor values d).getLast?.map (fun v => v.2.state)).getD .disabled

def ParseArgs.finalPermission (values : List (String × ProtoFlagValue))
    (d : ProtoFlagDeclaration) : FlagPermission :=
  if d.isFixedReadOnly || args.options.forceReadOnly then .readOnly
  else ((args.valuesFor values d).getLast?.map (fun v => v.2.permission)).getD
    args.options.defaultPermission

def ParseArgs.finalFlag (values : List (String × ProtoFlagValue)) (source : String)
    (d : ProtoFlagDeclaration) : ProtoParsedFlag where
  package? := some args.package
  name? := some d.name; namespace? := some d.flagNamespace
  description? := some d.description
  bug := d.bug
  state? := some (.known (args.finalState values d))
  permission? := some (.known (args.finalPermission values d))
  trace := ⟨some source, some (.known .disabled), some (.known (args.declaredPermission d))⟩ ::
    (args.valuesFor values d).map (fun v =>
      ⟨some v.1, some (.known v.2.state), some (.known (args.valuePermission v.2))⟩)
  isFixedReadOnly? := some d.isFixedReadOnly
  isExported? := some d.isExported
  container? := some args.container
  metadata? := some ⟨some (.known (purposeOf d.metadata?)),
    some (.known (args.storageFor d (args.finalPermission values d)))⟩

def ParseArgs.declarationsOf (input : Input) : List (String × ProtoFlagDeclaration) :=
  match readDeclarations args input with
  | .ok pdf => pdf.flag.map (fun d => (input.source, d))
  | .error _ => []

def ParseArgs.valuesOf (input : Input) : List (String × ProtoFlagValue) :=
  match readValues args input with
  | .ok values => values.map (fun v => (input.source, v))
  | .error _ => []

end Results

section Panics

variable (args : ParseArgs)

/-- An exported flag of a platform container, in a namespace for another container. -/
def ParseArgs.PanicsOn (d : ProtoFlagDeclaration) : Prop :=
  ∃ beta setting, args.beta = some beta ∧ beta.namespaces d.flagNamespace = some setting ∧
    setting.container ≠ args.container ∧ args.container ∈ platformContainers ∧
    d.isExported = true

/-- A declaration is accepted behind others of these names. -/
def ParseArgs.Accepted (names : List String) (source : String) (d : ProtoFlagDeclaration) : Prop :=
  verifyMainlineBetaNamespaceFlag args.beta (args.finalFlag [] source d) = .ok () ∧
    (args.finalFlag [] source d).verifyFields = .ok () ∧ d.name ∉ names

/-- All declarations of a file are accepted. -/
def ParseArgs.AllAccepted (source : String) :
    List String → List ProtoFlagDeclaration → Prop
  | _, [] => True
  | names, d :: ds => args.Accepted names source d ∧ AllAccepted source (names ++ [d.name]) ds

/-- No declaration of a file panics, up to the first that is not accepted. -/
def ParseArgs.NonePanics (source : String) :
    List String → List ProtoFlagDeclaration → Prop
  | _, [] => True
  | names, d :: ds =>
      ¬ args.PanicsOn d ∧
        (args.Accepted names source d → NonePanics source (names ++ [d.name]) ds)

/-- No declaration panics, up to the first file or declaration that is not accepted. -/
def ParseArgs.NoFilePanics : List String → List Input → Prop
  | _, [] => True
  | names, input :: inputs =>
      ∀ pdf, readDeclarations args input = .ok pdf →
        args.NonePanics input.source names pdf.flag ∧
          (args.AllAccepted input.source names pdf.flag →
            NoFilePanics (names ++ pdf.flag.map (fun d => d.name)) inputs)

end Panics

end Aconfig
end AndroidBuild
