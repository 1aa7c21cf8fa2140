import AndroidBuild.Aconfig.Flags

/-!
# The messages of `aconfig_protos`

The messages have optional fields, and the getters fill in defaults.  Each
message has a `verify_fields`; those of single flags check that the fields
which identify a flag are there and well formed.
-/

namespace AndroidBuild
namespace Aconfig

section Messages

/-- `EnumOrUnknown`: the number of an enumerator, which need not be a known one. -/
inductive EnumOrUnknown (ε : Type) where
  | known (e : ε)
  | unknown (value : Int)
  deriving DecidableEq, Repr

def enumOr {ε : Type} (e : ε) : Option (EnumOrUnknown ε) → ε
  | some (.known v) => v
  | some (.unknown _) => e
  | none => e

inductive FlagPurpose where
  | unspecified
  | feature
  | bugfix
  deriving DecidableEq, Repr

structure ProtoFlagMetadata where
  purpose? : Option (EnumOrUnknown FlagPurpose)
  storage? : Option (EnumOrUnknown StorageBackend)
  deriving DecidableEq, Repr

structure ProtoTracepoint where
  source? : Option String
  state? : Option (EnumOrUnknown FlagState)
  permission? : Option (EnumOrUnknown FlagPermission)
  deriving DecidableEq, Repr

structure ProtoParsedFlag where
  package? : Option String
  (name? namespace? : Option String)
  description? : Option String
  bug : List String
  state? : Option (EnumOrUnknown FlagState)
  permission? : Option (EnumOrUnknown FlagPermission)
  trace : List ProtoTracepoint
  isFixedReadOnly? : Option Bool
  isExported? : Option Bool
  container? : Option String
  metadata? : Option ProtoFlagMetadata
  deriving DecidableEq, Repr

/-- `ProtoParsedFlags` has the one field `parsed_flag`. -/
abbrev ProtoParsedFlags :=
  List ProtoParsedFlag

structure ProtoFlagDeclaration where
  (name? namespace? : Option String)
  description? : Option String
  bug : List String
  isFixedReadOnly? : Option Bool
  isExported? : Option Bool
  metadata? : Option ProtoFlagMetadata
  deriving DecidableEq, Repr

structure ProtoFlagDeclarations where
  package? : Option String
  flag : List ProtoFlagDeclaration
  container? : Option String
  deriving DecidableEq, Repr

structure ProtoFlagValue where
  package? : Option String
  name? : Option String
  state? : Option (EnumOrUnknown FlagState)
  permission? : Option (EnumOrUnknown FlagPermission)
  deriving DecidableEq, Repr

end Messages

section Getters

/-- `metadata.purpose()`. -/
def purposeOf (metadata : Option ProtoFlagMetadata) : FlagPurpose :=
  enumOr .unspecified (metadata.bind (fun m => m.purpose?))

/-- `metadata.storage()`. -/
def storageOf (metadata : Option ProtoFlagMetadata) : StorageBackend :=
  enumOr .unspecified (metadata.bind (fun m => m.storage?))

namespace ProtoTracepoint

variable (tp : ProtoTracepoint)

def source : String :=
  tp.source?.getD ""

def state : FlagState :=
  enumOr .enabled tp.state?

def permission : FlagPermission :=
  enumOr .readOnly tp.permission?

end ProtoTracepoint

namespace ProtoParsedFlag

variable (pf : ProtoParsedFlag)

def package : String :=
  pf.package?.getD ""

def name : String :=
  pf.name?.getD ""

/-- `namespace()`. -/
def flagNamespace : String :=
  pf.namespace?.getD ""

def description : String :=
  pf.description?.getD ""

def state : FlagState :=
  enumOr .enabled pf.state?

def permission : FlagPermission :=
  enumOr .readOnly pf.permission?

def isFixedReadOnly : Bool :=
  pf.isFixedReadOnly?.getD false

def isExported : Bool :=
  pf.isExported?.getD false

def container : String :=
  pf.container?.getD ""

def storage : StorageBackend :=
  storageOf pf.metadata?

/-- `fully_qualified_name`, which is also `create_sorting_key`. -/
def fullyQualifiedName : String :=
  pf.package ++ "." ++ pf.name

end ProtoParsedFlag

namespace ProtoFlagDeclaration

variable (pdf : ProtoFlagDeclaration)

def name : String :=
  pdf.name?.getD ""

/-- `namespace()`. -/
def flagNamespace : String :=
  pdf.namespace?.getD ""

def description : String :=
  pdf.description?.getD ""

def isFixedReadOnly : Bool :=
  pdf.isFixedReadOnly?.getD false

def isExported : Bool :=
  pdf.isExported?.getD false

end ProtoFlagDeclaration

namespace ProtoFlagDeclarations

variable (pdf : ProtoFlagDeclarations)

def package : String :=
  pdf.package?.getD ""

def container : String :=
  pdf.container?.getD ""

end ProtoFlagDeclarations

namespace ProtoFlagValue

variable (fv : ProtoFlagValue)

def package : String :=
  fv.package?.getD ""

def name : String :=
  fv.name?.getD ""

def state : FlagState :=
  enumOr .enabled fv.state?

def permission : FlagPermission :=
  enumOr .readOnly fv.permission?

end ProtoFlagValue

end Getters

section Verify

def ensure (condition : Bool) (message : String) : Checked String Unit :=
  if condition then .ok () else .error (.err message)

def ensureRequiredFields (type : String) (fields : List (String × Bool)) : Checked String Unit :=
  fields.forM (fun field => ensure field.2 ("bad " ++ type ++ ": missing " ++ field.1))

def aconfigProtoPath : String :=
  "//build/make/tools/aconfig/aconfig_protos/protos/aconfig.proto"

def badPackage (type package : String) : String :=
  "bad " ++ type ++ ": bad package " ++ package ++
    " expected snake_case strings delimited by dots; see " ++ aconfigProtoPath ++ " for details"

def badIdent (type field ident : String) : String :=
  "bad " ++ type ++ ": bad " ++ field ++ " " ++ ident ++ " expected snake_case string; see " ++
    aconfigProtoPath ++ " for details"

/-- `flag_declaration::verify_fields`. -/
def ProtoFlagDeclaration.verifyFields (pdf : ProtoFlagDeclaration) : Checked String Unit := do
  ensureRequiredFields "flag declaration" [("name", pdf.name?.isSome),
    ("namespace", pdf.namespace?.isSome), ("description", pdf.description?.isSome)]
  ensure (isValidNameIdent pdf.name) (badIdent "flag declaration" "name" pdf.name)
  ensure (isValidNameIdent pdf.flagNamespace)
    (badIdent "flag declaration" "namespace" pdf.flagNamespace)
  ensure (!pdf.description.isEmpty) "bad flag declaration: empty description"
  ensure (pdf.bug.length == 1) "bad flag declaration: exactly one bug required"
  ensure (!(pdf.metadata?.bind (fun m => m.storage?)).isSome)
    "bad flag declaration: storage in metadata should not be explicitly selected"

/-- `flag_declarations::verify_fields`. -/
def ProtoFlagDeclarations.verifyFields (pdf : ProtoFlagDeclarations) : Checked String Unit := do
  ensureRequiredFields "flag declarations" [("package", pdf.package?.isSome)]
  ensure (isValidPackageIdent pdf.package) (badPackage "flag declarations" pdf.package)
  ensure (!pdf.container?.isSome || isValidContainerIdent pdf.container)
    "bad flag declarations: bad container"
  pdf.flag.forM ProtoFlagDeclaration.verifyFields

/-- `flag_value::verify_fields`. -/
def ProtoFlagValue.verifyFields (fv : ProtoFlagValue) : Checked String Unit := do
  ensureRequiredFields "flag value" [("package", fv.package?.isSome), ("name", fv.name?.isSome),
    ("state", fv.state?.isSome), ("permission", fv.permission?.isSome)]
  ensure (isValidPackageIdent fv.package) (badPackage "flag value" fv.package)
  ensure (isValidNameIdent fv.name) (badIdent "flag value" "name" fv.name)

/-- `tracepoint::verify_fields`. -/
def ProtoTracepoint.verifyFields (tp : ProtoTracepoint) : Checked String Unit := do
  ensureRequiredFields "tracepoint" [("source", tp.source?.isSome), ("state", tp.state?.isSome),
    ("permission", tp.permission?.isSome)]
  ensure (!tp.source.isEmpty) "bad tracepoint: empty source"

def ProtoParsedFlag.verifyFixedReadOnly (pf : ProtoParsedFlag) : Checked String Unit :=
  if pf.isFixedReadOnly then do
    ensure (pf.permission == .readOnly)
      "bad parsed flag: flag is is_fixed_read_only but permission is not READ_ONLY"
    pf.trace.forM (fun tp => ensure (tp.permission == .readOnly)
      "bad parsed flag: flag is is_fixed_read_only but a tracepoint's permission is not READ_ONLY")
  else .ok ()

def ProtoParsedFlag.verifyStorage (pf : ProtoParsedFlag) : Checked String Unit :=
  match pf.permission with
  | .readOnly =>
      ensure (pf.storage == .none)
        "bad parsed flag: storage backend is not NONE for a read only flag"
  | .readWrite =>
      ensure (pf.storage != .unspecified) "bad parsed flag: storage backend cannot be UNSPECIFIED"

/-- `parsed_flag::verify_fields`. -/
def ProtoParsedFlag.verifyFields (pf : ProtoParsedFlag) : Checked String Unit := do
  ensureRequiredFields "parsed flag" [("package", pf.package?.isSome), ("name", pf.name?.isSome),
    ("namespace", pf.namespace?.isSome), ("description", pf.description?.isSome),
    ("state", pf.state?.isSome), ("permission", pf.permission?.isSome)]
  ensure (isValidPackageIdent pf.package) (badPackage "parsed flag" pf.package)
  ensure (!pf.container?.isSome || isValidContainerIdent pf.container)
    "bad parsed flag: bad container"
  ensure (isValidNameIdent pf.name) (badIdent "parsed flag" "name" pf.name)
  ensure (isValidNameIdent pf.flagNamespace) (badIdent "parsed flag" "namespace" pf.flagNamespace)
  ensure (!pf.description.isEmpty) "bad parsed flag: empty description"
  ensure (!pf.trace.isEmpty) "bad parsed flag: empty trace"
  pf.trace.forM ProtoTracepoint.verifyFields
  ensure (pf.bug.length == 1) "bad flag declaration: exactly one bug required"
  pf.verifyFixedReadOnly
  pf.verifyStorage

def ProtoParsedFlag.pathToDeclaration (pf : ProtoParsedFlag) : Checked String String :=
  match pf.trace with
  | [] => .error .panic
  | tp :: _ => .ok tp.source

/-- The comparison of two neighbours in `parsed_flags::verify_fields`. -/
def verifyNeighbours (previous : Option ProtoParsedFlag) (parsedFlag : ProtoParsedFlag) :
    Checked String Unit :=
  match previous with
  | none => .ok ()
  | some prev => do
      let a := prev.fullyQualifiedName
      let b := parsedFlag.fullyQualifiedName
      if a < b then .ok ()
      else if a = b then do
        let path ← prev.pathToDeclaration
        let path' ← parsedFlag.pathToDeclaration
        .error (.err ("bad parsed flags: duplicate flag " ++ a ++ " (defined in " ++ path ++
          " and " ++ path' ++ ")"))
      else .error (.err ("bad parsed flags: not sorted: " ++ a ++ " comes before " ++ b))

/-- One round of `parsed_flags::verify_fields`. -/
def verifyParsedFlag (previous : Option ProtoParsedFlag) (parsedFlag : ProtoParsedFlag) :
    Checked String (Option ProtoParsedFlag) := do
  verifyNeighbours previous parsedFlag
  parsedFlag.verifyFields
  pure (some parsedFlag)

/-- `parsed_flags::verify_fields`. -/
def verifyParsedFlags (pf : ProtoParsedFlags) : Checked String Unit := do
  let _ ← pf.foldlM verifyParsedFlag none
  pure ()

end Verify

end Aconfig
end AndroidBuild
