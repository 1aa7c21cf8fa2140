import AndroidBuild.Aconfig.StorageFile
import AndroidBuild.Lib.Loop

/-!
# Flags, code generation and storage

A cache holds the parsed flags of one or more packages.  The generated
library and the storage files number the flags of a package separately, and
both carry a fingerprint of the names.
-/

namespace AndroidBuild
namespace Aconfig

inductive FlagState where
  | enabled
  | disabled
  deriving DecidableEq, Repr

inductive FlagPermission where
  | readOnly
  | readWrite
  deriving DecidableEq, Repr

inductive StorageBackend where
  | unspecified
  | aconfigd
  | deviceConfig
  | none
  deriving DecidableEq, Repr

/-- `ProtoParsedFlag`, without the fields that are only described. -/
structure ParsedFlag where
  package : String
  name : String
  container : Option String
  state : FlagState
  permission : FlagPermission
  isFixedReadOnly : Bool
  isExported : Bool
  metadata : Option StorageBackend
  deriving DecidableEq, Repr

inductive CodegenMode where
  | exported
  | forceReadOnly
  | production
  | test
  deriving DecidableEq, Repr

inductive AconfigError where
  | badPackage (package : String)
  | badContainer
  | badName (name : String)
  | fixedReadOnlyPermission
  | storageNotNone
  | storageUnspecified
  | duplicateFlag (key : String)
  | notSorted (a b : String)
  | missingMetadata
  /-- `library contains no flags` -/
  | noFlags (mode : CodegenMode)
  /-- `no parsed flags, or the parsed flags use different packages` -/
  | noUniquePackage
  /-- the assertion of `assign_flag_ids` fails -/
  | namesNotSorted
  | notInPackage
  | tooManyFlags
  | missingFlagId (name : String)
  /-- an error of the storage library -/
  | storage (e : AconfigStorageError)
  deriving DecidableEq, Repr

section Verify

/-- The body of `is_valid_name_ident`. -/
def isValidIdentChars (s : List Char) : Bool :=
  !decide (['_', '_'] <:+: s) &&
    match s with
    | [] => false
    | first :: chars =>
        first.isLower && chars.all (fun ch => ch.isLower || ch.isDigit || ch == '_')

def isValidNameIdent (s : String) : Bool :=
  isValidIdentChars s.toList

def isValidPackageIdent (s : String) : Bool :=
  s.toList.contains '.' && (s.toList.splitOn '.').all isValidIdentChars

/-- `to_lowercase`; outside ASCII only the Kelvin sign has an ASCII lower case. -/
def toLowercase (c : Char) : Char :=
  if c.val = 0x212A then 'k' else c.toLower

def isValidContainerIdent (s : String) : Bool :=
  (s.toList.splitOn '.').all (fun part => isValidIdentChars (part.map toLowercase))

/-- `parsed_flag::verify_fields`. -/
def verifyFlag (pf : ParsedFlag) : Except AconfigError Unit :=
  if !isValidPackageIdent pf.package then .error (.badPackage pf.package)
  else if pf.container.any (fun c => !isValidContainerIdent c) then .error .badContainer
  else if !isValidNameIdent pf.name then .error (.badName pf.name)
  else if pf.isFixedReadOnly && pf.permission ≠ .readOnly then .error .fixedReadOnlyPermission
  else
    match pf.permission with
    | .readOnly =>
        if pf.metadata.getD .unspecified ≠ .none then .error .storageNotNone else .ok ()
    | .readWrite =>
        if pf.metadata.getD .unspecified = .unspecified then .error .storageUnspecified else .ok ()

def ParsedFlag.fullyQualifiedName (pf : ParsedFlag) : String :=
  pf.package ++ "." ++ pf.name

/-- One round of `parsed_flags::verify_fields`. -/
def verifyNext (previous : Option ParsedFlag) (pf : ParsedFlag) :
    Except AconfigError (Option ParsedFlag) := do
  match previous with
  | some prev =>
      let a := prev.fullyQualifiedName
      let b := pf.fullyQualifiedName
      if a = b then .error (.duplicateFlag a)
      else if b < a then .error (.notSorted a b)
  | none => pure ()
  verifyFlag pf
  pure (some pf)

/-- `parsed_flags::verify_fields`. -/
def verifyFields (flags : List ParsedFlag) : Except AconfigError Unit := do
  let _ ← flags.foldlM verifyNext none
  pure ()

end Verify

section Codegen

def platformContainers : List String :=
  ["system", "system_ext", "product", "vendor"]

def shouldIncludeFlag (pf : ParsedFlag) : Bool :=
  let isPlatformContainer := platformContainers.contains (pf.container.getD "")
  let isDisabledRo := pf.state = .disabled ∧ pf.permission = .readOnly
  !(isPlatformContainer && isDisabledRo)

/-- The modifiers of `modify_parsed_flags_based_on_mode`. -/
def modifyFlag (mode : CodegenMode) (pf : ParsedFlag) : Except AconfigError ParsedFlag :=
  match mode with
  | .exported =>
      if pf.metadata = none then .error .missingMetadata
      else .ok { pf with state := .disabled, permission := .readWrite, isFixedReadOnly := false,
                         metadata := some .aconfigd }
  | .forceReadOnly =>
      if pf.metadata = none then .error .missingMetadata
      else .ok { pf with permission := .readOnly, metadata := some .none }
  | .production => .ok pf
  | .test => .ok pf

def modifyParsedFlagsBasedOnMode (flags : List ParsedFlag) (mode : CodegenMode) :
    Except AconfigError (List ParsedFlag) := do
  let chosen := match mode with
    | .exported => flags.filter (fun pf : ParsedFlag => pf.isExported)
    | .forceReadOnly => flags.filter (fun pf : ParsedFlag => !pf.isExported)
    | .production => flags
    | .test => flags
  let modified ← chosen.mapM (modifyFlag mode)
  if modified.isEmpty then .error (.noFlags mode) else pure modified

def findUniquePackage (flags : List ParsedFlag) : Option String :=
  match flags with
  | [] => none
  | first :: _ => if flags.any (fun pf => pf.package ≠ first.package) then none
      else some first.package

/-- One round of `assign_flag_ids`. -/
def assignFlagId (package : String) (s : (String → Option UInt16) × Nat) (pf : ParsedFlag) :
    Except AconfigError ((String → Option UInt16) × Nat) :=
  if package ≠ pf.package then .error .notInPackage
  else if 65535 ≤ s.2 then .error .tooManyFlags
  else if shouldIncludeFlag pf then
    .ok (Function.update s.1 pf.name (some (UInt16.ofNat s.2)), s.2 + 1)
  else .ok s

def assignFlagIds (package : String) (flags : List ParsedFlag) :
    Except AconfigError (String → Option UInt16) := do
  if ¬ flags.IsChain (fun a b => ¬ b.name < a.name) then .error .namesNotSorted
  let (ids, _) ← flags.foldlM (assignFlagId package) (fun _ => none, 0)
  pure ids

/-- `sort`, for strings. -/
def sortNames (names : List String) : List String :=
  names.insertionSort (fun a b => ¬ b < a)

def computeFlagsFingerprint (names : List String) : BitVec 64 :=
  ((sortNames names).foldl (fun h name => h.write (bytesOf name)) SipHasher13.new).finish

def extractFlagNames (flags : List ParsedFlag) : Except AconfigError (List String) :=
  match findUniquePackage flags with
  | none => .error .noUniquePackage
  | some _ => .ok ((flags.filter shouldIncludeFlag).map (fun pf => pf.name))

/-- What the generated library knows of the flags. -/
structure CodegenConfig where
  package : String
  packageFingerprint : BitVec 64
  flagIds : String → Option UInt16

/-- `create_java_lib`, up to the generation of the files. -/
def createJavaLib (flags : List ParsedFlag) (mode : CodegenMode) :
    Except AconfigError CodegenConfig := do
  verifyFields flags
  let modified ← modifyParsedFlagsBasedOnMode flags mode
  match findUniquePackage modified with
  | none => .error .noUniquePackage
  | some package =>
      let names ← extractFlagNames flags
      let ids ← assignFlagIds package modified
      pure ⟨package, computeFlagsFingerprint names, ids⟩

end Codegen

section Storage

structure FlagPackage where
  packageName : String
  packageId : UInt32
  fingerprint : BitVec 64
  redactExportedReads : Bool
  flagNames : List String
  booleanFlags : List ParsedFlag
  booleanStartIndex : UInt32

/-- `FlagPackage::new`. -/
def FlagPackage.new (packageName : String) (packageId : UInt32) : FlagPackage :=
  ⟨packageName, packageId, 0, false, [], [], 0⟩

/-- `FlagPackage::insert`. -/
def FlagPackage.insert (p : FlagPackage) (pf : ParsedFlag) : FlagPackage :=
  if pf.name ∈ p.flagNames then p
  else { p with flagNames := p.flagNames ++ [pf.name], booleanFlags := p.booleanFlags ++ [pf] }

/-- One flag of the first loop of `group_flags_by_package`. -/
def insertFlag (packages : List FlagPackage) (pf : ParsedFlag) : List FlagPackage :=
  if !shouldIncludeFlag pf then packages
  else if packages.any (fun p => p.packageName = pf.package) then
    packages.map (fun p => if p.packageName = pf.package then p.insert pf else p)
  else packages ++ [(FlagPackage.new pf.package (UInt32.ofNat packages.length)).insert pf]

/-- One package of the second loop: the start index and the fingerprint. -/
def completePackage (version : UInt32) (redactExportedReads : Bool) (p : FlagPackage)
    (booleanStartIndex : UInt32) : FlagPackage :=
  { p with
    booleanStartIndex := booleanStartIndex
    fingerprint := if 2 ≤ version then computeFlagsFingerprint p.flagNames else p.fingerprint
    redactExportedReads := if 3 ≤ version then redactExportedReads else p.redactExportedReads }

/-- The second loop of `group_flags_by_package`. -/
def completePackages (version : UInt32) (redactExportedReads : Bool) :
    UInt32 → List FlagPackage → Checked AconfigError (List FlagPackage)
  | _, [] => pure []
  | start, p :: packages => do
      let next ← Checked.add start (UInt32.ofNat p.booleanFlags.length)
      let completed ← completePackages version redactExportedReads next packages
      pure (completePackage version redactExportedReads p start :: completed)

/-- `group_flags_by_package`; the flag is the feature `default_exported_reads_to_disabled`. -/
def groupFlagsByPackage (caches : List (List ParsedFlag)) (version : UInt32)
    (redactExportedReads : Bool) : Checked AconfigError (List FlagPackage) :=
  completePackages version redactExportedReads 0 (caches.flatten.foldl insertFlag [])

def createNode (packageId numBuckets : UInt32) (ids : String → Option UInt16) (pf : ParsedFlag) :
    Except AconfigError (FlagTableNode × Nat) :=
  match ids pf.name with
  | none => .error (.missingFlagId pf.name)
  | some fid =>
      let flagType := if pf.isFixedReadOnly then StoredFlagType.fixedReadOnlyBoolean
        else match pf.permission with
          | .readWrite => .readWriteBoolean
          | .readOnly => .readOnlyBoolean
      .ok (⟨packageId, pf.name, flagType, fid, none⟩,
        FlagTableNode.findBucketIndex packageId pf.name numBuckets.toNat)

/-- `FlagTableNodeWrapper::create_nodes`. -/
def createNodes (package : FlagPackage) (numBuckets : UInt32) :
    Except AconfigError (List (FlagTableNode × Nat)) := do
  let flags := package.booleanFlags.filter shouldIncludeFlag
  let ids ← assignFlagIds package.packageName flags
  flags.mapM (createNode package.packageId numBuckets ids)

end Storage

end Aconfig
end AndroidBuild
