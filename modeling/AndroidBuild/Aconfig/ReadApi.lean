import AndroidBuild.Aconfig.StorageFile
import AndroidBuild.Lib.Chain

/-!
# Reading single flags

The queries of `aconfig_storage_read_api` on the bytes of a mapped file.  The
table queries take the bucket of the key and follow the next offsets from
there; the loop is given a bound on the number of nodes that it reads.
-/

namespace AndroidBuild
namespace Aconfig

def maxSupportedFileVersion : UInt32 := 3

def checkVersion (version : UInt32) : Storage Unit :=
  if maxSupportedFileVersion < version then
    fail (.higherStorageFileVersion
      ("Cannot read storage file with a higher version of " ++ toString version.toNat ++
        " with lib version " ++ toString maxSupportedFileVersion.toNat))
  else .ok ()

section Tables

/-- The part of the table queries before the loop: the header and the offset of the first node, or
none when the bucket is empty. -/
def findBucket (header : List UInt8 → Storage TableHeader) (bucketIndex : Nat → Nat)
    (buf : List UInt8) : Storage (Option (TableHeader × UInt32)) := do
  let h ← header buf
  checkVersion h.version
  let bucketBytes ← Checked.sub h.nodeOffset h.bucketOffset
  let numBuckets := bucketBytes.toNat / 4
  if numBuckets = 0 then .error .panic
  let index := UInt32.ofNat (bucketIndex numBuckets)
  let bucket ← Checked.mul 4 index
  let pos ← Checked.add h.bucketOffset bucket
  let (offset, _) ← readU32 buf pos.toNat
  if offset < h.nodeOffset ∨ h.fileSize ≤ offset then pure none
  else pure (some (h, offset))

def visitNode {ν γ : Type} (fromBytes : List UInt8 → Storage ν) (found : ν → Option γ)
    (next : ν → Option UInt32) (buf : List UInt8) (offset : UInt32) :
    UInt32 ⊕ Storage (Option γ) :=
  if buf.length < offset.toNat then .inr (.error .panic)
  else
    match fromBytes (buf.drop offset.toNat) with
    | .error e => .inr (.error e)
    | .ok node =>
        match found node with
        | some context => .inr (.ok (some context))
        | none =>
            match next node with
            | some offset => .inl offset
            | none => .inr (.ok none)

/-- A table query, for at most `fuel` nodes. -/
def findNode {γ : Type} (bucket : Storage (Option (TableHeader × UInt32)))
    (visit : UInt32 → UInt32 → UInt32 ⊕ Storage (Option γ)) (fuel : Nat) :
    Option (Storage (Option γ)) :=
  match bucket with
  | .error e => some (.error e)
  | .ok none => some (.ok none)
  | .ok (some (h, offset)) => Chain.follow (visit h.version) fuel offset

structure PackageReadContext where
  packageId : UInt32
  booleanStartIndex : UInt32
  fingerprint : BitVec 64
  deriving DecidableEq, Repr

def findPackageBucket (buf : List UInt8) (package : String) :
    Storage (Option (TableHeader × UInt32)) :=
  findBucket packageTableHeaderFromBytes (PackageTableNode.findBucketIndex package) buf

/-- One round of `find_package_read_context`. -/
def visitPackageNode (buf : List UInt8) (package : String) (version : UInt32) :
    UInt32 → UInt32 ⊕ Storage (Option PackageReadContext) :=
  visitNode (PackageTableNode.fromBytes version)
    (fun node => if node.packageName = package then
      some ⟨node.packageId, node.booleanStartIndex, node.fingerprint⟩ else none)
    (fun node => node.nextOffset) buf

def findPackageReadContext (buf : List UInt8) (package : String) :
    Nat → Option (Storage (Option PackageReadContext)) :=
  findNode (findPackageBucket buf package) (visitPackageNode buf package)

structure FlagReadContext where
  flagType : StoredFlagType
  flagIndex : UInt16
  deriving DecidableEq, Repr

def findFlagBucket (buf : List UInt8) (packageId : UInt32) (flag : String) :
    Storage (Option (TableHeader × UInt32)) :=
  findBucket flagTableHeaderFromBytes (FlagTableNode.findBucketIndex packageId flag) buf

/-- One round of `find_flag_read_context`. -/
def visitFlagNode (buf : List UInt8) (packageId : UInt32) (flag : String) :
    UInt32 → UInt32 ⊕ Storage (Option FlagReadContext) :=
  visitNode FlagTableNode.fromBytes
    (fun node => if node.packageId = packageId ∧ node.flagName = flag then
      some ⟨node.flagType, node.flagIndex⟩ else none)
    (fun node => node.nextOffset) buf

def findFlagReadContext (buf : List UInt8) (packageId : UInt32) (flag : String) :
    Nat → Option (Storage (Option FlagReadContext)) :=
  findNode (findFlagBucket buf packageId flag) (fun _ => visitFlagNode buf packageId flag)

end Tables

section Lists

def findByte (header : List UInt8 → Storage ListHeader) (message : String) (buf : List UInt8)
    (flagIndex : UInt32) : Storage UInt8 := do
  let h ← header buf
  checkVersion h.version
  let head ← Checked.add h.booleanOffset flagIndex
  if h.fileSize ≤ head then fail (.invalidStorageFileOffset message)
  let (val, _) ← readU8 buf head.toNat
  pure val

def findBooleanFlagValue (buf : List UInt8) (flagIndex : UInt32) : Storage Bool := do
  let val ← findByte flagValueHeaderFromBytes "Flag value offset goes beyond the end of the file."
    buf flagIndex
  pure (val == 1)

/-- `find_flag_attribute`; `Boolean` is the only flag value type. -/
def findFlagAttribute (buf : List UInt8) (flagIndex : UInt32) : Storage UInt8 :=
  findByte flagInfoHeaderFromBytes "Flag info offset goes beyond the end of the file." buf flagIndex

end Lists

end Aconfig
end AndroidBuild
