import AndroidBuild.Aconfig.StorageFile
import AndroidBuild.Lib.Chain

/-!
# The Java readers of the storage files

`android.aconfig.storage` reads the tables from a `ByteBuffer`.  Numbers are
signed, and a read beyond the buffer throws.  A string of Java is the list of
its UTF-16 code units; what a decoder makes of bytes that are not UTF-8 is a
parameter.
-/

namespace AndroidBuild
namespace Aconfig
namespace Java

inductive Exception where
  /-- `IndexOutOfBoundsException` -/
  | indexOutOfBounds
  /-- `NegativeArraySizeException` -/
  | negativeArraySize
  /-- `ArithmeticException` -/
  | arithmetic
  /-- `AconfigStorageException` -/
  | aconfigStorage (message : String)
  deriving DecidableEq, Repr

section Strings

/-- A string, as its UTF-16 code units. -/
abbrev JString :=
  List UInt16

def unitsOfChar (c : Char) : JString :=
  if c.toNat < 0x10000 then [UInt16.ofNat c.toNat]
  else [UInt16.ofNat (0xD800 + (c.toNat - 0x10000) / 0x400),
    UInt16.ofNat (0xDC00 + (c.toNat - 0x10000) % 0x400)]

def ofString (s : String) : JString :=
  s.toList.flatMap unitsOfChar

/-- `new String(bytes, UTF_8)`; `malformed` decodes bytes that are not UTF-8. -/
def newString (malformed : List UInt8 → JString) (l : List UInt8) : JString :=
  match String.fromUTF8? ⟨l.toArray⟩ with
  | some s => ofString s
  | none => malformed l

def isHighSurrogate (u : UInt16) : Bool :=
  decide (0xD800 ≤ u.toNat ∧ u.toNat < 0xDC00)

def isLowSurrogate (u : UInt16) : Bool :=
  decide (0xDC00 ≤ u.toNat ∧ u.toNat < 0xE000)

/-- `getBytes(UTF_8)`; a surrogate without its partner becomes `?`. -/
def getBytes : JString → List UInt8
  | [] => []
  | [u] =>
      if isHighSurrogate u || isLowSurrogate u then [0x3F]
      else String.utf8EncodeChar (Char.ofNat u.toNat)
  | u :: v :: rest =>
      if isHighSurrogate u && isLowSurrogate v then
        String.utf8EncodeChar
          (Char.ofNat (0x10000 + (u.toNat - 0xD800) * 0x400 + (v.toNat - 0xDC00))) ++ getBytes rest
      else if isHighSurrogate u || isLowSurrogate u then 0x3F :: getBytes (v :: rest)
      else String.utf8EncodeChar (Char.ofNat u.toNat) ++ getBytes (v :: rest)

end Strings

section Hash

/-- `SipHasher13.State`, with its keys. -/
def newState (k0 k1 : BitVec 64) : SipState where
  v0 := k0 ^^^ 0x736f6d6570736575
  v1 := k1 ^^^ 0x646f72616e646f6d
  v2 := k0 ^^^ 0x6c7967656e657261
  v3 := k1 ^^^ 0x7465646279746573

/-- `finish`; `cRounds` and the rounds of `dRounds` are those of `compress!`. -/
def finishState (s : SipState) : BitVec 64 :=
  let s := { s with v2 := s.v2 ^^^ 0xff }
  let s := s.dRounds
  s.v0 ^^^ s.v1 ^^^ s.v2 ^^^ s.v3

/-- `SipHasher13.hash`. -/
def hash (data : List UInt8) : BitVec 64 :=
  let len := data.length
  let left := len % 8
  let r := SipHasher13.writeBlocks data (len - left) len 0 (newState 0 0)
  let m := (0xff <<< (left * 8)) ||| loadIntLe data r.1 left
  let s := if left = 7 then (r.2.block m, 0) else (r.2, m)
  let m := s.2 ||| ((BitVec.ofNat 64 (len + 1) &&& 0xff) <<< 56)
  finishState (s.1.block m)

/-- `TableUtils.getBucketIndex`. -/
def getBucketIndex (val : List UInt8) (numBuckets : Int32) : Except Exception Int32 :=
  if numBuckets = 0 then .error .arithmetic
  else .ok (Int32.ofBitVec ((hash val % numBuckets.toBitVec.signExtend 64).setWidth 32))

end Hash

section Reader

/-- A method that reads from a `ByteBufferReader`: the buffer, and the position. -/
abbrev Reader :=
  ReaderT (List UInt8) (StateT Int32 (Except Exception))

/-- The bytes at `nextGetIndex(n)`. -/
def getArray (n : Int32) : Reader (List UInt8) :=
  fun buf position =>
    if position < 0 ∨ n < 0 ∨ (buf.length : Int) < position.toInt + n.toInt then
      .error .indexOutOfBounds
    else .ok (Bytes.slice buf position.toInt.toNat n.toInt.toNat, position + n)

def readByte : Reader Int32 := do
  let l ← getArray 1
  pure (Int32.ofNat (Bytes.toNat l))

def readBoolean : Reader Bool := do
  let b ← readByte
  pure (b == 1)

def readShort : Reader Int32 := do
  let l ← getArray 2
  pure (Int32.ofNat (Bytes.toNat l))

def readInt : Reader Int32 := do
  let l ← getArray 4
  pure (Int32.ofNat (Bytes.toNat l))

def readLong : Reader (BitVec 64) := do
  let l ← getArray 8
  pure (BitVec.ofNat 64 (Bytes.toNat l))

def throwing {α : Type} (e : Exception) : Reader α :=
  fun _ _ => .error e

variable (malformed : List UInt8 → JString)

def readString : Reader JString := do
  let length ← readInt
  if 1024 < length then
    throwing (.aconfigStorage
      ("String length exceeds maximum allowed size (1024 bytes): " ++ toString length.toInt))
  if length < 0 then throwing .negativeArraySize
  let l ← getArray length
  pure (newString malformed l)

end Reader

section Headers

/-- `FileType.fromInt`. -/
def fileTypeFromInt (index : Int32) : Option StorageFileType :=
  if index = 0 then some .packageMap
  else if index = 1 then some .flagMap
  else if index = 2 then some .flagVal
  else if index = 3 then some .flagInfo
  else none

/-- `PackageTable.Header` and `FlagTable.Header`. -/
structure Header where
  version : Int32
  container : JString
  fileType : Option StorageFileType
  fileSize : Int32
  count : Int32
  bucketOffset : Int32
  nodeOffset : Int32
  deriving DecidableEq

variable (malformed : List UInt8 → JString)

/-- `Header.fromBytes`. -/
def Header.fromBytes (type : StorageFileType) (message : String) : Reader Header := do
  let version ← readInt
  let container ← readString malformed
  let b ← readByte
  let fileSize ← readInt
  let count ← readInt
  let bucketOffset ← readInt
  let nodeOffset ← readInt
  if fileTypeFromInt b ≠ some type then throwing (.aconfigStorage message)
  pure ⟨version, container, fileTypeFromInt b, fileSize, count, bucketOffset, nodeOffset⟩

/-- The part of `get` before the loop: the first node, or none when the bucket is empty. -/
def findBucket (h : Header) (key : List UInt8) (buf : List UInt8) :
    Except Exception (Option Int32) := do
  let numBuckets := (h.nodeOffset - h.bucketOffset) / 4
  let bucketIndex ← getBucketIndex key numBuckets
  let newPosition := h.bucketOffset + bucketIndex * 4
  if h.nodeOffset ≤ newPosition then pure none
  else
    let (nodeIndex, _) ← readInt buf newPosition
    if nodeIndex < h.nodeOffset ∨ h.fileSize ≤ nodeIndex then pure none
    else pure (some nodeIndex)

/-- One round of the loop of `get`. -/
def visitNode {ν : Type} (fromBytes : Reader ν) (matches' : ν → Bool) (next : ν → Int32)
    (buf : List UInt8) (nodeIndex : Int32) : Int32 ⊕ Except Exception (Option ν) :=
  if nodeIndex = -1 then .inr (.ok none)
  else
    match fromBytes buf nodeIndex with
    | .error e => .inr (.error e)
    | .ok (node, _) =>
        if matches' node then .inr (.ok (some node)) else .inl (next node)

/-- `get`, for at most `fuel` rounds of the loop. -/
def findNode {ν : Type} (bucket : Except Exception (Option Int32))
    (visit : Int32 → Int32 ⊕ Except Exception (Option ν)) (fuel : Nat) :
    Option (Except Exception (Option ν)) :=
  match bucket with
  | .error e => some (.error e)
  | .ok none => some (.ok none)
  | .ok (some nodeIndex) => Chain.follow visit fuel nodeIndex

/-- The end of a chain is `-1`. -/
def nextOffset (val : Int32) : Int32 :=
  if val = 0 then -1 else val

end Headers

section PackageTables

variable (malformed : List UInt8 → JString)

/-- `PackageTable.Node`; the name of an empty node is null. -/
structure PackageNode where
  packageName : Option JString := none
  packageId : Int32 := 0
  packageFingerprint : BitVec 64 := 0
  redactExportedReads : Bool := false
  booleanStartIndex : Int32 := 0
  nextOffset : Int32 := 0
  hasPackageFingerprint : Bool := false
  hasRedactExportedReads : Bool := false
  deriving DecidableEq

def PackageNode.fromBytesV1 : Reader PackageNode := do
  let packageName ← readString malformed
  let packageId ← readInt
  let booleanStartIndex ← readInt
  let next ← readInt
  pure
    { packageName := some packageName
      packageId := packageId
      booleanStartIndex := booleanStartIndex
      nextOffset := Java.nextOffset next }

def PackageNode.fromBytesV2 : Reader PackageNode := do
  let packageName ← readString malformed
  let packageId ← readInt
  let packageFingerprint ← readLong
  let booleanStartIndex ← readInt
  let next ← readInt
  pure
    { packageName := some packageName
      packageId := packageId
      packageFingerprint := packageFingerprint
      booleanStartIndex := booleanStartIndex
      nextOffset := Java.nextOffset next
      hasPackageFingerprint := true }

def PackageNode.fromBytesV3 : Reader PackageNode := do
  let packageName ← readString malformed
  let packageId ← readInt
  let packageFingerprint ← readLong
  let redactExportedReads ← readBoolean
  let booleanStartIndex ← readInt
  let next ← readInt
  pure
    { packageName := some packageName
      packageId := packageId
      packageFingerprint := packageFingerprint
      redactExportedReads := redactExportedReads
      booleanStartIndex := booleanStartIndex
      nextOffset := Java.nextOffset next
      hasPackageFingerprint := true
      hasRedactExportedReads := true }

/-- `PackageTable.Node.fromBytes`: other versions give an empty node. -/
def PackageNode.fromBytes (version : Int32) : Reader PackageNode :=
  if version = 1 then PackageNode.fromBytesV1 malformed
  else if version = 2 then PackageNode.fromBytesV2 malformed
  else if version = 3 then PackageNode.fromBytesV3 malformed
  else pure {}

/-- `PackageTable.fromBytes`. -/
def packageTableFromBytes (buf : List UInt8) : Except Exception Header := do
  let r ← Header.fromBytes malformed .packageMap "binary file is not a package map" buf 0
  pure r.1

/-- One round of `PackageTable.get`. -/
def visitPackageNode (h : Header) (buf : List UInt8) (packageName : JString) :
    Int32 → Int32 ⊕ Except Exception (Option PackageNode) :=
  visitNode (PackageNode.fromBytes malformed h.version)
    (fun node => node.packageName = some packageName) (fun node => node.nextOffset) buf

/-- `PackageTable.get`. -/
def packageTableGet (h : Header) (buf : List UInt8) (packageName : JString) :
    Nat → Option (Except Exception (Option PackageNode)) :=
  findNode (findBucket h (getBytes packageName) buf) (visitPackageNode malformed h buf packageName)

end PackageTables

section FlagTables

variable (malformed : List UInt8 → JString)

/-- `FlagType.fromInt`. -/
def flagTypeFromInt (index : Int32) : Option StoredFlagType :=
  if index = 0 then some .readWriteBoolean
  else if index = 1 then some .readOnlyBoolean
  else if index = 2 then some .fixedReadOnlyBoolean
  else none

/-- `FlagTable.Node`. -/
structure FlagNode where
  flagName : JString
  flagType : Option StoredFlagType
  packageId : Int32
  flagIndex : Int32
  nextOffset : Int32
  deriving DecidableEq

/-- `FlagTable.Node.fromBytes`. -/
def FlagNode.fromBytes : Reader FlagNode := do
  let packageId ← readInt
  let flagName ← readString malformed
  let type ← readShort
  let flagIndex ← readShort
  let next ← readInt
  pure ⟨flagName, flagTypeFromInt type, packageId, flagIndex, Java.nextOffset next⟩

/-- `FlagTable.fromBytes`. -/
def flagTableFromBytes (buf : List UInt8) : Except Exception Header := do
  let r ← Header.fromBytes malformed .flagMap "binary file is not a flag map" buf 0
  pure r.1

def makeKey (packageId : Int32) (flagName : JString) : List UInt8 :=
  getBytes (ofString (toString packageId.toInt ++ "/") ++ flagName)

/-- One round of `FlagTable.get`. -/
def visitFlagNode (buf : List UInt8) (packageId : Int32) (flagName : JString) :
    Int32 → Int32 ⊕ Except Exception (Option FlagNode) :=
  visitNode (FlagNode.fromBytes malformed)
    (fun node => node.flagName = flagName ∧ node.packageId = packageId)
    (fun node => node.nextOffset) buf

/-- `FlagTable.get`. -/
def flagTableGet (h : Header) (buf : List UInt8) (packageId : Int32) (flagName : JString) :
    Nat → Option (Except Exception (Option FlagNode)) :=
  findNode (findBucket h (makeKey packageId flagName) buf)
    (visitFlagNode malformed buf packageId flagName)

end FlagTables

end Java
end Aconfig
end AndroidBuild
