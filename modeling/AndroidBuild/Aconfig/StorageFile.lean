import AndroidBuild.Aconfig.SipHasher13
import AndroidBuild.Lib.Cursor

/-!
# Storage files

The four file formats of `aconfig_storage_file`: package tables, flag tables,
flag values and flag infos.  A file starts with a header.  The tables go on
with the buckets of a hash table and with the nodes, in chains that the next
offsets link; the lists go on with one byte for each flag.
-/

namespace AndroidBuild
namespace Aconfig

/-- `AconfigStorageError`, as far as reading and building tables raises it. -/
inductive AconfigStorageError where
  | bytesParseFail (message : String)
  /-- `BytesParseFail`, with the error that `String::from_utf8` has for the bytes -/
  | notUtf8 (bytes : List UInt8)
  | hashTableSizeLimit (message : String)
  | higherStorageFileVersion (message : String)
  | invalidStorageFileOffset (message : String)
  | invalidStoredFlagType (message : String)
  deriving DecidableEq, Repr

/-- What `Display` writes for an error; the source of the error is not in it. -/
def AconfigStorageError.display : AconfigStorageError → String
  | .bytesParseFail _ => "failed to parse bytes into data"
  | .notUtf8 _ => "failed to parse bytes into data"
  | .hashTableSizeLimit _ => "number of items in hash table exceed limit"
  | .higherStorageFileVersion _ => "cannot parse storage files with a higher version"
  | .invalidStorageFileOffset _ => "invalid storage file byte offset"
  | .invalidStoredFlagType _ => "invalid stored flag type"

/-- A computation of the storage libraries. -/
abbrev Storage :=
  Checked AconfigStorageError

/-- A reader of the storage libraries. -/
abbrev StorageReader :=
  Cursor AconfigStorageError

def fail {α : Type} (e : AconfigStorageError) : Storage α :=
  .error (.err e)

/-- `as_bytes`. -/
def bytesOf (s : String) : List UInt8 :=
  s.toByteArray.data.toList

section HashTable

def hashPrimes : List UInt32 :=
  [7, 17, 29, 53, 97, 193, 389, 769, 1543, 3079, 6151, 12289, 24593, 49157, 98317, 196613, 393241,
    786433, 1572869, 3145739, 6291469, 12582917, 25165843, 50331653, 100663319, 201326611,
    402653189, 805306457, 1610612741]

def getTableSize (entries : UInt32) : Storage UInt32 := do
  let least ← Checked.mul 2 entries
  match hashPrimes.find? (fun num => decide (least ≤ num)) with
  | some num => pure num
  | none => fail (.hashTableSizeLimit "Number of items in a hash table exceeds limit")

/-- `get_bucket_index`, for at least one bucket. -/
def getBucketIndex (val : List UInt8) (numBuckets : Nat) : Nat :=
  ((SipHasher13.new.write val).writeU8 0xff).finish.toNat % numBuckets

theorem getBucketIndex_lt
    (val : List UInt8) (numBuckets : Nat) (h : 0 < numBuckets) :
    getBucketIndex val numBuckets < numBuckets :=
  Nat.mod_lt _ h

end HashTable

section Readers

/-- `read_u8_from_bytes`. -/
def readU8 : StorageReader UInt8 := do
  let n ← Cursor.uint 1
  pure (UInt8.ofNat n)

/-- `read_u16_from_bytes`. -/
def readU16 : StorageReader UInt16 := do
  let n ← Cursor.uint 2
  pure (UInt16.ofNat n)

/-- `read_u32_from_bytes`. -/
def readU32 : StorageReader UInt32 := do
  let n ← Cursor.uint 4
  pure (UInt32.ofNat n)

/-- `read_u64_from_bytes`. -/
def readU64 : StorageReader (BitVec 64) := do
  let n ← Cursor.uint 8
  pure (BitVec.ofNat 64 n)

/-- `String::from_utf8`. -/
def fromUtf8 (l : List UInt8) : Storage String :=
  match String.fromUTF8? ⟨l.toArray⟩ with
  | some s => .ok s
  | none => fail (.notUtf8 l)

/-- `read_str_from_bytes`. -/
def readStr : StorageReader String := do
  let numBytes ← readU32
  let val ← Cursor.bytes numBytes.toNat
  Cursor.lift (fromUtf8 val)

/-- `u8::from`, of a `bool`. -/
def u8From (b : Bool) : UInt8 :=
  if b then 1 else 0

/-- An offset; zero stands for none. -/
def optionalOffset (val : UInt32) : Option UInt32 :=
  if val = 0 then none else some val

/-- The length of a string as `u32`, and the string. -/
def strBytes (s : String) : List UInt8 :=
  Bytes.ofNat 4 (UInt32.ofNat (bytesOf s).length).toNat ++ bytesOf s

end Readers

section Headers

/-- What the headers of all files start with; `count` is `num_packages` or `num_flags`. -/
structure FileHeader where
  version : UInt32
  container : String
  fileType : UInt8
  fileSize : UInt32
  count : UInt32
  deriving DecidableEq, Repr

def FileHeader.intoBytes (h : FileHeader) : List UInt8 :=
  Bytes.ofNat 4 h.version.toNat ++ (strBytes h.container ++ (Bytes.ofNat 1 h.fileType.toNat ++
    (Bytes.ofNat 4 h.fileSize.toNat ++ Bytes.ofNat 4 h.count.toNat)))

def FileHeader.read : StorageReader FileHeader := do
  let version ← readU32
  let container ← readStr
  let fileType ← readU8
  let fileSize ← readU32
  let count ← readU32
  pure ⟨version, container, fileType, fileSize, count⟩

/-- The header of a table. -/
structure TableHeader extends FileHeader where
  bucketOffset : UInt32
  nodeOffset : UInt32
  deriving DecidableEq, Repr

def TableHeader.intoBytes (h : TableHeader) : List UInt8 :=
  h.toFileHeader.intoBytes ++ (Bytes.ofNat 4 h.bucketOffset.toNat ++
    Bytes.ofNat 4 h.nodeOffset.toNat)

def TableHeader.read : StorageReader TableHeader := do
  let start ← FileHeader.read
  let bucketOffset ← readU32
  let nodeOffset ← readU32
  pure ⟨start, bucketOffset, nodeOffset⟩

/-- The header of a list; the offset is `boolean_value_offset` or `boolean_flag_offset`. -/
structure ListHeader extends FileHeader where
  booleanOffset : UInt32
  deriving DecidableEq, Repr

def ListHeader.intoBytes (h : ListHeader) : List UInt8 :=
  h.toFileHeader.intoBytes ++ Bytes.ofNat 4 h.booleanOffset.toNat

def ListHeader.read : StorageReader ListHeader := do
  let start ← FileHeader.read
  let booleanOffset ← readU32
  pure ⟨start, booleanOffset⟩

inductive StorageFileType where
  | packageMap
  | flagMap
  | flagVal
  | flagInfo
  deriving DecidableEq, Repr

/-- `as u8`. -/
def StorageFileType.toU8 : StorageFileType → UInt8
  | .packageMap => 0
  | .flagMap => 1
  | .flagVal => 2
  | .flagInfo => 3

/-- The check at the end of `from_bytes`. -/
def checkFileType {η : Type} (fileType : η → UInt8) (type : StorageFileType) (message : String)
    (h : η) : Storage η :=
  if fileType h ≠ type.toU8 then fail (.bytesParseFail message) else .ok h

/-- `from_bytes` of a header. -/
def headerFromBytes {η : Type} (read : StorageReader η) (check : η → Storage η)
    (buf : List UInt8) : Storage η := do
  let r ← read buf 0
  check r.1

def packageTableHeaderFromBytes : List UInt8 → Storage TableHeader :=
  headerFromBytes TableHeader.read
    (checkFileType (fun h => h.fileType) .packageMap "binary file is not a package map")

def flagTableHeaderFromBytes : List UInt8 → Storage TableHeader :=
  headerFromBytes TableHeader.read
    (checkFileType (fun h => h.fileType) .flagMap "binary file is not a flag map")

def flagValueHeaderFromBytes : List UInt8 → Storage ListHeader :=
  headerFromBytes ListHeader.read
    (checkFileType (fun h => h.fileType) .flagVal "binary file is not a flag value file")

def flagInfoHeaderFromBytes : List UInt8 → Storage ListHeader :=
  headerFromBytes ListHeader.read
    (checkFileType (fun h => h.fileType) .flagInfo "binary file is not a flag info file")

end Headers

section Nodes

structure PackageTableNode where
  packageName : String
  packageId : UInt32
  fingerprint : BitVec 64
  redactExportedReads : Bool
  booleanStartIndex : UInt32
  nextOffset : Option UInt32
  deriving DecidableEq, Repr

namespace PackageTableNode

def lastBytes (node : PackageTableNode) : List UInt8 :=
  Bytes.ofNat 4 node.booleanStartIndex.toNat ++ Bytes.ofNat 4 (node.nextOffset.getD 0).toNat

def intoBytesV1 (node : PackageTableNode) : List UInt8 :=
  strBytes node.packageName ++ (Bytes.ofNat 4 node.packageId.toNat ++ node.lastBytes)

def intoBytesV2 (node : PackageTableNode) : List UInt8 :=
  strBytes node.packageName ++ (Bytes.ofNat 4 node.packageId.toNat ++
    (Bytes.ofNat 8 node.fingerprint.toNat ++ node.lastBytes))

def intoBytesV3 (node : PackageTableNode) : List UInt8 :=
  strBytes node.packageName ++ (Bytes.ofNat 4 node.packageId.toNat ++
    (Bytes.ofNat 8 node.fingerprint.toNat ++
      (Bytes.ofNat 1 (u8From node.redactExportedReads).toNat ++ node.lastBytes)))

def intoBytes (version : UInt32) (node : PackageTableNode) : List UInt8 :=
  if version = 1 then node.intoBytesV1
  else if version = 2 then node.intoBytesV2
  else if version = 3 then node.intoBytesV3
  else node.intoBytesV2

/-- `from_bytes_v1`. -/
def readV1 : StorageReader PackageTableNode := do
  let packageName ← readStr
  let packageId ← readU32
  let booleanStartIndex ← readU32
  let next ← readU32
  pure ⟨packageName, packageId, 0, false, booleanStartIndex, optionalOffset next⟩

/-- `from_bytes_v2`. -/
def readV2 : StorageReader PackageTableNode := do
  let packageName ← readStr
  let packageId ← readU32
  let fingerprint ← readU64
  let booleanStartIndex ← readU32
  let next ← readU32
  pure ⟨packageName, packageId, fingerprint, false, booleanStartIndex, optionalOffset next⟩

/-- `from_bytes_v3`. -/
def readV3 : StorageReader PackageTableNode := do
  let packageName ← readStr
  let packageId ← readU32
  let fingerprint ← readU64
  let redactExportedReadsBytes ← readU8
  let booleanStartIndex ← readU32
  let next ← readU32
  pure ⟨packageName, packageId, fingerprint, redactExportedReadsBytes == 1, booleanStartIndex,
    optionalOffset next⟩

def read (version : UInt32) : StorageReader PackageTableNode :=
  if version = 1 then readV1
  else if version = 2 then readV2
  else if version = 3 then readV3
  else Cursor.lift (fail (.bytesParseFail
    ("Binary file is an unsupported version: " ++ toString version.toNat)))

def fromBytes (version : UInt32) (buf : List UInt8) : Storage PackageTableNode := do
  let r ← read version buf 0
  pure r.1

def findBucketIndex (package : String) (numBuckets : Nat) : Nat :=
  getBucketIndex (bytesOf package) numBuckets

end PackageTableNode

inductive StoredFlagType where
  | readWriteBoolean
  | readOnlyBoolean
  | fixedReadOnlyBoolean
  deriving DecidableEq, Repr

/-- `as u16`. -/
def StoredFlagType.toU16 : StoredFlagType → UInt16
  | .readWriteBoolean => 0
  | .readOnlyBoolean => 1
  | .fixedReadOnlyBoolean => 2

/-- `StoredFlagType::try_from`. -/
def StoredFlagType.tryFrom (value : UInt16) : Storage StoredFlagType :=
  if value = 0 then .ok .readWriteBoolean
  else if value = 1 then .ok .readOnlyBoolean
  else if value = 2 then .ok .fixedReadOnlyBoolean
  else fail (.invalidStoredFlagType "Invalid stored flag type")

structure FlagTableNode where
  packageId : UInt32
  flagName : String
  flagType : StoredFlagType
  flagIndex : UInt16
  nextOffset : Option UInt32
  deriving DecidableEq, Repr

namespace FlagTableNode

def intoBytes (node : FlagTableNode) : List UInt8 :=
  Bytes.ofNat 4 node.packageId.toNat ++ (strBytes node.flagName ++
    (Bytes.ofNat 2 node.flagType.toU16.toNat ++ (Bytes.ofNat 2 node.flagIndex.toNat ++
      Bytes.ofNat 4 (node.nextOffset.getD 0).toNat)))

/-- The reads of `from_bytes`. -/
def read : StorageReader FlagTableNode := do
  let packageId ← readU32
  let flagName ← readStr
  let type ← readU16
  let flagType ← Cursor.lift (StoredFlagType.tryFrom type)
  let flagIndex ← readU16
  let next ← readU32
  pure ⟨packageId, flagName, flagType, flagIndex, optionalOffset next⟩

def fromBytes (buf : List UInt8) : Storage FlagTableNode := do
  let r ← read buf 0
  pure r.1

def findBucketIndex (packageId : UInt32) (flagName : String) (numBuckets : Nat) : Nat :=
  getBucketIndex (bytesOf (toString packageId.toNat ++ "/" ++ flagName)) numBuckets

end FlagTableNode

structure FlagInfoNode where
  attributes : UInt8
  deriving DecidableEq, Repr

namespace FlagInfoNode

def intoBytes (node : FlagInfoNode) : List UInt8 :=
  Bytes.ofNat 1 node.attributes.toNat

/-- The reads of `from_bytes`. -/
def read : StorageReader FlagInfoNode := do
  let attributes ← readU8
  pure ⟨attributes⟩

def fromBytes (buf : List UInt8) : Storage FlagInfoNode := do
  let r ← read buf 0
  pure r.1

/-- `create`; `IsReadWrite` is the second bit. -/
def create (isFlagRw : Bool) : FlagInfoNode :=
  ⟨if isFlagRw then (1 : UInt8) <<< 1 else 0⟩

end FlagInfoNode

end Nodes

section Files

/-- `PackageTable` and `FlagTable`. -/
structure Table (ν : Type) where
  header : TableHeader
  buckets : List (Option UInt32)
  nodes : List ν
  deriving DecidableEq, Repr

/-- `FlagValueList` and `FlagInfoList`. -/
structure FlagList (ν : Type) where
  header : ListHeader
  values : List ν
  deriving DecidableEq, Repr

def bucketBytes (buckets : List (Option UInt32)) : List UInt8 :=
  buckets.flatMap (fun v => Bytes.ofNat 4 (v.getD 0).toNat)

def Table.intoBytes {ν : Type} (nodeBytes : UInt32 → ν → List UInt8) (t : Table ν) : List UInt8 :=
  t.header.intoBytes ++ (bucketBytes t.buckets ++ t.nodes.flatMap (nodeBytes t.header.version))

def FlagList.intoBytes {ν : Type} (valueBytes : ν → List UInt8) (t : FlagList ν) : List UInt8 :=
  t.header.intoBytes ++ t.values.flatMap valueBytes

/-- `read` repeated, with `unwrap`. -/
def readMany {α : Type} (read : StorageReader α) (buf : List UInt8) :
    Nat → Nat → Storage (List α × Nat)
  | 0, head => pure ([], head)
  | n + 1, head => do
      let (a, head) ← Checked.unwrap (read buf head)
      let (l, head) ← readMany read buf n head
      pure (a :: l, head)

/-- The loop over the nodes: the head moves by the length of the bytes of the node. -/
def nodesFromBytes {ν : Type} (fromBytes : List UInt8 → Storage ν) (nodeBytes : ν → List UInt8)
    (buf : List UInt8) : Nat → Nat → Storage (List ν)
  | 0, _ => pure []
  | n + 1, head => do
      if buf.length < head then .error .panic
      let node ← fromBytes (buf.drop head)
      let nodes ← nodesFromBytes fromBytes nodeBytes buf n (head + (nodeBytes node).length)
      pure (node :: nodes)

/-- `map_err` of the loops over nodes. -/
def nodesError (message : String) (e : AconfigStorageError) : AconfigStorageError :=
  .bytesParseFail (message ++ ": " ++ e.display)

def Table.fromBytes {ν : Type} (header : List UInt8 → Storage TableHeader)
    (nodeFromBytes : UInt32 → List UInt8 → Storage ν) (nodeBytes : UInt32 → ν → List UInt8)
    (message : String) (buf : List UInt8) : Storage (Table ν) := do
  let h ← header buf
  let numBuckets ← getTableSize h.count
  let (buckets, head) ← readMany (do let v ← readU32; pure (optionalOffset v)) buf
    numBuckets.toNat h.intoBytes.length
  let nodes ← Checked.mapErr (nodesError message)
    (nodesFromBytes (nodeFromBytes h.version) (nodeBytes h.version) buf h.count.toNat head)
  pure ⟨h, buckets, nodes⟩

abbrev PackageTable := Table PackageTableNode

abbrev FlagTable := Table FlagTableNode

abbrev FlagValueList := FlagList Bool

abbrev FlagInfoList := FlagList FlagInfoNode

def packageTableIntoBytes : PackageTable → List UInt8 :=
  Table.intoBytes PackageTableNode.intoBytes

def packageTableFromBytes : List UInt8 → Storage PackageTable :=
  Table.fromBytes packageTableHeaderFromBytes PackageTableNode.fromBytes PackageTableNode.intoBytes
    "fail to parse package table"

def flagTableIntoBytes : FlagTable → List UInt8 :=
  Table.intoBytes (fun _ => FlagTableNode.intoBytes)

def flagTableFromBytes : List UInt8 → Storage FlagTable :=
  Table.fromBytes flagTableHeaderFromBytes (fun _ => FlagTableNode.fromBytes)
    (fun _ => FlagTableNode.intoBytes) "fail to parse flag table"

def flagValueListIntoBytes : FlagValueList → List UInt8 :=
  FlagList.intoBytes (fun v => Bytes.ofNat 1 (u8From v).toNat)

def flagValueListFromBytes (buf : List UInt8) : Storage FlagValueList := do
  let h ← flagValueHeaderFromBytes buf
  let (booleans, _) ← readMany (do let v ← readU8; pure (v == 1)) buf h.count.toNat
    h.intoBytes.length
  pure ⟨h, booleans⟩

def flagInfoListIntoBytes : FlagInfoList → List UInt8 :=
  FlagList.intoBytes FlagInfoNode.intoBytes

def flagInfoListFromBytes (buf : List UInt8) : Storage FlagInfoList := do
  let h ← flagInfoHeaderFromBytes buf
  let nodes ← Checked.mapErr (nodesError "fail to parse flag info list")
    (nodesFromBytes FlagInfoNode.fromBytes FlagInfoNode.intoBytes buf h.count.toNat
      h.intoBytes.length)
  pure ⟨h, nodes⟩

end Files

end Aconfig
end AndroidBuild
