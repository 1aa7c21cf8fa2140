import AndroidBuild.Common.InfoDict
import AndroidBuild.Lib.IntLiteral
import AndroidBuild.Lib.Loop
import Mathlib

/-!
# The checks of dynamic partition sizes

`DynamicPartitionSizeChecker` adds up the sizes of the partitions of the super
partition and of every group, and compares the sums with the limits of the info
dictionary.  The values of the dictionary are texts; the limits that its
constructor adds are integers.
-/

namespace AndroidBuild
namespace CheckPartitionSizes

open Text IntLiteral Common

section Values

/-- A value of the info dictionary. -/
inductive Value where
  | str (s : Str)
  | int (n : Int)
  deriving DecidableEq

/-- How a check ends that does not pass: `RuntimeError`, or another exception. -/
inductive Failure where
  | runtimeError (message : Str)
  | raised (exception : Str)
  deriving DecidableEq

abbrev Info :=
  OrderedDict Str Value

/-- A dictionary of texts as the checker receives it. -/
def ofStrings (d : InfoDict) : Info :=
  d.mapValues Value.str

/-- What the checker takes from its environment: the interpreter's tables, whether
`SOONG_RUSTC_INCREMENTAL` is set, and `sparse_img.GetImagePartitionSize`. -/
structure Host where
  unicode : Unicode
  rustcIncremental : Bool
  imagePartitionSize : Value → Except Failure Int

/-- `info_dict[key]`. -/
def getItem (d : Info) (key : Str) : Except Failure Value :=
  match d.get? key with
  | some v => .ok v
  | none => .error (.raised "KeyError".toList)

/-- `int(value)`. -/
def toInt (host : Host) : Value → Except Failure Int
  | .int n => .ok n
  | .str s =>
      match readInt host.unicode 10 s with
      | some n => .ok n
      | none => .error (.raised "ValueError".toList)

/-- `value.strip().split()`. -/
def splitWords : Value → Except Failure (List Str)
  | .int _ => .error (.raised "AttributeError".toList)
  | .str s => .ok (wordsFrom [] (stripChars s))

/-- `str(n)`. -/
def showInt : Int → Str
  | .ofNat n => Nat.toDigits 10 n
  | .negSucc n => '-' :: Nat.toDigits 10 (n + 1)

/-- `"{}".format(names)`, for names without quotes. -/
def showNames (names : List Str) : Str :=
  "[".toList ++ (", ".toList).intercalate (names.map (fun n => '\'' :: n ++ ['\''])) ++ "]".toList

/-- `"+".join(str(size) for size in sizes)`. -/
def showSum (sizes : List Int) : Str :=
  ['+'].intercalate (sizes.map showInt)

end Values

section Expressions

structure Expression where
  desc : Str
  expr : Str
  value : Int

inductive Level where
  | error
  | warning

def Expression.message (left : Expression) (right : Expression) (relation sign : Str) : Str :=
  left.desc ++ relation ++ right.desc ++ ":\n".toList ++ left.expr ++ " == ".toList ++
    showInt left.value ++ sign ++ right.expr ++ " == ".toList ++ showInt right.value

/-- `Expression.CheckLe`. -/
def checkLe (host : Host) (left right : Expression) (level : Level) : Except Failure Unit :=
  if left.value ≤ right.value then .ok ()
  else
    let msg := left.message right " is greater than ".toList " > ".toList
    let msg :=
      if host.rustcIncremental then
        "If setting \"SOONG_RUSTC_INCREMENTAL\" try building without it. ".toList ++ msg
      else msg
    match level with
    | .error => .error (.runtimeError msg)
    | .warning => .ok ()

/-- `CheckLe` with an expression that may be `None`. -/
def checkLeIfGiven (host : Host) (left : Expression) (right : Option Expression) (level : Level) :
    Except Failure Unit :=
  match right with
  | some e => checkLe host left e level
  | none => .ok ()

/-- `Expression.CheckLt`. -/
def checkLt (left right : Expression) (level : Level) : Except Failure Unit :=
  if left.value < right.value then .ok ()
  else
    match level with
    | .error =>
        .error (.runtimeError
          (left.message right " is greater than or equal to ".toList " >= ".toList))
    | .warning => .ok ()

end Expressions

section Device

inductive DeviceType where
  | none
  | ab
  | vab
  deriving DecidableEq

/-- `DeviceType.Get`. -/
def DeviceType.get (d : Info) : DeviceType :=
  if d.get? "ab_update".toList ≠ some (.str "true".toList) then .none
  else if d.get? "virtual_ab".toList = some (.str "true".toList) then .vab
  else .ab

/-- `Dap.Get`: whether dynamic partitions are used. -/
def dapGet (d : Info) : Bool :=
  d.get? "use_dynamic_partitions".toList = some (.str "true".toList)

end Device

section Checker

variable (host : Host)

def superSizeKey : Str :=
  "super_partition_size".toList

def warnLimitKey : Str :=
  "super_partition_warn_limit".toList

def errorLimitKey : Str :=
  "super_partition_error_limit".toList

def alignmentKey : Str :=
  "super_partition_alignment".toList

def dynamicListKey : Str :=
  "dynamic_partition_list".toList

def groupsKey : Str :=
  "super_partition_groups".toList

def setDefault (d : Info) (key : Str) (value : Except Failure Int) : Except Failure Info :=
  if key ∈ d.keys then .ok d
  else do
    let n ← value
    .ok (d.set key (.int n))

/-- `DynamicPartitionSizeChecker.__init__`. -/
def newChecker (d : Info) : Except Failure Info :=
  match d.get? superSizeKey with
  | none => .ok d
  | some size => do
      let d ← setDefault d warnLimitKey ((toInt host size).map (fun n => (n * 95).fdiv 100))
      setDefault d errorLimitKey (toInt host size)

/-- `DynamicPartitionSizeChecker._ReadSizeOfPartition`. -/
def readSizeOfPartition (d : Info) (name : Str) : Except Failure Int :=
  match d.get? (name ++ "_image_size".toList) with
  | some size => toInt host size
  | none => do
      let image ← getItem d (name ++ "_image".toList)
      host.imagePartitionSize image

/-- `DynamicPartitionSizeChecker._RoundPartitionSize`. -/
def roundPartitionSize (d : Info) (size : Int) : Except Failure Int :=
  match d.get? alignmentKey with
  | none => .ok size
  | some (.str _) => .error (.raised "TypeError".toList)
  | some (.int alignment) =>
      if alignment = 0 then .error (.raised "ZeroDivisionError".toList)
      else .ok ((size + alignment - 1).fdiv alignment * alignment)

def roundedSize (d : Info) (name : Str) : Except Failure Int := do
  let size ← readSizeOfPartition host d name
  roundPartitionSize d size

/-- `DynamicPartitionSizeChecker._CheckSumOfPartitionSizes`. -/
def checkSumOfPartitionSizes (d : Info) (maxSize : Expression) (names : List Str)
    (warnSize errorSize : Option Expression) : Except Failure Unit := do
  let sizes ← names.mapM (roundedSize host d)
  let sumSize : Expression := ⟨"sum of sizes of ".toList ++ showNames names, showSum sizes, sizes.sum⟩
  checkLe host sumSize maxSize .error
  checkLeIfGiven host sumSize errorSize .error
  checkLeIfGiven host sumSize warnSize .warning

/-- `DynamicPartitionSizeChecker._NumDeviceTypesInSuper`. -/
def numDeviceTypesInSuper (d : Info) : Except Failure Int :=
  if dapGet d = false then
    .error (.runtimeError ("check_partition_sizes should only be executed on " ++
      "builds with dynamic partitions enabled").toList)
  else
    match DeviceType.get d with
    | .ab => .ok 2
    | .vab => .ok 1
    | .none => .ok 1

/-- The limit `int(info_dict[key]) // num_slots`. -/
def slotLimit (d : Info) (desc key : Str) (numSlots : Int) : Except Failure Expression := do
  let value ← getItem d key
  let n ← toInt host value
  let limit := n.fdiv numSlots
  .ok ⟨desc ++ (if numSlots > 1 then " / ".toList ++ showInt numSlots else []), showInt limit,
    limit⟩

/-- The partitions of the super partition; for virtual A/B also `system_other`. -/
def partitionsInSuper (d : Info) (listed : List Str) : List Str :=
  if DeviceType.get d = .vab ∧
      ("system_other_image".toList ∈ d.keys ∨ "system_other_image_size".toList ∈ d.keys) then
    listed ++ ["system_other".toList]
  else listed

def checkSuper (d : Info) (numSlots : Int) : Except Failure Unit :=
  match d.get? superSizeKey, d.get? dynamicListKey with
  | some _, some list => do
      let maxSize ← slotLimit host d "BOARD_SUPER_PARTITION_SIZE".toList superSizeKey numSlots
      let warnLimit ←
        slotLimit host d "BOARD_SUPER_PARTITION_WARN_LIMIT".toList warnLimitKey numSlots
      let errorLimit ←
        slotLimit host d "BOARD_SUPER_PARTITION_ERROR_LIMIT".toList errorLimitKey numSlots
      let listed ← splitWords list
      checkSumOfPartitionSizes host d maxSize (partitionsInSuper d listed) (some warnLimit)
        (some errorLimit)
  | _, _ => .ok ()

def checkGroup (d : Info) (group : Str) : Except Failure Unit :=
  match d.get? (groupSizeKey group), d.get? (partitionListKey group) with
  | some size, some list => do
      let n ← toInt host size
      let names ← splitWords list
      checkSumOfPartitionSizes host d
        ⟨"BOARD_".toList ++ group ++ "_SIZE".toList, showInt n, n⟩ names none none
  | _, _ => .ok ()

/-- The size of a group, 0 without one. -/
def groupSize (d : Info) (group : Str) : Except Failure Int :=
  toInt host ((d.get? (groupSizeKey group)).getD (.int 0))

/-- The check of the sizes of the groups against the super partition. -/
def checkGroupSizes (d : Info) (groups : List Str) (numSlots : Int) : Except Failure Unit :=
  match d.get? superSizeKey with
  | none => .ok ()
  | some _ => do
      let sizes ← groups.mapM (groupSize host d)
      let sumSize : Expression :=
        ⟨"sum of sizes of ".toList ++ showNames groups, showSum sizes, sizes.sum⟩
      let maxSize ← slotLimit host d "BOARD_SUPER_PARTITION_SIZE".toList superSizeKey numSlots
      checkLt sumSize maxSize .error
      let minimalMetadataSize := 1024 * 1024
      checkLe host
        ⟨"sum of sizes of ".toList ++ showNames groups ++ " plus 1M metadata".toList,
          showSum (sizes ++ [minimalMetadataSize]), sizes.sum + minimalMetadataSize⟩
        maxSize .warning

/-- `DynamicPartitionSizeChecker._CheckAllPartitionSizes`. -/
def checkAllPartitionSizes (d : Info) : Except Failure Unit := do
  let numSlots ← numDeviceTypesInSuper d
  checkSuper host d numSlots
  let groups ← splitWords ((d.get? groupsKey).getD (.str []))
  groups.forM (checkGroup host d)
  checkGroupSizes host d groups numSlots

/-- `CheckPartitionSizes` of a dictionary. -/
def checkPartitionSizes (d : Info) : Except Failure Unit := do
  let d ← newChecker host d
  checkAllPartitionSizes host d

/-- `CheckPartitionSizes` of a file, on its lines. -/
def checkPartitionSizesOfFile (lines : List Str) : Except Failure Unit :=
  checkPartitionSizes host (ofStrings (loadDictionaryFromLines lines))

end Checker

end CheckPartitionSizes
end AndroidBuild
