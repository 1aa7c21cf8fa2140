import AndroidBuild.Lib.SetMap
import AndroidBuild.Lib.Text
import Mathlib

/-!
# The item lists of a merge

The model of `InferItemList`, which chooses the items that are taken from the
framework build and from the vendor build, and of `ItemListToPartitionSet` and
`ValidateConfigLists`, which read the partitions back from such lists.  The
case mappings of texts beyond ASCII are a parameter with the laws that are used.
-/

namespace AndroidBuild
namespace MergeUtils

open Text

/-- `str.lower` and `str.upper`: on ASCII they go by characters, and the cases of the characters
around a slash do not depend on each other. -/
structure CaseMapping where
  lower : Str → Str
  upper : Str → Str
  lower_ascii : ∀ s, (∀ c ∈ s, c.toNat < 128) → lower s = s.map Char.toLower
  upper_ascii : ∀ s, (∀ c ∈ s, c.toNat < 128) → upper s = s.map Char.toUpper
  lower_slash : ∀ a b, lower (a ++ '/' :: b) = lower a ++ '/' :: lower b

section Paths

/-- `os.path.basename(path)`. -/
def basename (path : Str) : Str :=
  (path.reverse.takeWhile (· ≠ '/')).reverse

/-- `os.path.splitext(name)`, of a name without slashes.  Dots in front do not count. -/
def splitext (name : Str) : Str × Str :=
  match name.reverse.dropWhile (· ≠ '.') with
  | [] => (name, [])
  | _ :: front =>
      if front.all (· = '.') then (name, [])
      else (front.reverse, '.' :: (name.reverse.takeWhile (· ≠ '.')).reverse)

end Paths

section Partitions

/-- The characters of `[A-Z_]`. -/
def dirChars : List Char :=
  "ABCDEFGHIJKLMNOPQRSTUVWXYZ_".toList

def isDirChar (c : Char) : Bool :=
  dirChars.contains c

/-- The text that `.*$` has to match: `$` also matches in front of a newline at the end. -/
def dropFinalNewline (text : Str) : Str :=
  if text.getLast? = some '\n' then text.dropLast else text

/-- The group of `_PARTITION_ITEM_PATTERN`. -/
def partitionItem (item : Str) : Option Str :=
  match item.dropWhile isDirChar with
  | '/' :: rest =>
      if item.takeWhile isDirChar ≠ [] ∧ '\n' ∉ dropFinalNewline rest then
        some (item.takeWhile isDirChar)
      else none
  | _ => none

/-- The group of `^DIR/(.*)\.img$`. -/
def imagePartition (dir item : Str) : Option Str :=
  if (dir ++ ['/']).isPrefixOf item then
    let text := dropFinalNewline (item.drop (dir.length + 1))
    if ".img".toList <:+ text ∧ '\n' ∉ text then some (text.take (text.length - 4)) else none
  else none

def partitionGroups (item : Str) : List (Option Str) :=
  [partitionItem item, imagePartition "IMAGES".toList item,
    imagePartition "PREBUILT_IMAGES".toList item]

/-- The directories of target files that are no partitions. -/
def notPartitions : List Str :=
  ["meta".toList, "images".toList, "prebuilt_images".toList]

def addPartition (m : CaseMapping) (partition_set : Finset Str) (group : Option Str) :
    Finset Str :=
  match group with
  | none => partition_set
  | some partition =>
      if m.lower partition ∉ notPartitions then insert (m.lower partition) partition_set
      else partition_set

def itemListToPartitionSet (m : CaseMapping) (item_list : List Str) : Finset Str :=
  item_list.foldl
    (fun partition_set item =>
      (partitionGroups (stripChars item)).foldl (addPartition m) partition_set) ∅

/-- What `ValidateConfigLists` reports. -/
inductive ConfigError where
  | samePartition (from_both : Finset Str)
  | miscInfoKeys

/-- `ValidateConfigLists`: the errors that are reported, and its result. -/
def validateConfigLists (m : CaseMapping) (framework_item_list vendor_item_list : List Str)
    (framework_misc_info_keys : List Str) : List ConfigError × Bool :=
  let from_both :=
    itemListToPartitionSet m framework_item_list ∩ itemListToPartitionSet m vendor_item_list
  let errors :=
    (if from_both ≠ ∅ then [.samePartition from_both] else []) ++
      if ["dynamic_partition_list".toList, "super_partition_groups".toList].any
          (framework_misc_info_keys.contains ·) then [.miscInfoKeys]
      else []
  (errors, errors.isEmpty)

end Partitions

section Infer

def frameworkPartitions : List Str :=
  ["system".toList, "product".toList, "system_ext".toList, "system_other".toList, "root".toList,
    "vbmeta_system".toList, "pvmfw".toList]

/-- The items that are always taken. -/
def fixedItems (framework : Bool) : List Str :=
  if framework then
    ["META/liblz4.so".toList, "META/postinstall_config.txt".toList,
      "META/zucchini_config.txt".toList]
  else
    ["META/kernel_configs.txt".toList, "META/kernel_version.txt".toList,
      "META/otakeys.txt".toList, "META/pack_radioimages.txt".toList,
      "META/releasetools.py".toList]

def isExpected (framework : Bool) (partition : Str) : Bool :=
  (framework && frameworkPartitions.contains partition) ||
    (!framework && !frameworkPartitions.contains partition)

def partitionItems (m : CaseMapping) (partition : Str) : List Str :=
  [m.upper partition ++ "/*".toList,
    "META/".toList ++ (if partition = "system".toList then [] else partition ++ ['_']) ++
      "filesystem_config.txt".toList]

def addImage (framework : Bool) (item_set : Finset Str) (name : Str) : Finset Str :=
  let (image_partition, extension) := splitext (basename name)
  if image_partition = "vbmeta".toList then item_set
  else if extension ∈ [".img".toList, ".map".toList] then
    if isExpected framework image_partition then insert name item_set else item_set
  else if !framework then insert name item_set
  else item_set

/-- The loop of `InferItemList` on one name; the second part of the state are the seen
partitions. -/
def inferStep (m : CaseMapping) (framework : Bool) (s : Finset Str × List Str) (name : Str) :
    Finset Str × List Str :=
  if name.getLast? = some '/' then s
  else
    let partition := m.lower (name.takeWhile (· ≠ '/'))
    if partition = "meta".toList then s
    else if partition ∈ ["images".toList, "prebuilt_images".toList] then
      (addImage framework s.1 name, s.2)
    else if partition ∈ s.2 then s
    else if isExpected framework partition then
      (s.1 ∪ (partitionItems m partition).toFinset, s.2 ++ [partition])
    else (s.1, s.2 ++ [partition])

def inferItemList (m : CaseMapping) (input_namelist : List Str) (framework : Bool) : List Str :=
  HashOrder.increasing
    (input_namelist.foldl (inferStep m framework) ((fixedItems framework).toFinset, [])).1

end Infer

end MergeUtils
end AndroidBuild
