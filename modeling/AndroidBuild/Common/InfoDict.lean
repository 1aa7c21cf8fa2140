import AndroidBuild.Lib.OrderedDict
import AndroidBuild.Lib.TextLines

/-!
# Info dictionaries

The `key=value` files of target files, and the keys that describe dynamic
partitions.
-/

namespace AndroidBuild
namespace Common

open Text

/-- A dictionary of texts. -/
abbrev InfoDict :=
  OrderedDict Str Str

section Loading

/-- `line.split("=", 1)`, for a line with an equals sign. -/
def splitAssignment (name : Str) : Str → Option (Str × Str)
  | [] => none
  | c :: cs => if c = '=' then some (name, cs) else splitAssignment (name ++ [c]) cs

/-- One round of the loop of `LoadDictionaryFromLines`. -/
def loadLine (d : InfoDict) (line : Str) : InfoDict :=
  let line := stripChars line
  if line = [] ∨ line.head? = some '#' then d
  else
    match splitAssignment [] line with
    | some (name, value) => d.set name value
    | none => d

def loadDictionaryFromLines (lines : List Str) : InfoDict :=
  lines.foldl loadLine .empty

end Loading

section Keys

def groupSizeKey (group : Str) : Str :=
  "super_".toList ++ group ++ "_group_size".toList

def partitionListKey (group : Str) : Str :=
  "super_".toList ++ group ++ "_partition_list".toList

def deviceSizeKey (device : Str) : Str :=
  "super_".toList ++ device ++ "_device_size".toList

variable {a b s t : Str}

theorem append_ne_of_not_suffix
    (h : ¬s <:+ b) :
    a ++ s ≠ b := by
  rintro rfl
  exact h (List.suffix_append a s)

theorem append_ne_append
    (h : ¬s <:+ t) (h' : ¬t <:+ s) :
    a ++ s ≠ b ++ t := by
  intro heq
  rcases List.suffix_or_suffix_of_suffix (List.suffix_append a s)
      (heq ▸ List.suffix_append b t) with hst | hts
  · exact h hst
  · exact h' hts

end Keys

end Common
end AndroidBuild
