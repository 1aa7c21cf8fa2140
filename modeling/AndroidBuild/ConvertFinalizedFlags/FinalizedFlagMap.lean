import AndroidBuild.ConvertFinalizedFlags.ApiLevel
import AndroidBuild.Lib.Loop
import AndroidBuild.Lib.SetMap

/-!
# The map of finalized flags

`FinalizedFlagMap` and `read_files_to_map_using_path`.  The files are read in
the order in which they are given, and a flag is kept at the level at which it
is met first.
-/

namespace AndroidBuild
namespace ConvertFinalizedFlags

open Text FloatLiteral

structure FinalizedFlag where
  flagName : Str
  packageName : Str
deriving DecidableEq

abbrev FinalizedFlagMap := SetMap ApiLevel FinalizedFlag

namespace FinalizedFlagMap

/-- `contains`. -/
def containsFlag (m : FinalizedFlagMap) (flag : FinalizedFlag) : Prop :=
  ∃ level ∈ m.keys, flag ∈ m.values level

instance (m : FinalizedFlagMap) (flag : FinalizedFlag) : Decidable (containsFlag m flag) :=
  inferInstanceAs (Decidable (∃ level ∈ m.keys, flag ∈ m.values level))

def insertIfNew (m : FinalizedFlagMap) (level : ApiLevel) (flag : FinalizedFlag) :
    FinalizedFlagMap :=
  if containsFlag m flag then m else m.add level flag

/-- `order` is the order of the levels in the hash map. -/
def getFinalizedLevel (order : HashOrder ApiLevel) (m : FinalizedFlagMap) (flag : FinalizedFlag) :
    Option ApiLevel :=
  (order.iterate m.keys).find? fun level => flag ∈ m.values level

end FinalizedFlagMap

section Files

/-- `s.rsplit_once(sep)`. -/
def rsplitOnce (sep : Char) (s : Str) : Option (Str × Str) :=
  match s.reverse.dropWhile (fun c => c ≠ sep) with
  | [] => none
  | _ :: front => some (front.reverse, (s.reverse.takeWhile fun c => c ≠ sep).reverse)

/-- `s.rsplitn(n, sep)`, the last part first. -/
def rsplitn (sep : Char) : Nat → Str → List Str
  | 0, _ => []
  | 1, s => [s]
  | n + 1, s =>
      match rsplitOnce sep s with
      | none => [s]
      | some (front, last) => last :: rsplitn sep n front

def buildFinalizedFlag (qualifiedFlagName : Str) : Option FinalizedFlag :=
  (rsplitOnce '.' qualifiedFlagName).map fun parts => ⟨parts.2, parts.1⟩

def flagFileNames : List Str :=
  ["finalized-flags.txt".toList, "extended_flags_list.txt".toList]

/-- The file system: the lines of a file, nothing where one cannot be read. -/
abbrev Open := Str → Option (List (Option Str))

variable (round : ℚ → Number) (supportMinorSdk : Bool) (openFile : Open)

def insertLine (level : ApiLevel) (m : FinalizedFlagMap) (line : Option Str) :
    Except Failure FinalizedFlagMap :=
  match line with
  | none => .error (.panicked "Failed to read line from file")
  | some flag =>
      match buildFinalizedFlag flag with
      | none => .error (.panicked "cannot build finalized flag")
      | some flag => .ok (m.insertIfNew level flag)

def readFile (m : FinalizedFlagMap) (flagFile : Str) : Except Failure FinalizedFlagMap :=
  match rsplitn '/' 3 flagFile with
  | name :: rest =>
      if name ∉ flagFileNames then
        .error (.err ("Provided incorrect file, must be finalized-flags.txt or " ++
          "extended_flags_list.txt"))
      else match rest with
        | [] => .error (.panicked "index out of bounds")
        | apiLevelString :: _ =>
            match fromStr round supportMinorSdk apiLevelString with
            | .error (.panicked message) => .error (.panicked message)
            | .error _ => .ok m
            | .ok level =>
                match openFile flagFile with
                | none => .error (.err "cannot open the file")
                | some lines => lines.foldlM (insertLine level) m
  | [] => .error (.panicked "index out of bounds")

def readFilesToMapUsingPath (flagFiles : List Str) : Except Failure FinalizedFlagMap :=
  flagFiles.foldlM (readFile round supportMinorSdk openFile) SetMap.empty

end Files

end ConvertFinalizedFlags
end AndroidBuild
