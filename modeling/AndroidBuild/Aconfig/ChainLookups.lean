import AndroidBuild.Aconfig.JavaStorage
import AndroidBuild.Aconfig.ReadApi

/-!
# When a lookup ends

The lookups follow the next offsets of a file without a bound.  They end
exactly when the chain of the key has no cycle.
-/

namespace AndroidBuild
namespace Aconfig

section Halting

instance finiteUInt32 : Finite UInt32 :=
  Finite.of_injective UInt32.toFin (fun _ _ h => UInt32.toFin_inj.mp h)

instance finiteInt32 : Finite Int32 :=
  Finite.of_injective Int32.toUInt32 (fun ⟨_⟩ ⟨_⟩ h => congrArg Int32.ofUInt32 h)

theorem findNode_halts
    {γ : Type} {bucket : Storage (Option (TableHeader × UInt32))}
    {visit : UInt32 → UInt32 → UInt32 ⊕ Storage (Option γ)} :
    (∃ fuel, (findNode bucket visit fuel).isSome = true) ↔
      ∀ h offset, bucket = .ok (some (h, offset)) → Chain.Acyclic (visit h.version) offset := by
  rcases bucket with e | _ | ⟨h, offset⟩
  · exact ⟨fun _ => nofun, fun _ => ⟨0, rfl⟩⟩
  · exact ⟨fun _ => nofun, fun _ => ⟨0, rfl⟩⟩
  · change Chain.Halts (visit h.version) offset ↔ _
    rw [Chain.halts_iff_acyclic]
    constructor
    · rintro hacyclic h' offset' ⟨⟩
      exact hacyclic
    · intro hall
      exact hall h offset rfl

theorem java_findNode_halts
    {ν : Type} {bucket : Except Java.Exception (Option Int32)}
    {visit : Int32 → Int32 ⊕ Except Java.Exception (Option ν)} :
    (∃ fuel, (Java.findNode bucket visit fuel).isSome = true) ↔
      ∀ nodeIndex, bucket = .ok (some nodeIndex) → Chain.Acyclic visit nodeIndex := by
  rcases bucket with e | _ | nodeIndex
  · exact ⟨fun _ => nofun, fun _ => ⟨0, rfl⟩⟩
  · exact ⟨fun _ => nofun, fun _ => ⟨0, rfl⟩⟩
  · change Chain.Halts visit nodeIndex ↔ _
    rw [Chain.halts_iff_acyclic]
    constructor
    · rintro hacyclic nodeIndex' ⟨⟩
      exact hacyclic
    · intro hall
      exact hall nodeIndex rfl

/-- A lookup ends when no node that its chain leads to comes twice. -/
theorem lookups_halt_iff
    (buf : List UInt8) :
    (∀ package, (∃ fuel, (findPackageReadContext buf package fuel).isSome = true) ↔
      ∀ h offset, findPackageBucket buf package = .ok (some (h, offset)) →
        Chain.Acyclic (visitPackageNode buf package h.version) offset) ∧
    (∀ packageId flag, (∃ fuel, (findFlagReadContext buf packageId flag fuel).isSome = true) ↔
      ∀ h offset, findFlagBucket buf packageId flag = .ok (some (h, offset)) →
        Chain.Acyclic (visitFlagNode buf packageId flag) offset) ∧
    (∀ malformed h packageName,
      (∃ fuel, (Java.packageTableGet malformed h buf packageName fuel).isSome = true) ↔
        ∀ nodeIndex, Java.findBucket h (Java.getBytes packageName) buf = .ok (some nodeIndex) →
          Chain.Acyclic (Java.visitPackageNode malformed h buf packageName) nodeIndex) ∧
    (∀ malformed h packageId flagName,
      (∃ fuel, (Java.flagTableGet malformed h buf packageId flagName fuel).isSome = true) ↔
        ∀ nodeIndex, Java.findBucket h (Java.makeKey packageId flagName) buf =
            .ok (some nodeIndex) →
          Chain.Acyclic (Java.visitFlagNode malformed buf packageId flagName) nodeIndex) := by
  refine ⟨?_, ?_, ?_, ?_⟩
  · intro package
    exact findNode_halts
  · intro packageId flag
    exact findNode_halts
  · intro malformed h packageName
    exact java_findNode_halts
  · intro malformed h packageId flagName
    exact java_findNode_halts

/-- A package table of one bucket, whose node is its own successor. -/
def loopPackageTable : List UInt8 :=
  packageTableIntoBytes ⟨⟨⟨1, "", 0, 46, 1⟩, 25, 29⟩, [some 29], [⟨"a", 0, 0, false, 0, some 29⟩]⟩

/-- A flag table of one bucket, whose node is its own successor. -/
def loopFlagTable : List UInt8 :=
  flagTableIntoBytes
    ⟨⟨⟨1, "", 1, 46, 1⟩, 25, 29⟩, [some 29], [⟨0, "a", .readWriteBoolean, 0, some 29⟩]⟩

def loopHeader (type : StorageFileType) : Java.Header :=
  ⟨1, [], some type, 46, 1, 25, 29⟩

/-- None of the lookups of another key ends, however many nodes are read. -/
theorem lookups_loop :
    (∀ fuel, findPackageReadContext loopPackageTable "b" fuel = none) ∧
    (∀ fuel, findFlagReadContext loopFlagTable 0 "b" fuel = none) ∧
    (Java.packageTableFromBytes (fun _ => []) loopPackageTable = .ok (loopHeader .packageMap) ∧
      ∀ fuel, Java.packageTableGet (fun _ => []) (loopHeader .packageMap) loopPackageTable
        (Java.ofString "b") fuel = none) ∧
    (Java.flagTableFromBytes (fun _ => []) loopFlagTable = .ok (loopHeader .flagMap) ∧
      ∀ fuel, Java.flagTableGet (fun _ => []) (loopHeader .flagMap) loopFlagTable 0
        (Java.ofString "b") fuel = none) := by
  refine ⟨?_, ?_, ⟨by decide +kernel, ?_⟩, ⟨by decide +kernel, ?_⟩⟩
  · intro fuel
    have hbucket : findPackageBucket loopPackageTable "b" =
        .ok (some (⟨⟨1, "", 0, 46, 1⟩, 25, 29⟩, 29)) := by decide +kernel
    have hnext : visitPackageNode loopPackageTable "b" 1 29 = .inl 29 := by decide +kernel
    rw [findPackageReadContext, hbucket]
    exact Chain.follow_of_cycle (.single hnext) fuel
  · intro fuel
    have hbucket : findFlagBucket loopFlagTable 0 "b" =
        .ok (some (⟨⟨1, "", 1, 46, 1⟩, 25, 29⟩, 29)) := by decide +kernel
    have hnext : visitFlagNode loopFlagTable 0 "b" 29 = .inl 29 := by decide +kernel
    rw [findFlagReadContext, hbucket]
    exact Chain.follow_of_cycle (.single hnext) fuel
  · intro fuel
    have hbucket : Java.findBucket (loopHeader .packageMap) (Java.getBytes (Java.ofString "b"))
        loopPackageTable = .ok (some 29) := by decide +kernel
    have hnext : Java.visitPackageNode (fun _ => []) (loopHeader .packageMap) loopPackageTable
        (Java.ofString "b") 29 = .inl 29 := by decide +kernel
    rw [Java.packageTableGet, hbucket]
    exact Chain.follow_of_cycle (.single hnext) fuel
  · intro fuel
    have hbucket : Java.findBucket (loopHeader .flagMap) (Java.makeKey 0 (Java.ofString "b"))
        loopFlagTable = .ok (some 29) := by decide +kernel
    have hnext : Java.visitFlagNode (fun _ => []) loopFlagTable 0 (Java.ofString "b") 29 =
        .inl 29 := by decide +kernel
    rw [Java.flagTableGet, hbucket]
    exact Chain.follow_of_cycle (.single hnext) fuel

end Halting

end Aconfig
end AndroidBuild
