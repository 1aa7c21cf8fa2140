import AndroidBuild.Common.InfoDict
import AndroidBuild.Lib.Loop
import Mathlib

/-!
# The size of an image without a partition size

`CalculateSizeAndReserved` and the part of `BuildImage` that takes the size of
an ext image from the disk usage of its files, and then from the report on the
image that a first pass made.
-/

namespace AndroidBuild
namespace BuildImage

open Text (Str)
open Common (InfoDict)

inductive BuildError where
  | valueError
  | keyError (key : Str)
deriving DecidableEq

section Sizes

/-- `int(text)`. -/
def readInt (text : Str) : Except BuildError Int :=
  match Text.parseSigned (Text.stripChars text) with
  | some n => .ok n
  | none => .error .valueError

/-- `int(d.get(key, default))`. -/
def getInt (d : InfoDict) (key : String) (default : Int) : Except BuildError Int :=
  match d.get? key.toList with
  | none => .ok default
  | some text => readInt text

/-- `prop_dict.get("fs_type", "")`. -/
def fsType (prop_dict : InfoDict) : Str :=
  (prop_dict.get? "fs_type".toList).getD []

/-- `common.RoundUpTo4K`. -/
def roundUpTo4K (value : Int) : Int :=
  let rounded_up := value + 4095
  rounded_up - rounded_up % 4096

/-- `CalculateSizeAndReserved`; `scale` is `int(size * 1.1)` with the floating point product. -/
def calculateSizeAndReserved (scale : Int → Int) (prop_dict : InfoDict) (size : Int) :
    Except BuildError Int := do
  let partition_headroom ← getInt prop_dict "partition_headroom" 0
  let reserved_size ← getInt prop_dict "partition_reserved_size" (1024 * 1024 * 16)
  if fsType prop_dict = "erofs".toList then
    let reserved_size ← getInt prop_dict "partition_reserved_size" 0
    if reserved_size = 0 then .ok (max (size * 1003 / 1000) (256 * 1024))
    else .ok (scale size + reserved_size)
  else if "ext4".toList <+: fsType prop_dict ∧ partition_headroom > reserved_size then
    .ok (scale size + partition_headroom)
  else .ok (scale size + reserved_size)

/-- The size that an ext image is given for the report on the first pass. -/
def shrunkSize (prop_dict fs_dict : InfoDict) (size : Int) : Except BuildError Int := do
  let block_size ← getInt fs_dict "Block size" 4096
  let free_blocks ← getInt fs_dict "Free blocks" 0
  let free_size := free_blocks * block_size
  let reserved_size ← getInt prop_dict "partition_reserved_size" 0
  -- the headroom is looked up in the report
  let partition_headroom ← getInt fs_dict "partition_headroom" 0
  let reserved_size :=
    if "ext4".toList <+: fsType prop_dict ∧ partition_headroom > reserved_size then
      partition_headroom
    else reserved_size
  if free_size ≤ reserved_size then .ok size
  else
    let size := size - free_size + reserved_size
    let size := if reserved_size = 0 then size * 1003 / 1000 else size
    let size := max size (256 * 1024)
    if block_size ≤ 4096 then .ok (roundUpTo4K size)
    else .ok ((size + block_size - 1) / block_size * block_size)

/-- The inodes that an image is given for the report on the first pass. -/
def spareInodes (prop_dict fs_dict : InfoDict) : Except BuildError Int := do
  let extfs_inode_count ←
    match prop_dict.get? "extfs_inode_count".toList with
    | some text => .ok text
    | none => .error (.keyError "extfs_inode_count".toList)
  let inodes ← readInt ((fs_dict.get? "Inode count".toList).getD extfs_inode_count)
  let free_inodes ← getInt fs_dict "Free inodes" 0
  let inodes := inodes - free_inodes
  .ok (inodes + max (inodes * 2 / 1000) 1)

/-- The properties that the first pass is made with, and its size. -/
def firstPass (scale : Int → Int) (inodeUsage du : Int) (prop_dict : InfoDict) :
    Except BuildError (InfoDict × Int) := do
  let size ← calculateSizeAndReserved scale prop_dict du
  let size := roundUpTo4K size
  let prop_dict := prop_dict.set "partition_size".toList (toString size).toList
  let prop_dict := prop_dict.set "image_size".toList (toString size).toList
  if "extfs_inode_count".toList ∈ prop_dict.keys then .ok (prop_dict, size)
  else .ok (prop_dict.set "extfs_inode_count".toList (toString inodeUsage).toList, size)

/-- The sizes of an ext image in `BuildImage`; `report` is what the first pass with a
`prop_dict` tells about its image. -/
def dynamicSize (scale : Int → Int) (report : InfoDict → InfoDict) (inodeUsage du : Int)
    (prop_dict : InfoDict) : Except BuildError (InfoDict × Int) := do
  let (prop_dict, size) ← firstPass scale inodeUsage du prop_dict
  let fs_dict := report prop_dict
  let size ← shrunkSize prop_dict fs_dict size
  let inodes ← spareInodes prop_dict fs_dict
  let prop_dict := prop_dict.set "extfs_inode_count".toList (toString inodes).toList
  .ok (prop_dict.set "partition_size".toList (toString size).toList, size)

end Sizes

section RoundUp

/-- The next multiple of `a`. -/
def roundUp (a n : Int) : Int :=
  (n + a - 1) / a * a

variable {a n : Int}

theorem le_roundUp
    (ha : 0 < a) :
    n ≤ roundUp a n := by
  have h := Int.lt_ediv_add_one_mul_self (n + a - 1) ha
  rw [roundUp]
  linarith

/-- A number is reached when the multiple below it is passed. -/
theorem le_roundUp_iff
    (ha : 0 < a) {m : Int} :
    m ≤ roundUp a n ↔ (m - 1) / a * a < n := by
  have hbelow : m ≤ roundUp a n ↔ (m - 1) / a < (n + a - 1) / a := by
    rw [roundUp, Int.ediv_lt_iff_lt_mul ha]
    omega
  rw [hbelow, Int.lt_iff_add_one_le, Int.le_ediv_iff_mul_le ha, add_mul, one_mul]
  omega

theorem roundUpTo4K_eq
    (value : Int) :
    roundUpTo4K value = roundUp 4096 value := by
  rw [roundUpTo4K, roundUp]
  omega

theorem dvd_roundUp
    {b : Int} (h : b ∣ a) :
    b ∣ roundUp a n :=
  Dvd.dvd.mul_left h _

end RoundUp

section Room

/-- The space that a size gives up leaves the reserved space and the headroom. -/
structure KeepsRoom (prop_dict : InfoDict) (first_size free_size size : Int) : Prop where
  aligned : 4096 ∣ size
  room : ∃ reserved_size partition_headroom,
    getInt prop_dict "partition_reserved_size" 0 = .ok reserved_size ∧
    getInt prop_dict "partition_headroom" 0 = .ok partition_headroom ∧
    first_size - max 0 (free_size - max reserved_size partition_headroom) ≤ size

def estimate (reserve rest : Int) : Int :=
  max (if reserve = 0 then rest * 1003 / 1000 else rest + reserve) (256 * 1024)

def roundingUnit (block_size : Int) : Int :=
  max 4096 block_size

/-- The size for the space that is to stay free. -/
def sizeFor (block_size free_size reserve first_size : Int) : Int :=
  if free_size ≤ reserve then first_size
  else roundUp (roundingUnit block_size) (estimate reserve (first_size - free_size))

variable {prop_dict fs_dict : InfoDict} {first_size block_size free_blocks reserved_size
  partition_headroom reported : Int}

theorem dvd_roundingUnit
    (hpow : ∃ k : Nat, block_size = 2 ^ k) :
    4096 ∣ roundingUnit block_size := by
  obtain ⟨k, rfl⟩ := hpow
  rw [roundingUnit]
  rcases Nat.lt_or_ge k 12 with hk | hk
  · have hle : (2 : Int) ^ k ≤ 2 ^ 12 := pow_le_pow_right₀ (by omega) hk.le
    rw [max_eq_left (by simpa using hle)]
  · have hle : (2 : Int) ^ 12 ≤ 2 ^ k := pow_le_pow_right₀ (by omega) hk
    rw [max_eq_right (by simpa using hle)]
    exact pow_dvd_pow (2 : Int) hk

theorem roundSize_eq
    (block_size size : Int) :
    (if block_size ≤ 4096 then (.ok (roundUpTo4K size) : Except BuildError Int)
      else .ok ((size + block_size - 1) / block_size * block_size)) =
      .ok (roundUp (roundingUnit block_size) size) := by
  rw [roundingUnit]
  by_cases hblock : block_size ≤ 4096
  · rw [if_pos hblock, roundUpTo4K_eq, max_eq_left hblock]
  · rw [if_neg hblock, max_eq_right (by omega)]
    rfl

theorem shrunkSize_eq
    (hext4 : "ext4".toList <+: fsType prop_dict)
    (hblock : getInt fs_dict "Block size" 4096 = .ok block_size)
    (hfree : getInt fs_dict "Free blocks" 0 = .ok free_blocks)
    (hreserved : getInt prop_dict "partition_reserved_size" 0 = .ok reserved_size)
    (hreported : getInt fs_dict "partition_headroom" 0 = .ok reported) :
    shrunkSize prop_dict fs_dict first_size = .ok
      (sizeFor block_size (free_blocks * block_size) (max reserved_size reported) first_size) := by
  have hreserve : (if "ext4".toList <+: fsType prop_dict ∧ reported > reserved_size then
      reported else reserved_size) = max reserved_size reported := by
    simp only [hext4, true_and]
    split_ifs with h <;> omega
  have hestimate : ∀ reserve : Int, max (if reserve = 0 then
      (first_size - free_blocks * block_size + reserve) * 1003 / 1000
        else first_size - free_blocks * block_size + reserve) (256 * 1024) =
      estimate reserve (first_size - free_blocks * block_size) := by
    intro reserve
    rw [estimate]
    by_cases hzero : reserve = 0
    · rw [if_pos hzero, if_pos hzero, hzero, add_zero]
    · rw [if_neg hzero, if_neg hzero]
  rw [shrunkSize, hblock, hfree, hreserved, hreported]
  simp only [bind, Except.bind]
  rw [hreserve, hestimate, roundSize_eq, sizeFor]
  by_cases hsmall : free_blocks * block_size ≤ max reserved_size reported
  · rw [if_pos hsmall, if_pos hsmall]
  · rw [if_neg hsmall, if_neg hsmall]

theorem le_estimate
    {reserve rest : Int} (h : reserve = 0 → 0 ≤ rest) :
    rest + reserve ≤ estimate reserve rest := by
  refine le_max_of_le_left ?_
  split_ifs with hzero
  · have := h hzero
    omega
  · exact le_rfl

theorem keepsRoom_iff
    (hreserved : getInt prop_dict "partition_reserved_size" 0 = .ok reserved_size)
    (hheadroom : getInt prop_dict "partition_headroom" 0 = .ok partition_headroom)
    {free_size size : Int} :
    KeepsRoom prop_dict first_size free_size size ↔
      4096 ∣ size ∧
        first_size - max 0 (free_size - max reserved_size partition_headroom) ≤ size := by
  constructor
  · rintro ⟨haligned, reserved, headroom, hres, hhead, hroom⟩
    rw [hreserved, Except.ok.injEq] at hres
    rw [hheadroom, Except.ok.injEq] at hhead
    subst hres hhead
    exact ⟨haligned, hroom⟩
  · rintro ⟨haligned, hroom⟩
    exact ⟨haligned, _, _, hreserved, hheadroom, hroom⟩

/-- Any headroom is kept that is not above the reserve, or that the rounding makes room for. -/
theorem sizeFor_room_iff
    {free_size : Int} (hfirst : 4096 ∣ first_size) (hpow : ∃ k : Nat, block_size = 2 ^ k)
    (hfits : free_size ≤ first_size) {reserve : Int} (hreserve : reserved_size ≤ reserve) :
    (4096 ∣ sizeFor block_size free_size reserve first_size ∧
      first_size - max 0 (free_size - max reserved_size partition_headroom) ≤
        sizeFor block_size free_size reserve first_size) ↔
      partition_headroom ≤ reserve ∨ free_size ≤ reserve ∨
      (first_size - free_size + min free_size partition_headroom - 1) /
        roundingUnit block_size * roundingUnit block_size <
        estimate reserve (first_size - free_size) := by
  have hunit : 0 < roundingUnit block_size := lt_max_of_lt_left (by decide)
  rw [sizeFor]
  by_cases hsmall : free_size ≤ reserve
  · rw [if_pos hsmall]
    refine iff_of_true ⟨hfirst, ?_⟩ (Or.inr (Or.inl hsmall))
    omega
  · rw [if_neg hsmall, or_iff_right hsmall, ← le_roundUp_iff hunit]
    have halign := dvd_roundUp (n := estimate reserve (first_size - free_size))
      (dvd_roundingUnit hpow)
    have hestimate : first_size - free_size + reserve ≤ estimate reserve (first_size - free_size) :=
      le_estimate (by omega)
    have hround := hestimate.trans (le_roundUp hunit)
    constructor
    · rintro ⟨_, hroom⟩
      by_cases hle : partition_headroom ≤ reserve
      · exact Or.inl hle
      · refine Or.inr (le_trans ?_ hroom)
        omega
    · rintro (hle | hle)
      · refine ⟨halign, le_trans ?_ hround⟩
        omega
      · refine ⟨halign, le_trans ?_ (max_le hround hle)⟩
        omega

/-- The headroom that is taken from the report is enough, or the image is not made smaller, or
the rounding passes what is missing. -/
theorem shrunkSize_keepsRoom_iff
    (hext4 : "ext4".toList <+: fsType prop_dict) (hfirst : 4096 ∣ first_size)
    (hblock : getInt fs_dict "Block size" 4096 = .ok block_size)
    (hpow : ∃ k : Nat, block_size = 2 ^ k)
    (hfree : getInt fs_dict "Free blocks" 0 = .ok free_blocks)
    (hfits : free_blocks * block_size ≤ first_size)
    (hreserved : getInt prop_dict "partition_reserved_size" 0 = .ok reserved_size)
    (hheadroom : getInt prop_dict "partition_headroom" 0 = .ok partition_headroom)
    (hreported : getInt fs_dict "partition_headroom" 0 = .ok reported) :
    (∃ size, shrunkSize prop_dict fs_dict first_size = .ok size ∧
        KeepsRoom prop_dict first_size (free_blocks * block_size) size) ↔
      partition_headroom ≤ max reserved_size reported ∨
      free_blocks * block_size ≤ max reserved_size reported ∨
      (first_size - free_blocks * block_size +
          min (free_blocks * block_size) partition_headroom - 1) /
        roundingUnit block_size * roundingUnit block_size <
        estimate (max reserved_size reported) (first_size - free_blocks * block_size) := by
  rw [shrunkSize_eq hext4 hblock hfree hreserved hreported]
  simp only [Except.ok.injEq, exists_eq_left']
  rw [keepsRoom_iff hreserved hheadroom]
  exact sizeFor_room_iff hfirst hpow hfits (le_max_left _ _)

/-- The first pass leaves the other properties as they are. -/
theorem firstPass_spec
    {scale : Int → Int} {inodeUsage du : Int} {props : InfoDict}
    (h : firstPass scale inodeUsage du prop_dict = .ok (props, first_size)) :
    4096 ∣ first_size ∧
      ∀ key ∉ ["partition_size", "image_size", "extfs_inode_count"].map String.toList,
        props.get? key = prop_dict.get? key := by
  unfold firstPass at h
  cases hsize : calculateSizeAndReserved scale prop_dict du with
  | error e =>
      rw [hsize] at h
      cases h
  | ok size =>
      rw [hsize] at h
      have haligned : 4096 ∣ roundUpTo4K size := roundUpTo4K_eq size ▸ dvd_roundUp (dvd_refl 4096)
      have hsets : ∀ key ∉ ["partition_size", "image_size", "extfs_inode_count"].map String.toList,
          ∀ text text' : Str,
          ((prop_dict.set "partition_size".toList text).set "image_size".toList text').get? key =
            prop_dict.get? key := by
        intro key hkey text text'
        simp only [List.map_cons, List.mem_cons, not_or] at hkey
        rw [OrderedDict.get?_set, if_neg hkey.2.1, OrderedDict.get?_set, if_neg hkey.1]
      simp only [bind, Except.bind] at h
      split_ifs at h
      · cases h
        exact ⟨haligned, fun key hkey => hsets key hkey _ _⟩
      · cases h
        refine ⟨haligned, fun key hkey => ?_⟩
        rw [OrderedDict.get?_set, if_neg]
        · exact hsets key hkey _ _
        · simp only [List.map_cons, List.mem_cons, not_or] at hkey
          exact hkey.2.2.1

/-- The size of an ext4 image keeps the room of its first pass under the same condition. -/
theorem dynamicSize_keepsRoom_iff
    {scale : Int → Int} {report : InfoDict → InfoDict} {inodeUsage du inodes : Int}
    {props : InfoDict} (hpass : firstPass scale inodeUsage du prop_dict = .ok (props, first_size))
    (hext4 : "ext4".toList <+: fsType prop_dict)
    (hblock : getInt (report props) "Block size" 4096 = .ok block_size)
    (hpow : ∃ k : Nat, block_size = 2 ^ k)
    (hfree : getInt (report props) "Free blocks" 0 = .ok free_blocks)
    (hfits : free_blocks * block_size ≤ first_size)
    (hinodes : spareInodes props (report props) = .ok inodes)
    (hreserved : getInt prop_dict "partition_reserved_size" 0 = .ok reserved_size)
    (hheadroom : getInt prop_dict "partition_headroom" 0 = .ok partition_headroom)
    (hreported : getInt (report props) "partition_headroom" 0 = .ok reported) :
    (∃ out size, dynamicSize scale report inodeUsage du prop_dict = .ok (out, size) ∧
        KeepsRoom prop_dict first_size (free_blocks * block_size) size) ↔
      partition_headroom ≤ max reserved_size reported ∨
      free_blocks * block_size ≤ max reserved_size reported ∨
      (first_size - free_blocks * block_size +
          min (free_blocks * block_size) partition_headroom - 1) /
        roundingUnit block_size * roundingUnit block_size <
        estimate (max reserved_size reported) (first_size - free_blocks * block_size) := by
  obtain ⟨hfirst, hprops⟩ := firstPass_spec hpass
  have hext4' : "ext4".toList <+: fsType props := by
    rwa [fsType, hprops _ (by decide)]
  have hreserved' : getInt props "partition_reserved_size" 0 = .ok reserved_size := by
    rwa [getInt, hprops _ (by decide)]
  have hrun : shrunkSize props (report props) first_size = _ :=
    shrunkSize_eq hext4' hblock hfree hreserved' hreported
  rw [← sizeFor_room_iff hfirst hpow hfits (le_max_left _ _), ← keepsRoom_iff hreserved hheadroom]
  unfold dynamicSize
  rw [hpass]
  simp only [bind, Except.bind]
  rw [hrun, hinodes]
  simp

end Room

section Samples

/-- An image with ten megabytes of headroom. -/
def sampleProps : InfoDict :=
  (OrderedDict.empty.set "fs_type".toList "ext4".toList).set
    "partition_headroom".toList "10485760".toList

/-- Twenty megabytes are free. -/
def sampleReport : InfoDict :=
  (OrderedDict.empty.set "Block size".toList "4096".toList).set
    "Free blocks".toList "5120".toList

theorem shrunkSize_keepsRoom_sample :
    (∃ size, shrunkSize sampleProps sampleReport 104857600 = .ok size ∧
        KeepsRoom sampleProps 104857600 (5120 * 4096) size) ↔
      (10485760 : Int) ≤ max 0 0 ∨ (5120 * 4096 : Int) ≤ max 0 0 ∨
      (104857600 - 5120 * 4096 + min (5120 * 4096) 10485760 - 1) /
        roundingUnit 4096 * roundingUnit 4096 <
        estimate (max 0 0) (104857600 - 5120 * 4096) :=
  shrunkSize_keepsRoom_iff (by decide +kernel) (by decide) (by decide +kernel) ⟨12, by norm_num⟩
    (by decide +kernel) (by decide) (by decide +kernel) (by decide +kernel)
    (by decide +kernel)

/-- The headroom of the properties is not kept. -/
theorem shrunkSize_losesHeadroom :
    ¬ ∃ size, shrunkSize sampleProps sampleReport 104857600 = .ok size ∧
      KeepsRoom sampleProps 104857600 (5120 * 4096) size := by
  have hreserved : getInt sampleProps "partition_reserved_size" 0 = .ok 0 := by decide +kernel
  have hheadroom : getInt sampleProps "partition_headroom" 0 = .ok 10485760 := by decide +kernel
  rintro ⟨size, hsize, hkeeps⟩
  have hroom := ((keepsRoom_iff hreserved hheadroom).mp hkeeps).2
  have hrun : shrunkSize sampleProps sampleReport 104857600 = .ok 84140032 := by
    decide +kernel
  rw [hrun, Except.ok.injEq] at hsize
  subst hsize
  revert hroom
  decide

end Samples

end BuildImage
end AndroidBuild
