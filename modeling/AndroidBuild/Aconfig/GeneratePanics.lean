import AndroidBuild.Aconfig.Panics
import AndroidBuild.Aconfig.StorageQueries

/-!
# Panics while the storage files are generated

`generate_storage_file` collects the flags of a package from all caches in the
order of the caches, and `assign_flag_ids` asserts that they are sorted.  Each
cache is, but not what several of them have for one package.  Besides, the
sizes are sums of 32-bit integers.
-/

namespace AndroidBuild
namespace Aconfig

section Conditions

/-- The packages of the flags that the storage keeps, in the order of their first flags. -/
def keptPackages (flags : List ParsedFlag) : List String :=
  flags.foldl (fun names pf =>
    if shouldIncludeFlag pf = true ∧ pf.package ∉ names then names ++ [pf.package] else names) []

def storedFlags (flags : List ParsedFlag) (package : String) : List ParsedFlag :=
  distinctFlags (packageFlags flags package)

/-- A sum of sizes, each of them as `u32`. -/
def sumU32 (sizes : List Nat) : Nat :=
  (sizes.map (fun size => size % 2 ^ 32)).sum

theorem sumU32_cons
    (size : Nat) (sizes : List Nat) :
    sumU32 (size :: sizes) = size % 2 ^ 32 + sumU32 sizes := by
  rw [sumU32, List.map_cons, List.sum_cons, sumU32]

def numStored (flags : List ParsedFlag) : Nat :=
  sumU32 ((keptPackages flags).map (fun package => (storedFlags flags package).length))

/-- The names of the flags are in order, package by package up to one with too many flags. -/
def NamesInOrder (flags : List ParsedFlag) : List String → Prop
  | [] => True
  | package :: packages =>
      (storedFlags flags package).Pairwise (fun a b => a.name ≤ b.name) ∧
        ((storedFlags flags package).length ≤ 65535 → NamesInOrder flags packages)

/-- No package has too many flags. -/
def FewFlags (flags : List ParsedFlag) : Prop :=
  ∀ package ∈ keptPackages flags, (storedFlags flags package).length ≤ 65535

/-- The size of a table with these nodes does not overflow. -/
def TableFits (container : String) (numBuckets : UInt32) (sizes : List Nat) : Prop :=
  (25 + (bytesOf container).length) % 2 ^ 32 + numBuckets.toNat * 4 + sumU32 sizes < 2 ^ 32

/-- The size of a list with one byte for each flag does not overflow. -/
def ListFits (container : String) (count : Nat) : Prop :=
  (21 + (bytesOf container).length) % 2 ^ 32 + count < 2 ^ 32

def packageNodeSize (version : UInt32) (package : String) : Nat :=
  ((⟨package, 0, 0, false, 0, none⟩ : PackageTableNode).intoBytes version).length

def flagNodeSize (name : String) : Nat :=
  (⟨0, name, .readWriteBoolean, 0, none⟩ : FlagTableNode).intoBytes.length

/-- When a file is generated without a panic. -/
def GeneratesFrom (container : String) (flags : List ParsedFlag) (version : UInt32) :
    StorageFileType → Prop
  | .packageMap =>
      numStored flags < 2 ^ 32 ∧ (keptPackages flags).length % 2 ^ 32 < 2 ^ 31 ∧
        ∀ numBuckets, getTableSize (UInt32.ofNat (keptPackages flags).length) = .ok numBuckets →
          TableFits container numBuckets ((keptPackages flags).map (packageNodeSize version))
  | .flagMap =>
      numStored flags < 2 ^ 31 ∧
        ∀ numBuckets, getTableSize (UInt32.ofNat (numStored flags)) = .ok numBuckets →
          NamesInOrder flags (keptPackages flags) ∧
            (FewFlags flags → TableFits container numBuckets ((keptPackages flags).flatMap
              (fun package => (storedFlags flags package).map (fun pf => flagNodeSize pf.name))))
  | .flagVal =>
      numStored flags < 2 ^ 32 ∧ NamesInOrder flags (keptPackages flags) ∧
        (FewFlags flags → ListFits container (numStored flags))
  | .flagInfo =>
      numStored flags < 2 ^ 32 ∧ NamesInOrder flags (keptPackages flags) ∧
        (FewFlags flags → ListFits container (numStored flags))

end Conditions

section Collect

variable {flags : List ParsedFlag} {packages : List FlagPackage}

theorem keptPackages_concat
    (flags : List ParsedFlag) (pf : ParsedFlag) :
    keptPackages (flags ++ [pf]) =
      if shouldIncludeFlag pf = true ∧ pf.package ∉ keptPackages flags then
        keptPackages flags ++ [pf.package]
      else keptPackages flags := by
  rw [keptPackages, List.foldl_append]
  rfl

/-- The packages of the first loop. -/
theorem names_foldl_insertFlag
    (flags : List ParsedFlag) :
    (flags.foldl insertFlag []).map (fun p => p.packageName) = keptPackages flags := by
  induction flags using List.reverseRecOn with
  | nil => rfl
  | append_singleton flags pf ih =>
      rw [List.foldl_append, List.foldl_cons, List.foldl_nil, keptPackages_concat, ← ih]
      generalize flags.foldl insertFlag [] = packages
      have hmem : packages.any (fun p => p.packageName = pf.package) = true ↔
          pf.package ∈ packages.map (fun p => p.packageName) := by
        simp
      rw [insertFlag]
      cases hkeep : shouldIncludeFlag pf with
      | false => simp
      | true =>
          by_cases hany : packages.any (fun p => p.packageName = pf.package) = true
          · have hin := hmem.mp hany
            rw [if_neg (by simp), if_pos hany, if_neg (fun h => h.2 hin), List.map_map]
            refine List.map_congr_left ?_
            intro p _
            rw [Function.comp_apply]
            split
            · exact insert_packageName p pf
            · rfl
          · have hout := fun h => hany (hmem.mpr h)
            rw [if_neg (by simp), if_neg hany, if_pos ⟨rfl, hout⟩, List.map_append]
            simp [FlagPackage.new]

/-- The start indices are the sums of the numbers of flags. -/
def StartsU32 : Nat → List FlagPackage → Prop
  | _, [] => True
  | n, p :: packages =>
      p.booleanStartIndex.toNat = n ∧ StartsU32 (n + p.booleanFlags.length % 2 ^ 32) packages

theorem toNat_ofNat_u32
    (n : Nat) :
    (UInt32.ofNat n).toNat = n % 2 ^ 32 :=
  UInt32.toNat_ofNat'

/-- The second loop panics when the number of flags overflows. -/
theorem completePackages_cases
    (version : UInt32) (redact : Bool) (start : UInt32) (groups : List FlagPackage) :
    (2 ^ 32 ≤ start.toNat + sumU32 (groups.map (fun p => p.booleanFlags.length)) ∧
      completePackages version redact start groups = .error .panic) ∨
    (start.toNat + sumU32 (groups.map (fun p => p.booleanFlags.length)) < 2 ^ 32 ∧
      ∃ packages, completePackages version redact start groups = .ok packages ∧
        StartsU32 start.toNat packages) := by
  induction groups generalizing start with
  | nil => exact .inr ⟨start.toNat_lt, [], rfl, trivial⟩
  | cons g groups ih =>
      rw [List.map_cons, sumU32_cons, completePackages]
      have hlength := toNat_ofNat_u32 g.booleanFlags.length
      rcases Checked.add_cases (ε := AconfigError) start (UInt32.ofNat g.booleanFlags.length) with
        ⟨next, hadd, hnext⟩ | ⟨hadd, hge⟩
      · rw [toNat_ofNat_u32] at hnext
        rcases ih next with ⟨hle, hrest⟩ | ⟨hlt, completed, hrest, hstarts⟩
        · refine .inl ⟨by omega, ?_⟩
          simp only [hadd, hrest, bind, Except.bind]
        · refine .inr ⟨by omega, completePackage version redact g start :: completed, ?_, rfl, ?_⟩
          · simp only [hadd, hrest, bind, Except.bind, pure, Except.pure]
          · rw [hnext] at hstarts
            exact hstarts
      · refine .inl ⟨by omega, ?_⟩
        simp only [hadd, bind, Except.bind]

/-- What the packages are when they are collected. -/
structure Collected (flags : List ParsedFlag) (packages : List FlagPackage) : Prop where
  grouped : Grouped flags packages
  names : packages.map (fun p => p.packageName) = keptPackages flags
  starts : StartsU32 0 packages
  count : sumU32 (packages.map (fun p => p.booleanFlags.length)) = numStored flags

theorem lengths_of_grouped
    (h : Grouped flags packages)
    (hnames : packages.map (fun p => p.packageName) = keptPackages flags) :
    packages.map (fun p => p.booleanFlags.length) =
      (keptPackages flags).map (fun package => (storedFlags flags package).length) := by
  rw [← hnames, List.map_map]
  refine List.map_congr_left ?_
  intro p hp
  rw [h.booleanFlags p hp]
  rfl

theorem groupFlagsByPackage_cases
    (caches : List (List ParsedFlag)) (version : UInt32) (redact : Bool) :
    (2 ^ 32 ≤ numStored caches.flatten ∧
      groupFlagsByPackage caches version redact = .error .panic) ∨
    (numStored caches.flatten < 2 ^ 32 ∧
      ∃ packages, groupFlagsByPackage caches version redact = .ok packages ∧
        Collected caches.flatten packages) := by
  have hgroups := lengths_of_grouped (grouped_foldl caches.flatten)
    (names_foldl_insertFlag caches.flatten)
  have hzero : (0 : UInt32).toNat = 0 := rfl
  have hcases := completePackages_cases version redact 0 (caches.flatten.foldl insertFlag [])
  rw [hgroups, ← numStored, hzero, Nat.zero_add] at hcases
  rcases hcases with ⟨hle, hpanic⟩ | ⟨hlt, packages, hok, hstarts⟩
  · exact .inl ⟨hle, hpanic⟩
  · have hgrouped := groupFlagsByPackage_grouped hok
    have hnames : packages.map (fun p => p.packageName) = keptPackages caches.flatten := by
      have hsame := congrArg (List.map Prod.fst) (completePackages_collected hok)
      rw [List.map_map, List.map_map] at hsame
      rw [← names_foldl_insertFlag]
      exact hsame
    refine .inr ⟨hlt, packages, hok, hgrouped, hnames, hstarts, ?_⟩
    rw [lengths_of_grouped hgrouped hnames, numStored]

end Collect

section Numbering

variable {flags : List ParsedFlag} {packages : List FlagPackage}

/-- The loop of `assign_flag_ids` over flags of the package. -/
theorem assignLoop_cases
    {package : String} {l : List ParsedFlag}
    (hl : ∀ pf ∈ l, shouldIncludeFlag pf = true ∧ pf.package = package)
    (s : (String → Option UInt16) × Nat) :
    (s.2 + l.length ≤ 65535 ∧ ∃ s', l.foldlM (assignFlagId package) s = .ok s') ∨
      (65535 < s.2 + l.length ∧
        (s.2 ≤ 65535 → l.foldlM (assignFlagId package) s = .error .tooManyFlags)) := by
  induction l generalizing s with
  | nil =>
      rcases le_or_gt s.2 65535 with hle | hgt
      · exact .inl ⟨hle, s, rfl⟩
      · exact .inr ⟨hgt, fun h => absurd hgt (by omega)⟩
  | cons pf l ih =>
      rw [List.forall_mem_cons] at hl
      rw [List.length_cons, List.foldlM_cons, assignFlagId, if_neg (not_not.mpr hl.1.2.symm)]
      by_cases hmany : 65535 ≤ s.2
      · refine .inr ⟨by omega, fun _ => ?_⟩
        rw [if_pos hmany]
        rfl
      · rw [if_neg hmany, if_pos hl.1.1]
        change _ ∧ (∃ s', l.foldlM (assignFlagId package) (_, s.2 + 1) = _) ∨
          _ ∧ (_ → l.foldlM (assignFlagId package) (_, s.2 + 1) = _)
        rcases ih hl.2 (Function.update s.1 pf.name (some (UInt16.ofNat s.2)), s.2 + 1) with
          ⟨hle, hok⟩ | ⟨hgt, herr⟩
        · exact .inl ⟨by simp only at hle; omega, hok⟩
        · exact .inr ⟨by simp only at hgt; omega, fun _ => herr (by simp only; omega)⟩

theorem Grouped.assignFlagIds_cases
    (h : Grouped flags packages) {p : FlagPackage} (hp : p ∈ packages) :
    (¬ p.booleanFlags.Pairwise (fun a b => a.name ≤ b.name) ∧
      Aconfig.assignFlagIds p.packageName p.booleanFlags = .error .namesNotSorted) ∨
    (p.booleanFlags.Pairwise (fun a b => a.name ≤ b.name) ∧ 65535 < p.booleanFlags.length ∧
      Aconfig.assignFlagIds p.packageName p.booleanFlags = .error .tooManyFlags) ∨
    (p.booleanFlags.Pairwise (fun a b => a.name ≤ b.name) ∧ p.booleanFlags.length ≤ 65535 ∧
      ∃ ids, Aconfig.assignFlagIds p.packageName p.booleanFlags = .ok ids ∧
        ∀ (i : Nat) (pf : ParsedFlag), p.booleanFlags[i]? = some pf →
          ids pf.name = some (UInt16.ofNat i)) := by
  have hflags : ∀ pf ∈ p.booleanFlags, shouldIncludeFlag pf = true ∧ pf.package = p.packageName :=
    fun pf hpf => (h.mem_booleanFlags hp hpf).2
  have hchain : p.booleanFlags.IsChain (fun a b => ¬ b.name < a.name) ↔
      p.booleanFlags.Pairwise (fun a b => a.name ≤ b.name) := by
    simp only [not_lt]
    exact List.isChain_iff_pairwise
  by_cases hsorted : p.booleanFlags.Pairwise (fun a b => a.name ≤ b.name)
  · rcases assignLoop_cases hflags (fun _ => none, 0) with ⟨hle, ⟨ids, n⟩, hok⟩ | ⟨hgt, herr⟩
    · rw [Nat.zero_add] at hle
      have hassign : Aconfig.assignFlagIds p.packageName p.booleanFlags = .ok ids := by
        rw [Aconfig.assignFlagIds, if_neg (not_not.mpr (hchain.mpr hsorted)), hok]
        rfl
      refine .inr (.inr ⟨hsorted, hle, ids, hassign, ?_⟩)
      intro i pf hi
      rw [← h.retain_booleanFlags hp] at hassign
      refine ((h.assignFlagIds hp hassign).2.2 _ _).mpr ⟨i, ?_, rfl⟩
      rw [h.flagNames p hp, List.getElem?_map, hi]
      rfl
    · rw [Nat.zero_add] at hgt
      refine .inr (.inl ⟨hsorted, hgt, ?_⟩)
      rw [Aconfig.assignFlagIds, if_neg (not_not.mpr (hchain.mpr hsorted)), herr (Nat.zero_le _)]
      rfl
  · refine .inl ⟨hsorted, ?_⟩
    rw [Aconfig.assignFlagIds, if_pos (fun hc => hsorted (hchain.mp hc))]
    rfl

end Numbering

section Tables

variable {ν : Type}

theorem fillBucket_total
    {buckets : List (Option UInt32)} {bucket : Nat} (hbucket : bucket < buckets.length)
    (offset : UInt32) :
    ∃ filled, fillBucket buckets bucket offset = .ok filled ∧ filled.length = buckets.length := by
  cases hfill : fillBucket buckets bucket offset with
  | error e =>
      rw [fillBucket, List.getElem?_eq_getElem hbucket] at hfill
      split at hfill <;> simp_all
  | ok filled => exact ⟨filled, rfl, length_fillBucket hfill⟩

theorem fillOffsets_cases
    (size : ν → Nat) (setNext : ν → UInt32 → ν) {ws : List (ν × Nat)}
    {buckets : List (Option UInt32)} (hbuckets : ∀ w ∈ ws, w.2 < buckets.length)
    (offset : UInt32) :
    (2 ^ 32 ≤ offset.toNat + sumU32 (ws.map (fun w => size w.1)) ∧
      fillOffsets size setNext ws buckets offset = .error .panic) ∨
    (offset.toNat + sumU32 (ws.map (fun w => size w.1)) < 2 ^ 32 ∧
      ∃ r, fillOffsets size setNext ws buckets offset = .ok r) := by
  induction ws generalizing buckets offset with
  | nil => exact .inr ⟨offset.toNat_lt, _, rfl⟩
  | cons w ws ih =>
      obtain ⟨node, bucket⟩ := w
      rw [List.forall_mem_cons] at hbuckets
      rw [List.map_cons, sumU32_cons, fillOffsets]
      simp only
      obtain ⟨filled, hfilled, hlength⟩ := fillBucket_total hbuckets.1 offset
      have hsize := toNat_ofNat_u32 (size node)
      rcases Checked.add_cases (ε := AconfigError) offset (UInt32.ofNat (size node)) with
        ⟨next, hadd, hnext⟩ | ⟨hadd, hge⟩
      · rw [hsize] at hnext
        rcases ih (hlength ▸ hbuckets.2) next with ⟨hle, hrest⟩ | ⟨hlt, ⟨nodes, last⟩, hrest⟩
        · refine .inl ⟨by omega, ?_⟩
          simp only [hfilled, hadd, hrest, bind, Except.bind]
        · refine .inr ⟨by omega, ?_⟩
          simp only [hfilled, hadd, hrest, bind, Except.bind, pure, Except.pure]
          exact ⟨_, rfl⟩
      · refine .inl ⟨by omega, ?_⟩
        simp only [hfilled, hadd, bind, Except.bind]

theorem sumU32_perm
    {l l' : List Nat} (h : l.Perm l') :
    sumU32 l = sumU32 l' :=
  (h.map _).sum_eq

theorem mod_sum_le_sumU32
    (l : List Nat) :
    l.sum % 2 ^ 32 ≤ sumU32 l := by
  induction l with
  | nil => exact Nat.le_refl 0
  | cons a l ih =>
      rw [sumU32_cons, List.sum_cons]
      omega

theorem createTable_cases
    (type : StorageFileType) (container : String) (version count numBuckets : UInt32)
    (nodeBytes : ν → List UInt8) (setNext : ν → UInt32 → ν) {wrappers : List (ν × Nat)}
    (hbuckets : ∀ w ∈ wrappers, w.2 < numBuckets.toNat) :
    (¬ TableFits container numBuckets (wrappers.map (fun w => (nodeBytes w.1).length)) ∧
      createTable type container version count numBuckets nodeBytes setNext wrappers =
        .error .panic) ∨
    (TableFits container numBuckets (wrappers.map (fun w => (nodeBytes w.1).length)) ∧
      ∃ t, createTable type container version count numBuckets nodeBytes setNext wrappers =
        .ok t) := by
  have hperm := wrappers.perm_insertionSort (fun a b => a.2 ≤ b.2)
  have hsum := sumU32_perm (hperm.map (fun w => (nodeBytes w.1).length))
  have hmod := mod_sum_le_sumU32 (wrappers.map (fun w => (nodeBytes w.1).length))
  have hproduct := Checked.mul_cases (ε := AconfigError) numBuckets 4
  rw [show (4 : UInt32).toNat = 4 from rfl] at hproduct
  have hinside : ∀ w ∈ wrappers.insertionSort (fun a b => a.2 ≤ b.2),
      w.2 < (List.replicate numBuckets.toNat (none : Option UInt32)).length := by
    intro w hw
    rw [List.length_replicate]
    exact hbuckets w (hperm.mem_iff.mp hw)
  have hheader := toNat_ofNat_u32 (25 + (bytesOf container).length)
  have hsizes := toNat_ofNat_u32 (wrappers.map (fun w => (nodeBytes w.1).length)).sum
  rw [TableFits, createTable, length_tableHeader_intoBytes]
  rcases hproduct with ⟨bucketSize, hmul, hbucketSize⟩ | ⟨hmul, hge⟩
  · rcases Checked.add_cases (ε := AconfigError) (UInt32.ofNat (25 + (bytesOf container).length))
      bucketSize with ⟨nodeOffset, hadd, hnodeOffset⟩ | ⟨hadd, hge⟩
    · rcases Checked.add_cases (ε := AconfigError) nodeOffset
        (UInt32.ofNat (wrappers.map (fun w => (nodeBytes w.1).length)).sum) with
        ⟨fileSize, hfile, hfileSize⟩ | ⟨hfile, hge⟩
      · have hfill := fillOffsets_cases (fun node => (nodeBytes node).length) setNext hinside
          nodeOffset
        rw [hsum] at hfill
        rcases hfill with ⟨hle, hfill⟩ | ⟨hlt, ⟨nodes, buckets⟩, hfill⟩
        · refine .inl ⟨by omega, ?_⟩
          simp only [hmul, hadd, hfile, hfill, bind, Except.bind]
        · refine .inr ⟨by omega, ?_⟩
          simp only [hmul, hadd, hfile, hfill, bind, Except.bind, pure, Except.pure]
          exact ⟨_, rfl⟩
      · refine .inl ⟨by omega, ?_⟩
        simp only [hmul, hadd, hfile, bind, Except.bind]
    · refine .inl ⟨by omega, ?_⟩
      simp only [hmul, hadd, bind, Except.bind]
  · refine .inl ⟨by omega, ?_⟩
    simp only [hmul, bind, Except.bind]

theorem createTable_ne_panic_iff
    (type : StorageFileType) (container : String) (version count numBuckets : UInt32)
    (nodeBytes : ν → List UInt8) (setNext : ν → UInt32 → ν) {wrappers : List (ν × Nat)}
    (hbuckets : ∀ w ∈ wrappers, w.2 < numBuckets.toNat) :
    createTable type container version count numBuckets nodeBytes setNext wrappers ≠
        .error .panic ↔
      TableFits container numBuckets (wrappers.map (fun w => (nodeBytes w.1).length)) := by
  rcases createTable_cases type container version count numBuckets nodeBytes setNext hbuckets with
    ⟨hfits, htable⟩ | ⟨hfits, t, htable⟩
  · exact iff_of_false (fun hne => hne htable) hfits
  · rw [htable]
    exact iff_of_true nofun hfits

theorem length_packageNode
    (version : UInt32) (p : FlagPackage) (numBuckets : UInt32) :
    ((packageNode p numBuckets).1.intoBytes version).length =
      packageNodeSize version p.packageName := by
  rw [packageNodeSize, packageNode, PackageTableNode.intoBytes, PackageTableNode.intoBytes]
  split_ifs <;> simp [PackageTableNode.intoBytesV1, PackageTableNode.intoBytesV2,
    PackageTableNode.intoBytesV3, PackageTableNode.lastBytes]

theorem sizes_of_mapM_createNode
    {l : List ParsedFlag} {packageId numBuckets : UInt32} {ids : String → Option UInt16}
    {ws : List (FlagTableNode × Nat)}
    (h : l.mapM (createNode packageId numBuckets ids) = .ok ws) :
    ws.map (fun w => w.1.intoBytes.length) = l.map (fun pf => flagNodeSize pf.name) := by
  replace h := Loop.mapM_eq_ok.mp h
  induction h with
  | nil => rfl
  | cons hw _ ih =>
      obtain ⟨fid, _, rfl⟩ := createNode_eq_ok.mp hw
      rw [List.map_cons, List.map_cons, ih]
      simp [flagNodeSize, FlagTableNode.intoBytes]

theorem createNodes_cases
    {flags : List ParsedFlag} {packages : List FlagPackage} (h : Grouped flags packages)
    {p : FlagPackage} (hp : p ∈ packages) {numBuckets : UInt32} (hpos : 0 < numBuckets.toNat) :
    (¬ p.booleanFlags.Pairwise (fun a b => a.name ≤ b.name) ∧
      liftError (createNodes p numBuckets) = .error .panic) ∨
    (p.booleanFlags.Pairwise (fun a b => a.name ≤ b.name) ∧ 65535 < p.booleanFlags.length ∧
      liftError (createNodes p numBuckets) = .error (.err .tooManyFlags)) ∨
    (p.booleanFlags.Pairwise (fun a b => a.name ≤ b.name) ∧ p.booleanFlags.length ≤ 65535 ∧
      ∃ ws, liftError (createNodes p numBuckets) = .ok ws ∧
        ws.map (fun w => w.1.intoBytes.length) =
          p.booleanFlags.map (fun pf => flagNodeSize pf.name) ∧
        ∀ w ∈ ws, w.2 < numBuckets.toNat) := by
  have hretain : p.booleanFlags.filter shouldIncludeFlag = p.booleanFlags :=
    h.retain_booleanFlags hp
  rw [createNodes, hretain]
  rcases h.assignFlagIds_cases hp with ⟨hsorted, hids⟩ | ⟨hsorted, hlength, hids⟩ |
    ⟨hsorted, hlength, ids, hids, hnumbers⟩
  · refine .inl ⟨hsorted, ?_⟩
    rw [hids]
    rfl
  · refine .inr (.inl ⟨hsorted, hlength, ?_⟩)
    rw [hids]
    rfl
  · have hcreate : ∀ pf ∈ p.booleanFlags, ∃ w, createNode p.packageId numBuckets ids pf = .ok w := by
      intro pf hpf
      obtain ⟨i, hi⟩ := List.getElem?_of_mem hpf
      exact ⟨_, createNode_eq_ok.mpr ⟨_, hnumbers i pf hi, rfl⟩⟩
    obtain ⟨ws, hws⟩ := Loop.mapM_total hcreate
    refine .inr (.inr ⟨hsorted, hlength, ws, ?_, ?_, ?_⟩)
    · rw [hids]
      exact liftError_eq_ok.mpr hws
    · exact sizes_of_mapM_createNode hws
    · intro w hw
      obtain ⟨pf, _, hnode⟩ := (Loop.mem_of_mapM_eq_ok hws).mp hw
      obtain ⟨fid, _, rfl⟩ := createNode_eq_ok.mp hnode
      exact getBucketIndex_lt _ _ hpos

theorem mapM_createNodes_cases
    {flags : List ParsedFlag} {packages : List FlagPackage} (h : Grouped flags packages)
    {numBuckets : UInt32} (hpos : 0 < numBuckets.toNat) {rest : List FlagPackage}
    (hrest : ∀ p ∈ rest, p ∈ packages) :
    (¬ NamesInOrder flags (rest.map (fun p => p.packageName)) ∧
      rest.mapM (fun p => liftError (createNodes p numBuckets)) = .error .panic) ∨
    (NamesInOrder flags (rest.map (fun p => p.packageName)) ∧
      ¬ (∀ p ∈ rest, p.booleanFlags.length ≤ 65535) ∧
      ∃ e, rest.mapM (fun p => liftError (createNodes p numBuckets)) = .error (.err e)) ∨
    (NamesInOrder flags (rest.map (fun p => p.packageName)) ∧
      (∀ p ∈ rest, p.booleanFlags.length ≤ 65535) ∧
      ∃ lists, rest.mapM (fun p => liftError (createNodes p numBuckets)) = .ok lists ∧
        lists.flatten.map (fun w => w.1.intoBytes.length) =
          rest.flatMap (fun p => p.booleanFlags.map (fun pf => flagNodeSize pf.name)) ∧
        ∀ w ∈ lists.flatten, w.2 < numBuckets.toNat) := by
  induction rest with
  | nil => exact .inr (.inr ⟨trivial, by simp, [], rfl, rfl, by simp⟩)
  | cons p rest ih =>
      rw [List.forall_mem_cons] at hrest
      have hflags : p.booleanFlags = storedFlags flags p.packageName :=
        h.booleanFlags p hrest.1
      rw [List.map_cons, NamesInOrder, ← hflags, List.mapM_cons, List.forall_mem_cons]
      rcases createNodes_cases h hrest.1 hpos with ⟨hsorted, hnodes⟩ | ⟨hsorted, hlength, hnodes⟩ |
        ⟨hsorted, hlength, ws, hnodes, hsizes, hbuckets⟩
      · refine .inl ⟨fun hboth => hsorted hboth.1, ?_⟩
        rw [hnodes]
        rfl
      · refine .inr (.inl ⟨⟨hsorted, fun hle => ?_⟩, fun hall => ?_, .tooManyFlags, ?_⟩)
        · omega
        · omega
        · rw [hnodes]
          rfl
      · rcases ih hrest.2 with ⟨horder, hmap⟩ | ⟨horder, hmany, e, hmap⟩ |
          ⟨horder, hfew, lists, hmap, hlists, hinside⟩
        · refine .inl ⟨fun hboth => horder (hboth.2 hlength), ?_⟩
          simp only [hnodes, hmap, bind, Except.bind]
        · refine .inr (.inl ⟨⟨hsorted, fun _ => horder⟩, fun hall => hmany hall.2, e, ?_⟩)
          simp only [hnodes, hmap, bind, Except.bind]
        · refine .inr (.inr ⟨⟨hsorted, fun _ => horder⟩, ⟨hlength, hfew⟩, ws :: lists, ?_, ?_, ?_⟩)
          · simp only [hnodes, hmap, bind, Except.bind, pure, Except.pure]
          · rw [List.flatten_cons, List.map_append, hsizes, hlists, List.flatMap_cons]
          · intro w hw
            rcases List.mem_append.mp hw with hw | hw
            · exact hbuckets w hw
            · exact hinside w hw

end Tables

section Values

variable {flags : List ParsedFlag} {packages : List FlagPackage}

theorem setPackageValues_cases
    (h : Grouped flags packages) (value : ParsedFlag → Bool) {p : FlagPackage} (hp : p ∈ packages)
    {values : List Bool}
    (hinside : p.booleanFlags.length ≤ 65535 →
      p.booleanStartIndex.toNat + p.booleanFlags.length ≤ values.length) :
    (¬ p.booleanFlags.Pairwise (fun a b => a.name ≤ b.name) ∧
      setPackageValues value values p.retain = .error .panic) ∨
    (p.booleanFlags.Pairwise (fun a b => a.name ≤ b.name) ∧ 65535 < p.booleanFlags.length ∧
      setPackageValues value values p.retain = .error (.err .tooManyFlags)) ∨
    (p.booleanFlags.Pairwise (fun a b => a.name ≤ b.name) ∧ p.booleanFlags.length ≤ 65535 ∧
      ∃ values', setPackageValues value values p.retain = .ok values' ∧
        values'.length = values.length) := by
  have hretain := h.retain_booleanFlags hp
  have hname : p.retain.packageName = p.packageName := rfl
  have hstart : p.retain.booleanStartIndex = p.booleanStartIndex := rfl
  rw [setPackageValues, hretain, hname, hstart]
  rcases h.assignFlagIds_cases hp with ⟨hsorted, hids⟩ | ⟨hsorted, hlength, hids⟩ |
    ⟨hsorted, hlength, ids, hids, hnumbers⟩
  · refine .inl ⟨hsorted, ?_⟩
    rw [hids]
    rfl
  · refine .inr (.inl ⟨hsorted, hlength, ?_⟩)
    rw [hids]
    rfl
  · refine .inr (.inr ⟨hsorted, hlength, ?_⟩)
    rw [liftError_eq_ok.mpr hids]
    refine Loop.forLoop_total _ (fun _ (l : List Bool) => l.length = values.length) _ _ rfl ?_
    intro done pf more l hflags hl
    have hi : p.booleanFlags[done.length]? = some pf := by
      rw [hflags]
      simp
    have hlt := (List.getElem?_eq_some_iff.mp hi).1
    have hfid : (UInt16.ofNat done.length).toNat = done.length :=
      UInt16.toNat_ofNat_of_lt' (show done.length < 2 ^ 16 by omega)
    have hbound := hinside hlength
    rw [setFlagValue, hnumbers _ _ hi]
    simp only [hfid]
    rw [if_pos (by omega)]
    exact ⟨_, rfl, by rw [List.length_set, hl]⟩

theorem setValues_cases
    (h : Grouped flags packages) (value : ParsedFlag → Bool) {rest : List FlagPackage}
    (hrest : ∀ p ∈ rest, p ∈ packages) {n : Nat} (hstarts : StartsU32 n rest) {values : List Bool}
    (hinside : n + sumU32 (rest.map (fun p => p.booleanFlags.length)) ≤ values.length) :
    (¬ NamesInOrder flags (rest.map (fun p => p.packageName)) ∧
      (rest.map FlagPackage.retain).foldlM (setPackageValues value) values = .error .panic) ∨
    (NamesInOrder flags (rest.map (fun p => p.packageName)) ∧
      ¬ (∀ p ∈ rest, p.booleanFlags.length ≤ 65535) ∧
      ∃ e, (rest.map FlagPackage.retain).foldlM (setPackageValues value) values =
        .error (.err e)) ∨
    (NamesInOrder flags (rest.map (fun p => p.packageName)) ∧
      (∀ p ∈ rest, p.booleanFlags.length ≤ 65535) ∧
      ∃ values', (rest.map FlagPackage.retain).foldlM (setPackageValues value) values =
        .ok values') := by
  induction rest generalizing n values with
  | nil => exact .inr (.inr ⟨trivial, by simp, values, rfl⟩)
  | cons p rest ih =>
      rw [List.forall_mem_cons] at hrest
      have hflags : p.booleanFlags = storedFlags flags p.packageName :=
        h.booleanFlags p hrest.1
      rw [List.map_cons, sumU32_cons] at hinside
      rw [List.map_cons, List.map_cons, NamesInOrder, ← hflags, List.foldlM_cons,
        List.forall_mem_cons]
      have hp : p.booleanFlags.length ≤ 65535 →
          p.booleanStartIndex.toNat + p.booleanFlags.length ≤ values.length := by
        intro hle
        rw [hstarts.1]
        rw [Nat.mod_eq_of_lt (by omega)] at hinside
        omega
      rcases setPackageValues_cases h value hrest.1 hp with ⟨hsorted, hset⟩ |
        ⟨hsorted, hlength, hset⟩ | ⟨hsorted, hlength, values', hset, hvalues'⟩
      · refine .inl ⟨fun hboth => hsorted hboth.1, ?_⟩
        rw [hset]
        rfl
      · refine .inr (.inl ⟨⟨hsorted, fun hle => ?_⟩, fun hall => ?_, .tooManyFlags, ?_⟩)
        · omega
        · omega
        · rw [hset]
          rfl
      · have hafter : n + p.booleanFlags.length % 2 ^ 32 +
            sumU32 (rest.map (fun p => p.booleanFlags.length)) ≤ values'.length := by
          omega
        rw [hset]
        rcases ih hrest.2 hstarts.2 hafter with ⟨horder, hfold⟩ | ⟨horder, hmany, hfold⟩ | ⟨horder, hfew, hfold⟩
        · exact .inl ⟨fun hboth => horder (hboth.2 hlength), hfold⟩
        · exact .inr (.inl ⟨⟨hsorted, fun _ => horder⟩, fun hall => hmany hall.2, hfold⟩)
        · exact .inr (.inr ⟨⟨hsorted, fun _ => horder⟩, ⟨hlength, hfew⟩, hfold⟩)

end Values

section Generate

variable {flags : List ParsedFlag} {packages : List FlagPackage}

theorem sumFlags_total
    {l : List FlagPackage} (hlt : sumU32 (l.map (fun p => p.booleanFlags.length)) < 2 ^ 32) :
    sumFlags l = .ok (UInt32.ofNat (sumU32 (l.map (fun p => p.booleanFlags.length)))) := by
  suffices H : ∀ start : UInt32,
      start.toNat + sumU32 (l.map (fun p => p.booleanFlags.length)) < 2 ^ 32 →
      ∃ n, l.foldlM (fun sum p => Checked.add (ε := AconfigError) sum
        (UInt32.ofNat p.booleanFlags.length)) start = .ok n ∧
        n.toNat = start.toNat + sumU32 (l.map (fun p => p.booleanFlags.length)) by
    obtain ⟨n, hok, hn⟩ := H 0 (by simpa using hlt)
    rw [sumFlags, hok, Except.ok.injEq, ← UInt32.toNat_inj, hn, toNat_ofNat_u32,
      Nat.mod_eq_of_lt hlt]
    exact Nat.zero_add _
  clear hlt
  induction l with
  | nil => exact fun start _ => ⟨start, rfl, rfl⟩
  | cons p l ih =>
      intro start hstart
      rw [List.map_cons, sumU32_cons] at hstart ⊢
      have hlength := toNat_ofNat_u32 p.booleanFlags.length
      rcases Checked.add_cases (ε := AconfigError) start (UInt32.ofNat p.booleanFlags.length) with
        ⟨next, hadd, hnext⟩ | ⟨_, hge⟩
      · obtain ⟨n, hok, hn⟩ := ih next (by omega)
        refine ⟨n, ?_, by omega⟩
        rw [List.foldlM_cons, hadd]
        exact hok
      · omega

theorem getTableSize_cases
    (entries : UInt32) :
    (2 ^ 31 ≤ entries.toNat ∧ liftStorage (getTableSize entries) = .error .panic) ∨
    (entries.toNat < 2 ^ 31 ∧ ((∃ e, liftStorage (getTableSize entries) = .error (.err e)) ∧
      (∀ n, getTableSize entries ≠ .ok n) ∨
      ∃ n, getTableSize entries = .ok n ∧ liftStorage (getTableSize entries) = .ok n ∧
        0 < n.toNat)) := by
  have hpanic := getTableSize_eq_panic entries
  rcases hsize : getTableSize entries with (e | _) | n
  · rw [hsize] at hpanic
    refine .inr ⟨by simpa using hpanic, .inl ⟨⟨_, rfl⟩, fun n => ?_⟩⟩
    exact nofun
  · exact .inl ⟨hpanic.mp hsize, rfl⟩
  · rw [hsize] at hpanic
    exact .inr ⟨by simpa using hpanic, .inr ⟨n, rfl, rfl, getTableSize_pos hsize⟩⟩

theorem fewFlags_iff
    (h : Collected flags packages) :
    FewFlags flags ↔ ∀ p ∈ packages, p.booleanFlags.length ≤ 65535 := by
  rw [FewFlags, ← h.names, List.forall_mem_map]
  refine forall₂_congr ?_
  intro p hp
  rw [h.grouped.booleanFlags p hp]
  rfl

theorem createPackageTable_panics_iff
    (h : Collected flags packages) (container : String) (version : UInt32) :
    createPackageTable container packages version ≠ .error .panic ↔
      (keptPackages flags).length % 2 ^ 32 < 2 ^ 31 ∧
        ∀ numBuckets, getTableSize (UInt32.ofNat (keptPackages flags).length) = .ok numBuckets →
          TableFits container numBuckets ((keptPackages flags).map (packageNodeSize version)) := by
  have hcount : packages.length = (keptPackages flags).length := by
    rw [← h.names, List.length_map]
  have hNat := toNat_ofNat_u32 (keptPackages flags).length
  rw [createPackageTable, hcount]
  rcases getTableSize_cases (UInt32.ofNat (keptPackages flags).length) with
    ⟨hge, hsize⟩ | ⟨hlt, ⟨⟨e, hsize⟩, hnone⟩ | ⟨n, hn, hsize, hpos⟩⟩
  · rw [hsize]
    refine iff_of_false (fun hne => hne rfl) (fun hboth => ?_)
    omega
  · rw [hsize]
    refine iff_of_true nofun ⟨by omega, fun n hn => absurd hn (hnone n)⟩
  · rw [hsize, hn]
    simp only [Except.ok.injEq, forall_eq']
    rw [and_iff_right (by omega)]
    have hsizes : (packages.map (fun package => packageNode package n)).map
        (fun w => (w.1.intoBytes version).length) =
        (keptPackages flags).map (packageNodeSize version) := by
      rw [← h.names, List.map_map, List.map_map]
      refine List.map_congr_left ?_
      intro p _
      exact length_packageNode version p n
    have hinside : ∀ w ∈ packages.map (fun package => packageNode package n), w.2 < n.toNat := by
      intro w hw
      obtain ⟨p, _, rfl⟩ := List.mem_map.mp hw
      exact getBucketIndex_lt _ _ hpos
    rw [← hsizes]
    exact createTable_ne_panic_iff _ _ _ _ _ _ _ hinside

theorem createFlagTable_panics_iff
    (h : Collected flags packages) (hlt : numStored flags < 2 ^ 32) (container : String)
    (version : UInt32) :
    createFlagTable container packages version ≠ .error .panic ↔
      numStored flags < 2 ^ 31 ∧
        ∀ numBuckets, getTableSize (UInt32.ofNat (numStored flags)) = .ok numBuckets →
          NamesInOrder flags (keptPackages flags) ∧
            (FewFlags flags → TableFits container numBuckets ((keptPackages flags).flatMap
              (fun package =>
                (storedFlags flags package).map (fun pf => flagNodeSize pf.name)))) := by
  have hNat := toNat_ofNat_u32 (numStored flags)
  rw [Nat.mod_eq_of_lt hlt] at hNat
  rw [← h.count] at hlt
  rw [createFlagTable, sumFlags_total hlt, h.count]
  change (liftStorage (getTableSize (UInt32.ofNat (numStored flags))) >>= _) ≠ _ ↔ _
  rcases getTableSize_cases (UInt32.ofNat (numStored flags)) with
    ⟨hge, hsize⟩ | ⟨hsmall, ⟨⟨e, hsize⟩, hnone⟩ | ⟨n, hn, hsize, hpos⟩⟩
  · rw [hsize]
    refine iff_of_false (fun hne => hne rfl) (fun hboth => ?_)
    omega
  · rw [hsize]
    exact iff_of_true nofun ⟨by omega, fun n hn => absurd hn (hnone n)⟩
  · rw [hsize, hn]
    simp only [Except.ok.injEq, forall_eq']
    rw [and_iff_right (by omega), fewFlags_iff h]
    have hsizes : packages.flatMap (fun p => p.booleanFlags.map (fun pf => flagNodeSize pf.name)) =
        (keptPackages flags).flatMap (fun package =>
          (storedFlags flags package).map (fun pf => flagNodeSize pf.name)) := by
      rw [← h.names, List.flatMap_map]
      refine List.flatMap_congr ?_
      intro p hp
      rw [h.grouped.booleanFlags p hp]
      rfl
    change (packages.mapM (fun package => liftError (createNodes package n)) >>= _) ≠ _ ↔ _
    rw [← hsizes]
    rcases mapM_createNodes_cases h.grouped hpos (fun p hp => hp) with ⟨horder, hnodes⟩ |
      ⟨horder, hmany, e, hnodes⟩ | ⟨horder, hfew, lists, hnodes, hlists, hinside⟩
    · rw [h.names] at horder
      rw [hnodes]
      exact iff_of_false (fun hne => hne rfl) (fun hboth => horder hboth.1)
    · rw [h.names] at horder
      rw [hnodes]
      exact iff_of_true nofun ⟨horder, fun hfew => absurd hfew hmany⟩
    · rw [h.names] at horder
      rw [hnodes, and_iff_right horder, ← hlists, forall_prop_of_true hfew]
      exact createTable_ne_panic_iff _ _ _ _ _ _ _ hinside

theorem sumFlags_retain_total
    (h : Collected flags packages) (hlt : numStored flags < 2 ^ 32) :
    sumFlags (packages.map FlagPackage.retain) = .ok (UInt32.ofNat (numStored flags)) := by
  have hsame : (packages.map FlagPackage.retain).map (fun p => p.booleanFlags.length) =
      packages.map (fun p => p.booleanFlags.length) := by
    rw [List.map_map]
    refine List.map_congr_left ?_
    intro p hp
    exact congrArg List.length (h.grouped.retain_booleanFlags hp)
  rw [← h.count, ← hsame] at hlt
  rw [sumFlags_total hlt, hsame, h.count]

/-- What `create_flag_value` and `create_flag_info` have in common. -/
theorem setValues_ne_panic_iff
    {α : Type} (h : Collected flags packages) (hlt : numStored flags < 2 ^ 32)
    (value : ParsedFlag → Bool) {P : Prop} {finish : List Bool → Checked AconfigError α}
    (hfinish : ∀ values, finish values ≠ .error .panic ↔ P) :
    ((packages.map FlagPackage.retain).foldlM (setPackageValues value)
        (List.replicate (UInt32.ofNat (numStored flags)).toNat false) >>= finish) ≠
        .error .panic ↔
      NamesInOrder flags (keptPackages flags) ∧ (FewFlags flags → P) := by
  have hinside : 0 + sumU32 (packages.map (fun p => p.booleanFlags.length)) ≤
      (List.replicate (UInt32.ofNat (numStored flags)).toNat false).length := by
    rw [List.length_replicate, toNat_ofNat_u32, Nat.mod_eq_of_lt hlt, h.count]
    omega
  rw [fewFlags_iff h, ← h.names]
  rcases setValues_cases h.grouped value (fun p hp => hp) h.starts hinside with ⟨horder, hset⟩ |
    ⟨horder, hmany, e, hset⟩ | ⟨horder, hfew, values, hset⟩
  · rw [hset]
    exact iff_of_false (fun hne => hne rfl) (fun hboth => horder hboth.1)
  · rw [hset]
    exact iff_of_true nofun ⟨horder, fun hfew => absurd hfew hmany⟩
  · rw [hset, and_iff_right horder, forall_prop_of_true hfew]
    exact hfinish values

theorem listFits_iff
    {α : Type} {container : String} {n : Nat} (hlt : n < 2 ^ 32) (f : UInt32 → α) :
    (Checked.add (ε := AconfigError) (UInt32.ofNat (21 + (bytesOf container).length))
      (UInt32.ofNat n) >>= fun size => pure (f size)) ≠ .error .panic ↔ ListFits container n := by
  have hheader := toNat_ofNat_u32 (21 + (bytesOf container).length)
  have hn := toNat_ofNat_u32 n
  rw [Nat.mod_eq_of_lt hlt] at hn
  have hsize := (UInt32.ofNat (21 + (bytesOf container).length)).toNat_lt
  rw [ListFits]
  rcases Checked.add_cases (ε := AconfigError) (UInt32.ofNat (21 + (bytesOf container).length))
    (UInt32.ofNat n) with ⟨c, hadd, hc⟩ | ⟨hadd, hge⟩
  · have hc' := c.toNat_lt
    rw [hadd]
    exact iff_of_true nofun (by omega)
  · rw [hadd]
    exact iff_of_false (fun hne => hne rfl) (by omega)

theorem createFlagValue_panics_iff
    (h : Collected flags packages) (hlt : numStored flags < 2 ^ 32) (container : String)
    (version : UInt32) :
    createFlagValue container packages version ≠ .error .panic ↔
      NamesInOrder flags (keptPackages flags) ∧
        (FewFlags flags → ListFits container (numStored flags)) := by
  rw [createFlagValue]
  simp only [sumFlags_retain_total h hlt, length_listHeader_intoBytes]
  exact setValues_ne_panic_iff h hlt _ (fun _ => listFits_iff hlt _)

theorem createFlagInfo_panics_iff
    (h : Collected flags packages) (hlt : numStored flags < 2 ^ 32) (container : String)
    (version : UInt32) :
    createFlagInfo container packages version ≠ .error .panic ↔
      NamesInOrder flags (keptPackages flags) ∧
        (FewFlags flags → ListFits container (numStored flags)) := by
  have hone : Checked.mul (ε := AconfigError) (UInt32.ofNat (numStored flags))
      (UInt32.ofNat (FlagInfoNode.create false).intoBytes.length) =
      .ok (UInt32.ofNat (numStored flags)) := by
    rw [Checked.mul_eq_ok]
    exact (Nat.mul_one _).symm
  rw [createFlagInfo]
  simp only [sumFlags_retain_total h hlt, length_listHeader_intoBytes]
  refine setValues_ne_panic_iff h hlt _ ?_
  intro values
  rw [hone]
  exact listFits_iff hlt _

/-- A file is generated, or refused with an error, exactly if no size overflows and the names of
the flags are in order. -/
theorem generateStorageFile_panics_iff
    (container : String) (caches : List (List ParsedFlag)) (file : StorageFileType)
    (version : UInt32) (redactExportedReads : Bool) :
    generateStorageFile container caches file version redactExportedReads ≠ .error .panic ↔
      GeneratesFrom container caches.flatten version file := by
  have hpure : ∀ {α : Type} (x : Checked AconfigError α) (f : α → List UInt8),
      (x >>= fun a => pure (f a)) ≠ .error .panic ↔ x ≠ .error .panic := by
    intro α x f
    rw [Ne, Checked.bind_eq_panic, or_iff_left]
    rintro ⟨a, _, hf⟩
    cases hf
  rw [generateStorageFile]
  rcases groupFlagsByPackage_cases caches version redactExportedReads with
    ⟨hge, hgroup⟩ | ⟨hlt, packages, hgroup, hcollected⟩
  · rw [hgroup]
    refine iff_of_false (fun hne => hne rfl) ?_
    cases file <;> rw [GeneratesFrom] <;> rintro ⟨hlt, -⟩ <;> omega
  · rw [hgroup]
    cases file with
    | packageMap =>
        rw [GeneratesFrom, and_iff_right hlt, ← createPackageTable_panics_iff hcollected]
        exact hpure _ _
    | flagMap =>
        rw [GeneratesFrom, ← createFlagTable_panics_iff hcollected hlt container version]
        exact hpure _ _
    | flagVal =>
        rw [GeneratesFrom, and_iff_right hlt,
          ← createFlagValue_panics_iff hcollected hlt container version]
        exact hpure _ _
    | flagInfo =>
        rw [GeneratesFrom, and_iff_right hlt,
          ← createFlagInfo_panics_iff hcollected hlt container version]
        exact hpure _ _

/-- A read-write flag of the package `com.a`. -/
def flagNamed (name : String) : ParsedFlag :=
  ⟨"com.a", name, none, .enabled, .readWrite, false, false, some .aconfigd⟩

/-- Two caches have flags of one package. -/
theorem generateStorageFile_panics :
    verifyFields [flagNamed "b"] = .ok () ∧ verifyFields [flagNamed "a"] = .ok () ∧
    generateStorageFile "system" [[flagNamed "b"], [flagNamed "a"]] .flagMap 1 false =
      .error .panic ∧
    generateStorageFile "system" [[flagNamed "b"], [flagNamed "a"]] .flagVal 1 false =
      .error .panic := by
  decide +kernel

end Generate

end Aconfig
end AndroidBuild
