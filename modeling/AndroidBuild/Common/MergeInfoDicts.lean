import AndroidBuild.Common.InfoDict
import AndroidBuild.Lib.Loop
import Mathlib

/-!
# `MergeDynamicPartitionInfoDicts`

The info of the dynamic partitions of the framework and of the vendor are put
together: the partition lists are united, the groups and their sizes are those
of the vendor.
-/

namespace AndroidBuild
namespace Common

open Text

section Model

/-- How the merge ends without a dictionary. -/
inductive MergeFailure where
  | valueError (message : Str)
  | keyError (key : Str)
  deriving DecidableEq

def useDynamicPartitionsKey : Str :=
  "use_dynamic_partitions".toList

def dynamicPartitionListKey : Str :=
  "dynamic_partition_list".toList

def blockDevicesKey : Str :=
  "super_block_devices".toList

def partitionGroupsKey : Str :=
  "super_partition_groups".toList

def vabcCowVersionKey : Str :=
  "vabc_cow_version".toList

def vendorFlags : List Str :=
  ["virtual_ab".toList, "lpmake".toList, "super_metadata_device".toList,
    "super_partition_error_limit".toList, "super_partition_size".toList]

def uniqConcat (a b : Str) : Str :=
  let combined := (wordsFrom [] a ++ wordsFrom [] b).dedup
  let combined := (combined.filter (fun item => stripChars item ≠ [])).map stripChars
  [' '].intercalate (combined.insertionSort (fun x y => x ≤ y))

/-- The entries that are the same in both dictionaries. -/
def copyEqual (framework vendor merged : InfoDict) : InfoDict :=
  vendor.entries.foldl
    (fun merged e => if framework.get? e.1 = some e.2 then merged.set e.1 e.2 else merged) merged

/-- `merged_dict[key] = vendor_dict[key]`, for a key that is required. -/
def copyRequired (vendor merged : InfoDict) (key : Str) : Except MergeFailure InfoDict :=
  match vendor.get? key with
  | some value => .ok (merged.set key value)
  | none =>
      .error (.valueError ("Vendor dict does not contain required key ".toList ++ key ++
        ".".toList))

def copyDevices (vendor merged : InfoDict) : Except MergeFailure InfoDict :=
  match vendor.get? blockDevicesKey with
  | none => .ok merged
  | some devices =>
      (wordsFrom [] devices).foldlM
        (fun merged device => copyRequired vendor merged (deviceSizeKey device))
        (merged.set blockDevicesKey devices)

def mergeGroup (framework vendor merged : InfoDict) (group : Str) :
    Except MergeFailure InfoDict := do
  let merged ← copyRequired vendor merged (groupSizeKey group)
  .ok (merged.set (partitionListKey group)
    (uniqConcat ((framework.get? (partitionListKey group)).getD [])
      ((vendor.get? (partitionListKey group)).getD [])))

/-- `vabc_cow_version`. -/
def mergeCowVersion (framework vendor : InfoDict) : Str :=
  match vendor.get? vabcCowVersionKey, framework.get? vabcCowVersionKey with
  | some v, some f => if f < v then f else v
  | _, _ => "2".toList

def copyFlags (vendor merged : InfoDict) : InfoDict :=
  vendorFlags.foldl
    (fun merged key =>
      match vendor.get? key with
      | some value => merged.set key value
      | none => merged) merged

def mergeDynamicPartitionInfoDicts (framework vendor : InfoDict) :
    Except MergeFailure InfoDict := do
  if framework.get? useDynamicPartitionsKey ≠ some "true".toList ∨
      vendor.get? useDynamicPartitionsKey ≠ some "true".toList then
    .error (.valueError "Both dictionaries must have use_dynamic_partitions=true".toList)
  else
    let merged := copyEqual framework vendor (.set .empty useDynamicPartitionsKey "true".toList)
    let merged := merged.set dynamicPartitionListKey
      (uniqConcat ((framework.get? dynamicPartitionListKey).getD [])
        ((vendor.get? dynamicPartitionListKey).getD []))
    let merged ← copyDevices vendor merged
    match vendor.get? partitionGroupsKey with
    | none => .error (.keyError partitionGroupsKey)
    | some groups =>
        let merged := merged.set partitionGroupsKey groups
        let merged ← (wordsFrom [] groups).foldlM (mergeGroup framework vendor) merged
        let merged := merged.set vabcCowVersionKey (mergeCowVersion framework vendor)
        .ok (copyFlags vendor merged)

end Model

section Lists

variable (d : InfoDict)

def wordsOf (key : Str) : List Str :=
  wordsFrom [] ((d.get? key).getD [])

/-- The partitions of `dynamic_partition_list`. -/
def partitions : List Str :=
  wordsOf d dynamicPartitionListKey

/-- The groups of `super_partition_groups`. -/
def groupsOf : List Str :=
  wordsOf d partitionGroupsKey

def groupPartitions (group : Str) : List Str :=
  wordsOf d (partitionListKey group)

/-- The list of partitions is the disjoint union of the lists of the groups. -/
structure Consistent : Prop where
  union : ∀ p, p ∈ partitions d ↔ ∃ group ∈ groupsOf d, p ∈ groupPartitions d group
  disjoint : ∀ group ∈ groupsOf d, ∀ group' ∈ groupsOf d, ∀ p ∈ groupPartitions d group,
    p ∈ groupPartitions d group' → group = group'

/-- The groups of the framework fit those of the vendor. -/
structure Compatible (framework vendor : InfoDict) : Prop where
  covered : ∀ p ∈ partitions framework, p ∉ partitions vendor →
    ∃ group ∈ groupsOf vendor, p ∈ groupPartitions framework group
  listed : ∀ group ∈ groupsOf vendor, ∀ p ∈ groupPartitions framework group,
    (p ∈ partitions framework ∨ p ∈ partitions vendor) ∧
      ∀ group' ∈ groupsOf vendor,
        p ∈ groupPartitions framework group' ∨ p ∈ groupPartitions vendor group' → group' = group

variable {a b : Str}

/-- The words of `uniq_concat` are the words of both texts, each once. -/
theorem perm_uniqConcat
    (a b : Str) :
    (wordsFrom [] (uniqConcat a b)).Perm (wordsFrom [] a ++ wordsFrom [] b).dedup := by
  have hword : ∀ w ∈ (wordsFrom [] a ++ wordsFrom [] b).dedup,
      w ≠ [] ∧ ∀ c ∈ w, isSpace c = false := by
    intro w hw
    rw [List.mem_dedup, List.mem_append] at hw
    rcases hw with hw | hw
    · exact of_mem_wordsFrom (by simp) hw
    · exact of_mem_wordsFrom (by simp) hw
  have hstrip : ∀ w ∈ (wordsFrom [] a ++ wordsFrom [] b).dedup, stripChars w = w := by
    intro w hw
    exact stripChars_eq_self (hword w hw).2
  have hfilter : ((wordsFrom [] a ++ wordsFrom [] b).dedup.filter
      (fun item => stripChars item ≠ [])).map stripChars =
      (wordsFrom [] a ++ wordsFrom [] b).dedup := by
    have hall : (wordsFrom [] a ++ wordsFrom [] b).dedup.filter
        (fun item => stripChars item ≠ []) = (wordsFrom [] a ++ wordsFrom [] b).dedup := by
      refine List.filter_eq_self.mpr ?_
      intro w hw
      rw [decide_eq_true_eq, hstrip w hw]
      exact (hword w hw).1
    rw [hall]
    conv_rhs => rw [← List.map_id (wordsFrom [] a ++ wordsFrom [] b).dedup]
    exact List.map_congr_left hstrip
  unfold uniqConcat
  simp only [hfilter]
  have hperm := (wordsFrom [] a ++ wordsFrom [] b).dedup.perm_insertionSort (fun x y => x ≤ y)
  rw [wordsFrom_intercalate (fun w hw => hword w (hperm.mem_iff.mp hw))]
  exact hperm

theorem mem_uniqConcat
    {p : Str} :
    p ∈ wordsFrom [] (uniqConcat a b) ↔ p ∈ wordsFrom [] a ∨ p ∈ wordsFrom [] b := by
  rw [(perm_uniqConcat a b).mem_iff, List.mem_dedup, List.mem_append]

end Lists

section Stages

variable {framework vendor merged merged' d : InfoDict}

theorem copyRequired_eq_ok
    {key : Str} (h : copyRequired vendor merged key = .ok merged') (k : Str) :
    key ∈ vendor.keys ∧
      merged'.get? k = if k = key then vendor.get? key else merged.get? k := by
  unfold copyRequired at h
  cases hget : vendor.get? key with
  | none =>
      rw [hget] at h
      cases h
  | some value =>
      rw [hget] at h
      cases h
      exact ⟨OrderedDict.mem_keys_iff.mpr ⟨value, hget⟩, OrderedDict.get?_set _ _ _ _⟩

/-- Values are copied from the vendor, and only under the keys of a kind. -/
def Copies (vendor : InfoDict) (kind : Str → Prop) (merged merged' : InfoDict) : Prop :=
  ∀ key, merged'.get? key = merged.get? key ∨ kind key ∧ merged'.get? key = vendor.get? key

theorem copies_refl
    (kind : Str → Prop) :
    Copies vendor kind merged merged :=
  fun _ => Or.inl rfl

theorem Copies.trans
    {kind : Str → Prop} {merged'' : InfoDict} (h : Copies vendor kind merged merged')
    (h' : Copies vendor kind merged' merged'') :
    Copies vendor kind merged merged'' := by
  intro key
  rcases h' key with heq | hcopy
  · rw [heq]
    exact h key
  · exact Or.inr hcopy

theorem copies_set
    {kind : Str → Prop} {key value : Str} (hkind : kind key)
    (hget : vendor.get? key = some value) :
    Copies vendor kind merged (merged.set key value) := by
  intro k
  rw [OrderedDict.get?_set]
  split_ifs with hk
  · rw [hk]
    exact Or.inr ⟨hkind, hget.symm⟩
  · exact Or.inl rfl

/-- The keys of the super block devices. -/
def IsDeviceKey (key : Str) : Prop :=
  key = blockDevicesKey ∨ ∃ device, key = deviceSizeKey device

theorem copies_copyDevices
    (h : copyDevices vendor merged = .ok merged') :
    Copies vendor IsDeviceKey merged merged' := by
  unfold copyDevices at h
  cases hdevices : vendor.get? blockDevicesKey with
  | none =>
      rw [hdevices] at h
      cases h
      exact copies_refl _
  | some devices =>
      rw [hdevices] at h
      refine (copies_set (Or.inl rfl) hdevices).trans ?_
      refine Loop.forLoop_ok (fun _ st => Copies vendor IsDeviceKey _ st) h (copies_refl _) ?_
      intro done device rest st st' _ hst hstep
      refine hst.trans ?_
      intro key
      rw [(copyRequired_eq_ok hstep key).2]
      split_ifs with hkey
      · rw [hkey]
        exact Or.inr ⟨Or.inr ⟨device, rfl⟩, rfl⟩
      · exact Or.inl rfl

theorem copies_foldl
    {α : Type} {kind : Str → Prop} {f : InfoDict → α → InfoDict} {xs : List α}
    (h : ∀ x ∈ xs, ∀ merged, Copies vendor kind merged (f merged x)) (merged : InfoDict) :
    Copies vendor kind merged (xs.foldl f merged) := by
  induction xs generalizing merged with
  | nil => exact copies_refl _
  | cons x xs ih =>
      rw [List.forall_mem_cons] at h
      exact (h.1 merged).trans (ih h.2 (f merged x))

theorem copies_copyFlags :
    Copies vendor (fun key => key ∈ vendorFlags) merged (copyFlags vendor merged) := by
  refine copies_foldl ?_ merged
  intro key hkey merged
  cases hget : vendor.get? key with
  | none => exact copies_refl _
  | some value => exact copies_set hkey hget

/-- Both dictionaries are the same. -/
theorem copies_equal_self
    {e : Str × Str} (he : e ∈ d.entries) (merged : InfoDict) :
    Copies d (fun _ => True) merged
      (if d.get? e.1 = some e.2 then merged.set e.1 e.2 else merged) := by
  rw [if_pos (d.get?_of_mem he)]
  exact copies_set trivial (d.get?_of_mem he)

/-- A dictionary is copied whole when both are the same. -/
theorem get?_copyEqual_self
    {key : Str} (h : merged.get? key = none ∨ key ∈ d.keys) :
    (copyEqual d d merged).get? key = d.get? key := by
  by_cases hmem : key ∈ d.keys
  · obtain ⟨e, he, rfl⟩ := List.mem_map.mp hmem
    obtain ⟨before, after, hsplit⟩ := List.append_of_mem he
    have hmem' : ∀ e' ∈ after, e' ∈ d.entries := by
      intro e' he'
      rw [hsplit]
      exact List.mem_append_right _ (List.mem_cons_of_mem e he')
    have hafter := copies_foldl (fun e' he' => copies_equal_self (hmem' e' he'))
      ((before.foldl (fun merged e' =>
        if d.get? e'.1 = some e'.2 then merged.set e'.1 e'.2 else merged) merged).set e.1 e.2) e.1
    unfold copyEqual
    rw [hsplit, List.foldl_append, List.foldl_cons, if_pos (d.get?_of_mem he)]
    rcases hafter with heq | ⟨-, heq⟩
    · rw [heq, OrderedDict.get?_set, if_pos rfl, d.get?_of_mem he]
    · exact heq
  · have hnone : d.get? key = none := by
      by_contra hne
      obtain ⟨v, hv⟩ := Option.ne_none_iff_exists'.mp hne
      exact hmem (OrderedDict.mem_keys_iff.mpr ⟨v, hv⟩)
    rcases copies_foldl (fun e he => copies_equal_self he) merged key with heq | ⟨-, heq⟩
    · rw [hnone, ← h.resolve_right hmem]
      exact heq
    · exact heq

theorem partitionListKey_injective :
    Function.Injective partitionListKey := by
  intro g g' h
  unfold partitionListKey at h
  exact List.append_cancel_left (List.append_cancel_right h)

theorem groupSizeKey_ne_partitionListKey
    (g g' : Str) :
    groupSizeKey g ≠ partitionListKey g' :=
  append_ne_append (by decide) (by decide)

/-- What the loop over the groups writes. -/
theorem mergeGroups_eq_ok
    {groups : List Str} (h : groups.foldlM (mergeGroup framework vendor) merged = .ok merged') :
    (∀ g ∈ groups, groupSizeKey g ∈ vendor.keys ∧
      merged'.get? (groupSizeKey g) = vendor.get? (groupSizeKey g) ∧
      merged'.get? (partitionListKey g) =
        some (uniqConcat ((framework.get? (partitionListKey g)).getD [])
          ((vendor.get? (partitionListKey g)).getD []))) ∧
    ∀ key, (∀ g ∈ groups, key ≠ groupSizeKey g ∧ key ≠ partitionListKey g) →
      merged'.get? key = merged.get? key := by
  refine Loop.forLoop_ok (fun done st => (∀ g ∈ done, groupSizeKey g ∈ vendor.keys ∧
      st.get? (groupSizeKey g) = vendor.get? (groupSizeKey g) ∧
      st.get? (partitionListKey g) =
        some (uniqConcat ((framework.get? (partitionListKey g)).getD [])
          ((vendor.get? (partitionListKey g)).getD []))) ∧
    ∀ key, (∀ g ∈ done, key ≠ groupSizeKey g ∧ key ≠ partitionListKey g) →
      st.get? key = merged.get? key) h ⟨by simp, by simp⟩ ?_
  rintro done group rest st st' - ⟨hdone, hother⟩ hstep
  obtain ⟨st₁, hcopy, hok⟩ := Loop.bind_eq_ok.mp hstep
  cases hok
  have hget : ∀ key, (st₁.set (partitionListKey group)
      (uniqConcat ((framework.get? (partitionListKey group)).getD [])
        ((vendor.get? (partitionListKey group)).getD []))).get? key =
      if key = partitionListKey group then
        some (uniqConcat ((framework.get? (partitionListKey group)).getD [])
          ((vendor.get? (partitionListKey group)).getD []))
      else if key = groupSizeKey group then vendor.get? (groupSizeKey group)
      else st.get? key := by
    intro key
    rw [OrderedDict.get?_set, (copyRequired_eq_ok hcopy key).2]
  constructor
  · intro g hg
    rw [hget, if_neg (groupSizeKey_ne_partitionListKey g group), hget,
      if_neg (groupSizeKey_ne_partitionListKey group g).symm]
    have hg' : g = group ∨ g ∈ done := by
      rcases List.mem_append.mp hg with hg | hg
      · exact Or.inr hg
      · exact Or.inl (List.mem_singleton.mp hg)
    by_cases heq : g = group
    · subst heq
      rw [if_pos rfl, if_pos rfl]
      exact ⟨(copyRequired_eq_ok hcopy []).1, rfl, rfl⟩
    · obtain ⟨hsize, hsizeGet, hlistGet⟩ := hdone g (hg'.resolve_left heq)
      have hlist : partitionListKey g ≠ partitionListKey group := by
        intro h
        exact heq (partitionListKey_injective h)
      have hsizeKey : groupSizeKey g ≠ groupSizeKey group := by
        intro h
        unfold groupSizeKey at h
        exact heq (List.append_cancel_left (List.append_cancel_right h))
      rw [if_neg hlist, if_neg hsizeKey]
      exact ⟨hsize, hsizeGet, hlistGet⟩
  · intro key hkey
    obtain ⟨hsize, hlist⟩ := hkey group (by simp)
    rw [hget, if_neg hlist, if_neg hsize]
    exact hother key (fun g hg => hkey g (List.mem_append_left _ hg))

theorem not_isDeviceKey_of_fixed
    {key : Str} (h : key ≠ blockDevicesKey) (hsuffix : ¬"_device_size".toList <:+ key) :
    ¬IsDeviceKey key := by
  rintro (heq | ⟨device, rfl⟩)
  · exact h heq
  · exact hsuffix (List.suffix_append _ _)

end Stages

section Results

variable {framework vendor merged d : InfoDict}

/-- What the merge writes under the keys of the partitions. -/
structure Merged (framework vendor merged : InfoDict) : Prop where
  list : merged.get? dynamicPartitionListKey =
    some (uniqConcat ((framework.get? dynamicPartitionListKey).getD [])
      ((vendor.get? dynamicPartitionListKey).getD []))
  groups : merged.get? partitionGroupsKey = vendor.get? partitionGroupsKey
  groupSize : ∀ g ∈ groupsOf vendor, groupSizeKey g ∈ vendor.keys ∧
    merged.get? (groupSizeKey g) = vendor.get? (groupSizeKey g)
  groupList : ∀ g ∈ groupsOf vendor, merged.get? (partitionListKey g) =
    some (uniqConcat ((framework.get? (partitionListKey g)).getD [])
      ((vendor.get? (partitionListKey g)).getD []))
  cowVersion : merged.get? vabcCowVersionKey = some (mergeCowVersion framework vendor)

/-- The stages of the merge. -/
theorem merge_stages
    (h : mergeDynamicPartitionInfoDicts framework vendor = .ok merged) :
    ∃ devices groups merged₁,
      framework.get? useDynamicPartitionsKey = some "true".toList ∧
      Copies vendor IsDeviceKey
        ((copyEqual framework vendor (.set .empty useDynamicPartitionsKey "true".toList)).set
          dynamicPartitionListKey
          (uniqConcat ((framework.get? dynamicPartitionListKey).getD [])
            ((vendor.get? dynamicPartitionListKey).getD []))) devices ∧
      vendor.get? partitionGroupsKey = some groups ∧
      (wordsFrom [] groups).foldlM (mergeGroup framework vendor)
        (devices.set partitionGroupsKey groups) = .ok merged₁ ∧
      Copies vendor (fun key => key ∈ vendorFlags)
        (merged₁.set vabcCowVersionKey (mergeCowVersion framework vendor)) merged := by
  unfold mergeDynamicPartitionInfoDicts at h
  split_ifs at h with huse
  obtain ⟨devices, hdevices, h⟩ := Loop.bind_eq_ok.mp h
  split at h
  · cases h
  · rename_i groups hgroups
    obtain ⟨merged₁, hmerged₁, h⟩ := Loop.bind_eq_ok.mp h
    cases h
    rw [not_or, not_not] at huse
    exact ⟨devices, groups, merged₁, huse.1, copies_copyDevices hdevices, hgroups, hmerged₁,
      copies_copyFlags⟩

theorem Copies.get?_eq
    {kind : Str → Prop} {merged' : InfoDict} (h : Copies vendor kind merged merged') {key : Str}
    (hkey : ¬kind key) :
    merged'.get? key = merged.get? key := by
  rcases h key with heq | ⟨hkind, -⟩
  · exact heq
  · exact absurd hkind hkey

theorem groupSizeKey_ne_of_not_suffix
    {key : Str} (h : ¬"_group_size".toList <:+ key) (g : Str) :
    key ≠ groupSizeKey g := by
  rintro rfl
  exact h (List.suffix_append _ _)

theorem partitionListKey_ne_of_not_suffix
    {key : Str} (h : ¬"_partition_list".toList <:+ key) (g : Str) :
    key ≠ partitionListKey g := by
  rintro rfl
  exact h (List.suffix_append _ _)

theorem dynamicPartitionListKey_ne
    (g : Str) :
    dynamicPartitionListKey ≠ partitionListKey g := by
  intro h
  have hhead := congrArg List.head? h
  cases hhead

theorem groupSizeKey_not_mem_vendorFlags
    (g : Str) :
    groupSizeKey g ∉ vendorFlags := by
  have hall : ∀ key ∈ vendorFlags, ¬"_group_size".toList <:+ key := by decide
  intro hmem
  exact hall _ hmem (List.suffix_append _ _)

theorem partitionListKey_not_mem_vendorFlags
    (g : Str) :
    partitionListKey g ∉ vendorFlags := by
  have hall : ∀ key ∈ vendorFlags, ¬"_partition_list".toList <:+ key := by decide
  intro hmem
  exact hall _ hmem (List.suffix_append _ _)

theorem merged_of_merge
    (h : mergeDynamicPartitionInfoDicts framework vendor = .ok merged) :
    Merged framework vendor merged := by
  obtain ⟨devices, groups, merged₁, -, hdevices, hgroups, hloop, hflags⟩ := merge_stages h
  obtain ⟨hgroup, hother⟩ := mergeGroups_eq_ok hloop
  have hwords : groupsOf vendor = wordsFrom [] groups := by
    unfold groupsOf wordsOf
    rw [hgroups, Option.getD_some]
  refine ⟨?_, ?_, ?_, ?_, ?_⟩
  · have hdevice : ¬IsDeviceKey dynamicPartitionListKey :=
      not_isDeviceKey_of_fixed (by decide) (by decide)
    have hgroupKey : ∀ g ∈ wordsFrom [] groups, dynamicPartitionListKey ≠ groupSizeKey g ∧
        dynamicPartitionListKey ≠ partitionListKey g := by
      intro g _
      exact ⟨groupSizeKey_ne_of_not_suffix (by decide) g, dynamicPartitionListKey_ne g⟩
    rw [hflags.get?_eq (by decide), OrderedDict.get?_set, if_neg (by decide),
      hother _ hgroupKey, OrderedDict.get?_set, if_neg (by decide), hdevices.get?_eq hdevice,
      OrderedDict.get?_set, if_pos rfl]
  · rw [hflags.get?_eq (by decide), OrderedDict.get?_set, if_neg (by decide), hother,
      OrderedDict.get?_set, if_pos rfl, hgroups]
    intro g _
    exact ⟨groupSizeKey_ne_of_not_suffix (by decide) g,
      partitionListKey_ne_of_not_suffix (by decide) g⟩
  · intro g hg
    rw [hwords] at hg
    obtain ⟨hsize, hget, -⟩ := hgroup g hg
    refine ⟨hsize, ?_⟩
    rw [hflags.get?_eq (groupSizeKey_not_mem_vendorFlags g), OrderedDict.get?_set, if_neg, hget]
    exact append_ne_of_not_suffix (by decide)
  · intro g hg
    rw [hwords] at hg
    obtain ⟨-, -, hget⟩ := hgroup g hg
    rw [hflags.get?_eq (partitionListKey_not_mem_vendorFlags g), OrderedDict.get?_set, if_neg, hget]
    exact append_ne_of_not_suffix (by decide)
  · rw [hflags.get?_eq (by decide), OrderedDict.get?_set, if_pos rfl]

section Lists

theorem Merged.groupsOf_eq
    (h : Merged framework vendor merged) :
    groupsOf merged = groupsOf vendor := by
  unfold groupsOf wordsOf
  rw [h.groups]

theorem Merged.mem_partitions
    (h : Merged framework vendor merged) {p : Str} :
    p ∈ partitions merged ↔ p ∈ partitions framework ∨ p ∈ partitions vendor := by
  have hlist := h.list
  unfold partitions wordsOf
  rw [hlist, Option.getD_some]
  exact mem_uniqConcat

theorem Merged.mem_groupPartitions
    (h : Merged framework vendor merged) {g p : Str} (hg : g ∈ groupsOf vendor) :
    p ∈ groupPartitions merged g ↔
      p ∈ groupPartitions framework g ∨ p ∈ groupPartitions vendor g := by
  have hlist := h.groupList g hg
  unfold groupPartitions wordsOf
  rw [hlist, Option.getD_some]
  exact mem_uniqConcat

/-- The merged dictionary is consistent iff the groups of the framework fit. -/
theorem Merged.consistent_iff
    (h : Merged framework vendor merged) (hvendor : Consistent vendor) :
    Consistent merged ↔ Compatible framework vendor := by
  constructor
  · intro hmerged
    refine ⟨?_, ?_⟩
    · intro p hp hnot
      obtain ⟨g, hg, hpg⟩ := (hmerged.union p).mp (h.mem_partitions.mpr (Or.inl hp))
      rw [h.groupsOf_eq] at hg
      refine ⟨g, hg, ?_⟩
      rcases (h.mem_groupPartitions hg).mp hpg with hpg | hpg
      · exact hpg
      · exact absurd ((hvendor.union p).mpr ⟨g, hg, hpg⟩) hnot
    · intro g hg p hp
      have hpg : p ∈ groupPartitions merged g := (h.mem_groupPartitions hg).mpr (Or.inl hp)
      refine ⟨h.mem_partitions.mp ((hmerged.union p).mpr ⟨g, by rwa [h.groupsOf_eq], hpg⟩), ?_⟩
      intro g' hg' hpg'
      exact hmerged.disjoint g' (by rwa [h.groupsOf_eq]) g (by rwa [h.groupsOf_eq]) p
        ((h.mem_groupPartitions hg').mpr hpg') hpg
  · intro hcompatible
    refine ⟨?_, ?_⟩
    · intro p
      rw [h.mem_partitions, h.groupsOf_eq]
      constructor
      · intro hp
        by_cases hvp : p ∈ partitions vendor
        · obtain ⟨g, hg, hpg⟩ := (hvendor.union p).mp hvp
          exact ⟨g, hg, (h.mem_groupPartitions hg).mpr (Or.inr hpg)⟩
        · obtain ⟨g, hg, hpg⟩ := hcompatible.covered p (hp.resolve_right hvp) hvp
          exact ⟨g, hg, (h.mem_groupPartitions hg).mpr (Or.inl hpg)⟩
      · rintro ⟨g, hg, hpg⟩
        rcases (h.mem_groupPartitions hg).mp hpg with hpg | hpg
        · exact (hcompatible.listed g hg p hpg).1
        · exact Or.inr ((hvendor.union p).mpr ⟨g, hg, hpg⟩)
    · intro g hg g' hg' p hp hp'
      rw [h.groupsOf_eq] at hg hg'
      rw [h.mem_groupPartitions hg] at hp
      rw [h.mem_groupPartitions hg'] at hp'
      rcases hp with hf | hv
      · exact ((hcompatible.listed g hg p hf).2 g' hg' hp').symm
      · rcases hp' with hf' | hv'
        · exact (hcompatible.listed g' hg' p hf').2 g hg (Or.inr hv)
        · exact hvendor.disjoint g hg g' hg' p hv hv'

end Lists

section Versions

/-- Digits behind a smaller number give a smaller number. -/
theorem ofDigitChars_lt
    {a b : Str} (hlen : a.length = b.length) (ha : ∀ c ∈ a, c.isDigit = true) {n m : Nat}
    (h : n < m) :
    Nat.ofDigitChars 10 a n < Nat.ofDigitChars 10 b m := by
  induction a generalizing b n m with
  | nil =>
      cases b with
      | nil => exact h
      | cons d b => simp at hlen
  | cons c a ih =>
      cases b with
      | nil => simp at hlen
      | cons d b =>
          rw [List.forall_mem_cons] at ha
          have hc := toNat_of_isDigit ha.1
          have hzero : '0'.toNat = 48 := rfl
          rw [Nat.ofDigitChars_cons, Nat.ofDigitChars_cons]
          exact ih (by simpa using hlen) ha.2 (by omega)

/-- The order of texts is the order of numbers for numerals of one length. -/
theorem ofDigitChars_le
    {a b : Str} (hlen : a.length = b.length) (ha : ∀ c ∈ a, c.isDigit = true)
    (hb : ∀ c ∈ b, c.isDigit = true) (h : ¬b < a) (n : Nat) :
    Nat.ofDigitChars 10 a n ≤ Nat.ofDigitChars 10 b n := by
  induction a generalizing b n with
  | nil =>
      cases b with
      | nil => exact le_rfl
      | cons d b => simp at hlen
  | cons c a ih =>
      cases b with
      | nil => simp at hlen
      | cons d b =>
          rw [List.forall_mem_cons] at ha hb
          rw [List.cons_lt_cons_iff, not_or, not_and] at h
          have hlen' : a.length = b.length := by simpa using hlen
          have hc := toNat_of_isDigit ha.1
          have hd := toNat_of_isDigit hb.1
          have hzero : '0'.toNat = 48 := rfl
          rw [Nat.ofDigitChars_cons, Nat.ofDigitChars_cons]
          by_cases hcd : c = d
          · subst hcd
            exact ih hlen' ha.2 hb.2 (h.2 rfl) _
          · have hle : ¬d.toNat < c.toNat := fun hlt => h.1 (UInt32.lt_iff_toNat_lt.mpr hlt)
            have hne : c.toNat ≠ d.toNat := fun heq => hcd (Char.toNat_inj.mp heq)
            exact (ofDigitChars_lt hlen' ha.2 (by omega)).le

/-- The merged version: `2` when one side has none, and the smaller one for numerals of one
length. -/
def MergedVersion (framework vendor : InfoDict) (version : Str) : Prop :=
  match vendor.get? vabcCowVersionKey, framework.get? vabcCowVersionKey with
  | some v, some f =>
      (∀ c ∈ v, c.isDigit = true) → (∀ c ∈ f, c.isDigit = true) → v.length = f.length →
        Nat.ofDigitChars 10 version 0 = min (Nat.ofDigitChars 10 v 0) (Nat.ofDigitChars 10 f 0)
  | _, _ => version = "2".toList

theorem mergedVersion_mergeCowVersion
    (framework vendor : InfoDict) :
    MergedVersion framework vendor (mergeCowVersion framework vendor) := by
  unfold MergedVersion mergeCowVersion
  cases vendor.get? vabcCowVersionKey with
  | none => rfl
  | some v =>
      cases framework.get? vabcCowVersionKey with
      | none => rfl
      | some f =>
          intro hv hf hlen
          simp only
          split_ifs with hlt
          · have hle := ofDigitChars_le hlen.symm hf hv (List.lt_asymm hlt) 0
            omega
          · have hle := ofDigitChars_le hlen hv hf hlt 0
            omega

end Versions

section Self

/-- The same dictionary, up to the order and the repetition of words in the lists of
partitions and an absent version. -/
structure SameUpToOrder (d merged : InfoDict) : Prop where
  partitions : (partitions merged).Perm (partitions d).dedup
  groupPartitions : ∀ g ∈ groupsOf d, (groupPartitions merged g).Perm (groupPartitions d g).dedup
  cowVersion : merged.get? vabcCowVersionKey = some ((d.get? vabcCowVersionKey).getD "2".toList)
  other : ∀ key, key ≠ dynamicPartitionListKey → (∀ g ∈ groupsOf d, key ≠ partitionListKey g) →
    key ≠ vabcCowVersionKey → merged.get? key = d.get? key

theorem perm_uniqConcat_self
    (a : Str) :
    (wordsFrom [] (uniqConcat a a)).Perm (wordsFrom [] a).dedup := by
  refine (perm_uniqConcat a a).trans ?_
  rw [List.perm_ext_iff_of_nodup (List.nodup_dedup _) (List.nodup_dedup _)]
  simp

theorem mergeCowVersion_self
    (d : InfoDict) :
    mergeCowVersion d d = (d.get? vabcCowVersionKey).getD "2".toList := by
  unfold mergeCowVersion
  cases d.get? vabcCowVersionKey with
  | none => rfl
  | some v =>
      simp only [Option.getD_some]
      split_ifs <;> rfl

/-- Values that are copied from the dictionary itself. -/
theorem Copies.self
    {kind : Str → Prop} {merged' : InfoDict} (h : Copies d kind merged merged') {key : Str}
    (hkey : merged.get? key = d.get? key) :
    merged'.get? key = d.get? key := by
  rcases h key with heq | ⟨-, heq⟩
  · rw [heq, hkey]
  · exact heq

theorem sameUpToOrder_of_merge
    (h : mergeDynamicPartitionInfoDicts d d = .ok merged) :
    SameUpToOrder d merged := by
  have hmerged := merged_of_merge h
  refine ⟨?_, ?_, ?_, ?_⟩
  · have hlist := hmerged.list
    unfold Common.partitions wordsOf
    rw [hlist, Option.getD_some]
    exact perm_uniqConcat_self _
  · intro g hg
    have hlist := hmerged.groupList g hg
    unfold Common.groupPartitions wordsOf
    rw [hlist, Option.getD_some]
    exact perm_uniqConcat_self _
  · rw [hmerged.cowVersion, mergeCowVersion_self]
  · intro key hlist hgroupList hversion
    obtain ⟨devices, groups, merged₁, huse, hdevices, hgroups, hloop, hflags⟩ := merge_stages h
    obtain ⟨hgroup, hother⟩ := mergeGroups_eq_ok hloop
    have hwords : groupsOf d = wordsFrom [] groups := by
      unfold groupsOf wordsOf
      rw [hgroups, Option.getD_some]
    rw [hwords] at hgroupList
    have hcopied : (copyEqual d d (.set .empty useDynamicPartitionsKey "true".toList)).get? key =
        d.get? key := by
      refine get?_copyEqual_self ?_
      rw [OrderedDict.get?_set]
      split_ifs with hkey
      · rw [hkey]
        exact Or.inr (OrderedDict.mem_keys_iff.mpr ⟨_, huse⟩)
      · exact Or.inl rfl
    have hstart : (devices.set partitionGroupsKey groups).get? key = d.get? key := by
      rw [OrderedDict.get?_set]
      split_ifs with hkey
      · rw [hkey, hgroups]
      · refine hdevices.self ?_
        rw [OrderedDict.get?_set, if_neg hlist, hcopied]
    refine hflags.self ?_
    rw [OrderedDict.get?_set, if_neg hversion]
    by_cases hsize : ∃ g ∈ wordsFrom [] groups, key = groupSizeKey g
    · obtain ⟨g, hg, rfl⟩ := hsize
      exact (hgroup g hg).2.1
    · rw [hother key, hstart]
      intro g hg
      exact ⟨fun heq => hsize ⟨g, hg, heq⟩, hgroupList g hg⟩

end Self

/-- The merged dictionary: consistent iff the groups fit, with the united lists, the groups and
sizes of the vendor and the smaller version, and unchanged when both are the same. -/
theorem mergeDynamicPartitionInfoDicts_spec
    (hvendor : Consistent vendor)
    (h : mergeDynamicPartitionInfoDicts framework vendor = .ok merged) :
    (Consistent merged ↔ Compatible framework vendor) ∧
      (∀ p, p ∈ partitions merged ↔ p ∈ partitions framework ∨ p ∈ partitions vendor) ∧
      groupsOf merged = groupsOf vendor ∧
      (∀ g ∈ groupsOf vendor,
        merged.get? (groupSizeKey g) = vendor.get? (groupSizeKey g) ∧
        ∀ p, p ∈ groupPartitions merged g ↔
          p ∈ groupPartitions framework g ∨ p ∈ groupPartitions vendor g) ∧
      (∃ version, merged.get? vabcCowVersionKey = some version ∧
        MergedVersion framework vendor version) ∧
      (framework = vendor → SameUpToOrder vendor merged) := by
  have hmerged := merged_of_merge h
  refine ⟨hmerged.consistent_iff hvendor, fun p => hmerged.mem_partitions, hmerged.groupsOf_eq, ?_,
    ⟨_, hmerged.cowVersion, mergedVersion_mergeCowVersion framework vendor⟩, ?_⟩
  · intro g hg
    exact ⟨(hmerged.groupSize g hg).2, fun p => hmerged.mem_groupPartitions hg⟩
  · rintro rfl
    exact sameUpToOrder_of_merge h

/-- The lines of an info file with one group and one partition. -/
def oneGroupLines (group partition : String) : List Str :=
  ["use_dynamic_partitions=true".toList, ("dynamic_partition_list=" ++ partition).toList,
    ("super_partition_groups=" ++ group).toList,
    ("super_" ++ group ++ "_group_size=100").toList,
    ("super_" ++ group ++ "_partition_list=" ++ partition).toList]

/-- The dictionary of the lines. -/
def oneGroup (group partition : String) : InfoDict :=
  loadDictionaryFromLines (oneGroupLines group partition)

theorem consistent_of_lists
    {g p : Str} (hgroups : groupsOf d = [g]) (hpartitions : partitions d = [p])
    (hlist : groupPartitions d g = [p]) :
    Consistent d := by
  refine ⟨?_, ?_⟩
  · intro q
    rw [hgroups, hpartitions]
    simp [hlist]
  · intro g₁ hg₁ g₂ hg₂ _ _ _
    rw [hgroups, List.mem_singleton] at hg₁ hg₂
    rw [hg₁, hg₂]

theorem mergeDynamicPartitionInfoDicts_same :
    ∃ merged, mergeDynamicPartitionInfoDicts (oneGroup "g" "system") (oneGroup "g" "system") =
      .ok merged ∧ SameUpToOrder (oneGroup "g" "system") merged := by
  have hconsistent : Consistent (oneGroup "g" "system") :=
    consistent_of_lists (g := "g".toList) (p := "system".toList) (by decide +kernel)
      (by decide +kernel) (by decide +kernel)
  obtain ⟨merged, hmerged⟩ : ∃ merged, mergeDynamicPartitionInfoDicts (oneGroup "g" "system")
      (oneGroup "g" "system") = .ok merged := ⟨_, rfl⟩
  exact ⟨merged, hmerged,
    (mergeDynamicPartitionInfoDicts_spec hconsistent hmerged).2.2.2.2.2 rfl⟩

/-- The group of the framework is unknown to the vendor, and its partition is in no group. -/
theorem mergeDynamicPartitionInfoDicts_lost :
    ∃ merged, Consistent (oneGroup "f" "system") ∧ Consistent (oneGroup "v" "vendor") ∧
      mergeDynamicPartitionInfoDicts (oneGroup "f" "system") (oneGroup "v" "vendor") =
        .ok merged ∧
      ¬Consistent merged := by
  obtain ⟨merged, hmerged⟩ : ∃ merged, mergeDynamicPartitionInfoDicts (oneGroup "f" "system")
      (oneGroup "v" "vendor") = .ok merged := ⟨_, rfl⟩
  refine ⟨merged, consistent_of_lists (g := "f".toList) (p := "system".toList) (by decide +kernel)
    (by decide +kernel) (by decide +kernel),
    consistent_of_lists (g := "v".toList) (p := "vendor".toList) (by decide +kernel)
    (by decide +kernel) (by decide +kernel), hmerged, ?_⟩
  have hspec := merged_of_merge hmerged
  intro hconsistent
  have hmem : "system".toList ∈ partitions merged :=
    hspec.mem_partitions.mpr (Or.inl (by decide +kernel))
  obtain ⟨g, hg, hp⟩ := (hconsistent.union _).mp hmem
  rw [hspec.groupsOf_eq] at hg
  have hgroups : groupsOf (oneGroup "v" "vendor") = ["v".toList] := by decide +kernel
  rw [hgroups, List.mem_singleton] at hg
  rw [hg, hspec.mem_groupPartitions (by rw [hgroups]; simp)] at hp
  revert hp
  decide +kernel

end Results

end Common
end AndroidBuild
