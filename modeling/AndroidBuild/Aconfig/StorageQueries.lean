import AndroidBuild.Aconfig.Fingerprints
import AndroidBuild.Aconfig.FlagValues

/-!
# Querying the generated files

`generate_storage_file` writes the four files of a container separately.  The
queries put them together again: from the package map the id and the start
index of a package, from the flag map the index of a flag in its package, and
at the sum of both the value and the attributes.  They find every flag that
was kept, and nothing else.
-/

namespace AndroidBuild
namespace Aconfig

section Generate

def generateStorageFile (container : String) (caches : List (List ParsedFlag))
    (file : StorageFileType) (version : UInt32) (redactExportedReads : Bool) :
    Checked AconfigError (List UInt8) := do
  let packages ← groupFlagsByPackage caches version redactExportedReads
  match file with
  | .packageMap => do
      let packageTable ← createPackageTable container packages version
      pure (packageTableIntoBytes packageTable)
  | .flagMap => do
      let flagTable ← createFlagTable container packages version
      pure (flagTableIntoBytes flagTable)
  | .flagVal => do
      let flagValue ← createFlagValue container packages version
      pure (flagValueListIntoBytes flagValue)
  | .flagInfo => do
      let flagInfo ← createFlagInfo container packages version
      pure (flagInfoListIntoBytes flagInfo)

/-- The files of a container. -/
structure StorageFiles where
  packageMap : List UInt8
  flagMap : List UInt8
  flagVal : List UInt8
  flagInfo : List UInt8

/-- The files are generated, and none of them has 4 GB. -/
structure Generates (container : String) (caches : List (List ParsedFlag)) (version : UInt32)
    (redactExportedReads : Bool) (files : StorageFiles) : Prop where
  packageMap : generateStorageFile container caches .packageMap version redactExportedReads =
    .ok files.packageMap
  flagMap : generateStorageFile container caches .flagMap version redactExportedReads =
    .ok files.flagMap
  flagVal : generateStorageFile container caches .flagVal version redactExportedReads =
    .ok files.flagVal
  flagInfo : generateStorageFile container caches .flagInfo version redactExportedReads =
    .ok files.flagInfo
  small : files.packageMap.length < 2 ^ 32 ∧ files.flagMap.length < 2 ^ 32 ∧
    files.flagVal.length < 2 ^ 32 ∧ files.flagInfo.length < 2 ^ 32

/-- The first flag of its package and name that the storage keeps. -/
def FirstKept (flags : List ParsedFlag) (pf : ParsedFlag) : Prop :=
  (flags.filter shouldIncludeFlag).find? (fun q => q.package = pf.package ∧ q.name = pf.name) =
    some pf

end Generate

section List

structure FlagValueSummary where
  packageName : String
  flagName : String
  flagValue : String
  valueType : StoredFlagType
  deriving DecidableEq, Repr

/-- One package of `list_flags`. -/
def setPackageInfo (info : List (String × UInt32)) (node : PackageTableNode) :
    Storage (List (String × UInt32)) :=
  if node.packageId.toNat < info.length then
    .ok (info.set node.packageId.toNat (node.packageName, node.booleanStartIndex))
  else .error .panic

/-- One flag of `list_flags`. -/
def flagValueSummary (info : List (String × UInt32)) (booleans : List Bool)
    (node : FlagTableNode) : Storage FlagValueSummary :=
  match info[node.packageId.toNat]? with
  | none => .error .panic
  | some (packageName, booleanStartIndex) => do
      let flagIndex ← Checked.add booleanStartIndex node.flagIndex.toUInt32
      match booleans[flagIndex.toNat]? with
      | none => .error .panic
      | some flagValue => pure ⟨packageName, node.flagName, toString flagValue, node.flagType⟩

/-- The order of `sort_by`. -/
def FlagValueSummary.le (a b : FlagValueSummary) : Bool :=
  a.packageName < b.packageName || (a.packageName = b.packageName && a.flagName ≤ b.flagName)

/-- `list_flags`, of the bytes of the files. -/
def listFlags (packageMap flagMap flagVal : List UInt8) : Storage (List FlagValueSummary) := do
  let packageTable ← packageTableFromBytes packageMap
  let flagTable ← flagTableFromBytes flagMap
  let flagValueList ← flagValueListFromBytes flagVal
  let info ← packageTable.nodes.foldlM setPackageInfo
    (List.replicate packageTable.header.count.toNat ("", 0))
  let flags ← flagTable.nodes.mapM (flagValueSummary info flagValueList.values)
  pure (flags.insertionSort (fun a b => a.le b = true))

end List

section Kept

theorem mem_distinctFlags_iff
    {flags : List ParsedFlag} {pf : ParsedFlag} :
    pf ∈ distinctFlags flags ↔ flags.find? (fun q => q.name = pf.name) = some pf := by
  induction flags using List.reverseRecOn with
  | nil => simp [distinctFlags]
  | append_singleton flags q ih =>
      have hnone : flags.find? (fun r => r.name = q.name) = none ↔
          q.name ∉ (distinctFlags flags).map (fun r => r.name) := by
        rw [mem_names_distinctFlags, List.find?_eq_none]
        simp
      rw [distinctFlags_concat, List.find?_append]
      by_cases hname : q.name = pf.name
      · rw [hname] at hnone
        split
        case isTrue hmem =>
            rw [hname] at hmem
            have hsome : flags.find? (fun r => r.name = pf.name) ≠ none := fun h => hnone.mp h hmem
            obtain ⟨r, hr⟩ := Option.ne_none_iff_exists'.mp hsome
            rw [ih, hr]
            rfl
        case isFalse hmem =>
            rw [hname] at hmem
            have hold : pf ∉ distinctFlags flags := by
              intro hpf
              exact hmem (List.mem_map_of_mem (f := fun r => r.name) hpf)
            rw [hnone.mpr hmem, List.mem_append, or_iff_right hold, List.mem_singleton]
            simp [hname, eq_comm]
      · have hlast : [q].find? (fun r => r.name = pf.name) = none := by simp [hname]
        rw [hlast, Option.or_none, ← ih]
        split
        case isTrue => rfl
        case isFalse =>
            rw [List.mem_append, List.mem_singleton]
            refine or_iff_left ?_
            rintro rfl
            exact hname rfl

theorem firstKept_unique
    {flags : List ParsedFlag} {pf qf : ParsedFlag} (hpf : FirstKept flags pf)
    (hqf : FirstKept flags qf) (hpackage : pf.package = qf.package) (hname : pf.name = qf.name) :
    pf = qf := by
  rw [FirstKept, hpackage, hname] at hpf
  exact Option.some.inj (hpf.symm.trans hqf)

variable {flags : List ParsedFlag} {packages : List FlagPackage}

/-- The storage has the first flags that are kept. -/
theorem Grouped.mem_allFlags_iff
    (h : Grouped flags packages) {pf : ParsedFlag} :
    pf ∈ allFlags packages ↔ FirstKept flags pf := by
  have hfirst : FirstKept flags pf ↔ pf ∈ distinctFlags (packageFlags flags pf.package) := by
    rw [mem_distinctFlags_iff, FirstKept, packageFlags, List.find?_filter, List.find?_filter]
    simp [and_assoc]
  rw [hfirst, allFlags, List.mem_flatMap]
  constructor
  · rintro ⟨p, hp, hpf⟩
    rw [(h.mem_booleanFlags hp hpf).2.2, ← h.booleanFlags p hp]
    exact hpf
  · intro hpf
    have hne : packageFlags flags pf.package ≠ [] := List.ne_nil_of_mem (mem_of_mem_distinctFlags hpf)
    obtain ⟨p, hp, hname⟩ := (h.complete pf.package).mp hne
    refine ⟨p, hp, ?_⟩
    rw [h.booleanFlags p hp, hname]
    exact hpf

theorem Grouped.nodup_allFlags
    (h : Grouped flags packages) :
    (allFlags packages).Nodup := by
  refine List.nodup_flatMap.mpr ⟨?_, ?_⟩
  · intro p hp
    have hnames := h.nodup_flagNames hp
    rw [h.flagNames p hp] at hnames
    exact hnames.of_map _
  · refine (List.pairwise_map.mp h.names).imp_of_mem ?_
    intro p q hp hq hne pf hpf hqf
    exact hne ((h.mem_booleanFlags hp hpf).2.2.symm.trans (h.mem_booleanFlags hq hqf).2.2)

end Kept

section Tables

/-- What the files of a container are made of. -/
structure GeneratedTables (container : String) (caches : List (List ParsedFlag)) (version : UInt32)
    (redactExportedReads : Bool) where
  packages : List FlagPackage
  packageTable : PackageTable
  flagTable : FlagTable
  flagValue : FlagValueList
  flagInfo : FlagInfoList
  grouped : groupFlagsByPackage caches version redactExportedReads = .ok packages
  createPackageTable : createPackageTable container packages version = .ok packageTable
  createFlagTable : createFlagTable container packages version = .ok flagTable
  createFlagValue : createFlagValue container packages version = .ok flagValue
  createFlagInfo : createFlagInfo container packages version = .ok flagInfo
  small : (packageTableIntoBytes packageTable).length < 2 ^ 32 ∧
    (flagTableIntoBytes flagTable).length < 2 ^ 32 ∧
    (flagValueListIntoBytes flagValue).length < 2 ^ 32 ∧
    (flagInfoListIntoBytes flagInfo).length < 2 ^ 32

variable {container : String} {caches : List (List ParsedFlag)} {version : UInt32}
  {redactExportedReads : Bool}

def GeneratedTables.files (g : GeneratedTables container caches version redactExportedReads) :
    StorageFiles :=
  ⟨packageTableIntoBytes g.packageTable, flagTableIntoBytes g.flagTable,
    flagValueListIntoBytes g.flagValue, flagInfoListIntoBytes g.flagInfo⟩

theorem Generates.exists_tables
    {files : StorageFiles} (h : Generates container caches version redactExportedReads files) :
    ∃ g : GeneratedTables container caches version redactExportedReads, files = g.files := by
  obtain ⟨packageMap, flagMap, flagVal, flagInfo⟩ := files
  obtain ⟨packages, hpackages, hpackageMap⟩ := Loop.bind_eq_ok.mp h.packageMap
  obtain ⟨packageTable, hpt, hpackageMap'⟩ := Loop.bind_eq_ok.mp hpackageMap
  obtain ⟨packages₂, hpackages₂, hflagMap⟩ := Loop.bind_eq_ok.mp h.flagMap
  obtain ⟨flagTable, hft, hflagMap'⟩ := Loop.bind_eq_ok.mp hflagMap
  obtain ⟨packages₃, hpackages₃, hflagVal⟩ := Loop.bind_eq_ok.mp h.flagVal
  obtain ⟨values, hfv, hflagVal'⟩ := Loop.bind_eq_ok.mp hflagVal
  obtain ⟨packages₄, hpackages₄, hflagInfo⟩ := Loop.bind_eq_ok.mp h.flagInfo
  obtain ⟨infos, hfi, hflagInfo'⟩ := Loop.bind_eq_ok.mp hflagInfo
  obtain rfl : packages = packages₂ := Except.ok.inj (hpackages.symm.trans hpackages₂)
  obtain rfl : packages = packages₃ := Except.ok.inj (hpackages.symm.trans hpackages₃)
  obtain rfl : packages = packages₄ := Except.ok.inj (hpackages.symm.trans hpackages₄)
  have hsmall := h.small
  obtain rfl : packageTableIntoBytes packageTable = packageMap := Except.ok.inj hpackageMap'
  obtain rfl : flagTableIntoBytes flagTable = flagMap := Except.ok.inj hflagMap'
  obtain rfl : flagValueListIntoBytes values = flagVal := Except.ok.inj hflagVal'
  obtain rfl : flagInfoListIntoBytes infos = flagInfo := Except.ok.inj hflagInfo'
  exact ⟨⟨packages, packageTable, flagTable, values, infos, hpackages, hpt, hft, hfv, hfi, hsmall⟩,
    rfl⟩

/-- The fields that a file of the version has no place for are not set. -/
theorem groupFlagsByPackage_regular
    {packages : List FlagPackage}
    (h : groupFlagsByPackage caches version redactExportedReads = .ok packages)
    {p : FlagPackage} (hp : p ∈ packages) :
    (version = 1 → p.fingerprint = 0) ∧ (version < 3 → p.redactExportedReads = false) := by
  have hinsert : ∀ (q : FlagPackage) (pf : ParsedFlag),
      (q.insert pf).fingerprint = q.fingerprint ∧
        (q.insert pf).redactExportedReads = q.redactExportedReads := by
    intro q pf
    rw [FlagPackage.insert]
    split <;> exact ⟨rfl, rfl⟩
  have hgroups : ∀ (flags : List ParsedFlag), ∀ q ∈ flags.foldl insertFlag [],
      q.fingerprint = 0 ∧ q.redactExportedReads = false := by
    intro flags
    induction flags using List.reverseRecOn with
    | nil => simp
    | append_singleton flags pf ih =>
        intro q hq
        rw [List.foldl_append, List.foldl_cons, List.foldl_nil, insertFlag] at hq
        split_ifs at hq
        · exact ih q hq
        · obtain ⟨r, hr, rfl⟩ := List.mem_map.mp hq
          split
          · rw [(hinsert r pf).1, (hinsert r pf).2]
            exact ih r hr
          · exact ih r hr
        · rcases List.mem_append.mp hq with hq | hq
          · exact ih q hq
          · rw [List.mem_singleton.mp hq, (hinsert _ pf).1, (hinsert _ pf).2]
            exact ⟨rfl, rfl⟩
  have hall := completePackages_eq_ok h
  have hgroup := hgroups caches.flatten
  generalize caches.flatten.foldl insertFlag [] = groups at hall hgroup
  clear h
  induction hall with
  | nil => cases hp
  | @cons g q groups packages hfirst _ ih =>
      rw [List.forall_mem_cons] at hgroup
      rcases List.mem_cons.mp hp with rfl | hp
      · obtain ⟨i, rfl⟩ := hfirst
        constructor
        · rintro rfl
          exact hgroup.1.1
        · intro hlt
          have hnot : ¬ 3 ≤ version := UInt32.not_le.mpr hlt
          exact (if_neg hnot).trans hgroup.1.2
      · exact ih hp hgroup.2

theorem findSome?_eq_some_of_unique
    {α β : Type} {f : α → Option β} {l : List α} {x : α} {y : β} (hx : x ∈ l) (hy : f x = some y)
    (hunique : ∀ a ∈ l, ∀ b, f a = some b → b = y) :
    l.findSome? f = some y := by
  cases hfind : l.findSome? f with
  | none =>
      rw [List.findSome?_eq_none_iff.mp hfind x hx] at hy
      cases hy
  | some b =>
      obtain ⟨a, ha, hab⟩ := List.exists_of_findSome?_eq_some hfind
      rw [hunique a ha b hab]

namespace GeneratedTables

variable (g : GeneratedTables container caches version redactExportedReads)

theorem isGrouped :
    Grouped caches.flatten g.packages :=
  groupFlagsByPackage_grouped g.grouped

theorem length_lt
    {p : FlagPackage} (hp : p ∈ g.packages) :
    p.booleanFlags.length ≤ 65535 := by
  obtain ⟨ids, hids⟩ := (mem_createFlagTable g.createFlagTable).1 p hp
  have hle := (g.isGrouped.assignFlagIds hp hids).1
  rwa [g.isGrouped.flagNames p hp, List.length_map] at hle

theorem startsFrom :
    StartsFrom 0 g.packages := by
  refine completePackages_startsFrom g.grouped ?_
  intro p hp
  have hle := g.length_lt hp
  omega

variable (hversion : version = 1 ∨ version = 2 ∨ version = 3)

include hversion

theorem packageTable_built :
    PackageTable.Built g.packageTable :=
  createPackageTable_built g.createPackageTable hversion g.small.1

theorem flagTable_built :
    FlagTable.Built g.flagTable :=
  createFlagTable_built g.isGrouped g.createFlagTable hversion g.small.2.1

theorem packageNode_regular
    {node : PackageTableNode} (hnode : node ∈ g.packageTable.nodes) :
    node.Regular g.packageTable.header.version := by
  have hheader : g.packageTable.header.version = version := by
    obtain ⟨numBuckets, _, hrun⟩ := Loop.bind_eq_ok.mp g.createPackageTable
    exact (createTable_eq_ok hrun).1
  obtain ⟨p, hp, hunlinked⟩ :=
    (mem_createPackageTable g.createPackageTable _).mp (List.mem_map_of_mem hnode)
  obtain ⟨hfingerprint, hredact⟩ := groupFlagsByPackage_regular g.grouped hp
  have hnodeFingerprint : node.fingerprint = p.fingerprint :=
    congrArg PackageTableNode.fingerprint hunlinked
  have hnodeRedact : node.redactExportedReads = p.redactExportedReads :=
    congrArg PackageTableNode.redactExportedReads hunlinked
  rw [hheader]
  refine ⟨((g.packageTable_built hversion).nodes node hnode).1, ?_, ?_⟩
  · intro hone
    rw [hnodeFingerprint, hfingerprint hone]
  · intro hlt
    rw [hnodeRedact, hredact hlt]

theorem findPackage_of_mem
    {p : FlagPackage} (hp : p ∈ g.packages) {fuel : Nat}
    (hfuel : g.packageTable.nodes.length < fuel) :
    findPackageReadContext g.files.packageMap p.packageName fuel =
      some (.ok (some ⟨p.packageId, p.booleanStartIndex, p.fingerprint⟩)) := by
  have hnodes := mem_createPackageTable g.createPackageTable
  have hfind := findPackageReadContext_eq (g.packageTable_built hversion) g.small.1
    (fun _ => g.packageNode_regular hversion) p.packageName hfuel
  refine hfind.trans (congrArg (fun r => some (Except.ok r)) ?_)
  obtain ⟨node, hnode, hunlinked⟩ := List.mem_map.mp ((hnodes _).mpr ⟨p, hp, rfl⟩)
  have hcontext : ∀ (node : PackageTableNode) (q : FlagPackage), node.unlinked =
      ⟨q.packageName, q.packageId, q.fingerprint, q.redactExportedReads, q.booleanStartIndex, none⟩ →
      node.packageName = q.packageName ∧ node.packageId = q.packageId ∧
        node.booleanStartIndex = q.booleanStartIndex ∧ node.fingerprint = q.fingerprint := by
    intro node q h
    exact ⟨congrArg PackageTableNode.packageName h, congrArg PackageTableNode.packageId h,
      congrArg PackageTableNode.booleanStartIndex h, congrArg PackageTableNode.fingerprint h⟩
  obtain ⟨hname, hid, hstart, hfingerprint⟩ := hcontext node p hunlinked
  refine findSome?_eq_some_of_unique hnode ?_ ?_
  · rw [if_pos hname, hid, hstart, hfingerprint]
  · intro other hother context hcontext'
    split at hcontext'
    case isFalse => cases hcontext'
    case isTrue hsame =>
        cases hcontext'
        obtain ⟨q, hq, hqunlinked⟩ := (hnodes _).mp (List.mem_map_of_mem hother)
        obtain ⟨hqname, hqid, hqstart, hqfingerprint⟩ := hcontext other q hqunlinked
        obtain rfl : q = p := List.inj_on_of_nodup_map g.isGrouped.names hq hp
          (hqname.symm.trans hsame)
        rw [hqid, hqstart, hqfingerprint]

theorem findPackage_of_not_mem
    {package : String} (hnone : ∀ p ∈ g.packages, p.packageName ≠ package) {fuel : Nat}
    (hfuel : g.packageTable.nodes.length < fuel) :
    findPackageReadContext g.files.packageMap package fuel = some (.ok none) := by
  have hfind := findPackageReadContext_eq (g.packageTable_built hversion) g.small.1
    (fun _ => g.packageNode_regular hversion) package hfuel
  refine hfind.trans (congrArg (fun r => some (Except.ok r)) ?_)
  refine List.findSome?_eq_none_iff.mpr ?_
  intro node hnode
  obtain ⟨p, hp, hunlinked⟩ :=
    (mem_createPackageTable g.createPackageTable _).mp (List.mem_map_of_mem hnode)
  have hname : node.packageName = p.packageName := congrArg PackageTableNode.packageName hunlinked
  exact if_neg (hname ▸ hnone p hp)

omit hversion in
theorem flagNode_cases
    {node : FlagTableNode} (hnode : node ∈ g.flagTable.nodes) :
    ∃ p ∈ g.packages, ∃ i pf, p.booleanFlags[i]? = some pf ∧
      node.unlinked = ⟨p.packageId, pf.name, storedFlagType pf, UInt16.ofNat i, none⟩ := by
  obtain ⟨p, hp, ids, hids, pf, hpf, fid, hfid, hunlinked⟩ :=
    ((mem_createFlagTable g.createFlagTable).2 _).mp (List.mem_map_of_mem hnode)
  obtain ⟨i, hi, rfl⟩ := ((g.isGrouped.assignFlagIds hp hids).2.2 pf.name fid).mp hfid
  rw [g.isGrouped.retain_booleanFlags hp] at hpf
  have hnames := g.isGrouped.nodup_flagNames hp
  rw [g.isGrouped.flagNames p hp] at hi hnames
  rw [List.getElem?_map, Option.map_eq_some_iff] at hi
  obtain ⟨qf, hqf, hname⟩ := hi
  obtain rfl : qf = pf := List.inj_on_of_nodup_map hnames (List.mem_of_getElem? hqf) hpf hname
  exact ⟨p, hp, i, qf, hqf, hunlinked⟩

omit hversion in
theorem exists_flagNode
    {p : FlagPackage} (hp : p ∈ g.packages) {i : Nat} {pf : ParsedFlag}
    (hi : p.booleanFlags[i]? = some pf) :
    ∃ node ∈ g.flagTable.nodes,
      node.unlinked = ⟨p.packageId, pf.name, storedFlagType pf, UInt16.ofNat i, none⟩ := by
  obtain ⟨hassigned, hnodes⟩ := mem_createFlagTable g.createFlagTable
  obtain ⟨ids, hids⟩ := hassigned p hp
  have hname : p.flagNames[i]? = some pf.name := by
    rw [g.isGrouped.flagNames p hp, List.getElem?_map, hi]
    rfl
  have hid := ((g.isGrouped.assignFlagIds hp hids).2.2 pf.name (UInt16.ofNat i)).mpr
    ⟨i, hname, rfl⟩
  have hmem : pf ∈ p.retain.booleanFlags := by
    rw [g.isGrouped.retain_booleanFlags hp]
    exact List.mem_of_getElem? hi
  exact List.mem_map.mp ((hnodes _).mpr ⟨p, hp, ids, hids, pf, hmem, _, hid, rfl⟩)

/-- A flag is found under the id of its package and its name. -/
theorem findFlag_of_mem
    {p : FlagPackage} (hp : p ∈ g.packages) {i : Nat} {pf : ParsedFlag}
    (hi : p.booleanFlags[i]? = some pf) {fuel : Nat} (hfuel : g.flagTable.nodes.length < fuel) :
    findFlagReadContext g.files.flagMap p.packageId pf.name fuel =
      some (.ok (some ⟨storedFlagType pf, UInt16.ofNat i⟩)) := by
  have hfind := findFlagReadContext_eq (g.flagTable_built hversion) g.small.2.1 p.packageId pf.name
    hfuel
  refine hfind.trans (congrArg (fun r => some (Except.ok r)) ?_)
  obtain ⟨node, hnode, hunlinked⟩ := g.exists_flagNode hp hi
  refine findSome?_eq_some_of_unique hnode ?_ ?_
  · have hkey : node.packageId = p.packageId ∧ node.flagName = pf.name :=
      ⟨congrArg FlagTableNode.packageId hunlinked, congrArg FlagTableNode.flagName hunlinked⟩
    have htype : node.flagType = storedFlagType pf := congrArg FlagTableNode.flagType hunlinked
    have hindex : node.flagIndex = UInt16.ofNat i := congrArg FlagTableNode.flagIndex hunlinked
    rw [if_pos hkey, htype, hindex]
  · intro other hother context hcontext
    split at hcontext
    case isFalse => cases hcontext
    case isTrue hkey =>
        cases hcontext
        obtain ⟨q, hq, j, qf, hj, hqunlinked⟩ := g.flagNode_cases hother
        have hqid : other.packageId = q.packageId := congrArg FlagTableNode.packageId hqunlinked
        have hqname : other.flagName = qf.name := congrArg FlagTableNode.flagName hqunlinked
        have hqtype : other.flagType = storedFlagType qf :=
          congrArg FlagTableNode.flagType hqunlinked
        have hqindex : other.flagIndex = UInt16.ofNat j :=
          congrArg FlagTableNode.flagIndex hqunlinked
        obtain rfl := packageId_inj g.grouped g.createFlagTable hq hp (hqid.symm.trans hkey.1)
        have hnames := g.isGrouped.nodup_flagNames hp
        rw [g.isGrouped.flagNames q hp] at hnames
        obtain rfl : qf = pf := List.inj_on_of_nodup_map hnames (List.mem_of_getElem? hj)
          (List.mem_of_getElem? hi) (hqname.symm.trans hkey.2)
        obtain rfl : j = i := (List.getElem?_inj (List.getElem?_eq_some_iff.mp hj).1
          (hnames.of_map _)).mp (hj.trans hi.symm)
        rw [hqtype, hqindex]

/-- No other flag is found. -/
theorem findFlag_of_not_mem
    {packageId : UInt32} {name : String}
    (hnone : ∀ p ∈ g.packages, p.packageId = packageId → name ∉ p.flagNames) {fuel : Nat}
    (hfuel : g.flagTable.nodes.length < fuel) :
    findFlagReadContext g.files.flagMap packageId name fuel = some (.ok none) := by
  have hfind := findFlagReadContext_eq (g.flagTable_built hversion) g.small.2.1 packageId name hfuel
  refine hfind.trans (congrArg (fun r => some (Except.ok r)) ?_)
  refine List.findSome?_eq_none_iff.mpr ?_
  intro node hnode
  obtain ⟨p, hp, _, _, pf, hpf, _, _, hunlinked⟩ :=
    ((mem_createFlagTable g.createFlagTable).2 _).mp (List.mem_map_of_mem hnode)
  have hid : node.packageId = p.packageId := congrArg FlagTableNode.packageId hunlinked
  have hname : node.flagName = pf.name := congrArg FlagTableNode.flagName hunlinked
  refine if_neg ?_
  rintro ⟨hkey, rfl⟩
  refine hnone p hp (hid.symm.trans hkey) ?_
  rw [g.isGrouped.flagNames p hp, hname, ← g.isGrouped.retain_booleanFlags hp]
  exact List.mem_map_of_mem hpf

theorem length_flagNodes :
    g.flagTable.nodes.length = (allFlags g.packages).length ∧
      g.flagTable.header.count.toNat = (allFlags g.packages).length := by
  have hlengths : g.flagTable.nodes.length = (allFlags g.packages).length := by
    obtain ⟨numFlags, _, hrun⟩ := Loop.bind_eq_ok.mp g.createFlagTable
    obtain ⟨numBuckets, _, hrun⟩ := Loop.bind_eq_ok.mp hrun
    obtain ⟨lists, hlists, hrun⟩ := Loop.bind_eq_ok.mp hrun
    have hperm : (g.flagTable.nodes.map (fun _ => ())).Perm (lists.flatten.map (fun _ => ())) := by
      refine createTable_nodes (fun _ => ()) ?_ hrun
      intro node x
      rfl
    have hlength := hperm.length_eq
    rw [List.length_map, List.length_map, length_allNodes hlists] at hlength
    rw [hlength, allFlags, List.length_flatMap]
    congr 1
    refine List.map_congr_left ?_
    intro p hp
    rw [g.isGrouped.retain_booleanFlags hp]
  exact ⟨hlengths, (g.flagTable_built hversion).regular.numNodes.symm.trans hlengths⟩

theorem getElem?_allFlags
    {p : FlagPackage} (hp : p ∈ g.packages) {i : Nat} {pf : ParsedFlag}
    (hi : p.booleanFlags[i]? = some pf) :
    (allFlags g.packages)[p.booleanStartIndex.toNat + i]? = some pf ∧
      p.booleanStartIndex.toNat + i < 2 ^ 32 ∧ (UInt16.ofNat i).toNat = i := by
  have hget := (g.startsFrom.getElem?_allFlags hp hi).2
  rw [Nat.sub_zero] at hget
  have hlt := (List.getElem?_eq_some_iff.mp hget).1
  have hcount := (g.length_flagNodes hversion).2
  have hbound := g.flagTable.header.count.toNat_lt
  have hi' := (List.getElem?_eq_some_iff.mp hi).1
  have hle := g.length_lt hp
  exact ⟨hget, by omega, UInt16.toNat_ofNat_of_lt' (show i < 2 ^ 16 by omega)⟩

end GeneratedTables

end Tables

section Listing

def summaryOf (pf : ParsedFlag) : FlagValueSummary :=
  ⟨pf.package, pf.name, toString (decide (pf.state = .enabled)), storedFlagType pf⟩

/-- The order of the list. -/
def FlagValueSummary.Lt (a b : FlagValueSummary) : Prop :=
  a.packageName < b.packageName ∨ (a.packageName = b.packageName ∧ a.flagName < b.flagName)

theorem FlagValueSummary.le_iff
    {a b : FlagValueSummary} :
    a.le b = true ↔ a.Lt b ∨ (a.packageName = b.packageName ∧ a.flagName = b.flagName) := by
  simp only [FlagValueSummary.le, FlagValueSummary.Lt, Bool.or_eq_true, Bool.and_eq_true,
    decide_eq_true_eq, le_iff_lt_or_eq]
  tauto

theorem FlagValueSummary.Lt.trans
    {a b c : FlagValueSummary} (hab : a.Lt b) (hbc : b.Lt c) :
    a.Lt c := by
  rcases hab with hab | ⟨hab, hab'⟩
  · rcases hbc with hbc | ⟨hbc, _⟩
    · exact .inl (hab.trans hbc)
    · exact .inl (hbc ▸ hab)
  · rcases hbc with hbc | ⟨hbc, hbc'⟩
    · exact .inl (hab ▸ hbc)
    · exact .inr ⟨hab.trans hbc, hab'.trans hbc'⟩

instance : Std.Total (fun a b : FlagValueSummary => a.le b = true) where
  total a b := by
    simp only [FlagValueSummary.le_iff, FlagValueSummary.Lt]
    rcases lt_trichotomy a.packageName b.packageName with h | h | h
    · exact .inl (.inl (.inl h))
    · rcases lt_trichotomy a.flagName b.flagName with h' | h' | h'
      · exact .inl (.inl (.inr ⟨h, h'⟩))
      · exact .inl (.inr ⟨h, h'⟩)
      · exact .inr (.inl (.inr ⟨h.symm, h'⟩))
    · exact .inr (.inl (.inl h))

instance : IsTrans FlagValueSummary (fun a b => a.le b = true) where
  trans a b c hab hbc := by
    rw [FlagValueSummary.le_iff] at hab hbc ⊢
    rcases hab with hab | ⟨hab, hab'⟩
    · rcases hbc with hbc | ⟨hbc, hbc'⟩
      · exact .inl (hab.trans hbc)
      · rw [FlagValueSummary.Lt, ← hbc, ← hbc']
        exact .inl hab
    · rw [FlagValueSummary.Lt, hab, hab']
      exact hbc

/-- Sorting entries of distinct flags. -/
theorem pairwise_insertionSort_summaries
    {l : List FlagValueSummary}
    (hnodup : (l.map (fun s => (s.packageName, s.flagName))).Nodup) :
    (l.insertionSort (fun a b => a.le b = true)).Pairwise FlagValueSummary.Lt := by
  have hsorted := List.pairwise_insertionSort (fun a b : FlagValueSummary => a.le b = true) l
  have hkeys : (l.insertionSort (fun a b => a.le b = true)).Pairwise
      (fun a b => (a.packageName, a.flagName) ≠ (b.packageName, b.flagName)) := by
    refine List.pairwise_map.mp ?_
    exact (((List.perm_insertionSort _ l).map _).nodup_iff).mpr hnodup
  refine (hsorted.and hkeys).imp ?_
  rintro a b ⟨hle, hne⟩
  rcases FlagValueSummary.le_iff.mp hle with hlt | ⟨hpackage, hflag⟩
  · exact hlt
  · exact absurd (Prod.ext hpackage hflag) hne

variable {container : String} {caches : List (List ParsedFlag)} {version : UInt32}
  {redactExportedReads : Bool}

namespace GeneratedTables

variable (g : GeneratedTables container caches version redactExportedReads)
  (hversion : version = 1 ∨ version = 2 ∨ version = 3)

include hversion

theorem packageTable_roundTrip :
    packageTableFromBytes g.files.packageMap = .ok g.packageTable := by
  have hbuilt := g.packageTable_built hversion
  refine Aconfig.packageTable_roundTrip hbuilt.regular (fun _ => g.packageNode_regular hversion)
    hbuilt.container ?_
  intro node hnode
  exact strFits_packageName
    (lt_of_le_of_lt (Table.length_nodeBytes_le PackageTableNode.intoBytes hnode) g.small.1)

theorem flagTable_roundTrip :
    flagTableFromBytes g.files.flagMap = .ok g.flagTable := by
  have hbuilt := g.flagTable_built hversion
  refine Aconfig.flagTable_roundTrip hbuilt.regular (fun node hnode => (hbuilt.nodes node hnode).1)
    hbuilt.container ?_
  intro node hnode
  exact strFits_flagName (lt_of_le_of_lt
    (Table.length_nodeBytes_le (fun _ => FlagTableNode.intoBytes) hnode) g.small.2.1)

theorem flagValue_eq :
    flagValueListFromBytes g.files.flagVal = .ok g.flagValue ∧
      g.flagValue.values = (allFlags g.packages).map (fun pf => decide (pf.state = .enabled)) := by
  have hlt : ∀ p ∈ g.packages, p.booleanFlags.length < 2 ^ 32 := by
    intro p hp
    have hle := g.length_lt hp
    omega
  obtain ⟨hvalues, hregular⟩ := createFlagValue_eq_ok g.isGrouped g.startsFrom hlt hversion
    g.createFlagValue
  refine ⟨flagValueList_roundTrip hregular ?_, hvalues⟩
  have hsize := g.small.2.2.1
  rw [flagValueListIntoBytes, FlagList.intoBytes, List.length_append,
    length_listHeader_intoBytes] at hsize
  rw [StrFits]
  omega

/-- The loop over the packages fills in the name and the start index under each id. -/
theorem packageInfo_eq :
    ∃ info, g.packageTable.nodes.foldlM setPackageInfo
        (List.replicate g.packageTable.header.count.toNat ("", 0)) = .ok info ∧
      ∀ p ∈ g.packages,
        info[p.packageId.toNat]? = some (p.packageName, p.booleanStartIndex) := by
  have hnodes := mem_createPackageTable g.createPackageTable
  have hcase : ∀ node ∈ g.packageTable.nodes, ∃ p ∈ g.packages,
      node.packageName = p.packageName ∧ node.packageId = p.packageId ∧
        node.booleanStartIndex = p.booleanStartIndex := by
    intro node hnode
    obtain ⟨p, hp, hunlinked⟩ := (hnodes _).mp (List.mem_map_of_mem hnode)
    exact ⟨p, hp, congrArg PackageTableNode.packageName hunlinked,
      congrArg PackageTableNode.packageId hunlinked,
      congrArg PackageTableNode.booleanStartIndex hunlinked⟩
  have hcount : g.packageTable.header.count.toNat = g.packages.length := by
    rw [← (g.packageTable_built hversion).regular.numNodes]
    obtain ⟨numBuckets, _, hrun⟩ := Loop.bind_eq_ok.mp g.createPackageTable
    have hperm : (g.packageTable.nodes.map (fun _ => ())).Perm
        ((g.packages.map (fun p => packageNode p numBuckets)).map (fun _ => ())) := by
      refine createTable_nodes (fun _ => ()) ?_ hrun
      intro node x
      rfl
    have hlength := hperm.length_eq
    rwa [List.length_map, List.length_map, List.length_map] at hlength
  have hid : ∀ p ∈ g.packages, p.packageId.toNat < g.packages.length := by
    intro p hp
    obtain ⟨i, hi, rfl⟩ := List.mem_iff_getElem.mp hp
    have hlt := g.packageTable.header.count.toNat_lt
    rw [g.isGrouped.ids i _ (List.getElem?_eq_getElem hi),
      UInt32.toNat_ofNat_of_lt' (show i < 2 ^ 32 by omega)]
    exact hi
  obtain ⟨info, hrun, _, hinfo⟩ := Loop.forLoop_total setPackageInfo
    (fun done info => info.length = g.packages.length ∧ ∀ node ∈ done,
      info[node.packageId.toNat]? = some (node.packageName, node.booleanStartIndex))
    g.packageTable.nodes (List.replicate g.packageTable.header.count.toNat ("", 0))
    ⟨by rw [List.length_replicate, hcount], by simp⟩ (by
      intro done node rest info hlist ⟨hlength, hdone⟩
      have hmem : ∀ n ∈ done ++ [node], n ∈ g.packageTable.nodes := by
        intro n hn
        rw [hlist]
        simp only [List.mem_append, List.mem_singleton] at hn
        rcases hn with hn | rfl
        · simp [hn]
        · simp
      obtain ⟨p, hp, hname, hpid, hstart⟩ := hcase node (hmem node (by simp))
      have hlt : node.packageId.toNat < info.length := by
        rw [hlength, hpid]
        exact hid p hp
      refine ⟨_, if_pos hlt, by rw [List.length_set, hlength], ?_⟩
      intro n hn
      by_cases hsame : n.packageId = node.packageId
      · obtain ⟨q, hq, hqname, hqid, hqstart⟩ := hcase n (hmem n hn)
        obtain rfl := packageId_inj g.grouped g.createFlagTable hp hq
          (hpid.symm.trans (hsame.symm.trans hqid))
        rw [hsame, List.getElem?_set_self hlt, hname, hstart, hqname, hqstart]
      · have hne : node.packageId.toNat ≠ n.packageId.toNat := by
          intro h
          exact hsame (UInt32.toNat_inj.mp h.symm)
        rw [List.getElem?_set_ne hne]
        rcases List.mem_append.mp hn with hn | hn
        · exact hdone n hn
        · rw [List.mem_singleton.mp hn] at hsame
          exact absurd rfl hsame)
  refine ⟨info, hrun, ?_⟩
  intro p hp
  obtain ⟨node, hnode, hunlinked⟩ := List.mem_map.mp ((hnodes _).mpr ⟨p, hp, rfl⟩)
  have hname : node.packageName = p.packageName := congrArg PackageTableNode.packageName hunlinked
  have hpid : node.packageId = p.packageId := congrArg PackageTableNode.packageId hunlinked
  have hstart : node.booleanStartIndex = p.booleanStartIndex :=
    congrArg PackageTableNode.booleanStartIndex hunlinked
  rw [← hpid, hinfo node hnode, hname, hstart]

theorem flagValueSummary_eq
    {info : List (String × UInt32)}
    (hinfo : ∀ p ∈ g.packages,
      info[p.packageId.toNat]? = some (p.packageName, p.booleanStartIndex))
    {p : FlagPackage} (hp : p ∈ g.packages) {i : Nat} {pf : ParsedFlag}
    (hi : p.booleanFlags[i]? = some pf) {node : FlagTableNode}
    (hnode : node.unlinked = ⟨p.packageId, pf.name, storedFlagType pf, UInt16.ofNat i, none⟩) :
    flagValueSummary info g.flagValue.values node = .ok (summaryOf pf) := by
  have hid : node.packageId = p.packageId := congrArg FlagTableNode.packageId hnode
  have hname : node.flagName = pf.name := congrArg FlagTableNode.flagName hnode
  have htype : node.flagType = storedFlagType pf := congrArg FlagTableNode.flagType hnode
  have hindex : node.flagIndex = UInt16.ofNat i := congrArg FlagTableNode.flagIndex hnode
  obtain ⟨hget, hlt, hi16⟩ := g.getElem?_allFlags hversion hp hi
  have hpackage : pf.package = p.packageName :=
    (g.isGrouped.mem_booleanFlags hp (List.mem_of_getElem? hi)).2.2
  have hsum : (UInt32.ofNat (p.booleanStartIndex.toNat + i)).toNat =
      p.booleanStartIndex.toNat + i := UInt32.toNat_ofNat_of_lt' hlt
  have hadd : Checked.add (ε := AconfigStorageError) p.booleanStartIndex
      (UInt16.ofNat i).toUInt32 = .ok (UInt32.ofNat (p.booleanStartIndex.toNat + i)) := by
    rw [Checked.add_eq_ok, hsum, UInt16.toNat_toUInt32, hi16]
  rw [flagValueSummary, hid, hinfo p hp, hindex]
  simp only [hadd, bind, Except.bind, hsum]
  rw [(g.flagValue_eq hversion).2, List.getElem?_map, hget, hname, htype, summaryOf, hpackage]
  rfl

theorem listFlags_eq :
    ∃ l, listFlags g.files.packageMap g.files.flagMap g.files.flagVal = .ok l ∧
      l.Pairwise FlagValueSummary.Lt ∧ ∀ s, s ∈ l ↔ ∃ pf ∈ allFlags g.packages, s = summaryOf pf := by
  obtain ⟨info, hinfo, hpackages⟩ := g.packageInfo_eq hversion
  have hnode : ∀ node ∈ g.flagTable.nodes, ∃ pf ∈ allFlags g.packages,
      flagValueSummary info g.flagValue.values node = .ok (summaryOf pf) := by
    intro node hnode
    obtain ⟨p, hp, i, pf, hi, hunlinked⟩ := g.flagNode_cases hnode
    exact ⟨pf, List.mem_flatMap.mpr ⟨p, hp, List.mem_of_getElem? hi⟩,
      g.flagValueSummary_eq hversion hpackages hp hi hunlinked⟩
  have hsome : ∀ node ∈ g.flagTable.nodes, ∃ s,
      flagValueSummary info g.flagValue.values node = .ok s := by
    intro node hn
    obtain ⟨pf, _, h⟩ := hnode node hn
    exact ⟨summaryOf pf, h⟩
  obtain ⟨summaries, hsummaries⟩ := Loop.mapM_total hsome
  have hmem : ∀ s, s ∈ summaries ↔ ∃ pf ∈ allFlags g.packages, s = summaryOf pf := by
    intro s
    rw [Loop.mem_of_mapM_eq_ok hsummaries]
    constructor
    · rintro ⟨node, hn, hs⟩
      obtain ⟨pf, hpf, h⟩ := hnode node hn
      exact ⟨pf, hpf, Except.ok.inj (hs.symm.trans h)⟩
    · rintro ⟨pf, hpf, rfl⟩
      obtain ⟨p, hp, hpf⟩ := List.mem_flatMap.mp hpf
      obtain ⟨i, hi⟩ := List.mem_iff_getElem?.mp hpf
      obtain ⟨node, hn, hunlinked⟩ := g.exists_flagNode hp hi
      exact ⟨node, hn, g.flagValueSummary_eq hversion hpackages hp hi hunlinked⟩
  -- no flag is listed twice: there are as many entries as flags
  have hkeys : (summaries.map (fun s => (s.packageName, s.flagName))).Nodup := by
    have hflags : ((allFlags g.packages).map (fun pf => (pf.package, pf.name))).Nodup := by
      refine g.isGrouped.nodup_allFlags.map_on ?_
      intro pf hpf qf hqf hkey
      exact firstKept_unique (g.isGrouped.mem_allFlags_iff.mp hpf)
        (g.isGrouped.mem_allFlags_iff.mp hqf) (congrArg Prod.fst hkey) (congrArg Prod.snd hkey)
    have hsubset : (allFlags g.packages).map (fun pf => (pf.package, pf.name)) ⊆
        summaries.map (fun s => (s.packageName, s.flagName)) := by
      intro key hkey
      obtain ⟨pf, hpf, rfl⟩ := List.mem_map.mp hkey
      exact List.mem_map.mpr ⟨summaryOf pf, (hmem _).mpr ⟨pf, hpf, rfl⟩, rfl⟩
    have hlength : summaries.length = (allFlags g.packages).length := by
      rw [← (Loop.mapM_eq_ok.mp hsummaries).length_eq, (g.length_flagNodes hversion).1]
    have hperm := (List.subperm_of_subset hflags hsubset).perm_of_length_le (by simp [hlength])
    exact hperm.nodup_iff.mp hflags
  refine ⟨_, ?_, pairwise_insertionSort_summaries hkeys, ?_⟩
  · rw [listFlags, g.packageTable_roundTrip hversion, g.flagTable_roundTrip hversion,
      (g.flagValue_eq hversion).1]
    simp only [bind, Except.bind]
    rw [hinfo]
    simp only
    rw [hsummaries]
    rfl
  · intro s
    rw [List.mem_insertionSort, hmem]

end GeneratedTables

end Listing

section Queries

/-- The queries find the package, the index in it, the value and the permission of the flag. -/
structure Answers (caches : List (List ParsedFlag)) (version : UInt32) (files : StorageFiles)
    (fuel : Nat) (pf : ParsedFlag) (index : UInt32) : Prop where
  flag : ∃ context flagIndex,
    findPackageReadContext files.packageMap pf.package fuel = some (.ok (some context)) ∧
    context.fingerprint = (if 2 ≤ version then
      computeFlagsFingerprint (storageNames caches pf.package) else 0) ∧
    findFlagReadContext files.flagMap context.packageId pf.name fuel =
      some (.ok (some ⟨storedFlagType pf, flagIndex⟩)) ∧
    index.toNat = context.booleanStartIndex.toNat + flagIndex.toNat
  value : findBooleanFlagValue files.flagVal index = .ok (decide (pf.state = .enabled))
  permission : ∃ bits, findFlagAttribute files.flagInfo index = .ok bits ∧
    (bits &&& 2 ≠ 0 ↔ pf.permission = .readWrite)

variable {container : String} {caches : List (List ParsedFlag)} {version : UInt32}
  {redactExportedReads : Bool}

theorem attributes_create
    (b : Bool) :
    (FlagInfoNode.create b).attributes &&& 2 ≠ 0 ↔ b = true := by
  cases b <;> decide

namespace GeneratedTables

variable (g : GeneratedTables container caches version redactExportedReads)

def position (pf : ParsedFlag) : UInt32 :=
  UInt32.ofNat ((allFlags g.packages).idxOf pf)

def bound : Nat :=
  g.packageTable.nodes.length + g.flagTable.nodes.length + 1

variable (hversion : version = 1 ∨ version = 2 ∨ version = 3)

include hversion

theorem length_allFlags_lt :
    (allFlags g.packages).length < 2 ^ 32 := by
  rw [← (g.length_flagNodes hversion).2]
  exact g.flagTable.header.count.toNat_lt

theorem position_toNat
    {pf : ParsedFlag} (hpf : pf ∈ allFlags g.packages) :
    (g.position pf).toNat = (allFlags g.packages).idxOf pf := by
  have hlt := List.idxOf_lt_length_of_mem hpf
  have hlength := g.length_allFlags_lt hversion
  exact UInt32.toNat_ofNat_of_lt'
    (show (allFlags g.packages).idxOf pf < 2 ^ 32 by omega)

theorem answers
    {pf : ParsedFlag} (hpf : pf ∈ allFlags g.packages) {fuel : Nat} (hfuel : g.bound ≤ fuel) :
    Answers caches version g.files fuel pf (g.position pf) := by
  obtain ⟨p, hp, hmem⟩ := List.mem_flatMap.mp hpf
  obtain ⟨i, hi⟩ := List.mem_iff_getElem?.mp hmem
  obtain ⟨hget, _, hi16⟩ := g.getElem?_allFlags hversion hp hi
  have hpackage : pf.package = p.packageName := (g.isGrouped.mem_booleanFlags hp hmem).2.2
  have hposition : (g.position pf).toNat = p.booleanStartIndex.toNat + i := by
    rw [g.position_toNat hversion hpf]
    obtain ⟨hlt, hget⟩ := List.getElem?_eq_some_iff.mp hget
    rw [← hget]
    exact g.isGrouped.nodup_allFlags.idxOf_getElem _ hlt
  have hlt : ∀ q ∈ g.packages, q.booleanFlags.length < 2 ^ 32 := by
    intro q hq
    have hle := g.length_lt hq
    omega
  rw [bound] at hfuel
  refine ⟨⟨⟨p.packageId, p.booleanStartIndex, p.fingerprint⟩, UInt16.ofNat i, ?_, ?_, ?_, ?_⟩, ?_,
    ?_⟩
  · rw [hpackage]
    exact g.findPackage_of_mem hversion hp (by omega)
  · simp only
    split
    case isTrue htwo =>
        rw [groupFlagsByPackage_fingerprint g.grouped htwo hp, g.isGrouped.flagNames p hp,
          g.isGrouped.booleanFlags p hp, hpackage]
        rfl
    case isFalse htwo =>
        have hone : version = 1 := by
          rcases hversion with rfl | rfl | rfl
          · rfl
          · exact absurd (by decide) htwo
          · exact absurd (by decide) htwo
        exact (groupFlagsByPackage_regular g.grouped hp).1 hone
  · exact g.findFlag_of_mem hversion hp hi (by omega)
  · rw [hposition, hi16]
  · exact findBooleanFlagValue_eq g.isGrouped g.startsFrom hlt hversion g.createFlagValue
      g.small.2.2.1 (hposition ▸ hget)
  · refine ⟨_, findFlagAttribute_eq g.isGrouped g.startsFrom hlt hversion g.createFlagInfo
      g.small.2.2.2 (hposition ▸ hget), ?_⟩
    rw [attributes_create, decide_eq_true_eq]

end GeneratedTables

/-- The queries on the generated files find the flags that were kept first, and nothing else. -/
theorem storage_queries
    {files : StorageFiles} (hversion : version = 1 ∨ version = 2 ∨ version = 3)
    (h : Generates container caches version redactExportedReads files) :
    ∃ (bound : Nat) (numFlags : UInt32) (position : ParsedFlag → UInt32),
      (∀ pf, FirstKept caches.flatten pf → ∀ fuel, bound ≤ fuel →
        Answers caches version files fuel pf (position pf)) ∧
      (∀ pf qf, FirstKept caches.flatten pf → FirstKept caches.flatten qf →
        position pf = position qf → pf = qf) ∧
      (∀ n, n < numFlags.toNat ↔
        ∃ pf, FirstKept caches.flatten pf ∧ (position pf).toNat = n) ∧
      (∃ header, flagTableHeaderFromBytes files.flagMap = .ok header ∧ header.count = numFlags) ∧
      (∀ package, (∀ pf, FirstKept caches.flatten pf → pf.package ≠ package) →
        ∀ fuel, bound ≤ fuel →
          findPackageReadContext files.packageMap package fuel = some (.ok none)) ∧
      (∀ packageId name, (∀ pf context, FirstKept caches.flatten pf → pf.name = name →
          findPackageReadContext files.packageMap pf.package bound = some (.ok (some context)) →
          context.packageId ≠ packageId) →
        ∀ fuel, bound ≤ fuel →
          findFlagReadContext files.flagMap packageId name fuel = some (.ok none)) ∧
      ∃ l, listFlags files.packageMap files.flagMap files.flagVal = .ok l ∧
        l.Pairwise FlagValueSummary.Lt ∧
        ∀ s, s ∈ l ↔ ∃ pf, FirstKept caches.flatten pf ∧ s = summaryOf pf := by
  obtain ⟨g, rfl⟩ := h.exists_tables
  simp only [← g.isGrouped.mem_allFlags_iff]
  refine ⟨g.bound, g.flagTable.header.count, g.position, ?_, ?_, ?_, ?_, ?_, ?_, ?_⟩
  · intro pf hpf fuel hfuel
    exact g.answers hversion hpf hfuel
  · intro pf qf hpf hqf hsame
    have hindex := congrArg UInt32.toNat hsame
    rw [g.position_toNat hversion hpf, g.position_toNat hversion hqf] at hindex
    exact (List.idxOf_inj hpf).mp hindex
  · intro n
    rw [(g.length_flagNodes hversion).2]
    constructor
    · intro hn
      refine ⟨(allFlags g.packages)[n], List.getElem_mem hn, ?_⟩
      rw [g.position_toNat hversion (List.getElem_mem hn)]
      exact g.isGrouped.nodup_allFlags.idxOf_getElem _ hn
    · rintro ⟨pf, hpf, rfl⟩
      rw [g.position_toNat hversion hpf]
      exact List.idxOf_lt_length_of_mem hpf
  · exact ⟨_, header_of_built (g.flagTable_built hversion) _, rfl⟩
  · intro package hnone fuel hfuel
    rw [GeneratedTables.bound] at hfuel
    refine g.findPackage_of_not_mem hversion ?_ (by omega)
    intro p hp hname
    obtain ⟨pf, hpf⟩ := List.exists_mem_of_ne_nil _ (g.isGrouped.booleanFlags_ne_nil hp)
    exact hnone pf (List.mem_flatMap.mpr ⟨p, hp, hpf⟩)
      ((g.isGrouped.mem_booleanFlags hp hpf).2.2.trans hname)
  · intro packageId name hnone fuel hfuel
    have hbound := hfuel
    rw [GeneratedTables.bound] at hbound
    refine g.findFlag_of_not_mem hversion ?_ (by omega)
    rintro p hp rfl hname
    rw [g.isGrouped.flagNames p hp] at hname
    obtain ⟨pf, hpf, rfl⟩ := List.mem_map.mp hname
    have hpackage : pf.package = p.packageName := (g.isGrouped.mem_booleanFlags hp hpf).2.2
    refine hnone pf ⟨p.packageId, p.booleanStartIndex, p.fingerprint⟩
      (List.mem_flatMap.mpr ⟨p, hp, hpf⟩) rfl ?_ rfl
    rw [hpackage]
    refine g.findPackage_of_mem hversion hp ?_
    rw [GeneratedTables.bound]
    omega
  · exact g.listFlags_eq hversion

/-- The files are generated when each of them is. -/
theorem exists_generates
    (h : ∀ type : StorageFileType,
      (generateStorageFile container caches type version redactExportedReads).toOption.any
        (fun l => decide (l.length < 2 ^ 32)) = true) :
    ∃ files, Generates container caches version redactExportedReads files := by
  have hfile : ∀ type : StorageFileType, ∃ l,
      generateStorageFile container caches type version redactExportedReads = .ok l ∧
        l.length < 2 ^ 32 := by
    intro type
    have htype := h type
    cases hrun : generateStorageFile container caches type version redactExportedReads with
    | error e =>
        rw [hrun] at htype
        cases htype
    | ok l =>
        rw [hrun] at htype
        exact ⟨l, rfl, of_decide_eq_true htype⟩
  obtain ⟨packageMap, hpackageMap, hsmall⟩ := hfile .packageMap
  obtain ⟨flagMap, hflagMap, hsmall₂⟩ := hfile .flagMap
  obtain ⟨flagVal, hflagVal, hsmall₃⟩ := hfile .flagVal
  obtain ⟨flagInfo, hflagInfo, hsmall₄⟩ := hfile .flagInfo
  exact ⟨⟨packageMap, flagMap, flagVal, flagInfo⟩, hpackageMap, hflagMap, hflagVal, hflagInfo,
    hsmall, hsmall₂, hsmall₃, hsmall₄⟩

/-- The third flag of the package, where the second one is not kept. -/
theorem storage_queries_example :
    let caches := [[systemFlag "com.a" "x" .enabled, systemFlag "com.a" "y" .disabled,
      systemFlag "com.a" "z" .enabled], [systemFlag "com.b" "z" .enabled]]
    ∃ files, Generates "system" caches 2 false files ∧
      ∃ bound index, ∀ fuel, bound ≤ fuel →
        Answers caches 2 files fuel (systemFlag "com.a" "z" .enabled) index := by
  intro caches
  have hall : ∀ type : StorageFileType, (generateStorageFile "system" caches type 2
      false).toOption.any (fun l => decide (l.length < 2 ^ 32)) = true := by
    intro type
    cases type <;> decide +kernel
  obtain ⟨files, hfiles⟩ := exists_generates hall
  obtain ⟨bound, numFlags, position, hanswers, _⟩ := storage_queries (.inr (.inl rfl)) hfiles
  refine ⟨files, hfiles, bound, position (systemFlag "com.a" "z" .enabled), ?_⟩
  refine hanswers _ ?_
  unfold FirstKept
  decide +kernel

/-- A flag in two caches has the value of the first cache. -/
theorem storage_queries_twice :
    let x : FlagState → ParsedFlag := fun state =>
      ⟨"com.a", "x", some "system", state, .readWrite, false, false, some .aconfigd⟩
    let caches := [[x .enabled], [x .disabled]]
    (∀ cache ∈ caches, verifyFields cache = .ok ()) ∧
      (caches.flatten.map (fun pf => pf.name)).Pairwise (· ≤ ·) ∧
      shouldIncludeFlag (x .disabled) = true ∧
      ∃ files, Generates "system" caches 1 false files ∧ ∃ fuel context flagIndex index,
        findPackageReadContext files.packageMap "com.a" fuel = some (.ok (some context)) ∧
        findFlagReadContext files.flagMap context.packageId "x" fuel =
          some (.ok (some ⟨.readWriteBoolean, flagIndex⟩)) ∧
        index.toNat = context.booleanStartIndex.toNat + flagIndex.toNat ∧
        findBooleanFlagValue files.flagVal index ≠
          .ok (decide ((x .disabled).state = .enabled)) := by
  intro x caches
  refine ⟨by decide +kernel, by decide, by decide, ?_⟩
  have hall : ∀ type : StorageFileType, (generateStorageFile "system" caches type 1
      false).toOption.any (fun l => decide (l.length < 2 ^ 32)) = true := by
    intro type
    cases type <;> decide +kernel
  obtain ⟨files, hfiles⟩ := exists_generates hall
  obtain ⟨g, rfl⟩ := hfiles.exists_tables
  have hfirst : x .enabled ∈ allFlags g.packages := by
    rw [g.isGrouped.mem_allFlags_iff]
    unfold FirstKept
    decide +kernel
  have hanswers := g.answers (.inl rfl) hfirst (le_refl _)
  obtain ⟨context, flagIndex, hpackage, _, hflag, hindex⟩ := hanswers.flag
  refine ⟨g.files, hfiles, g.bound, context, flagIndex, g.position (x .enabled), hpackage, hflag,
    hindex, ?_⟩
  rw [hanswers.value]
  decide

end Queries

end Aconfig
end AndroidBuild
