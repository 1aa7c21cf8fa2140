import AndroidBuild.Aconfig.Flags
import AndroidBuild.Aconfig.RoundTrip

/-!
# Building the storage files

`create_package_table`, `create_flag_table`, `create_flag_value` and
`create_flag_info` compute the offsets in the header before the bytes of the
file are there.  The offsets and the file size are those of the bytes that
`into_bytes` writes.
-/

namespace AndroidBuild
namespace Aconfig

section Create

/-- The `?` on an error of the storage library. -/
def liftStorage {α : Type} : Storage α → Checked AconfigError α
  | .ok a => .ok a
  | .error (.err e) => .error (.err (.storage e))
  | .error .panic => .error .panic

/-- The `?` on an error; the assertion of `assign_flag_ids` panics. -/
def liftError {α : Type} : Except AconfigError α → Checked AconfigError α
  | .ok a => .ok a
  | .error .namesNotSorted => .error .panic
  | .error e => .error (.err e)

variable {ν : Type}

def fillBucket (buckets : List (Option UInt32)) (bucket : Nat) (offset : UInt32) :
    Checked AconfigError (List (Option UInt32)) :=
  match buckets[bucket]? with
  | none => .error .panic
  | some none => .ok (buckets.set bucket (some offset))
  | some (some _) => .ok buckets

/-- The loop that fills in the node offsets; `offset` is that of the next node. -/
def fillOffsets (size : ν → Nat) (setNext : ν → UInt32 → ν) :
    List (ν × Nat) → List (Option UInt32) → UInt32 →
      Checked AconfigError (List ν × List (Option UInt32))
  | [], buckets, _ => pure ([], buckets)
  | (node, bucket) :: rest, buckets, offset => do
      let buckets ← fillBucket buckets bucket offset
      let next ← Checked.add offset (UInt32.ofNat (size node))
      let node := if rest.head?.map Prod.snd = some bucket then setNext node next else node
      let (nodes, buckets) ← fillOffsets size setNext rest buckets next
      pure (node :: nodes, buckets)

/-- What `create_package_table` and `create_flag_table` do with the nodes and their buckets. -/
def createTable (type : StorageFileType) (container : String) (version count numBuckets : UInt32)
    (nodeBytes : ν → List UInt8) (setNext : ν → UInt32 → ν) (wrappers : List (ν × Nat)) :
    Checked AconfigError (Table ν) := do
  let start : FileHeader := ⟨version, container, type.toU8, 0, count⟩
  let header : TableHeader := ⟨start, 0, 0⟩
  let bucketOffset := UInt32.ofNat header.intoBytes.length
  let bucketSize ← Checked.mul numBuckets 4
  let nodeOffset ← Checked.add bucketOffset bucketSize
  let fileSize ← Checked.add nodeOffset
    (UInt32.ofNat (wrappers.map (fun w => (nodeBytes w.1).length)).sum)
  let sorted := wrappers.insertionSort (fun a b => a.2 ≤ b.2)
  let (nodes, buckets) ← fillOffsets (fun node => (nodeBytes node).length) setNext sorted
    (List.replicate numBuckets.toNat none) nodeOffset
  pure ⟨⟨{ start with fileSize := fileSize }, bucketOffset, nodeOffset⟩, buckets, nodes⟩

/-- `PackageTableNodeWrapper::new`. -/
def packageNode (package : FlagPackage) (numBuckets : UInt32) : PackageTableNode × Nat :=
  (⟨package.packageName, package.packageId, package.fingerprint, package.redactExportedReads,
    package.booleanStartIndex, none⟩,
    PackageTableNode.findBucketIndex package.packageName numBuckets.toNat)

def createPackageTable (container : String) (packages : List FlagPackage) (version : UInt32) :
    Checked AconfigError PackageTable := do
  let numPackages := UInt32.ofNat packages.length
  let numBuckets ← liftStorage (getTableSize numPackages)
  createTable .packageMap container version numPackages numBuckets
    (PackageTableNode.intoBytes version) (fun node next => { node with nextOffset := some next })
    (packages.map (fun package => packageNode package numBuckets))

/-- The sum of the numbers of flags, as `u32`. -/
def sumFlags (packages : List FlagPackage) : Checked AconfigError UInt32 :=
  packages.foldlM (fun sum p => Checked.add sum (UInt32.ofNat p.booleanFlags.length)) 0

def createFlagTable (container : String) (packages : List FlagPackage) (version : UInt32) :
    Checked AconfigError FlagTable := do
  let numFlags ← sumFlags packages
  let numBuckets ← liftStorage (getTableSize numFlags)
  let nodes ← packages.mapM (fun package => liftError (createNodes package numBuckets))
  createTable .flagMap container version numFlags numBuckets FlagTableNode.intoBytes
    (fun node next => { node with nextOffset := some next }) nodes.flatten

/-- `retain(should_include_flag)`. -/
def FlagPackage.retain (package : FlagPackage) : FlagPackage :=
  { package with booleanFlags := package.booleanFlags.filter shouldIncludeFlag }

/-- The inner loop of `create_flag_value` and `create_flag_info`. -/
def setFlagValue (value : ParsedFlag → Bool) (start : Nat) (ids : String → Option UInt16)
    (values : List Bool) (pf : ParsedFlag) : Checked AconfigError (List Bool) :=
  match ids pf.name with
  | none => .error (.err (.missingFlagId pf.name))
  | some fid =>
      if start + fid.toNat < values.length then .ok (values.set (start + fid.toNat) (value pf))
      else .error .panic

/-- One package of `create_flag_value` and `create_flag_info`. -/
def setPackageValues (value : ParsedFlag → Bool) (values : List Bool) (package : FlagPackage) :
    Checked AconfigError (List Bool) := do
  let ids ← liftError (assignFlagIds package.packageName package.booleanFlags)
  package.booleanFlags.foldlM (setFlagValue value package.booleanStartIndex.toNat ids) values

def createFlagValue (container : String) (packages : List FlagPackage) (version : UInt32) :
    Checked AconfigError FlagValueList := do
  let filtered := packages.map FlagPackage.retain
  let numFlags ← sumFlags filtered
  let start : FileHeader := ⟨version, container, StorageFileType.flagVal.toU8, 0, numFlags⟩
  let header : ListHeader := ⟨start, 0⟩
  let booleans ← filtered.foldlM (setPackageValues (fun pf => pf.state = .enabled))
    (List.replicate numFlags.toNat false)
  let booleanOffset := UInt32.ofNat header.intoBytes.length
  let fileSize ← Checked.add booleanOffset numFlags
  pure ⟨⟨{ start with fileSize := fileSize }, booleanOffset⟩, booleans⟩

def createFlagInfo (container : String) (packages : List FlagPackage) (version : UInt32) :
    Checked AconfigError FlagInfoList := do
  let filtered := packages.map FlagPackage.retain
  let numFlags ← sumFlags filtered
  let isFlagRw ← filtered.foldlM (setPackageValues (fun pf => pf.permission = .readWrite))
    (List.replicate numFlags.toNat false)
  let start : FileHeader := ⟨version, container, StorageFileType.flagInfo.toU8, 0, numFlags⟩
  let header : ListHeader := ⟨start, 0⟩
  let nodes := isFlagRw.map FlagInfoNode.create
  let booleanOffset := UInt32.ofNat header.intoBytes.length
  let bytesPerNode := UInt32.ofNat (FlagInfoNode.create false).intoBytes.length
  let nodeSize ← Checked.mul numFlags bytesPerNode
  let fileSize ← Checked.add booleanOffset nodeSize
  pure ⟨⟨{ start with fileSize := fileSize }, booleanOffset⟩, nodes⟩

end Create

section Offsets

variable {ν : Type}

/-- The sections of a table are where its header says. -/
structure Table.Laid (nodeBytes : UInt32 → ν → List UInt8) (t : Table ν) : Prop where
  fileSize : (t.intoBytes nodeBytes).length = t.header.fileSize.toNat
  buckets : (t.intoBytes nodeBytes).drop t.header.bucketOffset.toNat =
    bucketBytes t.buckets ++ t.nodes.flatMap (nodeBytes t.header.version)
  nodes : (t.intoBytes nodeBytes).drop t.header.nodeOffset.toNat =
    t.nodes.flatMap (nodeBytes t.header.version)
  bucketOffset : t.header.bucketOffset.toNat = t.header.intoBytes.length
  nodeOffset : t.header.nodeOffset.toNat =
    t.header.bucketOffset.toNat + (bucketBytes t.buckets).length

/-- The section of a list is where its header says. -/
structure FlagList.Laid (valueBytes : ν → List UInt8) (t : FlagList ν) : Prop where
  fileSize : (t.intoBytes valueBytes).length = t.header.fileSize.toNat
  values : (t.intoBytes valueBytes).drop t.header.booleanOffset.toNat =
    t.values.flatMap valueBytes
  booleanOffset : t.header.booleanOffset.toNat = t.header.intoBytes.length

@[simp] theorem length_bucketBytes
    (buckets : List (Option UInt32)) :
    (bucketBytes buckets).length = 4 * buckets.length := by
  simp [bucketBytes, List.length_flatMap, mul_comm]

theorem Table.laid_of_lengths
    {nodeBytes : UInt32 → ν → List UInt8} {t : Table ν}
    (hbuckets : t.header.bucketOffset.toNat = t.header.intoBytes.length)
    (hnodes : t.header.nodeOffset.toNat = t.header.bucketOffset.toNat + 4 * t.buckets.length)
    (hsize : t.header.fileSize.toNat = t.header.nodeOffset.toNat +
      (t.nodes.map (fun node => (nodeBytes t.header.version node).length)).sum) :
    t.Laid nodeBytes := by
  refine ⟨?_, ?_, ?_, hbuckets, ?_⟩
  · rw [Table.intoBytes, List.length_append, List.length_append, length_bucketBytes,
      List.length_flatMap]
    omega
  · rw [Table.intoBytes, hbuckets, List.drop_left]
  · have hstart : t.header.nodeOffset.toNat =
        (t.header.intoBytes ++ bucketBytes t.buckets).length := by
      rw [List.length_append, length_bucketBytes, hnodes, hbuckets]
    rw [Table.intoBytes, ← List.append_assoc, hstart, List.drop_left]
  · rw [length_bucketBytes, hnodes]

theorem length_fillBucket
    {buckets filled : List (Option UInt32)} {bucket : Nat} {offset : UInt32}
    (h : fillBucket buckets bucket offset = .ok filled) :
    filled.length = buckets.length := by
  rw [fillBucket] at h
  split at h
  · cases h
  · cases h
    rw [List.length_set]
  · cases h
    rfl

/-- The loop over the nodes sets their next offsets. -/
theorem fillOffsets_map
    {β : Type} (f : ν → β) {size : ν → Nat} {setNext : ν → UInt32 → ν}
    (hnext : ∀ node x, f (setNext node x) = f node)
    {ws : List (ν × Nat)} {buckets buckets' : List (Option UInt32)} {offset : UInt32}
    {nodes : List ν} (hrun : fillOffsets size setNext ws buckets offset = .ok (nodes, buckets')) :
    nodes.map f = ws.map (fun w => f w.1) := by
  induction ws generalizing buckets offset nodes with
  | nil =>
      cases hrun
      rfl
  | cons w ws ih =>
      obtain ⟨node, bucket⟩ := w
      rw [fillOffsets] at hrun
      obtain ⟨filled, hfilled, hrun⟩ := Loop.bind_eq_ok.mp hrun
      obtain ⟨next, hadd, hrun⟩ := Loop.bind_eq_ok.mp hrun
      obtain ⟨⟨rest, last⟩, hrest, hrun⟩ := Loop.bind_eq_ok.mp hrun
      cases hrun
      rw [List.map_cons, List.map_cons, ih hrest]
      split
      · rw [hnext]
      · rfl

/-- The offset after the last node has not overflowed. -/
theorem fillOffsets_spec
    {size : ν → Nat} {setNext : ν → UInt32 → ν}
    {ws : List (ν × Nat)} {buckets buckets' : List (Option UInt32)} {offset : UInt32}
    {nodes : List ν} (hrun : fillOffsets size setNext ws buckets offset = .ok (nodes, buckets'))
    (hsize : ∀ w ∈ ws, size w.1 < 2 ^ 32) :
    buckets'.length = buckets.length ∧
      offset.toNat + (ws.map (fun w => size w.1)).sum < 2 ^ 32 := by
  induction ws generalizing buckets offset nodes with
  | nil =>
      cases hrun
      exact ⟨rfl, by simpa using offset.toNat_lt⟩
  | cons w ws ih =>
      obtain ⟨node, bucket⟩ := w
      rw [fillOffsets] at hrun
      obtain ⟨filled, hfilled, hrun⟩ := Loop.bind_eq_ok.mp hrun
      obtain ⟨next, hadd, hrun⟩ := Loop.bind_eq_ok.mp hrun
      obtain ⟨⟨rest, last⟩, hrest, hrun⟩ := Loop.bind_eq_ok.mp hrun
      cases hrun
      rw [List.forall_mem_cons] at hsize
      have hsum := Checked.add_eq_ok.mp hadd
      rw [UInt32.toNat_ofNat_of_lt' hsize.1] at hsum
      obtain ⟨hbuckets, hlt⟩ := ih hrest hsize.2
      refine ⟨hbuckets.trans (length_fillBucket hfilled), ?_⟩
      rw [List.map_cons, List.sum_cons]
      omega

theorem createTable_nodes
    {β : Type} (f : ν → β) {type : StorageFileType} {container : String}
    {version count numBuckets : UInt32} {nodeBytes : ν → List UInt8} {setNext : ν → UInt32 → ν}
    (hnext : ∀ node x, f (setNext node x) = f node) {wrappers : List (ν × Nat)} {t : Table ν}
    (hrun : createTable type container version count numBuckets nodeBytes setNext wrappers =
      .ok t) :
    (t.nodes.map f).Perm (wrappers.map (fun w => f w.1)) := by
  obtain ⟨bucketSize, hmul, hrun⟩ := Loop.bind_eq_ok.mp hrun
  obtain ⟨nodeOffset, hnode, hrun⟩ := Loop.bind_eq_ok.mp hrun
  obtain ⟨fileSize, hfile, hrun⟩ := Loop.bind_eq_ok.mp hrun
  obtain ⟨⟨nodes, buckets⟩, hfill, hrun⟩ := Loop.bind_eq_ok.mp hrun
  cases hrun
  rw [fillOffsets_map f hnext hfill]
  exact (List.perm_insertionSort _ wrappers).map _

theorem createTable_laid
    {type : StorageFileType} {container : String} {version count numBuckets : UInt32}
    (nodeBytes : UInt32 → ν → List UInt8) {setNext : ν → UInt32 → ν}
    {wrappers : List (ν × Nat)} {t : Table ν}
    (hnext : ∀ node x, (nodeBytes version (setNext node x)).length = (nodeBytes version node).length)
    (hrun : createTable type container version count numBuckets (nodeBytes version) setNext
      wrappers = .ok t)
    (hheader : t.header.intoBytes.length < 2 ^ 32)
    (hnodes : ∀ node ∈ t.nodes, (nodeBytes t.header.version node).length < 2 ^ 32) :
    t.Laid nodeBytes := by
  obtain ⟨bucketSize, hmul, hrun⟩ := Loop.bind_eq_ok.mp hrun
  obtain ⟨nodeOffset, hnode, hrun⟩ := Loop.bind_eq_ok.mp hrun
  obtain ⟨fileSize, hfile, hrun⟩ := Loop.bind_eq_ok.mp hrun
  obtain ⟨⟨nodes, buckets⟩, hfill, hrun⟩ := Loop.bind_eq_ok.mp hrun
  cases hrun
  simp only [length_tableHeader_intoBytes] at hheader hnode
  simp only at hnodes
  have hmap := fillOffsets_map (fun node => (nodeBytes version node).length) hnext hfill
  have hsizes : ∀ w ∈ wrappers.insertionSort (fun a b => a.2 ≤ b.2),
      (nodeBytes version w.1).length < 2 ^ 32 := by
    intro w hw
    have hmem := List.mem_map_of_mem (f := fun w : ν × Nat => (nodeBytes version w.1).length) hw
    rw [← hmap] at hmem
    obtain ⟨node, hnode, hlength⟩ := List.mem_map.mp hmem
    rw [← hlength]
    exact hnodes node hnode
  obtain ⟨hlength, hlt⟩ := fillOffsets_spec hfill hsizes
  rw [← hmap] at hlt
  have hsum : (nodes.map (fun node => (nodeBytes version node).length)).sum =
      (wrappers.map (fun w => (nodeBytes version w.1).length)).sum := by
    rw [hmap]
    exact ((List.perm_insertionSort _ wrappers).map _).sum_eq
  rw [List.length_replicate] at hlength
  have hoffset := Checked.add_eq_ok.mp hnode
  have hsize := Checked.add_eq_ok.mp hfile
  have hlt' : (wrappers.map (fun w => (nodeBytes version w.1).length)).sum < 2 ^ 32 := by
    rw [← hsum]
    exact lt_of_le_of_lt (Nat.le_add_left _ _) hlt
  rw [UInt32.toNat_ofNat_of_lt' hlt', ← hsum] at hsize
  have hbuckets : (UInt32.ofNat (25 + (bytesOf container).length)).toNat =
      25 + (bytesOf container).length := UInt32.toNat_ofNat_of_lt' hheader
  have hfour : (4 : UInt32).toNat = 4 := rfl
  refine Table.laid_of_lengths ?_ ?_ hsize
  · simp only [length_tableHeader_intoBytes]
    exact hbuckets
  · simp only [length_tableHeader_intoBytes]
    rw [hoffset, Checked.mul_eq_ok.mp hmul, hfour, hlength, mul_comm]

theorem FlagList.laid_of_lengths
    {valueBytes : ν → List UInt8} {t : FlagList ν}
    (hoffset : t.header.booleanOffset.toNat = t.header.intoBytes.length)
    (hbytes : ∀ v, (valueBytes v).length = 1)
    (hsize : t.header.fileSize.toNat = t.header.booleanOffset.toNat + t.values.length) :
    t.Laid valueBytes := by
  refine ⟨?_, ?_, hoffset⟩
  · rw [FlagList.intoBytes, List.length_append, List.length_flatMap]
    simp only [hbytes, List.map_const', List.sum_replicate, smul_eq_mul, mul_one]
    omega
  · rw [FlagList.intoBytes, hoffset, List.drop_left]

theorem length_setPackageValues
    {value : ParsedFlag → Bool} {values values' : List Bool} {package : FlagPackage}
    (h : setPackageValues value values package = .ok values') :
    values'.length = values.length := by
  obtain ⟨ids, _, h⟩ := Loop.bind_eq_ok.mp h
  refine Loop.forLoop_preserves (fun l => l.length = values.length) h rfl ?_
  intro pf l l' _ hl hset
  rw [setFlagValue] at hset
  split at hset
  · cases hset
  · split at hset
    · cases hset
      rw [List.length_set, hl]
    · cases hset

theorem length_setValues
    {value : ParsedFlag → Bool} {packages : List FlagPackage} {n : Nat} {values : List Bool}
    (h : packages.foldlM (setPackageValues value) (List.replicate n false) = .ok values) :
    values.length = n := by
  refine Loop.forLoop_preserves (fun l => l.length = n) h (List.length_replicate ..) ?_
  intro package l l' _ hl hset
  rw [length_setPackageValues hset, hl]

theorem createFlagValue_laid
    {container : String} {packages : List FlagPackage} {version : UInt32} {t : FlagValueList}
    (hrun : createFlagValue container packages version = .ok t)
    (hheader : t.header.intoBytes.length < 2 ^ 32) :
    t.Laid (fun v => Bytes.ofNat 1 (u8From v).toNat) := by
  obtain ⟨numFlags, _, hrun⟩ := Loop.bind_eq_ok.mp hrun
  obtain ⟨booleans, hvalues, hrun⟩ := Loop.bind_eq_ok.mp hrun
  obtain ⟨fileSize, hfile, hrun⟩ := Loop.bind_eq_ok.mp hrun
  cases hrun
  simp only [length_listHeader_intoBytes] at hheader hfile
  refine FlagList.laid_of_lengths ?_ (fun _ => rfl) ?_
  · simp only [length_listHeader_intoBytes]
    exact UInt32.toNat_ofNat_of_lt' hheader
  · simp only [length_listHeader_intoBytes]
    rw [Checked.add_eq_ok.mp hfile, length_setValues hvalues]

theorem createFlagInfo_laid
    {container : String} {packages : List FlagPackage} {version : UInt32} {t : FlagInfoList}
    (hrun : createFlagInfo container packages version = .ok t)
    (hheader : t.header.intoBytes.length < 2 ^ 32) :
    t.Laid FlagInfoNode.intoBytes := by
  obtain ⟨numFlags, _, hrun⟩ := Loop.bind_eq_ok.mp hrun
  obtain ⟨isFlagRw, hvalues, hrun⟩ := Loop.bind_eq_ok.mp hrun
  obtain ⟨nodeSize, hmul, hrun⟩ := Loop.bind_eq_ok.mp hrun
  obtain ⟨fileSize, hfile, hrun⟩ := Loop.bind_eq_ok.mp hrun
  cases hrun
  simp only [length_listHeader_intoBytes] at hheader hfile
  have hone : nodeSize.toNat = numFlags.toNat * 1 := Checked.mul_eq_ok.mp hmul
  refine FlagList.laid_of_lengths ?_ (fun _ => rfl) ?_
  · simp only [length_listHeader_intoBytes]
    exact UInt32.toNat_ofNat_of_lt' hheader
  · simp only [length_listHeader_intoBytes]
    rw [Checked.add_eq_ok.mp hfile, hone, List.length_map, length_setValues hvalues, mul_one]

theorem createPackageTable_laid
    {container : String} {packages : List FlagPackage} {version : UInt32} {t : PackageTable}
    (hrun : createPackageTable container packages version = .ok t)
    (hheader : t.header.intoBytes.length < 2 ^ 32)
    (hnodes : ∀ node ∈ t.nodes, (node.intoBytes t.header.version).length < 2 ^ 32) :
    t.Laid PackageTableNode.intoBytes := by
  obtain ⟨numBuckets, _, hrun⟩ := Loop.bind_eq_ok.mp hrun
  refine createTable_laid PackageTableNode.intoBytes ?_ hrun hheader hnodes
  intro node x
  simp only [PackageTableNode.intoBytes]
  split_ifs <;> simp [PackageTableNode.intoBytesV1, PackageTableNode.intoBytesV2,
    PackageTableNode.intoBytesV3, PackageTableNode.lastBytes]

theorem createFlagTable_laid
    {container : String} {packages : List FlagPackage} {version : UInt32} {t : FlagTable}
    (hrun : createFlagTable container packages version = .ok t)
    (hheader : t.header.intoBytes.length < 2 ^ 32)
    (hnodes : ∀ node ∈ t.nodes, node.intoBytes.length < 2 ^ 32) :
    t.Laid (fun _ => FlagTableNode.intoBytes) := by
  obtain ⟨numFlags, _, hrun⟩ := Loop.bind_eq_ok.mp hrun
  obtain ⟨numBuckets, _, hrun⟩ := Loop.bind_eq_ok.mp hrun
  obtain ⟨nodes, _, hrun⟩ := Loop.bind_eq_ok.mp hrun
  refine createTable_laid (fun _ => FlagTableNode.intoBytes) ?_ hrun hheader hnodes
  intro node x
  simp [FlagTableNode.intoBytes]

end Offsets

section StorageFiles

theorem storage_files :
    (∀ t : PackageTable, t.Regular .packageMap →
      (∀ node ∈ t.nodes, node.Regular t.header.version) →
      StrFits t.header.container → (∀ node ∈ t.nodes, StrFits node.packageName) →
      packageTableFromBytes (packageTableIntoBytes t) = .ok t) ∧
    (∀ t : FlagTable, t.Regular .flagMap → (∀ node ∈ t.nodes, node.nextOffset ≠ some 0) →
      StrFits t.header.container → (∀ node ∈ t.nodes, StrFits node.flagName) →
      flagTableFromBytes (flagTableIntoBytes t) = .ok t) ∧
    (∀ t : FlagValueList, t.Regular .flagVal → StrFits t.header.container →
      flagValueListFromBytes (flagValueListIntoBytes t) = .ok t) ∧
    (∀ t : FlagInfoList, t.Regular .flagInfo → StrFits t.header.container →
      flagInfoListFromBytes (flagInfoListIntoBytes t) = .ok t) ∧
    ∀ (container : String) (packages : List FlagPackage) (version : UInt32),
      (∀ t, createPackageTable container packages version = .ok t →
        t.header.intoBytes.length < 2 ^ 32 →
        (∀ node ∈ t.nodes, (node.intoBytes t.header.version).length < 2 ^ 32) →
        t.Laid PackageTableNode.intoBytes) ∧
      (∀ t, createFlagTable container packages version = .ok t →
        t.header.intoBytes.length < 2 ^ 32 → (∀ node ∈ t.nodes, node.intoBytes.length < 2 ^ 32) →
        t.Laid (fun _ => FlagTableNode.intoBytes)) ∧
      (∀ t, createFlagValue container packages version = .ok t →
        t.header.intoBytes.length < 2 ^ 32 → t.Laid (fun v => Bytes.ofNat 1 (u8From v).toNat)) ∧
      (∀ t, createFlagInfo container packages version = .ok t →
        t.header.intoBytes.length < 2 ^ 32 → t.Laid FlagInfoNode.intoBytes) := by
  refine ⟨?_, ?_, ?_, ?_, ?_⟩
  · intro t ht hnodes hc hnames
    exact packageTable_roundTrip ht hnodes hc hnames
  · intro t ht hnodes hc hnames
    exact flagTable_roundTrip ht hnodes hc hnames
  · intro t ht hc
    exact flagValueList_roundTrip ht hc
  · intro t ht hc
    exact flagInfoList_roundTrip ht hc
  · intro container packages version
    refine ⟨?_, ?_, ?_, ?_⟩
    · intro t hrun hheader hnodes
      exact createPackageTable_laid hrun hheader hnodes
    · intro t hrun hheader hnodes
      exact createFlagTable_laid hrun hheader hnodes
    · intro t hrun hheader
      exact createFlagValue_laid hrun hheader
    · intro t hrun hheader
      exact createFlagInfo_laid hrun hheader

def exampleTable : PackageTable :=
  ⟨⟨⟨2, "mockup", 0, 88, 1⟩, 31, 59⟩, [none, none, some 59, none, none, none, none],
    [⟨"com.a", 0, 5, false, 0, none⟩]⟩

theorem storage_files_example :
    createPackageTable "mockup" [⟨"com.a", 0, 5, false, [], [], 0⟩] 2 = .ok exampleTable ∧
      (packageTableIntoBytes exampleTable).length = exampleTable.header.fileSize.toNat ∧
      packageTableFromBytes (packageTableIntoBytes exampleTable) = .ok exampleTable := by
  have hcreate : createPackageTable "mockup" [⟨"com.a", 0, 5, false, [], [], 0⟩] 2 =
      .ok exampleTable := by decide +kernel
  refine ⟨hcreate, ?_, ?_⟩
  · exact ((storage_files.2.2.2.2 _ _ _).1 _ hcreate (by decide +kernel)
      (by decide +kernel)).fileSize
  · refine storage_files.1 exampleTable ⟨rfl, by decide, ⟨7, by decide, rfl⟩, by decide, rfl⟩ ?_
      (by unfold StrFits; decide +kernel) (by unfold StrFits; decide +kernel)
    intro node hnode
    cases List.mem_singleton.mp hnode
    exact ⟨by decide, by decide, by decide⟩

theorem strFits_of_packageTableFromBytes
    {buf : List UInt8} {t : PackageTable} (h : packageTableFromBytes buf = .ok t) :
    StrFits t.header.container := by
  obtain ⟨header, hheader, h⟩ := Loop.bind_eq_ok.mp h
  obtain ⟨numBuckets, _, h⟩ := Loop.bind_eq_ok.mp h
  obtain ⟨buckets, _, h⟩ := Loop.bind_eq_ok.mp h
  obtain ⟨nodes, _, h⟩ := Loop.bind_eq_ok.mp h
  cases h
  obtain ⟨q, hread⟩ := headerFromBytes_eq_ok hheader
  exact (tableHeader_eq_ok hread).1

theorem length_bytesOf_replicate
    (n : Nat) :
    (bytesOf (String.ofList (List.replicate n 'a'))).length = n := by
  have hsize : ∀ s : String, (bytesOf s).length = s.utf8ByteSize := fun s => by
    rw [← String.size_toByteArray]
    rfl
  induction n with
  | zero => rfl
  | succ n ih =>
      rw [hsize] at ih ⊢
      rw [List.replicate_succ', String.ofList_append, String.utf8ByteSize_append, ih]
      rfl

/-- A container whose name is too long for the length in the header. -/
theorem packageTable_long_container :
    let t : PackageTable :=
      ⟨⟨⟨1, String.ofList (List.replicate (2 ^ 32) 'a'), 0, 0, 0⟩, 0, 0⟩,
        [none, none, none, none, none, none, none], []⟩
    t.Regular .packageMap ∧ (∀ node ∈ t.nodes, node.Regular t.header.version) ∧
      packageTableFromBytes (packageTableIntoBytes t) ≠ .ok t := by
  have hlong : ¬ StrFits (String.ofList (List.replicate (2 ^ 32) 'a')) := by
    rw [StrFits, length_bytesOf_replicate]
    exact lt_irrefl _
  generalize String.ofList (List.replicate (2 ^ 32) 'a') = container at hlong
  refine ⟨⟨rfl, .inl rfl, ⟨7, rfl, rfl⟩, by simp, rfl⟩, by simp, ?_⟩
  intro h
  exact hlong (strFits_of_packageTableFromBytes h)

end StorageFiles

end Aconfig
end AndroidBuild
