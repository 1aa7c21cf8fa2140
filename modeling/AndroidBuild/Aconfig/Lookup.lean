import AndroidBuild.Aconfig.Buckets
import AndroidBuild.Aconfig.FlagIds
import AndroidBuild.Aconfig.ReadApi

/-!
# Looking up a key in a table

In a table that was built by `create_package_table` or `create_flag_table` the
queries find the first node with the key, and nothing when there is none: the
bucket of the key has the offset of the first of the nodes that can have it,
and the others follow.
-/

namespace AndroidBuild
namespace Aconfig

section Built

variable {ν : Type}

/-- A table as it is built. -/
structure Table.Built (type : StorageFileType) (nodeBytes : UInt32 → ν → List UInt8)
    (next : ν → Option UInt32) (bucketOf : Nat → ν → Nat) (t : Table ν) : Prop where
  regular : t.Regular type
  laid : t.Laid nodeBytes
  chained : t.Chained nodeBytes next (bucketOf t.buckets.length)
  container : StrFits t.header.container
  nodes : ∀ node ∈ t.nodes, next node ≠ some 0 ∧ 0 < (nodeBytes t.header.version node).length

theorem getTableSize_pos
    {entries n : UInt32} (h : getTableSize entries = .ok n) :
    0 < n.toNat := by
  obtain ⟨least, _, h⟩ := Loop.bind_eq_ok.mp h
  split at h
  · rename_i num hfind
    cases h
    have hall : hashPrimes.all (fun p => decide (0 < p.toNat)) = true := by decide
    exact of_decide_eq_true (List.all_eq_true.mp hall n (List.mem_of_find?_eq_some hfind))
  · cases h

variable {type : StorageFileType} {nodeBytes : UInt32 → ν → List UInt8} {next : ν → Option UInt32}
  {bucketOf : Nat → ν → Nat} {t : Table ν}

theorem Table.Built.buckets_pos
    (h : t.Built type nodeBytes next bucketOf) :
    0 < t.buckets.length := by
  obtain ⟨n, hn, hlength⟩ := h.regular.numBuckets
  rw [hlength]
  exact getTableSize_pos hn

/-- The bytes of a bucket. -/
theorem Table.Built.stands_bucket
    (h : t.Built type nodeBytes next bucketOf) {b : Nat} {v : Option UInt32}
    (hb : t.buckets[b]? = some v) :
    Stands (t.intoBytes nodeBytes) (t.header.bucketOffset.toNat + 4 * b)
      (Bytes.ofNat 4 (v.getD 0).toNat) := by
  obtain ⟨hlt, rfl⟩ := List.getElem?_eq_some_iff.mp hb
  refine ⟨t.header.intoBytes ++ bucketBytes (t.buckets.take b),
    bucketBytes (t.buckets.drop (b + 1)) ++ t.nodes.flatMap (nodeBytes t.header.version), ?_, ?_⟩
  · have hsplit : t.buckets = t.buckets.take b ++ t.buckets[b] :: t.buckets.drop (b + 1) := by
      rw [List.getElem_cons_drop, List.take_append_drop]
    rw [Table.intoBytes]
    nth_rewrite 1 [hsplit]
    rw [bucketBytes, List.flatMap_append, List.flatMap_cons]
    simp only [bucketBytes, List.append_assoc]
  · rw [List.length_append, length_bucketBytes, List.length_take, min_eq_left hlt.le,
      h.laid.bucketOffset]

/-- A bucket is empty or has an offset in the file. -/
theorem Table.Built.bucket_cases
    (h : t.Built type nodeBytes next bucketOf) {b : Nat} (hb : b < t.buckets.length) :
    (t.buckets[b]? = some none ∧
      t.nodes.filter (fun n => bucketOf t.buckets.length n = b) = []) ∨
    ∃ o, t.buckets[b]? = some (some o) ∧ t.header.nodeOffset ≤ o ∧ o < t.header.fileSize ∧
      Linked next (nodeBytes t.header.version) (t.intoBytes nodeBytes) o
        (t.nodes.filter (fun n => bucketOf t.buckets.length n = b)) := by
  rcases h.chained b hb with hnone | ⟨o, ho, hle, hlinked⟩
  · exact .inl hnone
  · refine .inr ⟨o, ho, hle, ?_, hlinked⟩
    rw [UInt32.lt_iff_toNat_lt, ← h.laid.fileSize]
    generalize hl : t.nodes.filter (fun n => bucketOf t.buckets.length n = b) = l at hlinked
    have hmem : ∀ node ∈ l, node ∈ t.nodes := by
      intro node hnode
      rw [← hl] at hnode
      exact (List.mem_filter.mp hnode).1
    cases hlinked with
    | @last _ node hstands _ =>
        have hle := hstands.le
        have hpos := (h.nodes node (hmem node (by simp))).2
        omega
    | @cons _ _ node _ hstands _ _ =>
        have hle := hstands.le
        have hpos := (h.nodes node (hmem node (by simp))).2
        omega

/-- Only the nodes of one bucket can be found. -/
theorem findSome?_filter
    {γ : Type} {found : ν → Option γ} {p : ν → Bool} {nodes : List ν}
    (h : ∀ node ∈ nodes, found node ≠ none → p node = true) :
    (nodes.filter p).findSome? found = nodes.findSome? found := by
  induction nodes with
  | nil => rfl
  | cons node nodes ih =>
      rw [List.forall_mem_cons] at h
      rw [List.filter_cons, List.findSome?_cons]
      split
      · rw [List.findSome?_cons, ih h.2]
      · rename_i hp
        have hnone : found node = none := by
          by_contra hne
          exact hp (h.1 hne)
        rw [hnone, ih h.2]

end Built

section Rust

variable {ν γ : Type} {type : StorageFileType} {nodeBytes : UInt32 → ν → List UInt8}
  {next : ν → Option UInt32} {bucketOf : Nat → ν → Nat} {t : Table ν}

theorem stands_drop
    {buf l : List UInt8} {offset : Nat} (h : Stands buf offset l) :
    offset ≤ buf.length ∧ ∃ after, buf.drop offset = l ++ after := by
  obtain ⟨before, after, rfl, rfl⟩ := h
  exact ⟨by simp, after, List.drop_left⟩

theorem visitNode_of_stands
    {fromBytes : List UInt8 → Storage ν} {found : ν → Option γ} {buf : List UInt8} {offset : UInt32}
    {encode : ν → List UInt8} {node : ν} (h : Stands buf offset.toNat (encode node))
    (hdecode : ∀ after, fromBytes (encode node ++ after) = .ok node) :
    visitNode fromBytes found next buf offset =
      (found node).elim ((next node).elim (.inr (.ok none)) .inl) (fun c => .inr (.ok (some c))) := by
  obtain ⟨hle, after, hdrop⟩ := stands_drop h
  rw [visitNode, if_neg (by omega), hdrop, hdecode]
  simp only
  cases found node with
  | some c => rfl
  | none => cases next node <;> rfl

/-- The loop goes through the nodes that are linked. -/
theorem Linked.walks
    (found : ν → Option γ) {fromBytes : List UInt8 → Storage ν} {buf : List UInt8}
    {encode : ν → List UInt8} {offset : UInt32} {nodes : List ν}
    (h : Linked next encode buf offset nodes)
    (hdecode : ∀ node ∈ nodes, ∀ after, fromBytes (encode node ++ after) = .ok node) :
    Chain.Walks (visitNode fromBytes found next buf)
      (fun node => (found node).map (fun c => .ok (some c))) (.ok none) offset nodes := by
  induction h with
  | @last offset node hstands hnext =>
      refine .last ?_
      rw [visitNode_of_stands hstands (hdecode node (by simp)), hnext]
      cases found node <;> rfl
  | @cons offset offset' node nodes hstands hnext _ ih =>
      rw [List.forall_mem_cons] at hdecode
      refine .next ?_ (ih hdecode.2)
      rw [visitNode_of_stands hstands hdecode.1, hnext]
      cases found node <;> rfl

theorem getD_findSome?_map
    (found : ν → Option γ) (nodes : List ν) :
    ((nodes.findSome? (fun node => (found node).map (fun c => (.ok (some c) : Storage (Option γ))))
      ).getD (.ok none)) = .ok (nodes.findSome? found) := by
  induction nodes with
  | nil => rfl
  | cons node nodes ih =>
      rw [List.findSome?_cons, List.findSome?_cons]
      cases found node with
      | some c => rfl
      | none => exact ih

/-- The start of a query. -/
theorem Table.Built.findBucket_eq
    (h : t.Built type nodeBytes next bucketOf) {header : List UInt8 → Storage TableHeader}
    (hheader : header (t.intoBytes nodeBytes) = .ok t.header) {bucketIndex : Nat → Nat}
    (hindex : bucketIndex t.buckets.length < t.buckets.length) :
    findBucket header bucketIndex (t.intoBytes nodeBytes) =
      .ok ((t.buckets[bucketIndex t.buckets.length]?).join.map (fun o => (t.header, o))) := by
  have hlaid := h.laid
  have hnodeOffset := hlaid.nodeOffset
  rw [length_bucketBytes] at hnodeOffset
  have hlt := t.header.nodeOffset.toNat_lt
  have hversion : checkVersion t.header.version = .ok () := by
    rcases h.regular.version with hv | hv | hv <;> rw [hv] <;> rfl
  have hsub : Checked.sub (ε := AconfigStorageError) t.header.nodeOffset t.header.bucketOffset =
      .ok (UInt32.ofNat (4 * t.buckets.length)) := by
    rw [Checked.sub_eq_ok, UInt32.toNat_ofNat_of_lt' (show 4 * t.buckets.length < 2 ^ 32 by omega)]
    omega
  have hbuckets : (UInt32.ofNat (4 * t.buckets.length)).toNat / 4 = t.buckets.length := by
    rw [UInt32.toNat_ofNat_of_lt' (show 4 * t.buckets.length < 2 ^ 32 by omega)]
    omega
  have hpos := h.buckets_pos
  generalize hb : bucketIndex t.buckets.length = b at hindex
  have hbNat : (UInt32.ofNat b).toNat = b :=
    UInt32.toNat_ofNat_of_lt' (show b < 2 ^ 32 by omega)
  have hmul : Checked.mul (ε := AconfigStorageError) 4 (UInt32.ofNat b) =
      .ok (UInt32.ofNat (4 * b)) := by
    rw [Checked.mul_eq_ok, hbNat, UInt32.toNat_ofNat_of_lt' (show 4 * b < 2 ^ 32 by omega)]
    rfl
  have hadd : Checked.add (ε := AconfigStorageError) t.header.bucketOffset (UInt32.ofNat (4 * b)) =
      .ok (UInt32.ofNat (t.header.bucketOffset.toNat + 4 * b)) := by
    rw [Checked.add_eq_ok, UInt32.toNat_ofNat_of_lt' (show 4 * b < 2 ^ 32 by omega),
      UInt32.toNat_ofNat_of_lt' (show t.header.bucketOffset.toNat + 4 * b < 2 ^ 32 by omega)]
  obtain ⟨v, hv⟩ : ∃ v, t.buckets[b]? = some v := ⟨_, List.getElem?_eq_getElem hindex⟩
  have hread : ∃ q, readU32 (t.intoBytes nodeBytes) (t.header.bucketOffset.toNat + 4 * b) =
      .ok (v.getD 0, q) := by
    obtain ⟨before, after, hbuf, hbefore⟩ := h.stands_bucket hv
    rw [hbuf, ← hbefore]
    exact ⟨_, decodes_readU32 (v.getD 0) before after⟩
  obtain ⟨q, hread⟩ := hread
  have hpos' : (UInt32.ofNat (t.header.bucketOffset.toNat + 4 * b)).toNat =
      t.header.bucketOffset.toNat + 4 * b :=
    UInt32.toNat_ofNat_of_lt' (show t.header.bucketOffset.toNat + 4 * b < 2 ^ 32 by omega)
  have hrun : findBucket header bucketIndex (t.intoBytes nodeBytes) =
      if v.getD 0 < t.header.nodeOffset ∨ t.header.fileSize ≤ v.getD 0 then .ok none
      else .ok (some (t.header, v.getD 0)) := by
    simp only [findBucket, hheader, hversion, hsub, hbuckets, hb, hmul, hadd, hpos', hread, bind,
      Except.bind, pure, Except.pure]
    rw [if_neg (by omega)]
  rw [hrun]
  rcases h.bucket_cases hindex with ⟨hnone, _⟩ | ⟨o, ho, hle, hsize, _⟩
  · rw [hv] at hnone
    cases hnone
    have hzero : (0 : UInt32) < t.header.nodeOffset := by
      rw [UInt32.lt_iff_toNat_lt, UInt32.toNat_zero]
      omega
    rw [hv, Option.getD_none, if_pos (.inl hzero)]
    rfl
  · rw [hv] at ho
    cases ho
    rw [hv, Option.getD_some, if_neg]
    · rfl
    · rintro (hlt | hge)
      · exact absurd hlt (UInt32.not_lt.mpr hle)
      · exact absurd hsize (UInt32.not_lt.mpr hge)

/-- A query finds the first node with the key. -/
theorem Table.Built.findNode_eq
    (h : t.Built type nodeBytes next bucketOf) {header : List UInt8 → Storage TableHeader}
    (hheader : header (t.intoBytes nodeBytes) = .ok t.header) {bucketIndex : Nat → Nat}
    (hindex : bucketIndex t.buckets.length < t.buckets.length)
    {fromBytes : UInt32 → List UInt8 → Storage ν} {found : ν → Option γ}
    (hdecode : ∀ node ∈ t.nodes, ∀ after,
      fromBytes t.header.version (nodeBytes t.header.version node ++ after) = .ok node)
    (hfound : ∀ node ∈ t.nodes, found node ≠ none →
      bucketOf t.buckets.length node = bucketIndex t.buckets.length)
    {fuel : Nat} (hfuel : t.nodes.length < fuel) :
    findNode (findBucket header bucketIndex (t.intoBytes nodeBytes))
      (fun version => visitNode (fromBytes version) found next (t.intoBytes nodeBytes)) fuel =
      some (.ok (t.nodes.findSome? found)) := by
  rw [h.findBucket_eq hheader hindex]
  have hfilter : (t.nodes.filter (fun n => bucketOf t.buckets.length n =
      bucketIndex t.buckets.length)).findSome? found = t.nodes.findSome? found :=
    findSome?_filter (by simpa using hfound)
  rcases h.bucket_cases hindex with ⟨hnone, hnil⟩ | ⟨o, ho, _, _, hlinked⟩
  · rw [hnil] at hfilter
    rw [hnone, ← hfilter]
    rfl
  · have hwalks := hlinked.walks found (fun node hnode =>
      hdecode node (List.mem_filter.mp hnode).1)
    rw [ho]
    change Chain.follow _ fuel o = _
    have hlength := List.length_filter_le (fun n => decide (bucketOf t.buckets.length n =
      bucketIndex t.buckets.length)) t.nodes
    rw [hwalks.follow_eq (by omega), getD_findSome?_map, hfilter]

end Rust

section Tables

theorem liftStorage_eq_ok
    {α : Type} {x : Storage α} {a : α} :
    liftStorage x = .ok a ↔ x = .ok a := by
  rcases x with (e | _) | a <;> simp [liftStorage]

/-- A table that was built from as many nodes as its header says. -/
theorem createTable_built
    {ν : Type} (nodeBytes : UInt32 → ν → List UInt8) {type : StorageFileType} {container : String}
    {version count numBuckets : UInt32} {setNext : ν → UInt32 → ν} {next : ν → Option UInt32}
    {bucketOf : Nat → ν → Nat} {wrappers : List (ν × Nat)} {t : Table ν}
    (hlinking : Linking next (bucketOf numBuckets.toNat) (nodeBytes version) setNext)
    (hrun : createTable type container version count numBuckets (nodeBytes version) setNext
      wrappers = .ok t)
    (hlt : (t.intoBytes nodeBytes).length < 2 ^ 32)
    (hws : ∀ w ∈ wrappers, next w.1 = none ∧ bucketOf numBuckets.toNat w.1 = w.2)
    (hversion : version = 1 ∨ version = 2 ∨ version = 3)
    (hbuckets : getTableSize count = .ok numBuckets)
    (hcount : t.nodes.length = wrappers.length → wrappers.length < 2 ^ 32 →
      wrappers.length = count.toNat) :
    t.Built type nodeBytes next bucketOf := by
  have hlaid := createTable_laid_of_lt hlinking hrun hlt
  obtain ⟨hlength, hchained, hnext, hzero⟩ := createTable_chained hlinking hrun hlt hws
  obtain ⟨rfl, hcontainer, htype, rfl, hfill⟩ := createTable_eq_ok hrun
  have hnodes : t.nodes.length = wrappers.length := by
    have hmap := fillOffsets_map (fun _ => ()) (fun _ _ => rfl) hfill
    have hlengths := congrArg List.length hmap
    rwa [List.length_map, List.length_map, List.length_insertionSort] at hlengths
  have hle : t.nodes.length ≤ (t.intoBytes nodeBytes).length := by
    rw [Table.intoBytes, List.length_append, List.length_append, List.length_flatMap]
    have hsum := List.length_le_sum_of_one_le
      (t.nodes.map (fun node => (nodeBytes t.header.version node).length)) (by
        intro n hn
        obtain ⟨node, _, rfl⟩ := List.mem_map.mp hn
        exact hlinking.pos node)
    rw [List.length_map] at hsum
    omega
  refine ⟨⟨htype, hversion, ⟨numBuckets, hbuckets, hlength⟩, hzero, ?_⟩, hlaid, hlength ▸ hchained,
    ?_, ?_⟩
  · rw [hnodes]
    exact hcount hnodes (by omega)
  · rw [Table.intoBytes, List.length_append, length_tableHeader_intoBytes] at hlt
    rw [StrFits]
    omega
  · intro node hnode
    exact ⟨hnext node hnode, hlinking.pos node⟩

theorem linking_packageTableNode
    (version : UInt32) (numBuckets : Nat) :
    Linking (fun node : PackageTableNode => node.nextOffset)
      (fun node => PackageTableNode.findBucketIndex node.packageName numBuckets)
      (PackageTableNode.intoBytes version)
      (fun node next => { node with nextOffset := some next }) := by
  refine ⟨fun _ _ => rfl, fun _ _ => rfl, ?_, ?_⟩
  · intro node x
    simp only [PackageTableNode.intoBytes]
    split_ifs <;> simp [PackageTableNode.intoBytesV1, PackageTableNode.intoBytesV2,
      PackageTableNode.intoBytesV3, PackageTableNode.lastBytes]
  · intro node
    simp only [PackageTableNode.intoBytes]
    split_ifs <;> simp [PackageTableNode.intoBytesV1, PackageTableNode.intoBytesV2,
      PackageTableNode.intoBytesV3, strBytes]

theorem linking_flagTableNode
    (numBuckets : Nat) :
    Linking (fun node : FlagTableNode => node.nextOffset)
      (fun node => FlagTableNode.findBucketIndex node.packageId node.flagName numBuckets)
      FlagTableNode.intoBytes (fun node next => { node with nextOffset := some next }) := by
  refine ⟨fun _ _ => rfl, fun _ _ => rfl, ?_, ?_⟩
  · intro node x
    simp [FlagTableNode.intoBytes]
  · intro node
    simp [FlagTableNode.intoBytes]

/-- The package map. -/
abbrev PackageTable.Built : PackageTable → Prop :=
  Table.Built .packageMap PackageTableNode.intoBytes (fun node => node.nextOffset)
    (fun numBuckets node => PackageTableNode.findBucketIndex node.packageName numBuckets)

/-- The flag map. -/
abbrev FlagTable.Built : FlagTable → Prop :=
  Table.Built .flagMap (fun _ => FlagTableNode.intoBytes) (fun node => node.nextOffset)
    (fun numBuckets node => FlagTableNode.findBucketIndex node.packageId node.flagName numBuckets)

theorem createPackageTable_built
    {container : String} {packages : List FlagPackage} {version : UInt32} {t : PackageTable}
    (hrun : createPackageTable container packages version = .ok t)
    (hversion : version = 1 ∨ version = 2 ∨ version = 3)
    (hlt : (packageTableIntoBytes t).length < 2 ^ 32) :
    PackageTable.Built t := by
  obtain ⟨numBuckets, hbuckets, hrun⟩ := Loop.bind_eq_ok.mp hrun
  refine createTable_built PackageTableNode.intoBytes
    (linking_packageTableNode version numBuckets.toNat) hrun hlt ?_ hversion
    (liftStorage_eq_ok.mp hbuckets) ?_
  · intro w hw
    obtain ⟨p, _, rfl⟩ := List.mem_map.mp hw
    exact ⟨rfl, rfl⟩
  · intro _ hlength
    rw [List.length_map] at hlength ⊢
    exact (UInt32.toNat_ofNat_of_lt' hlength).symm

theorem sumFlags_eq_ok
    {packages : List FlagPackage} {n : UInt32} (h : sumFlags packages = .ok n)
    (hlt : ∀ p ∈ packages, p.booleanFlags.length < 2 ^ 32) :
    n.toNat = (packages.map (fun p => p.booleanFlags.length)).sum := by
  refine Loop.forLoop_ok
    (fun done s => s.toNat = (done.map (fun p => p.booleanFlags.length)).sum) h rfl ?_
  intro done p rest s s' hpackages hs hadd
  have hp : p ∈ packages := by simp [hpackages]
  rw [Checked.add_eq_ok.mp hadd, hs, UInt32.toNat_ofNat_of_lt' (hlt p hp), List.map_append,
    List.sum_append]
  rfl

theorem length_createNodes
    {package : FlagPackage} {numBuckets : UInt32} {ws : List (FlagTableNode × Nat)}
    (h : createNodes package numBuckets = .ok ws) :
    ws.length = package.retain.booleanFlags.length := by
  obtain ⟨ids, _, h⟩ := Loop.bind_eq_ok.mp h
  exact (Loop.mapM_eq_ok.mp h).length_eq.symm

theorem length_allNodes
    {packages : List FlagPackage} {numBuckets : UInt32} {lists : List (List (FlagTableNode × Nat))}
    (h : packages.mapM (fun package => liftError (createNodes package numBuckets)) = .ok lists) :
    lists.flatten.length = (packages.map (fun p => p.retain.booleanFlags.length)).sum := by
  replace h := Loop.mapM_eq_ok.mp h
  induction h with
  | nil => rfl
  | cons hp _ ih =>
      rw [List.flatten_cons, List.length_append, ih, List.map_cons, List.sum_cons,
        length_createNodes (liftError_eq_ok.mp hp)]

theorem createFlagTable_built
    {flags : List ParsedFlag} {container : String} {packages : List FlagPackage} {version : UInt32}
    {t : FlagTable} (hgrouped : Grouped flags packages)
    (hrun : createFlagTable container packages version = .ok t)
    (hversion : version = 1 ∨ version = 2 ∨ version = 3)
    (hlt : (flagTableIntoBytes t).length < 2 ^ 32) :
    FlagTable.Built t := by
  obtain ⟨numFlags, hnumFlags, hrun⟩ := Loop.bind_eq_ok.mp hrun
  obtain ⟨numBuckets, hbuckets, hrun⟩ := Loop.bind_eq_ok.mp hrun
  obtain ⟨lists, hlists, hrun⟩ := Loop.bind_eq_ok.mp hrun
  refine createTable_built (fun _ => FlagTableNode.intoBytes)
    (linking_flagTableNode numBuckets.toNat) hrun hlt ?_ hversion (liftStorage_eq_ok.mp hbuckets) ?_
  · intro w hw
    obtain ⟨ws, hws, hw⟩ := List.mem_flatten.mp hw
    obtain ⟨p, _, hnodes⟩ := (Loop.mem_of_mapM_eq_ok hlists).mp hws
    obtain ⟨ids, _, hnodes⟩ := Loop.bind_eq_ok.mp (liftError_eq_ok.mp hnodes)
    obtain ⟨pf, _, hnode⟩ := (Loop.mem_of_mapM_eq_ok hnodes).mp hw
    obtain ⟨fid, _, rfl⟩ := createNode_eq_ok.mp hnode
    exact ⟨rfl, rfl⟩
  · intro _ hlength
    have hsame : packages.map (fun p => p.retain.booleanFlags.length) =
        packages.map (fun p => p.booleanFlags.length) := by
      refine List.map_congr_left ?_
      intro p hp
      rw [hgrouped.retain_booleanFlags hp]
    rw [length_allNodes hlists, hsame] at hlength ⊢
    refine (sumFlags_eq_ok hnumFlags ?_).symm
    intro p hp
    refine lt_of_le_of_lt ?_ hlength
    exact List.single_le_sum (by simp) _ (List.mem_map_of_mem (f := fun p => _) hp)

end Tables

section Queries

theorem header_of_built
    {ν : Type} {type : StorageFileType} {nodeBytes : UInt32 → ν → List UInt8}
    {next : ν → Option UInt32} {bucketOf : Nat → ν → Nat} {t : Table ν}
    (h : t.Built type nodeBytes next bucketOf) (message : String) :
    headerFromBytes TableHeader.read (checkFileType (fun h => h.fileType) type message)
      (t.intoBytes nodeBytes) = .ok t.header :=
  headerFromBytes_ok (decodes_tableHeader _ h.container) (checkFileType_ok h.regular.fileType) _

theorem strFits_packageName
    {version : UInt32} {node : PackageTableNode}
    (h : (node.intoBytes version).length < 2 ^ 32) :
    StrFits node.packageName := by
  rw [StrFits]
  simp only [PackageTableNode.intoBytes] at h
  split_ifs at h <;>
    simp only [PackageTableNode.intoBytesV1, PackageTableNode.intoBytesV2,
      PackageTableNode.intoBytesV3, strBytes, List.length_append] at h <;> omega

theorem strFits_flagName
    {node : FlagTableNode} (h : node.intoBytes.length < 2 ^ 32) :
    StrFits node.flagName := by
  simp only [FlagTableNode.intoBytes, strBytes, List.length_append] at h
  rw [StrFits]
  omega

/-- `find_package_read_context` finds the first node of the package. -/
theorem findPackageReadContext_eq
    {t : PackageTable} (h : PackageTable.Built t)
    (hlt : (packageTableIntoBytes t).length < 2 ^ 32)
    (hnodes : ∀ node ∈ t.nodes, node.Regular t.header.version) (package : String) {fuel : Nat}
    (hfuel : t.nodes.length < fuel) :
    findPackageReadContext (packageTableIntoBytes t) package fuel =
      some (.ok (t.nodes.findSome? (fun node => if node.packageName = package then
        some ⟨node.packageId, node.booleanStartIndex, node.fingerprint⟩ else none))) := by
  refine h.findNode_eq (header_of_built h _) (getBucketIndex_lt _ _ h.buckets_pos) ?_ ?_ hfuel
  · intro node hnode after
    have hname := strFits_packageName
      (lt_of_le_of_lt (Table.length_nodeBytes_le PackageTableNode.intoBytes hnode) hlt)
    rw [PackageTableNode.fromBytes, (decodes_packageTableNode h.regular.version node hname
      (hnodes node hnode)).run after]
    rfl
  · intro node _ hfound
    have hname : node.packageName = package := by
      by_contra hne
      exact hfound (if_neg hne)
    rw [hname]
    rfl

/-- `find_flag_read_context` finds the first node of the flag. -/
theorem findFlagReadContext_eq
    {t : FlagTable} (h : FlagTable.Built t) (hlt : (flagTableIntoBytes t).length < 2 ^ 32)
    (packageId : UInt32) (flag : String) {fuel : Nat} (hfuel : t.nodes.length < fuel) :
    findFlagReadContext (flagTableIntoBytes t) packageId flag fuel =
      some (.ok (t.nodes.findSome? (fun node =>
        if node.packageId = packageId ∧ node.flagName = flag then
          some ⟨node.flagType, node.flagIndex⟩ else none))) := by
  refine h.findNode_eq (header_of_built h _) (getBucketIndex_lt _ _ h.buckets_pos) ?_ ?_ hfuel
  · intro node hnode after
    have hname := strFits_flagName
      (lt_of_le_of_lt (Table.length_nodeBytes_le (fun _ => FlagTableNode.intoBytes) hnode) hlt)
    rw [FlagTableNode.fromBytes, (decodes_flagTableNode node hname (h.nodes node hnode).1).run after]
    rfl
  · intro node _ hfound
    have hkey : node.packageId = packageId ∧ node.flagName = flag := by
      by_contra hne
      exact hfound (if_neg hne)
    rw [hkey.1, hkey.2]
    rfl

end Queries

end Aconfig
end AndroidBuild
