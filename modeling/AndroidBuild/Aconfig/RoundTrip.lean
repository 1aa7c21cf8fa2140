import AndroidBuild.Aconfig.StorageFile
import AndroidBuild.Lib.Loop

/-!
# Reading back what was written

`from_bytes` undoes `into_bytes` for every table that is regular: it has as
many buckets and nodes as its header says, and its nodes have no field that
the version of the file leaves out.  A string must fit the four bytes of its
length.
-/

namespace AndroidBuild
namespace Aconfig

open Cursor

section Fields

theorem fromUtf8_bytesOf
    (s : String) :
    fromUtf8 (bytesOf s) = .ok s := by
  have h : String.fromUTF8? ⟨(bytesOf s).toArray⟩ = some s := by
    simp [bytesOf, String.fromUTF8?, s.isValidUTF8]
    rfl
  rw [fromUtf8, h]

/-- The length of the string fits `u32`. -/
def StrFits (s : String) : Prop :=
  (bytesOf s).length < 2 ^ 32

theorem decodes_readU8
    (x : UInt8) :
    Decodes readU8 (Bytes.ofNat 1 x.toNat) x := by
  have h := (decodes_uint (ε := AconfigStorageError) (w := 1) x.toNat_lt).map UInt8.ofNat
  rwa [UInt8.ofNat_toNat] at h

theorem decodes_readU16
    (x : UInt16) :
    Decodes readU16 (Bytes.ofNat 2 x.toNat) x := by
  have h := (decodes_uint (ε := AconfigStorageError) (w := 2) x.toNat_lt).map UInt16.ofNat
  rwa [UInt16.ofNat_toNat] at h

theorem decodes_readU32
    (x : UInt32) :
    Decodes readU32 (Bytes.ofNat 4 x.toNat) x := by
  have h := (decodes_uint (ε := AconfigStorageError) (w := 4) x.toNat_lt).map UInt32.ofNat
  rwa [UInt32.ofNat_toNat] at h

theorem decodes_readU64
    (x : BitVec 64) :
    Decodes readU64 (Bytes.ofNat 8 x.toNat) x := by
  have h := (decodes_uint (ε := AconfigStorageError) (w := 8) x.isLt).map (BitVec.ofNat 64)
  rwa [BitVec.ofNat_toNat, BitVec.setWidth_eq] at h

theorem toNat_ofNat_length
    {s : String} (hs : StrFits s) :
    (UInt32.ofNat (bytesOf s).length).toNat = (bytesOf s).length :=
  UInt32.toNat_ofNat_of_lt' hs

theorem decodes_readStr
    {s : String} (hs : StrFits s) :
    Decodes readStr (strBytes s) s := by
  have hbytes : Decodes (ε := AconfigStorageError)
      (bytes (UInt32.ofNat (bytesOf s).length).toNat) (bytesOf s) (bytesOf s) := by
    rw [toNat_ofNat_length hs]
    exact decodes_bytes _
  have htext := hbytes.bind (f := fun val => lift (fromUtf8 val))
    (decodes_lift (fromUtf8_bytesOf s))
  rw [List.append_nil] at htext
  exact (decodes_readU32 _).bind htext

theorem bytesOf_fromUtf8
    {l : List UInt8} {s : String} (h : fromUtf8 l = .ok s) :
    bytesOf s = l := by
  rw [fromUtf8, String.fromUTF8?] at h
  split at h
  case h_1 s' hs =>
      cases h
      split at hs
      · cases hs
        simp [bytesOf, String.fromUTF8]
      · cases hs
  case h_2 => cases h

/-- The head moves over the bytes of the string. -/
theorem readStr_eq_ok
    {buf : List UInt8} {p q : Nat} {s : String} (h : readStr buf p = .ok (s, q)) :
    StrFits s ∧ q = p + (strBytes s).length := by
  obtain ⟨n, m, hn, h⟩ := bind_eq_ok.mp h
  obtain ⟨l, m', hl, h⟩ := bind_eq_ok.mp h
  obtain ⟨hs, rfl⟩ := lift_eq_ok.mp h
  obtain ⟨k, hk, rfl⟩ := map_eq_ok.mp hn
  obtain ⟨_, _, rfl⟩ := uint_eq_ok.mp hk
  obtain ⟨hle, hslice, rfl⟩ := bytes_eq_ok.mp hl
  have hlength : (bytesOf s).length = (UInt32.ofNat k).toNat := by
    rw [bytesOf_fromUtf8 hs, hslice, Bytes.length_slice hle]
  have hlt := (UInt32.ofNat k).toNat_lt
  refine ⟨?_, ?_⟩
  · rw [StrFits, hlength]
    exact hlt
  · rw [strBytes, List.length_append, Bytes.length_ofNat, hlength]
    omega

theorem uint_head
    {α : Type} {w : Nat} {f : Nat → α} {buf : List UInt8} {p q : Nat} {x : α}
    (h : (do let n ← uint w; pure (f n) : StorageReader α) buf p = .ok (x, q)) :
    q = p + w := by
  obtain ⟨n, hn, _⟩ := map_eq_ok.mp h
  exact (uint_eq_ok.mp hn).2.2

theorem u8From_beq_one
    (b : Bool) :
    (u8From b == 1) = b := by
  cases b <;> rfl

theorem optionalOffset_getD
    {v : Option UInt32} (hv : v ≠ some 0) :
    optionalOffset (v.getD 0) = v := by
  cases v with
  | none => rfl
  | some x =>
      have hx : x ≠ 0 := fun h => hv (congrArg some h)
      rw [Option.getD_some, optionalOffset, if_neg hx]

end Fields

section Headers

theorem decodes_fileHeader
    (h : FileHeader) (hc : StrFits h.container) :
    Decodes FileHeader.read h.intoBytes h := by
  refine (decodes_readU32 h.version).bind ?_
  refine (decodes_readStr hc).bind ?_
  refine (decodes_readU8 h.fileType).bind ?_
  refine (decodes_readU32 h.fileSize).bind ?_
  exact (decodes_readU32 h.count).map (fun count => FileHeader.mk _ _ _ _ count)

theorem fileHeader_eq_ok
    {buf : List UInt8} {p q : Nat} {h : FileHeader} (hread : FileHeader.read buf p = .ok (h, q)) :
    StrFits h.container ∧ q = p + h.intoBytes.length := by
  obtain ⟨version, p₁, hversion, hread⟩ := bind_eq_ok.mp hread
  obtain ⟨container, p₂, hcontainer, hread⟩ := bind_eq_ok.mp hread
  obtain ⟨fileType, p₃, htype, hread⟩ := bind_eq_ok.mp hread
  obtain ⟨fileSize, p₄, hsize, hread⟩ := bind_eq_ok.mp hread
  obtain ⟨count, hcount, rfl⟩ := map_eq_ok.mp hread
  obtain ⟨hfits, rfl⟩ := readStr_eq_ok hcontainer
  refine ⟨hfits, ?_⟩
  rw [uint_head hcount, uint_head hsize, uint_head htype, uint_head hversion]
  simp only [FileHeader.intoBytes, List.length_append, Bytes.length_ofNat]
  omega

theorem tableHeader_eq_ok
    {buf : List UInt8} {p q : Nat} {h : TableHeader}
    (hread : TableHeader.read buf p = .ok (h, q)) :
    StrFits h.container ∧ q = p + h.intoBytes.length := by
  obtain ⟨start, p₁, hstart, hread⟩ := bind_eq_ok.mp hread
  obtain ⟨bucketOffset, p₂, hbucket, hread⟩ := bind_eq_ok.mp hread
  obtain ⟨nodeOffset, hnode, rfl⟩ := map_eq_ok.mp hread
  obtain ⟨hfits, rfl⟩ := fileHeader_eq_ok hstart
  refine ⟨hfits, ?_⟩
  rw [uint_head hnode, uint_head hbucket]
  simp only [TableHeader.intoBytes, List.length_append, Bytes.length_ofNat]
  omega

theorem listHeader_eq_ok
    {buf : List UInt8} {p q : Nat} {h : ListHeader}
    (hread : ListHeader.read buf p = .ok (h, q)) :
    StrFits h.container ∧ q = p + h.intoBytes.length := by
  obtain ⟨start, p₁, hstart, hread⟩ := bind_eq_ok.mp hread
  obtain ⟨booleanOffset, hoffset, rfl⟩ := map_eq_ok.mp hread
  obtain ⟨hfits, rfl⟩ := fileHeader_eq_ok hstart
  refine ⟨hfits, ?_⟩
  rw [uint_head hoffset]
  simp only [ListHeader.intoBytes, List.length_append, Bytes.length_ofNat]
  omega

theorem decodes_tableHeader
    (h : TableHeader) (hc : StrFits h.container) :
    Decodes TableHeader.read h.intoBytes h := by
  refine (decodes_fileHeader h.toFileHeader hc).bind ?_
  refine (decodes_readU32 h.bucketOffset).bind ?_
  exact (decodes_readU32 h.nodeOffset).map (fun nodeOffset => TableHeader.mk _ _ nodeOffset)

theorem decodes_listHeader
    (h : ListHeader) (hc : StrFits h.container) :
    Decodes ListHeader.read h.intoBytes h := by
  refine (decodes_fileHeader h.toFileHeader hc).bind ?_
  exact (decodes_readU32 h.booleanOffset).map (fun booleanOffset => ListHeader.mk _ booleanOffset)

theorem length_fileHeader_intoBytes
    (h : FileHeader) :
    h.intoBytes.length = 17 + (bytesOf h.container).length := by
  simp [FileHeader.intoBytes, strBytes]
  omega

theorem length_tableHeader_intoBytes
    (h : TableHeader) :
    h.intoBytes.length = 25 + (bytesOf h.container).length := by
  simp [TableHeader.intoBytes, length_fileHeader_intoBytes]
  omega

theorem length_listHeader_intoBytes
    (h : ListHeader) :
    h.intoBytes.length = 21 + (bytesOf h.container).length := by
  simp [ListHeader.intoBytes, length_fileHeader_intoBytes]
  omega

theorem headerFromBytes_ok
    {η : Type} {read : StorageReader η} {check : η → Storage η} {l : List UInt8} {h : η}
    (hread : Decodes read l h) (hcheck : check h = .ok h) (after : List UInt8) :
    headerFromBytes read check (l ++ after) = .ok h := by
  rw [headerFromBytes, hread.run after]
  exact hcheck

theorem headerFromBytes_eq_ok
    {η : Type} {read : StorageReader η} {fileType : η → UInt8} {type : StorageFileType}
    {message : String} {buf : List UInt8} {h : η}
    (hrun : headerFromBytes read (checkFileType fileType type message) buf = .ok h) :
    ∃ q, read buf 0 = .ok (h, q) := by
  obtain ⟨⟨h', q⟩, hread, hcheck⟩ := Loop.bind_eq_ok.mp hrun
  rw [checkFileType] at hcheck
  split at hcheck
  · cases hcheck
  · cases hcheck
    exact ⟨q, hread⟩

theorem checkFileType_ok
    {η : Type} {fileType : η → UInt8} {type : StorageFileType} {message : String} {h : η}
    (hh : fileType h = type.toU8) :
    checkFileType fileType type message h = .ok h :=
  if_neg (not_not.mpr hh)

end Headers

section Nodes

/-- The fields of the node that a file of the version has no place for are not set. -/
structure PackageTableNode.Regular (version : UInt32) (node : PackageTableNode) : Prop where
  nextOffset : node.nextOffset ≠ some 0
  fingerprint : version = 1 → node.fingerprint = 0
  redactExportedReads : version < 3 → node.redactExportedReads = false

/-- The end of a package node. -/
theorem decodes_lastBytes
    (node : PackageTableNode) (hnext : node.nextOffset ≠ some 0)
    (f : UInt32 → Option UInt32 → PackageTableNode)
    (hf : f node.booleanStartIndex node.nextOffset = node) :
    Decodes (do
      let booleanStartIndex ← readU32
      let next ← readU32
      pure (f booleanStartIndex (optionalOffset next))) node.lastBytes node := by
  refine (decodes_readU32 node.booleanStartIndex).bind ?_
  have h := (decodes_readU32 (node.nextOffset.getD 0)).map
    (fun next => f node.booleanStartIndex (optionalOffset next))
  rwa [optionalOffset_getD hnext, hf] at h

theorem decodes_packageTableNode
    {version : UInt32} (hversion : version = 1 ∨ version = 2 ∨ version = 3)
    (node : PackageTableNode) (hname : StrFits node.packageName) (hnode : node.Regular version) :
    Decodes (PackageTableNode.read version) (node.intoBytes version) node := by
  obtain ⟨name, id, fingerprint, redact, start, next⟩ := node
  have hnext := hnode.nextOffset
  have hfp := hnode.fingerprint
  have hredact := hnode.redactExportedReads
  simp only at hname hnext hfp hredact
  rcases hversion with rfl | rfl | rfl
  · obtain rfl := hfp rfl
    obtain rfl := hredact (by decide)
    refine (decodes_readStr hname).bind ?_
    refine (decodes_readU32 id).bind ?_
    exact decodes_lastBytes ⟨name, id, 0, false, start, next⟩ hnext
      (fun start next => ⟨name, id, 0, false, start, next⟩) rfl
  · obtain rfl := hredact (by decide)
    refine (decodes_readStr hname).bind ?_
    refine (decodes_readU32 id).bind ?_
    refine (decodes_readU64 fingerprint).bind ?_
    exact decodes_lastBytes ⟨name, id, fingerprint, false, start, next⟩ hnext
      (fun start next => ⟨name, id, fingerprint, false, start, next⟩) rfl
  · refine (decodes_readStr hname).bind ?_
    refine (decodes_readU32 id).bind ?_
    refine (decodes_readU64 fingerprint).bind ?_
    refine (decodes_readU8 (u8From redact)).bind ?_
    exact decodes_lastBytes ⟨name, id, fingerprint, redact, start, next⟩ hnext
      (fun start next => ⟨name, id, fingerprint, u8From redact == 1, start, next⟩)
      (by rw [u8From_beq_one])

theorem tryFrom_toU16
    (type : StoredFlagType) :
    StoredFlagType.tryFrom type.toU16 = .ok type := by
  cases type <;> rfl

theorem decodes_flagTableNode
    (node : FlagTableNode) (hname : StrFits node.flagName) (hnext : node.nextOffset ≠ some 0) :
    Decodes FlagTableNode.read node.intoBytes node := by
  refine (decodes_readU32 node.packageId).bind ?_
  refine (decodes_readStr hname).bind ?_
  refine (decodes_readU16 node.flagType.toU16).bind ?_
  refine (decodes_lift (tryFrom_toU16 node.flagType)).bind (l := []) ?_
  refine (decodes_readU16 node.flagIndex).bind ?_
  have h := (decodes_readU32 (node.nextOffset.getD 0)).map (fun next =>
    FlagTableNode.mk node.packageId node.flagName node.flagType node.flagIndex
      (optionalOffset next))
  rwa [optionalOffset_getD hnext] at h

theorem decodes_flagInfoNode
    (node : FlagInfoNode) :
    Decodes FlagInfoNode.read node.intoBytes node :=
  (decodes_readU8 node.attributes).map FlagInfoNode.mk

end Nodes

section Files

variable {ν : Type}

/-- A table with the contents that its header announces. -/
structure Table.Regular (type : StorageFileType) (t : Table ν) : Prop where
  fileType : t.header.fileType = type.toU8
  version : t.header.version = 1 ∨ t.header.version = 2 ∨ t.header.version = 3
  numBuckets : ∃ n, getTableSize t.header.count = .ok n ∧ t.buckets.length = n.toNat
  buckets : some 0 ∉ t.buckets
  numNodes : t.nodes.length = t.header.count.toNat

/-- A list with the contents that its header announces. -/
structure FlagList.Regular (type : StorageFileType) (t : FlagList ν) : Prop where
  fileType : t.header.fileType = type.toU8
  version : t.header.version = 1 ∨ t.header.version = 2 ∨ t.header.version = 3
  numValues : t.values.length = t.header.count.toNat

theorem readMany_ok
    {α : Type} {read : StorageReader α} {encode : α → List UInt8} (l : List α)
    (hread : ∀ a ∈ l, Decodes read (encode a) a) (before after : List UInt8) :
    readMany read (before ++ (l.flatMap encode ++ after)) l.length before.length =
      .ok (l, before.length + (l.flatMap encode).length) := by
  induction l generalizing before with
  | nil => rfl
  | cons a l ih =>
      rw [List.forall_mem_cons] at hread
      have hfirst := hread.1 before (l.flatMap encode ++ after)
      have hrest := ih hread.2 (before ++ encode a)
      rw [List.append_assoc, List.length_append] at hrest
      rw [List.flatMap_cons, List.append_assoc, List.length_cons, readMany, hfirst]
      change (readMany read _ l.length (before.length + (encode a).length) >>= _) = _
      rw [hrest, List.length_append, ← Nat.add_assoc]
      rfl

theorem nodesFromBytes_ok
    {fromBytes : List UInt8 → Storage ν} {encode : ν → List UInt8} (l : List ν)
    (hnode : ∀ node ∈ l, ∀ after, fromBytes (encode node ++ after) = .ok node)
    (before after : List UInt8) :
    nodesFromBytes fromBytes encode (before ++ (l.flatMap encode ++ after)) l.length
      before.length = .ok l := by
  induction l generalizing before with
  | nil => rfl
  | cons node l ih =>
      rw [List.forall_mem_cons] at hnode
      have hrest := ih hnode.2 (before ++ encode node)
      rw [List.append_assoc, List.length_append] at hrest
      rw [List.flatMap_cons, List.append_assoc, List.length_cons, nodesFromBytes,
        if_neg (by simp), List.drop_left, hnode.1]
      change (nodesFromBytes fromBytes encode _ l.length (before.length + (encode node).length)
        >>= _) = _
      rw [hrest]
      rfl

theorem table_fromBytes_intoBytes
    {header : List UInt8 → Storage TableHeader} {fromBytes : UInt32 → List UInt8 → Storage ν}
    {encode : UInt32 → ν → List UInt8} {message : String} {type : StorageFileType} {t : Table ν}
    (ht : t.Regular type)
    (hheader : ∀ after, header (t.header.intoBytes ++ after) = .ok t.header)
    (hnode : ∀ node ∈ t.nodes, ∀ after,
      fromBytes t.header.version (encode t.header.version node ++ after) = .ok node) :
    Table.fromBytes header fromBytes encode message (t.intoBytes encode) = .ok t := by
  obtain ⟨numBuckets, hsize, hlength⟩ := ht.numBuckets
  have hbuckets : ∀ v ∈ t.buckets, Decodes (do let v ← readU32; pure (optionalOffset v))
      (Bytes.ofNat 4 (v.getD 0).toNat) v := by
    intro v hv
    have h := (decodes_readU32 (v.getD 0)).map optionalOffset
    rwa [optionalOffset_getD (fun h0 => ht.buckets (h0 ▸ hv))] at h
  have hread := readMany_ok t.buckets hbuckets t.header.intoBytes
    (t.nodes.flatMap (encode t.header.version))
  have hnodes := nodesFromBytes_ok t.nodes hnode (t.header.intoBytes ++ bucketBytes t.buckets) []
  rw [List.append_nil, List.append_assoc, List.length_append, ht.numNodes] at hnodes
  rw [Table.fromBytes, Table.intoBytes, hheader]
  change (getTableSize t.header.count >>= _) = _
  rw [hsize]
  change (readMany _ _ numBuckets.toNat _ >>= _) = _
  rw [← hlength, bucketBytes, hread]
  change (Checked.mapErr _ (nodesFromBytes _ _ _ _ _) >>= _) = _
  rw [bucketBytes] at hnodes
  rw [hnodes]
  rfl

theorem flagList_header
    {type : StorageFileType} {message : String} {t : FlagList ν} (ht : t.Regular type)
    (hc : StrFits t.header.container) (after : List UInt8) :
    headerFromBytes ListHeader.read (checkFileType (fun h => h.fileType) type message)
      (t.header.intoBytes ++ after) = .ok t.header :=
  headerFromBytes_ok (decodes_listHeader _ hc) (checkFileType_ok ht.fileType) after

theorem packageTable_roundTrip
    {t : PackageTable} (ht : t.Regular .packageMap)
    (hnodes : ∀ node ∈ t.nodes, node.Regular t.header.version)
    (hc : StrFits t.header.container) (hnames : ∀ node ∈ t.nodes, StrFits node.packageName) :
    packageTableFromBytes (packageTableIntoBytes t) = .ok t := by
  refine table_fromBytes_intoBytes ht ?_ ?_
  · exact headerFromBytes_ok (decodes_tableHeader _ hc) (checkFileType_ok ht.fileType)
  · intro node hnode after
    rw [PackageTableNode.fromBytes, (decodes_packageTableNode ht.version node (hnames node hnode)
      (hnodes node hnode)).run after]
    rfl

theorem flagTable_roundTrip
    {t : FlagTable} (ht : t.Regular .flagMap)
    (hnodes : ∀ node ∈ t.nodes, node.nextOffset ≠ some 0)
    (hc : StrFits t.header.container) (hnames : ∀ node ∈ t.nodes, StrFits node.flagName) :
    flagTableFromBytes (flagTableIntoBytes t) = .ok t := by
  refine table_fromBytes_intoBytes ht ?_ ?_
  · exact headerFromBytes_ok (decodes_tableHeader _ hc) (checkFileType_ok ht.fileType)
  · intro node hnode after
    rw [FlagTableNode.fromBytes, (decodes_flagTableNode node (hnames node hnode)
      (hnodes node hnode)).run after]
    rfl

theorem flagValueList_roundTrip
    {t : FlagValueList} (ht : t.Regular .flagVal) (hc : StrFits t.header.container) :
    flagValueListFromBytes (flagValueListIntoBytes t) = .ok t := by
  have hvalues : ∀ v ∈ t.values, Decodes (do let v ← readU8; pure (v == 1))
      (Bytes.ofNat 1 (u8From v).toNat) v := by
    intro v _
    have h := (decodes_readU8 (u8From v)).map (fun v => v == 1)
    rwa [u8From_beq_one] at h
  have hread := readMany_ok t.values hvalues t.header.intoBytes []
  rw [List.append_nil, ht.numValues] at hread
  rw [flagValueListFromBytes, flagValueListIntoBytes, FlagList.intoBytes, flagValueHeaderFromBytes,
    flagList_header ht hc]
  change (readMany _ _ t.header.count.toNat t.header.intoBytes.length >>= _) = _
  rw [hread]
  rfl

theorem flagInfoList_roundTrip
    {t : FlagInfoList} (ht : t.Regular .flagInfo) (hc : StrFits t.header.container) :
    flagInfoListFromBytes (flagInfoListIntoBytes t) = .ok t := by
  have hnode : ∀ node ∈ t.values, ∀ after,
      FlagInfoNode.fromBytes (node.intoBytes ++ after) = .ok node := by
    intro node _ after
    rw [FlagInfoNode.fromBytes, (decodes_flagInfoNode node).run after]
    rfl
  have hread := nodesFromBytes_ok t.values hnode t.header.intoBytes []
  rw [List.append_nil, ht.numValues] at hread
  rw [flagInfoListFromBytes, flagInfoListIntoBytes, FlagList.intoBytes, flagInfoHeaderFromBytes,
    flagList_header ht hc]
  change (Checked.mapErr _ (nodesFromBytes _ _ _ _ _) >>= _) = _
  rw [hread]
  rfl

end Files

end Aconfig
end AndroidBuild
