import AndroidBuild.Aconfig.ReadApi
import AndroidBuild.Aconfig.RoundTrip

/-!
# When reading a storage file panics

The lengths, counts and offsets in a file are used for slicing before they are
checked.  This file gives the layouts of the records and says exactly for
which bytes the readers and the queries panic: a record that is read ends
beyond the bytes, a number overflows, or the table has no buckets.
-/

namespace AndroidBuild
namespace Aconfig

open Cursor

section Layouts

def anyInt (w : Nat) : Field :=
  .uint w (fun _ => true)

def isUtf8 (l : List UInt8) : Bool :=
  (String.fromUTF8? ⟨l.toArray⟩).isSome

def utf8Str : Field :=
  .block 4 isUtf8

/-- The value of a `StoredFlagType`. -/
def flagTypeInt : Field :=
  .uint 2 (fun n => decide (n ≤ 2))

def fileHeaderFields : List Field :=
  [anyInt 4, utf8Str, anyInt 1, anyInt 4, anyInt 4]

def tableHeaderFields : List Field :=
  fileHeaderFields ++ [anyInt 4, anyInt 4]

def listHeaderFields : List Field :=
  fileHeaderFields ++ [anyInt 4]

/-- A package node; those of other versions are refused. -/
def packageNodeFields (version : UInt32) : List Field :=
  if version = 1 then [utf8Str, anyInt 4, anyInt 4, anyInt 4]
  else if version = 2 then [utf8Str, anyInt 4, anyInt 8, anyInt 4, anyInt 4]
  else if version = 3 then [utf8Str, anyInt 4, anyInt 8, anyInt 1, anyInt 4, anyInt 4]
  else [.never]

def flagNodeFields : List Field :=
  [anyInt 4, utf8Str, flagTypeInt, anyInt 2, anyInt 4]

/-- The file of a table whose header is `h`. -/
def tableFields (nodeFields : UInt32 → List Field) (h : TableHeader) (numBuckets : UInt32) :
    List Field :=
  tableHeaderFields ++ (List.replicate numBuckets.toNat (anyInt 4) ++
    (List.replicate h.count.toNat (nodeFields h.version)).flatten)

/-- The file of a list whose header is `h`. -/
def listFields (h : ListHeader) : List Field :=
  listHeaderFields ++ List.replicate h.count.toNat (anyInt 1)

end Layouts

section Records

theorem reads_readU8 :
    Reads readU8 [anyInt 1] :=
  (reads_uint 1).map UInt8.ofNat

theorem reads_readU16 :
    Reads readU16 [anyInt 2] :=
  (reads_uint 2).map UInt16.ofNat

theorem reads_readU32 :
    Reads readU32 [anyInt 4] :=
  (reads_uint 4).map UInt32.ofNat

theorem reads_readU64 :
    Reads readU64 [anyInt 8] :=
  (reads_uint 8).map (BitVec.ofNat 64)

theorem extentOf_lift_fromUtf8
    (l buf : List UInt8) (p : Nat) :
    extentOf (lift (fromUtf8 l) buf p) = if isUtf8 l then .upTo p else .refused := by
  rw [fromUtf8, isUtf8]
  cases String.fromUTF8? ⟨l.toArray⟩ with
  | none => rfl
  | some s => rfl

theorem reads_readStr :
    Reads readStr [utf8Str] := by
  intro buf p
  have hextent : extent buf p [utf8Str] = utf8Str.extent buf p := by
    rw [extent]
    cases utf8Str.extent buf p <;> rfl
  rw [hextent, utf8Str, Field.extent]
  by_cases hlen : p + 4 ≤ buf.length
  · have hint : readU32 buf p =
        .ok (UInt32.ofNat (Bytes.toNat (Bytes.slice buf p 4)), p + 4) :=
      map_eq_ok.mpr ⟨_, uint_eq_ok.mpr ⟨hlen, rfl, rfl⟩, rfl⟩
    have hlt := Bytes.toNat_lt (Bytes.slice buf p 4)
    rw [Bytes.length_slice hlen] at hlt
    have hnat : (UInt32.ofNat (Bytes.toNat (Bytes.slice buf p 4))).toNat =
        Bytes.toNat (Bytes.slice buf p 4) := UInt32.toNat_ofNat_of_lt' hlt
    rw [readStr, bind_ok hint, hnat, if_neg (by omega)]
    by_cases hstr : p + 4 + Bytes.toNat (Bytes.slice buf p 4) ≤ buf.length
    · have hbytes := bytes_eq_ok (ε := AconfigStorageError).mpr ⟨hstr, rfl, rfl⟩
      rw [bind_ok hbytes, if_neg (by omega), extentOf_lift_fromUtf8]
    · have hbytes : bytes (ε := AconfigStorageError) (Bytes.toNat (Bytes.slice buf p 4)) buf
          (p + 4) = .error .panic := if_neg hstr
      rw [bind_error hbytes, if_pos (by omega)]
      rfl
  · have hbytes : bytes (ε := AconfigStorageError) 4 buf p = .error .panic := if_neg hlen
    have hint : readU32 buf p = .error .panic := bind_error (bind_error hbytes)
    rw [readStr, bind_error hint, if_pos (by omega)]
    rfl

theorem reads_fileHeader :
    Reads FileHeader.read fileHeaderFields := by
  refine reads_readU32.bind (fun version => ?_)
  refine reads_readStr.bind (fun container => ?_)
  refine reads_readU8.bind (fun fileType => ?_)
  refine reads_readU32.bind (fun fileSize => ?_)
  exact reads_readU32.map _

theorem reads_tableHeader :
    Reads TableHeader.read tableHeaderFields := by
  refine reads_fileHeader.bind (fun start => ?_)
  refine reads_readU32.bind (fun bucketOffset => ?_)
  exact reads_readU32.map _

theorem reads_listHeader :
    Reads ListHeader.read listHeaderFields := by
  refine reads_fileHeader.bind (fun start => ?_)
  exact reads_readU32.map _

theorem reads_packageTableNode
    (version : UInt32) :
    Reads (PackageTableNode.read version) (packageNodeFields version) := by
  rw [PackageTableNode.read, packageNodeFields]
  split_ifs
  · refine reads_readStr.bind (fun name => ?_)
    refine reads_readU32.bind (fun id => ?_)
    refine reads_readU32.bind (fun start => ?_)
    exact reads_readU32.map _
  · refine reads_readStr.bind (fun name => ?_)
    refine reads_readU32.bind (fun id => ?_)
    refine reads_readU64.bind (fun fingerprint => ?_)
    refine reads_readU32.bind (fun start => ?_)
    exact reads_readU32.map _
  · refine reads_readStr.bind (fun name => ?_)
    refine reads_readU32.bind (fun id => ?_)
    refine reads_readU64.bind (fun fingerprint => ?_)
    refine reads_readU8.bind (fun redact => ?_)
    refine reads_readU32.bind (fun start => ?_)
    exact reads_readU32.map _
  · intro buf p
    rfl

theorem extentOf_lift_tryFrom
    {n : Nat} (hn : n < 2 ^ 16) (buf : List UInt8) (p : Nat) :
    extentOf (lift (StoredFlagType.tryFrom (UInt16.ofNat n)) buf p) =
      if n ≤ 2 then .upTo p else .refused := by
  by_cases hle : n ≤ 2
  · rw [if_pos hle]
    interval_cases n <;> rfl
  · have hne : ∀ k : UInt16, k.toNat ≤ 2 → UInt16.ofNat n ≠ k := by
      intro k hk h
      rw [← h, UInt16.toNat_ofNat_of_lt' hn] at hk
      exact hle hk
    rw [StoredFlagType.tryFrom, if_neg (hne 0 (by decide)), if_neg (hne 1 (by decide)),
      if_neg (hne 2 (by decide)), if_neg hle]
    rfl

theorem reads_flagType :
    Reads (do let type ← readU16; lift (StoredFlagType.tryFrom type)) [flagTypeInt] := by
  intro buf p
  have hextent : extent buf p [flagTypeInt] = flagTypeInt.extent buf p := by
    rw [extent]
    cases flagTypeInt.extent buf p <;> rfl
  rw [hextent, flagTypeInt, Field.extent]
  by_cases hlen : p + 2 ≤ buf.length
  · have hint : readU16 buf p =
        .ok (UInt16.ofNat (Bytes.toNat (Bytes.slice buf p 2)), p + 2) :=
      map_eq_ok.mpr ⟨_, uint_eq_ok.mpr ⟨hlen, rfl, rfl⟩, rfl⟩
    have hlt := Bytes.toNat_lt (Bytes.slice buf p 2)
    rw [Bytes.length_slice hlen] at hlt
    rw [bind_ok hint, if_neg (by omega), extentOf_lift_tryFrom hlt]
    simp
  · have hbytes : bytes (ε := AconfigStorageError) 2 buf p = .error .panic := if_neg hlen
    have hint : readU16 buf p = .error .panic := bind_error (bind_error hbytes)
    rw [bind_error hint, if_pos (by omega)]
    rfl

theorem reads_flagTableNode :
    Reads FlagTableNode.read flagNodeFields := by
  refine reads_readU32.bind (fun packageId => ?_)
  refine reads_readStr.bind (fun flagName => ?_)
  rw [← bind_assoc]
  refine reads_flagType.bind (fun flagType => ?_)
  refine reads_readU16.bind (fun flagIndex => ?_)
  exact reads_readU32.map _

theorem reads_flagInfoNode :
    Reads FlagInfoNode.read [anyInt 1] :=
  reads_readU8.map FlagInfoNode.mk

end Records

section Files

variable {ν : Type}

theorem header_eq_panic
    {η : Type} {read : StorageReader η} {fields : List Field} {fileType : η → UInt8}
    {type : StorageFileType} {message : String} (hr : Reads read fields) (buf : List UInt8) :
    headerFromBytes read (checkFileType fileType type message) buf = .error .panic ↔
      extent buf 0 fields = .short := by
  rw [← hr buf 0, extentOf_eq_short, headerFromBytes, Checked.bind_eq_panic]
  refine or_iff_left ?_
  rintro ⟨r, _, h⟩
  rw [checkFileType, fail] at h
  split at h <;> cases h

theorem header_extent
    {η : Type} {read : StorageReader η} {fields : List Field} {fileType : η → UInt8}
    {type : StorageFileType} {message : String} {size : η → Nat} (hr : Reads read fields)
    (hsize : ∀ {buf h q}, read buf 0 = .ok (h, q) → q = size h) {buf : List UInt8} {h : η}
    (hrun : headerFromBytes read (checkFileType fileType type message) buf = .ok h) :
    extent buf 0 fields = .upTo (size h) := by
  obtain ⟨q, hread⟩ := headerFromBytes_eq_ok hrun
  rw [← hr buf 0, hread, ← hsize hread]
  rfl

theorem readMany_extent
    {α : Type} {w : Nat} {read : StorageReader α} (hr : Reads read [anyInt w]) (buf : List UInt8)
    (n head : Nat) :
    extentOf (readMany read buf n head) = extent buf head (List.replicate n (anyInt w)) := by
  induction n generalizing head with
  | zero => rfl
  | succ n ih =>
      have hfirst := hr buf head
      rw [List.replicate_succ, ← List.singleton_append, extent_append, ← hfirst, readMany]
      rcases hread : read buf head with (e | _) | ⟨a, q⟩
      · -- an integer of any value is not refused
        rw [hread] at hfirst
        simp only [extentOf, extent, Field.extent, anyInt] at hfirst
        split_ifs at hfirst
      · rfl
      · change extentOf (readMany read buf n q >>= _) = extent buf q _
        rw [← ih q]
        rcases readMany read buf n q with (e | _) | ⟨l, m⟩ <;> rfl

/-- A function that reads a node from the start of the bytes. -/
def NodeReads (fromBytes : List UInt8 → Storage ν) (nodeBytes : ν → List UInt8)
    (fields : List Field) : Prop :=
  ∀ buf, extentOf ((fromBytes buf).map (fun node => (node, (nodeBytes node).length))) =
    extent buf 0 fields

theorem NodeReads.of_reads
    {read : StorageReader ν} {nodeBytes : ν → List UInt8} {fields : List Field}
    (hr : Reads read fields)
    (hsize : ∀ {buf node q}, read buf 0 = .ok (node, q) → q = (nodeBytes node).length) :
    NodeReads (fun buf => do let r ← read buf 0; pure r.1) nodeBytes fields := by
  intro buf
  change extentOf (Except.map _ (read buf 0 >>= fun r => pure r.1)) = _
  rw [← hr buf 0]
  rcases hread : read buf 0 with (e | _) | ⟨node, q⟩
  · rfl
  · rfl
  · rw [hsize hread]
    rfl

theorem packageTableNode_head
    {version : UInt32} {buf : List UInt8} {node : PackageTableNode} {q : Nat}
    (hread : PackageTableNode.read version buf 0 = .ok (node, q)) :
    q = (node.intoBytes version).length := by
  rw [PackageTableNode.read] at hread
  rw [PackageTableNode.intoBytes]
  split_ifs at hread ⊢
  · obtain ⟨name, p₁, hname, hread⟩ := bind_eq_ok.mp hread
    obtain ⟨id, p₂, hid, hread⟩ := bind_eq_ok.mp hread
    obtain ⟨start, p₃, hstart, hread⟩ := bind_eq_ok.mp hread
    obtain ⟨next, hnext, rfl⟩ := map_eq_ok.mp hread
    rw [uint_head hnext, uint_head hstart, uint_head hid, (readStr_eq_ok hname).2]
    simp [PackageTableNode.intoBytesV1, PackageTableNode.lastBytes, Nat.add_assoc]
  · obtain ⟨name, p₁, hname, hread⟩ := bind_eq_ok.mp hread
    obtain ⟨id, p₂, hid, hread⟩ := bind_eq_ok.mp hread
    obtain ⟨fingerprint, p₃, hfingerprint, hread⟩ := bind_eq_ok.mp hread
    obtain ⟨start, p₄, hstart, hread⟩ := bind_eq_ok.mp hread
    obtain ⟨next, hnext, rfl⟩ := map_eq_ok.mp hread
    rw [uint_head hnext, uint_head hstart, uint_head hfingerprint, uint_head hid,
      (readStr_eq_ok hname).2]
    simp [PackageTableNode.intoBytesV2, PackageTableNode.lastBytes, Nat.add_assoc]
  · obtain ⟨name, p₁, hname, hread⟩ := bind_eq_ok.mp hread
    obtain ⟨id, p₂, hid, hread⟩ := bind_eq_ok.mp hread
    obtain ⟨fingerprint, p₃, hfingerprint, hread⟩ := bind_eq_ok.mp hread
    obtain ⟨redact, p₄, hredact, hread⟩ := bind_eq_ok.mp hread
    obtain ⟨start, p₅, hstart, hread⟩ := bind_eq_ok.mp hread
    obtain ⟨next, hnext, rfl⟩ := map_eq_ok.mp hread
    rw [uint_head hnext, uint_head hstart, uint_head hredact, uint_head hfingerprint,
      uint_head hid, (readStr_eq_ok hname).2]
    simp [PackageTableNode.intoBytesV3, PackageTableNode.lastBytes, Nat.add_assoc]
  · cases hread

theorem flagTableNode_head
    {buf : List UInt8} {node : FlagTableNode} {q : Nat}
    (hread : FlagTableNode.read buf 0 = .ok (node, q)) :
    q = node.intoBytes.length := by
  obtain ⟨id, p₁, hid, hread⟩ := bind_eq_ok.mp hread
  obtain ⟨name, p₂, hname, hread⟩ := bind_eq_ok.mp hread
  obtain ⟨type, p₃, htype, hread⟩ := bind_eq_ok.mp hread
  obtain ⟨flagType, p₄, hflagType, hread⟩ := bind_eq_ok.mp hread
  obtain ⟨index, p₅, hindex, hread⟩ := bind_eq_ok.mp hread
  obtain ⟨next, hnext, rfl⟩ := map_eq_ok.mp hread
  rw [uint_head hnext, uint_head hindex, (lift_eq_ok.mp hflagType).2, uint_head htype,
    (readStr_eq_ok hname).2, uint_head hid]
  simp [FlagTableNode.intoBytes, Nat.add_assoc]

theorem nodeReads_packageTableNode
    (version : UInt32) :
    NodeReads (PackageTableNode.fromBytes version) (PackageTableNode.intoBytes version)
      (packageNodeFields version) :=
  NodeReads.of_reads (reads_packageTableNode version) packageTableNode_head

theorem nodeReads_flagTableNode :
    NodeReads FlagTableNode.fromBytes FlagTableNode.intoBytes flagNodeFields :=
  NodeReads.of_reads reads_flagTableNode flagTableNode_head

theorem nodeReads_flagInfoNode :
    NodeReads FlagInfoNode.fromBytes FlagInfoNode.intoBytes [anyInt 1] := by
  refine NodeReads.of_reads reads_flagInfoNode ?_
  intro buf node q hread
  obtain ⟨attributes, hattributes, rfl⟩ := map_eq_ok.mp hread
  rw [uint_head hattributes, Nat.zero_add]
  rfl

theorem nodesFromBytes_eq_panic
    {fromBytes : List UInt8 → Storage ν} {nodeBytes : ν → List UInt8} {fields : List Field}
    (hr : NodeReads fromBytes nodeBytes fields) {buf : List UInt8} (n : Nat) {head : Nat}
    (hhead : head ≤ buf.length) :
    nodesFromBytes fromBytes nodeBytes buf n head = .error .panic ↔
      extent buf head (List.replicate n fields).flatten = .short := by
  induction n generalizing head with
  | zero => constructor <;> intro h <;> cases h
  | succ n ih =>
      have hfirst := extent_drop hhead 0 fields
      rw [Nat.add_zero, ← hr (buf.drop head)] at hfirst
      rw [List.replicate_succ, List.flatten_cons, extent_append, hfirst, nodesFromBytes,
        if_neg (Nat.not_lt.mpr hhead)]
      rcases hnode : fromBytes (buf.drop head) with (e | _) | node
      · constructor <;> intro h <;> cases h
      · exact ⟨fun _ => rfl, fun _ => rfl⟩
      · rw [hnode] at hfirst
        have hnext := ih (extent_le hhead hfirst)
        refine Iff.trans ?_ hnext
        change (nodesFromBytes fromBytes nodeBytes buf n (head + (nodeBytes node).length) >>= _) =
          _ ↔ _
        rw [Checked.bind_eq_panic]
        refine or_iff_left ?_
        rintro ⟨nodes, _, h⟩
        cases h

theorem getTableSize_eq_panic
    (entries : UInt32) :
    getTableSize entries = .error .panic ↔ 2 ^ 31 ≤ entries.toNat := by
  rw [getTableSize, Checked.bind_eq_panic, Checked.mul_eq_panic]
  have htwo : (2 : UInt32).toNat = 2 := rfl
  rw [htwo]
  constructor
  · rintro (h | ⟨least, _, h⟩)
    · omega
    · rw [fail] at h
      split at h <;> cases h
  · intro h
    exact .inl (by omega)

/-- The buckets and the nodes of a table whose header ends at `p`. -/
theorem tableBody_eq_panic
    {fromBytes : List UInt8 → Storage ν} {nodeBytes : ν → List UInt8} {nodeFields : List Field}
    (hr : NodeReads fromBytes nodeBytes nodeFields) {buf : List UInt8} {p : Nat}
    (hp : p ≤ buf.length) (numBuckets count : Nat) (f : AconfigStorageError → AconfigStorageError)
    (h : TableHeader) :
    ((do
      let (buckets, head) ← readMany (do let v ← readU32; pure (optionalOffset v)) buf numBuckets p
      let nodes ← Checked.mapErr f (nodesFromBytes fromBytes nodeBytes buf count head)
      pure ⟨h, buckets, nodes⟩ : Storage (Table ν)) = .error .panic) ↔
      extent buf p (List.replicate numBuckets (anyInt 4) ++
        (List.replicate count nodeFields).flatten) = .short := by
  have hbuckets := readMany_extent (reads_readU32.map optionalOffset) buf numBuckets p
  rw [extent_append, ← hbuckets]
  rcases hrun : readMany (do let v ← readU32; pure (optionalOffset v)) buf numBuckets p with
    (e | _) | ⟨buckets, head⟩
  · exact ⟨nofun, nofun⟩
  · exact ⟨fun _ => rfl, fun _ => rfl⟩
  · rw [hrun] at hbuckets
    refine Iff.trans ?_ (nodesFromBytes_eq_panic hr count (extent_le hp hbuckets.symm))
    change (Checked.mapErr f (nodesFromBytes fromBytes nodeBytes buf count head) >>= _) = _ ↔ _
    rw [Checked.bind_eq_panic, Checked.mapErr_eq_panic]
    refine or_iff_left ?_
    rintro ⟨nodes, _, hpure⟩
    cases hpure

/-- The bytes hold what the header announces, as far as `from_bytes` reads it. -/
def TableInside (header : List UInt8 → Storage TableHeader) (nodeFields : UInt32 → List Field)
    (buf : List UInt8) : Prop :=
  extent buf 0 tableHeaderFields ≠ .short ∧ ∀ h, header buf = .ok h →
    h.count.toNat < 2 ^ 31 ∧ ∀ numBuckets, getTableSize h.count = .ok numBuckets →
      extent buf 0 (tableFields nodeFields h numBuckets) ≠ .short

theorem tableFromBytes_panics
    {type : StorageFileType} {typeMessage message : String}
    {fromBytes : UInt32 → List UInt8 → Storage ν} {nodeBytes : UInt32 → ν → List UInt8}
    {nodeFields : UInt32 → List Field}
    (hr : ∀ version, NodeReads (fromBytes version) (nodeBytes version) (nodeFields version))
    (buf : List UInt8) :
    Table.fromBytes (headerFromBytes TableHeader.read
        (checkFileType (fun h => h.fileType) type typeMessage)) fromBytes nodeBytes message buf ≠
        .error .panic ↔
      TableInside (headerFromBytes TableHeader.read
        (checkFileType (fun h => h.fileType) type typeMessage)) nodeFields buf := by
  rw [Table.fromBytes, ne_eq, Checked.bind_eq_panic, header_eq_panic reads_tableHeader, not_or]
  refine and_congr_right (fun _ => ?_)
  rw [not_exists]
  refine forall_congr' (fun h => ?_)
  rw [not_and]
  refine imp_congr_right (fun hheader => ?_)
  have hextent := header_extent reads_tableHeader
    (fun hread => (tableHeader_eq_ok hread).2.trans (Nat.zero_add _)) hheader
  have hle := extent_le (Nat.zero_le _) hextent
  rw [Checked.bind_eq_panic, getTableSize_eq_panic, not_or, Nat.not_le]
  refine and_congr_right (fun _ => ?_)
  rw [not_exists]
  refine forall_congr' (fun numBuckets => ?_)
  rw [not_and]
  refine imp_congr_right (fun _ => not_congr ?_)
  rw [tableFields, extent_append, hextent]
  exact tableBody_eq_panic (hr h.version) hle _ _ _ h

/-- The bytes hold what the header announces. -/
def ListInside (header : List UInt8 → Storage ListHeader) (buf : List UInt8) : Prop :=
  extent buf 0 listHeaderFields ≠ .short ∧ ∀ h, header buf = .ok h →
    extent buf 0 (listFields h) ≠ .short

/-- A list whose values are read by `body`, from the end of the header on. -/
theorem list_panics
    {type : StorageFileType} {typeMessage : String} {buf : List UInt8}
    {body : ListHeader → Storage (FlagList ν)}
    (hbody : ∀ h : ListHeader, h.intoBytes.length ≤ buf.length → (body h = .error .panic ↔
      extent buf h.intoBytes.length (List.replicate h.count.toNat (anyInt 1)) = .short)) :
    (headerFromBytes ListHeader.read (checkFileType (fun h => h.fileType) type typeMessage) buf >>=
        body) ≠ .error .panic ↔
      ListInside (headerFromBytes ListHeader.read
        (checkFileType (fun h => h.fileType) type typeMessage)) buf := by
  rw [ne_eq, Checked.bind_eq_panic, header_eq_panic reads_listHeader, not_or]
  refine and_congr_right (fun _ => ?_)
  rw [not_exists]
  refine forall_congr' (fun h => ?_)
  rw [not_and]
  refine imp_congr_right (fun hheader => not_congr ?_)
  have hextent := header_extent reads_listHeader
    (fun hread => (listHeader_eq_ok hread).2.trans (Nat.zero_add _)) hheader
  rw [hbody h (extent_le (Nat.zero_le _) hextent), listFields, extent_append, hextent]

theorem flagValueListFromBytes_panics
    (buf : List UInt8) :
    flagValueListFromBytes buf ≠ .error .panic ↔ ListInside flagValueHeaderFromBytes buf := by
  refine list_panics (fun h _ => ?_)
  rw [← readMany_extent (reads_readU8.map (fun v => v == 1)), extentOf_eq_short,
    Checked.bind_eq_panic]
  refine or_iff_left ?_
  rintro ⟨booleans, _, hpure⟩
  cases hpure

theorem flagInfoListFromBytes_panics
    (buf : List UInt8) :
    flagInfoListFromBytes buf ≠ .error .panic ↔ ListInside flagInfoHeaderFromBytes buf := by
  refine list_panics (fun h hle => ?_)
  have hnodes := nodesFromBytes_eq_panic nodeReads_flagInfoNode h.count.toNat hle
  rw [List.flatten_replicate_singleton] at hnodes
  rw [Checked.bind_eq_panic, Checked.mapErr_eq_panic, hnodes]
  refine or_iff_left ?_
  rintro ⟨nodes, _, hpure⟩
  cases hpure

end Files

section Queries

variable {ν γ : Type}

theorem checkVersion_eq_ok
    {version : UInt32} :
    checkVersion version = .ok () ↔ version.toNat ≤ 3 := by
  rw [checkVersion]
  split
  case isTrue h =>
      have hlt : 3 < version.toNat := UInt32.lt_iff_toNat_lt.mp h
      exact ⟨nofun, fun hle => absurd hlt (Nat.not_lt.mpr hle)⟩
  case isFalse h =>
      have hle : ¬ 3 < version.toNat := fun hlt => h (UInt32.lt_iff_toNat_lt.mpr hlt)
      exact ⟨fun _ => Nat.not_lt.mp hle, fun _ => rfl⟩

theorem checkVersion_ne_panic
    (version : UInt32) :
    checkVersion version ≠ .error .panic := by
  rw [checkVersion, fail]
  split <;> exact nofun

theorem checkVersion_error
    {version : UInt32} (h : ¬ version.toNat ≤ 3) :
    ∃ e, checkVersion version = .error (.err e) := by
  rcases hcheck : checkVersion version with (e | _) | _
  · exact ⟨e, rfl⟩
  · exact absurd hcheck (checkVersion_ne_panic _)
  · exact absurd (checkVersion_eq_ok.mp hcheck) h

def bucketPos (bucketIndex : Nat → Nat) (h : TableHeader) : Nat :=
  h.bucketOffset.toNat + 4 * bucketIndex ((h.nodeOffset.toNat - h.bucketOffset.toNat) / 4)

def bucketNode (bucketIndex : Nat → Nat) (h : TableHeader) (buf : List UInt8) : UInt32 :=
  UInt32.ofNat (Bytes.toNat (Bytes.slice buf (bucketPos bucketIndex h) 4))

theorem readU32_eq
    (buf : List UInt8) (p : Nat) :
    readU32 buf p = if p + 4 ≤ buf.length then
      .ok (UInt32.ofNat (Bytes.toNat (Bytes.slice buf p 4)), p + 4) else .error .panic := by
  split
  case isTrue h => exact map_eq_ok.mpr ⟨_, uint_eq_ok.mpr ⟨h, rfl, rfl⟩, rfl⟩
  case isFalse h =>
      have hbytes : bytes (ε := AconfigStorageError) 4 buf p = .error .panic := if_neg h
      exact bind_error (bind_error hbytes)

/-- The bucket of a key in a table with at least one bucket. -/
theorem findBucket_eq
    {header : List UInt8 → Storage TableHeader} {bucketIndex : Nat → Nat}
    (hindex : ∀ n, 0 < n → bucketIndex n < n) {buf : List UInt8} {h : TableHeader}
    (hheader : header buf = .ok h) (hversion : h.version.toNat ≤ 3) :
    findBucket header bucketIndex buf =
      if h.bucketOffset.toNat + 4 ≤ h.nodeOffset.toNat ∧
          bucketPos bucketIndex h + 4 ≤ buf.length then
        if bucketNode bucketIndex h buf < h.nodeOffset ∨
            h.fileSize ≤ bucketNode bucketIndex h buf then .ok none
        else .ok (some (h, bucketNode bucketIndex h buf))
      else .error .panic := by
  rw [findBucket, hheader]
  change (checkVersion h.version >>= _) = _
  rw [checkVersion_eq_ok.mpr hversion]
  change (Checked.sub h.nodeOffset h.bucketOffset >>= _) = _
  have hnodeLt := h.nodeOffset.toNat_lt
  cases hsub : Checked.sub (ε := AconfigStorageError) h.nodeOffset h.bucketOffset with
  | error e =>
      rw [Checked.sub] at hsub
      split at hsub
      · cases hsub
      · cases hsub
        rw [if_neg (by omega)]
        rfl
  | ok size =>
      obtain ⟨hle, hsize⟩ := Checked.sub_eq_ok.mp hsub
      by_cases hpos : h.bucketOffset.toNat + 4 ≤ h.nodeOffset.toNat
      · have hnum : ¬ size.toNat / 4 = 0 := by omega
        have hlt := hindex (size.toNat / 4) (Nat.pos_of_ne_zero hnum)
        have hnat : (UInt32.ofNat (bucketIndex (size.toNat / 4))).toNat =
            bucketIndex (size.toNat / 4) := UInt32.toNat_ofNat_of_lt' (by
          change _ < 2 ^ 32
          omega)
        have hfour : (4 : UInt32).toNat = 4 := rfl
        obtain ⟨bucket, hmul⟩ : ∃ bucket, Checked.mul (ε := AconfigStorageError) 4
            (UInt32.ofNat (bucketIndex (size.toNat / 4))) = .ok bucket :=
          ⟨_, if_pos (by rw [hfour, hnat]; omega)⟩
        have hbucket := Checked.mul_eq_ok.mp hmul
        rw [hfour, hnat] at hbucket
        obtain ⟨pos, hadd⟩ : ∃ pos, Checked.add (ε := AconfigStorageError) h.bucketOffset bucket =
            .ok pos := ⟨_, if_pos (by omega)⟩
        have hposNat : pos.toNat = bucketPos bucketIndex h := by
          rw [Checked.add_eq_ok.mp hadd, hbucket, bucketPos, hsize]
        change (if size.toNat / 4 = 0 then _ else _) = _
        rw [if_neg hnum]
        change (Checked.mul 4 (UInt32.ofNat (bucketIndex (size.toNat / 4))) >>= _) = _
        rw [hmul]
        change (Checked.add h.bucketOffset bucket >>= _) = _
        rw [hadd]
        change (readU32 buf pos.toNat >>= _) = _
        rw [readU32_eq, hposNat]
        by_cases hread : bucketPos bucketIndex h + 4 ≤ buf.length
        · rw [if_pos hread, if_pos ⟨hpos, hread⟩]
          rfl
        · rw [if_neg hread, if_neg (fun hboth => hread hboth.2)]
          rfl
      · have hnum : size.toNat / 4 = 0 := by omega
        change (if size.toNat / 4 = 0 then _ else _) = _
        rw [if_pos hnum, if_neg (fun hboth => hpos hboth.1)]
        rfl

theorem findBucket_header_error
    {header : List UInt8 → Storage TableHeader} {bucketIndex : Nat → Nat} {buf : List UInt8}
    {e : Stop AconfigStorageError} (hheader : header buf = .error e) :
    findBucket header bucketIndex buf = .error e := by
  rw [findBucket, hheader]
  rfl

theorem findBucket_version_error
    {header : List UInt8 → Storage TableHeader} {bucketIndex : Nat → Nat} {buf : List UInt8}
    {h : TableHeader} (hheader : header buf = .ok h) (hversion : ¬ h.version.toNat ≤ 3) :
    ∃ e, findBucket header bucketIndex buf = .error (.err e) := by
  obtain ⟨e, hcheck⟩ := checkVersion_error hversion
  refine ⟨e, ?_⟩
  rw [findBucket, hheader]
  change (checkVersion h.version >>= _) = _
  rw [hcheck]
  rfl

/-- A node is within the bytes. -/
def NodeInside (fields : List Field) (buf : List UInt8) (offset : UInt32) : Prop :=
  offset.toNat ≤ buf.length ∧ extent buf offset.toNat fields ≠ .short

theorem visitNode_eq_panic
    {fromBytes : List UInt8 → Storage ν} {nodeBytes : ν → List UInt8} {fields : List Field}
    (hr : NodeReads fromBytes nodeBytes fields) {found : ν → Option γ} {next : ν → Option UInt32}
    {buf : List UInt8} {offset : UInt32} :
    visitNode fromBytes found next buf offset = .inr (.error .panic) ↔
      ¬ NodeInside fields buf offset := by
  rw [visitNode, NodeInside]
  by_cases hle : offset.toNat ≤ buf.length
  · have hextent := extent_drop hle 0 fields
    rw [Nat.add_zero, ← hr (buf.drop offset.toNat)] at hextent
    rw [if_neg (Nat.not_lt.mpr hle), hextent]
    rcases fromBytes (buf.drop offset.toNat) with (e | _) | node
    · simp [hle, Except.map, extentOf]
    · simp [hle, Except.map, extentOf]
    · simp only [hle, Except.map, extentOf, ne_eq, reduceCtorEq, not_false_eq_true, and_self,
        not_true_eq_false, iff_false]
      split
      · intro h
        cases h
      · split
        · intro h
          cases h
        · intro h
          cases h
  · simp [hle, Nat.lt_of_not_le hle]

/-- The nodes that the next offsets lead to. -/
theorem follow_panics
    {fromBytes : List UInt8 → Storage ν} {nodeBytes : ν → List UInt8} {fields : List Field}
    (hr : NodeReads fromBytes nodeBytes fields) {found : ν → Option γ} {next : ν → Option UInt32}
    {buf : List UInt8} {start : UInt32} :
    (∀ fuel, Chain.follow (visitNode fromBytes found next buf) fuel start ≠
        some (.error .panic)) ↔
      ∀ offset, Chain.Reaches (visitNode fromBytes found next buf) start offset →
        NodeInside fields buf offset := by
  rw [← not_exists, Chain.follow_eq_some_iff, not_exists]
  refine forall_congr' (fun offset => ?_)
  rw [not_and, visitNode_eq_panic hr, not_not]

/-- The records that a table query reads are within the bytes: the header, the bucket of the key
and the nodes that the next offsets lead to; there is a bucket. -/
def QueryInside (header : List UInt8 → Storage TableHeader) (bucketIndex : Nat → Nat)
    (nodeFields : UInt32 → List Field) (visit : UInt32 → UInt32 → UInt32 ⊕ Storage (Option γ))
    (buf : List UInt8) : Prop :=
  extent buf 0 tableHeaderFields ≠ .short ∧ ∀ h, header buf = .ok h → h.version.toNat ≤ 3 →
    h.bucketOffset.toNat + 4 ≤ h.nodeOffset.toNat ∧
    bucketPos bucketIndex h + 4 ≤ buf.length ∧
    (h.nodeOffset ≤ bucketNode bucketIndex h buf → bucketNode bucketIndex h buf < h.fileSize →
      ∀ offset, Chain.Reaches (visit h.version) (bucketNode bucketIndex h buf) offset →
        NodeInside (nodeFields h.version) buf offset)

theorem findNode_panics
    {type : StorageFileType} {message : String} {bucketIndex : Nat → Nat}
    (hindex : ∀ n, 0 < n → bucketIndex n < n)
    {fromBytes : UInt32 → List UInt8 → Storage ν} {nodeBytes : UInt32 → ν → List UInt8}
    {nodeFields : UInt32 → List Field}
    (hr : ∀ version, NodeReads (fromBytes version) (nodeBytes version) (nodeFields version))
    {found : ν → Option γ} {next : ν → Option UInt32} (buf : List UInt8) :
    (∀ fuel, findNode (findBucket (headerFromBytes TableHeader.read
        (checkFileType (fun h => h.fileType) type message)) bucketIndex buf)
        (fun version => visitNode (fromBytes version) found next buf) fuel ≠
          some (.error .panic)) ↔
      QueryInside (headerFromBytes TableHeader.read
        (checkFileType (fun h => h.fileType) type message)) bucketIndex nodeFields
        (fun version => visitNode (fromBytes version) found next buf) buf := by
  rw [QueryInside, ne_eq, ← header_eq_panic reads_tableHeader buf]
  rcases hheader : headerFromBytes TableHeader.read
    (checkFileType (fun h => h.fileType) type message) buf with (e | _) | h
  · rw [findBucket_header_error hheader]
    exact ⟨fun _ => ⟨nofun, nofun⟩, fun _ _ => nofun⟩
  · rw [findBucket_header_error hheader]
    exact ⟨fun hall => (hall 0 rfl).elim, fun hinside => (hinside.1 rfl).elim⟩
  · by_cases hversion : h.version.toNat ≤ 3
    · rw [findBucket_eq hindex hheader hversion]
      by_cases hbounds : h.bucketOffset.toNat + 4 ≤ h.nodeOffset.toNat ∧
          bucketPos bucketIndex h + 4 ≤ buf.length
      · rw [if_pos hbounds]
        by_cases houtside : bucketNode bucketIndex h buf < h.nodeOffset ∨
            h.fileSize ≤ bucketNode bucketIndex h buf
        · rw [if_pos houtside]
          refine ⟨fun _ => ⟨nofun, ?_⟩, fun _ _ => nofun⟩
          rintro h' ⟨⟩ _
          refine ⟨hbounds.1, hbounds.2, fun hnode hfile => ?_⟩
          rcases houtside with hlt | hle
          · exact absurd hlt (UInt32.not_lt.mpr hnode)
          · exact absurd hfile (UInt32.not_lt.mpr hle)
        · rw [if_neg houtside]
          obtain ⟨hnode, hfile⟩ := not_or.mp houtside
          refine (follow_panics (hr h.version)).trans ⟨fun hall => ⟨nofun, ?_⟩, fun hinside => ?_⟩
          · rintro h' ⟨⟩ _
            exact ⟨hbounds.1, hbounds.2, fun _ _ => hall⟩
          · exact (hinside.2 h rfl hversion).2.2 (UInt32.not_lt.mp hnode) (UInt32.not_le.mp hfile)
      · rw [if_neg hbounds]
        refine ⟨fun hall => (hall 0 rfl).elim, fun hinside => ?_⟩
        obtain ⟨hoffset, hpos, _⟩ := hinside.2 h rfl hversion
        exact (hbounds ⟨hoffset, hpos⟩).elim
    · obtain ⟨e, hbucket⟩ := findBucket_version_error hheader hversion
      rw [hbucket]
      refine ⟨fun _ => ⟨nofun, ?_⟩, fun _ _ => nofun⟩
      rintro h' ⟨⟩ hle
      exact absurd hle hversion

/-- The header and the byte of the flag are within the bytes. -/
def ByteInside (header : List UInt8 → Storage ListHeader) (buf : List UInt8)
    (flagIndex : UInt32) : Prop :=
  extent buf 0 listHeaderFields ≠ .short ∧ ∀ h, header buf = .ok h → h.version.toNat ≤ 3 →
    h.booleanOffset.toNat + flagIndex.toNat < 2 ^ 32 ∧
    (h.booleanOffset.toNat + flagIndex.toNat < h.fileSize.toNat →
      h.booleanOffset.toNat + flagIndex.toNat < buf.length)

theorem readU8_eq_panic
    {buf : List UInt8} {p : Nat} :
    readU8 buf p = .error .panic ↔ buf.length ≤ p := by
  rw [← extentOf_eq_short, reads_readU8 buf p]
  simp only [extent, Field.extent, anyInt]
  split_ifs <;> simp <;> omega

theorem findByte_panics
    {type : StorageFileType} {typeMessage message : String} (buf : List UInt8)
    (flagIndex : UInt32) :
    findByte (headerFromBytes ListHeader.read
        (checkFileType (fun h => h.fileType) type typeMessage)) message buf flagIndex ≠
        .error .panic ↔
      ByteInside (headerFromBytes ListHeader.read
        (checkFileType (fun h => h.fileType) type typeMessage)) buf flagIndex := by
  rw [findByte, ne_eq, Checked.bind_eq_panic, header_eq_panic reads_listHeader, not_or]
  refine and_congr_right (fun _ => ?_)
  rw [not_exists]
  refine forall_congr' (fun h => ?_)
  rw [not_and]
  refine imp_congr_right (fun _ => ?_)
  by_cases hversion : h.version.toNat ≤ 3
  · rw [checkVersion_eq_ok.mpr hversion]
    change ¬ (Checked.add h.booleanOffset flagIndex >>= _) = _ ↔ _
    rw [Checked.bind_eq_panic, Checked.add_eq_panic, not_or, Nat.not_le, imp_iff_right hversion]
    refine and_congr_right (fun hlt => ?_)
    obtain ⟨head, hadd⟩ : ∃ head, Checked.add (ε := AconfigStorageError) h.booleanOffset
        flagIndex = .ok head := ⟨_, if_pos hlt⟩
    rw [hadd, ← Checked.add_eq_ok.mp hadd]
    by_cases hsize : h.fileSize ≤ head
    · have hle := UInt32.le_iff_toNat_le.mp hsize
      refine ⟨fun _ hlt => absurd hle (Nat.not_le.mpr hlt), ?_⟩
      rintro _ ⟨_, ⟨⟩, hpanic⟩
      rw [if_pos hsize] at hpanic
      cases hpanic
    · have hsize' : head.toNat < h.fileSize.toNat :=
        UInt32.lt_iff_toNat_lt.mp (UInt32.not_le.mp hsize)
      rw [imp_iff_right hsize', ← Nat.not_le, ← readU8_eq_panic]
      refine not_congr ⟨?_, fun hread => ⟨head, rfl, ?_⟩⟩
      · rintro ⟨_, ⟨⟩, hpanic⟩
        rw [if_neg hsize] at hpanic
        rcases Checked.bind_eq_panic.mp hpanic with hread | ⟨r, _, hpure⟩
        · exact hread
        · cases hpure
      · rw [if_neg hsize]
        exact Checked.bind_eq_panic.mpr (.inl hread)
  · obtain ⟨e, hcheck⟩ := checkVersion_error hversion
    rw [hcheck]
    exact ⟨fun _ hle => absurd hle hversion, fun _ => nofun⟩

end Queries

section StorageReads

/-- The readers and queries panic exactly when a record that they read is not within the bytes,
the number of entries or the index of a flag overflows, or the table has no bucket. -/
theorem storage_reads_panics
    (buf : List UInt8) (package : String) (packageId : UInt32) (flag : String)
    (flagIndex : UInt32) :
    (packageTableFromBytes buf ≠ .error .panic ↔
      TableInside packageTableHeaderFromBytes packageNodeFields buf) ∧
    (flagTableFromBytes buf ≠ .error .panic ↔
      TableInside flagTableHeaderFromBytes (fun _ => flagNodeFields) buf) ∧
    (flagValueListFromBytes buf ≠ .error .panic ↔ ListInside flagValueHeaderFromBytes buf) ∧
    (flagInfoListFromBytes buf ≠ .error .panic ↔ ListInside flagInfoHeaderFromBytes buf) ∧
    ((∀ fuel, findPackageReadContext buf package fuel ≠ some (.error .panic)) ↔
      QueryInside packageTableHeaderFromBytes (PackageTableNode.findBucketIndex package)
        packageNodeFields (visitPackageNode buf package) buf) ∧
    ((∀ fuel, findFlagReadContext buf packageId flag fuel ≠ some (.error .panic)) ↔
      QueryInside flagTableHeaderFromBytes (FlagTableNode.findBucketIndex packageId flag)
        (fun _ => flagNodeFields) (fun _ => visitFlagNode buf packageId flag) buf) ∧
    (findBooleanFlagValue buf flagIndex ≠ .error .panic ↔
      ByteInside flagValueHeaderFromBytes buf flagIndex) ∧
    (findFlagAttribute buf flagIndex ≠ .error .panic ↔
      ByteInside flagInfoHeaderFromBytes buf flagIndex) := by
  refine ⟨?_, ?_, ?_, ?_, ?_, ?_, ?_, ?_⟩
  · exact tableFromBytes_panics nodeReads_packageTableNode buf
  · exact tableFromBytes_panics (fun _ => nodeReads_flagTableNode) buf
  · exact flagValueListFromBytes_panics buf
  · exact flagInfoListFromBytes_panics buf
  · exact findNode_panics (getBucketIndex_lt _) nodeReads_packageTableNode buf
  · exact findNode_panics (getBucketIndex_lt _) (fun _ => nodeReads_flagTableNode) buf
  · have hbyte : findBooleanFlagValue buf flagIndex = .error .panic ↔
        findByte flagValueHeaderFromBytes "Flag value offset goes beyond the end of the file."
          buf flagIndex = .error .panic := by
      rw [findBooleanFlagValue, Checked.bind_eq_panic]
      refine or_iff_left ?_
      rintro ⟨val, _, hpure⟩
      cases hpure
    exact (not_congr hbyte).trans (findByte_panics buf flagIndex)
  · exact findByte_panics buf flagIndex

/-- Every reader panics on no bytes at all. -/
theorem storage_reads_empty :
    packageTableFromBytes [] = .error .panic ∧ flagTableFromBytes [] = .error .panic ∧
      flagValueListFromBytes [] = .error .panic ∧ flagInfoListFromBytes [] = .error .panic ∧
      findPackageReadContext [] "a" 0 = some (.error .panic) ∧
      findFlagReadContext [] 0 "a" 0 = some (.error .panic) ∧
      findBooleanFlagValue [] 0 = .error .panic ∧ findFlagAttribute [] 0 = .error .panic :=
  ⟨rfl, rfl, rfl, rfl, rfl, rfl, rfl, rfl⟩

end StorageReads

end Aconfig
end AndroidBuild
