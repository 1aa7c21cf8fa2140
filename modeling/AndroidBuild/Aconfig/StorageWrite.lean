import AndroidBuild.Aconfig.FlagValues

/-!
# Writing single flags

`aconfig_storage_write_api` changes one byte of a mapped flag value or flag
info file.  The offset of the byte is a sum of 32-bit integers that wraps, and
only the sum is compared with the size of the file.  Updates behave as long as
the sum does not wrap: those of the flags of the file change their byte only,
and the others are refused.
-/

namespace AndroidBuild
namespace Aconfig

section Updates

def checkWriteVersion (version : UInt32) : Storage Unit :=
  if maxSupportedFileVersion < version then
    fail (.higherStorageFileVersion
      ("Cannot write to storage file with a higher version of " ++ toString version.toNat ++
        " with lib version " ++ toString maxSupportedFileVersion.toNat))
  else .ok ()

/-- The byte offset of a flag; the sum wraps. -/
def flagOffset (header : List UInt8 → Storage ListHeader) (buf : List UInt8)
    (flagIndex : UInt32) : Storage Nat := do
  let h ← header buf
  checkWriteVersion h.version
  let head := (h.booleanOffset + flagIndex).toNat
  if h.fileSize.toNat ≤ head then
    fail (.invalidStorageFileOffset "Flag value offset goes beyond the end of the file.")
  pure head

/-- `update_boolean_flag_value`: the result, and the buffer. -/
def updateBooleanFlagValue (buf : List UInt8) (flagIndex : UInt32) (flagValue : Bool) :
    Storage Nat × List UInt8 :=
  match flagOffset flagValueHeaderFromBytes buf flagIndex with
  | .error e => (.error e, buf)
  | .ok head =>
      if head < buf.length then (.ok head, buf.set head (u8From flagValue))
      else (.error .panic, buf)

/-- `get_flag_attribute_and_offset`, for `FlagValueType::Boolean`. -/
def getFlagAttributeAndOffset (buf : List UInt8) (flagIndex : UInt32) : Storage (UInt8 × Nat) := do
  let head ← flagOffset flagInfoHeaderFromBytes buf flagIndex
  let (bits, _) ← readU8 buf head
  pure (bits, head)

/-- The bits of `FlagInfoBit` that are updated. -/
inductive OverrideBit where
  | hasServerOverride
  | hasLocalOverride
  deriving DecidableEq, Repr

/-- `as u8`. -/
def OverrideBit.toU8 : OverrideBit → UInt8
  | .hasServerOverride => 1
  | .hasLocalOverride => 4

/-- `update_flag_has_server_override` and `update_flag_has_local_override`. -/
def updateFlagOverride (bit : OverrideBit) (buf : List UInt8) (flagIndex : UInt32) (value : Bool) :
    Storage Nat × List UInt8 :=
  match getFlagAttributeAndOffset buf flagIndex with
  | .error e => (.error e, buf)
  | .ok (bits, head) =>
      let hasOverride := decide (bits &&& bit.toU8 ≠ 0)
      if hasOverride ≠ value then (.ok head, buf.set head (bits ^^^ bit.toU8))
      else (.ok head, buf)

end Updates

section Files

theorem readU8_of_getElem?
    {buf : List UInt8} {head : Nat} {b : UInt8} (h : buf[head]? = some b) :
    ∃ q, readU8 buf head = .ok (b, q) := by
  obtain ⟨hlt, rfl⟩ := List.getElem?_eq_some_iff.mp h
  have hread := decodes_readU8 buf[head] (buf.take head) (buf.drop (head + 1))
  rw [Bytes.ofNat, Bytes.ofNat, UInt8.ofNat_toNat, List.singleton_append, List.getElem_cons_drop,
    List.take_append_drop, List.length_take, Nat.min_eq_left hlt.le] at hread
  exact ⟨_, hread⟩

/-- The bytes of a list behind a header that fits them. -/
structure ListFile (type : StorageFileType) where
  header : ListHeader
  data : List UInt8
  fileType : header.fileType = type.toU8
  version : header.version ≤ maxSupportedFileVersion
  count : header.count.toNat = data.length
  booleanOffset : header.booleanOffset.toNat = header.intoBytes.length
  fileSize : header.fileSize.toNat = header.booleanOffset.toNat + data.length

namespace ListFile

variable {type : StorageFileType} (f : ListFile type)

def bytes : List UInt8 :=
  f.header.intoBytes ++ f.data

def setByte (i : Nat) (b : UInt8) : ListFile type :=
  { f with
    data := f.data.set i b
    count := by rw [List.length_set, f.count]
    fileSize := by rw [List.length_set, f.fileSize] }

theorem length_bytes :
    f.bytes.length = f.header.fileSize.toNat := by
  rw [bytes, List.length_append, f.fileSize, f.booleanOffset]

theorem bytes_setByte
    (i : Nat) (b : UInt8) :
    (f.setByte i b).bytes = f.bytes.set (f.header.booleanOffset.toNat + i) b := by
  rw [bytes, bytes, f.booleanOffset, List.set_append_right _ _ (by omega), Nat.add_sub_cancel_left]
  rfl

theorem container_fits :
    StrFits f.header.container := by
  have hlt := f.header.booleanOffset.toNat_lt
  rw [f.booleanOffset, length_listHeader_intoBytes] at hlt
  rw [StrFits]
  omega

theorem header_eq
    (message : String) :
    headerFromBytes ListHeader.read (checkFileType (fun h => h.fileType) type message) f.bytes =
      .ok f.header :=
  headerFromBytes_ok (decodes_listHeader _ f.container_fits) (checkFileType_ok f.fileType) _

theorem getElem?_bytes
    (i : Nat) :
    f.bytes[f.header.booleanOffset.toNat + i]? = f.data[i]? := by
  rw [bytes, f.booleanOffset, List.getElem?_append_right (by omega), Nat.add_sub_cancel_left]

theorem readU8_eq
    {i : Nat} {b : UInt8} (hi : f.data[i]? = some b) :
    ∃ q, readU8 f.bytes (f.header.booleanOffset.toNat + i) = .ok (b, q) := by
  rw [← f.getElem?_bytes] at hi
  exact readU8_of_getElem? hi

/-- Where an update goes. -/
theorem flagOffset_eq
    (message : String) (index : UInt32) :
    flagOffset (headerFromBytes ListHeader.read
      (checkFileType (fun h => h.fileType) type message)) f.bytes index =
      if f.header.fileSize.toNat ≤ (f.header.booleanOffset + index).toNat then
        fail (.invalidStorageFileOffset "Flag value offset goes beyond the end of the file.")
      else .ok (f.header.booleanOffset + index).toNat := by
  have hversion : checkWriteVersion f.header.version = .ok () :=
    if_neg (UInt32.not_lt.mpr f.version)
  simp only [flagOffset, f.header_eq message, hversion, bind, Except.bind, pure, Except.pure]
  split_ifs <;> rfl

variable (message : String) {index : UInt32}

theorem flagOffset_of_lt
    (hindex : index.toNat < f.data.length) :
    flagOffset (headerFromBytes ListHeader.read
      (checkFileType (fun h => h.fileType) type message)) f.bytes index =
      .ok (f.header.booleanOffset.toNat + index.toNat) := by
  have hsize := f.fileSize
  have hlt := f.header.fileSize.toNat_lt
  have hsum : (f.header.booleanOffset + index).toNat =
      f.header.booleanOffset.toNat + index.toNat := by
    rw [UInt32.toNat_add, Nat.mod_eq_of_lt (by omega)]
  rw [f.flagOffset_eq, hsum, if_neg (by omega)]

theorem flagOffset_of_le
    (hindex : f.data.length ≤ index.toNat)
    (hsum : f.header.booleanOffset.toNat + index.toNat < 2 ^ 32) :
    flagOffset (headerFromBytes ListHeader.read
      (checkFileType (fun h => h.fileType) type message)) f.bytes index =
      fail (.invalidStorageFileOffset "Flag value offset goes beyond the end of the file.") := by
  have hsize := f.fileSize
  rw [f.flagOffset_eq, UInt32.toNat_add, Nat.mod_eq_of_lt hsum, if_pos (by omega)]

/-- A sum that wraps is taken for an offset inside the header. -/
theorem flagOffset_of_wrap
    (hsum : 2 ^ 32 ≤ f.header.booleanOffset.toNat + index.toNat) :
    ∃ head < f.bytes.length, flagOffset (headerFromBytes ListHeader.read
      (checkFileType (fun h => h.fileType) type message)) f.bytes index = .ok head := by
  have hoffset := f.header.booleanOffset.toNat_lt
  have hindex := index.toNat_lt
  have hsize := f.fileSize
  have hwrap : (f.header.booleanOffset + index).toNat < f.header.booleanOffset.toNat := by
    rw [UInt32.toNat_add]
    omega
  refine ⟨(f.header.booleanOffset + index).toNat, ?_, ?_⟩
  · rw [f.length_bytes]
    omega
  · rw [f.flagOffset_eq, if_neg (by omega)]

theorem findByte_bytes
    {header : List UInt8 → Storage ListHeader} (hheader : header f.bytes = .ok f.header)
    {b : UInt8} (hb : f.data[index.toNat]? = some b) :
    findByte header message f.bytes index = .ok b := by
  have hversion : checkVersion f.header.version = .ok () := if_neg (UInt32.not_lt.mpr f.version)
  have hbound := (List.getElem?_eq_some_iff.mp hb).1
  have hsize := f.fileSize
  exact findByte_of_readU8 message hheader hversion (by omega) (f.readU8_eq hb)

end ListFile

end Files

section Bits

def OverrideBit.write (bit : OverrideBit) (value : Bool) (bits : UInt8) : UInt8 :=
  if value then bits ||| bit.toU8 else bits &&& ~~~ bit.toU8

def OverrideBit.isSet (bit : OverrideBit) (bits : UInt8) : Bool :=
  decide (bits &&& bit.toU8 ≠ 0)

theorem OverrideBit.toggle_eq_write
    (bit : OverrideBit) (value : Bool) (bits : UInt8) :
    (if bit.isSet bits ≠ value then bits ^^^ bit.toU8 else bits) = bit.write value bits := by
  obtain ⟨bits⟩ := bits
  revert bits
  cases bit <;> cases value <;> decide +kernel

theorem OverrideBit.write_isSet
    (bit : OverrideBit) (bits : UInt8) :
    bit.write (bit.isSet bits) bits = bits := by
  rw [← bit.toggle_eq_write, if_neg (not_not.mpr rfl)]

theorem OverrideBit.write_write
    (bit : OverrideBit) (value value' : Bool) (bits : UInt8) :
    bit.write value (bit.write value' bits) = bit.write value bits := by
  obtain ⟨bits⟩ := bits
  revert bits
  cases bit <;> cases value <;> cases value' <;> decide +kernel

theorem OverrideBit.write_comm
    {bit bit' : OverrideBit} (h : bit ≠ bit') (value value' : Bool) (bits : UInt8) :
    bit.write value (bit'.write value' bits) = bit'.write value' (bit.write value bits) := by
  obtain ⟨bits⟩ := bits
  revert bits
  cases bit <;> cases bit' <;> first | exact absurd rfl h | skip
  all_goals cases value <;> cases value' <;> decide +kernel

end Bits

section Specs

theorem updateBooleanFlagValue_of_lt
    (f : ListFile .flagVal) {index : UInt32} (value : Bool) (hindex : index.toNat < f.data.length) :
    updateBooleanFlagValue f.bytes index value =
      (.ok (f.header.booleanOffset.toNat + index.toNat),
        (f.setByte index.toNat (u8From value)).bytes) := by
  have hsize := f.fileSize
  have hlength := f.length_bytes
  have hhead : flagOffset flagValueHeaderFromBytes f.bytes index = _ :=
    f.flagOffset_of_lt _ hindex
  rw [updateBooleanFlagValue, hhead, f.bytes_setByte]
  exact if_pos (by omega)

theorem updateFlagOverride_of_getElem?
    (f : ListFile .flagInfo) {index : UInt32} (bit : OverrideBit) (value : Bool) {bits : UInt8}
    (hbits : f.data[index.toNat]? = some bits) :
    updateFlagOverride bit f.bytes index value =
      (.ok (f.header.booleanOffset.toNat + index.toNat),
        (f.setByte index.toNat (bit.write value bits)).bytes) := by
  have hhead : flagOffset flagInfoHeaderFromBytes f.bytes index = _ :=
    f.flagOffset_of_lt _ (List.getElem?_eq_some_iff.mp hbits).1
  obtain ⟨q, hread⟩ := f.readU8_eq hbits
  have hget : getFlagAttributeAndOffset f.bytes index =
      .ok (bits, f.header.booleanOffset.toNat + index.toNat) := by
    simp only [getFlagAttributeAndOffset, hhead, hread, bind, Except.bind, pure, Except.pure]
  have hsame : f.bytes.set (f.header.booleanOffset.toNat + index.toNat) bits = f.bytes := by
    rw [← f.bytes_setByte, ListFile.bytes, ListFile.bytes]
    obtain ⟨hlt, rfl⟩ := List.getElem?_eq_some_iff.mp hbits
    exact congrArg _ (List.set_getElem_self hlt)
  rw [updateFlagOverride, hget, f.bytes_setByte]
  by_cases hvalue : bit.isSet bits = value
  · have hwrite : bit.write value bits = bits := by
      rw [← hvalue, bit.write_isSet]
    rw [hwrite, hsame]
    exact if_neg (not_not.mpr hvalue)
  · rw [← bit.toggle_eq_write, if_pos hvalue]
    exact if_pos hvalue

end Specs

section Runs

/-- A way to update the bytes of a list. -/
structure Updater (type : StorageFileType) (ι : Type) where
  /-- the error of a header with another file type -/
  message : String
  update : ι → List UInt8 → Storage Nat × List UInt8
  index : ι → UInt32
  /-- what an update makes of the byte of its flag -/
  change : ι → UInt8 → UInt8
  update_of_getElem? : ∀ (f : ListFile type) (call : ι) (b : UInt8),
    f.data[(index call).toNat]? = some b →
      update call f.bytes = (.ok (f.header.booleanOffset.toNat + (index call).toNat),
        (f.setByte (index call).toNat (change call b)).bytes)
  update_of_offset : ∀ (f : ListFile type) (call : ι),
    match flagOffset (headerFromBytes ListHeader.read
      (checkFileType (fun h => h.fileType) type message)) f.bytes (index call) with
    | .error e => update call f.bytes = (.error e, f.bytes)
    | .ok head => head < f.bytes.length → (update call f.bytes).1 = .ok head

namespace Updater

variable {type : StorageFileType} {ι : Type} (u : Updater type ι)

/-- `from_bytes` of the header. -/
def header : List UInt8 → Storage ListHeader :=
  headerFromBytes ListHeader.read (checkFileType (fun h => h.fileType) type u.message)

def run (buf : List UInt8) (calls : List ι) : List UInt8 :=
  calls.foldl (fun buf call => (u.update call buf).2) buf

/-- Updates of the flags of a file change the byte of their flag only, and others are refused. -/
structure Kept (f : ListFile type) (calls : List ι) : Prop where
  header : ∀ done more, calls = done ++ more → u.header (u.run f.bytes done) = .ok f.header
  changed : ∀ done call more, calls = done ++ call :: more →
    (u.index call).toNat < f.header.count.toNat →
      ∃ b, (u.run f.bytes done)[f.header.booleanOffset.toNat + (u.index call).toNat]? = some b ∧
        u.update call (u.run f.bytes done) =
          (.ok (f.header.booleanOffset.toNat + (u.index call).toNat), (u.run f.bytes done).set
            (f.header.booleanOffset.toNat + (u.index call).toNat) (u.change call b))
  refused : ∀ done call more, calls = done ++ call :: more →
    f.header.count.toNat ≤ (u.index call).toNat →
      ∃ e, u.update call (u.run f.bytes done) = (fail e, u.run f.bytes done)

/-- The file after an update that is inside the list or refused. -/
def step (f : ListFile type) (call : ι) : ListFile type :=
  f.setByte (u.index call).toNat (u.change call (f.data.getD (u.index call).toNat 0))

variable {u}

theorem update_of_le
    {f : ListFile type} {call : ι} (hindex : f.data.length ≤ (u.index call).toNat)
    (hsum : f.header.booleanOffset.toNat + (u.index call).toNat < 2 ^ 32) :
    ∃ e, u.update call f.bytes = (fail e, f.bytes) := by
  have h := u.update_of_offset f call
  rw [f.flagOffset_of_le _ hindex hsum] at h
  exact ⟨_, h⟩

theorem update_of_wrap
    {f : ListFile type} {call : ι}
    (hsum : 2 ^ 32 ≤ f.header.booleanOffset.toNat + (u.index call).toNat) :
    ∃ head, (u.update call f.bytes).1 = .ok head := by
  have h := u.update_of_offset f call
  obtain ⟨head, hlt, hoffset⟩ := f.flagOffset_of_wrap u.message hsum
  rw [hoffset] at h
  exact ⟨head, h hlt⟩

theorem update_eq_step
    {f : ListFile type} {call : ι}
    (hsum : f.header.booleanOffset.toNat + (u.index call).toNat < 2 ^ 32) :
    (u.update call f.bytes).2 = (u.step f call).bytes := by
  rcases lt_or_ge (u.index call).toNat f.data.length with hlt | hge
  · rw [u.update_of_getElem? f call _ (List.getElem?_eq_getElem hlt), step,
      List.getD_eq_getElem?_getD, List.getElem?_eq_getElem hlt, Option.getD_some]
  · obtain ⟨e, he⟩ := update_of_le hge hsum
    rw [he, step, f.bytes_setByte, List.set_eq_of_length_le]
    rw [f.length_bytes, f.fileSize]
    omega

theorem run_eq_foldl_step
    {f : ListFile type} {calls : List ι}
    (hsum : ∀ call ∈ calls, f.header.booleanOffset.toNat + (u.index call).toNat < 2 ^ 32) :
    u.run f.bytes calls = (calls.foldl u.step f).bytes := by
  induction calls generalizing f with
  | nil => rfl
  | cons call calls ih =>
      rw [List.forall_mem_cons] at hsum
      rw [run, List.foldl_cons, update_eq_step hsum.1]
      exact ih hsum.2

theorem header_foldl_step
    (f : ListFile type) (calls : List ι) :
    (calls.foldl u.step f).header = f.header := by
  induction calls generalizing f with
  | nil => rfl
  | cons call calls ih => exact ih (u.step f call)

/-- What a run makes of the byte of a flag. -/
theorem getElem?_foldl_step
    (f : ListFile type) (calls : List ι) (index : UInt32) :
    (calls.foldl u.step f).data[index.toNat]? = f.data[index.toNat]?.map
      ((calls.filter (fun call => u.index call = index)).foldl (fun b call => u.change call b)) := by
  induction calls generalizing f with
  | nil => simp
  | cons call calls ih =>
      rw [List.foldl_cons, ih, List.filter_cons]
      by_cases hindex : u.index call = index
      · rw [if_pos (decide_eq_true hindex), ← hindex, step, ListFile.setByte]
        simp only [List.foldl_cons]
        rw [List.getElem?_set_self']
        cases hget : f.data[(u.index call).toNat]? with
        | none => rfl
        | some b => simp [hget]
      · have hne : (u.index call).toNat ≠ index.toNat := fun h => hindex (UInt32.toNat_inj.mp h)
        rw [if_neg (by simpa using hindex), step, ListFile.setByte, List.getElem?_set_ne hne]

theorem header_run
    {f : ListFile type} {calls : List ι}
    (hsum : ∀ call ∈ calls, f.header.booleanOffset.toNat + (u.index call).toNat < 2 ^ 32) :
    u.header (u.run f.bytes calls) = .ok f.header := by
  rw [run_eq_foldl_step hsum, header, ListFile.header_eq, header_foldl_step]

/-- Updates are kept as long as no sum wraps. -/
theorem kept_of_lt
    {f : ListFile type} {calls : List ι}
    (hsum : ∀ call ∈ calls, f.header.booleanOffset.toNat + (u.index call).toNat < 2 ^ 32) :
    u.Kept f calls := by
  have hfile : ∀ done call more, calls = done ++ call :: more →
      f.header.booleanOffset.toNat + (u.index call).toNat < 2 ^ 32 ∧
        ∃ g : ListFile type, u.run f.bytes done = g.bytes ∧ g.header = f.header := by
    rintro done call more rfl
    refine ⟨hsum call (by simp), done.foldl u.step f, run_eq_foldl_step ?_, header_foldl_step f done⟩
    intro c hc
    exact hsum c (List.mem_append_left _ hc)
  refine ⟨?_, ?_, ?_⟩
  · rintro done more rfl
    exact header_run (fun call hcall => hsum call (List.mem_append_left _ hcall))
  · intro done call more hcalls hindex
    obtain ⟨-, g, hg, hheader⟩ := hfile done call more hcalls
    rw [← hheader, g.count] at hindex
    rw [hg, ← hheader]
    refine ⟨g.data[(u.index call).toNat], ?_, ?_⟩
    · rw [g.getElem?_bytes, List.getElem?_eq_getElem hindex]
    · rw [u.update_of_getElem? g call _ (List.getElem?_eq_getElem hindex), g.bytes_setByte]
  · intro done call more hcalls hindex
    obtain ⟨hlt, g, hg, hheader⟩ := hfile done call more hcalls
    rw [← hheader] at hindex hlt
    rw [g.count] at hindex
    rw [hg]
    exact update_of_le hindex hlt

/-- An update with a sum that wraps is not refused. -/
theorem lt_of_kept
    {f : ListFile type} {calls : List ι} (h : u.Kept f calls) :
    ∀ call ∈ calls, f.header.booleanOffset.toNat + (u.index call).toNat < 2 ^ 32 := by
  suffices H : ∀ done more, calls = done ++ more →
      ∀ call ∈ done, f.header.booleanOffset.toNat + (u.index call).toNat < 2 ^ 32 from
    H calls [] (List.append_nil calls).symm
  intro done
  induction done using List.reverseRecOn with
  | nil =>
      intro more _ call hcall
      cases hcall
  | append_singleton done last ih =>
      intro more hcalls
      rw [List.append_assoc, List.singleton_append] at hcalls
      have hdone := ih (last :: more) hcalls
      rw [List.forall_mem_append, List.forall_mem_singleton]
      refine ⟨hdone, ?_⟩
      by_contra hwrap
      have hsize := f.fileSize
      have hlt := f.header.fileSize.toNat_lt
      have hcount := f.count
      obtain ⟨e, he⟩ := h.refused done last more hcalls (by omega)
      rw [run_eq_foldl_step hdone] at he
      have hstep : 2 ^ 32 ≤
          (done.foldl u.step f).header.booleanOffset.toNat + (u.index last).toNat := by
        rw [header_foldl_step]
        omega
      obtain ⟨head, hhead⟩ := update_of_wrap hstep
      rw [he] at hhead
      cases hhead

end Updater

end Runs

section Lists

variable {ν : Type} {type : StorageFileType} {valueBytes : ν → List UInt8}

/-- A list with a header that fits it. -/
structure FlagList.Consistent (type : StorageFileType) (valueBytes : ν → List UInt8)
    (t : FlagList ν) : Prop where
  fileType : t.header.fileType = type.toU8
  version : t.header.version ≤ maxSupportedFileVersion
  count : t.header.count.toNat = t.values.length
  laid : t.Laid valueBytes

def FlagList.file (hone : ∀ v, (valueBytes v).length = 1) (t : FlagList ν)
    (ht : t.Consistent type valueBytes) : ListFile type where
  header := t.header
  data := t.values.flatMap valueBytes
  fileType := ht.fileType
  version := ht.version
  count := by
    rw [ht.count, List.length_flatMap]
    simp only [hone, List.map_const', List.sum_replicate, smul_eq_mul, mul_one]
  booleanOffset := ht.laid.booleanOffset
  fileSize := by
    rw [← ht.laid.fileSize, FlagList.intoBytes, List.length_append, ht.laid.booleanOffset]

def lastValue {κ : Type} [DecidableEq κ] (calls : List (κ × Bool)) (key : κ) (value : Bool) : Bool :=
  (((calls.filter (fun call => call.1 = key)).getLast?).map Prod.snd).getD value

theorem lastValue_concat
    {κ : Type} [DecidableEq κ] (calls : List (κ × Bool)) (call : κ × Bool) (key : κ)
    (value : Bool) :
    lastValue (calls ++ [call]) key value =
      if call.1 = key then call.2 else lastValue calls key value := by
  rw [lastValue, lastValue, List.filter_append]
  by_cases hkey : call.1 = key
  · rw [List.filter_singleton, if_pos hkey, decide_eq_true hkey]
    simp
  · rw [List.filter_singleton, if_neg hkey, decide_eq_false hkey]
    simp

end Lists

section FlagValues

/-- `update_boolean_flag_value`. -/
def booleanUpdater : Updater .flagVal (UInt32 × Bool) where
  message := "binary file is not a flag value file"
  update call buf := updateBooleanFlagValue buf call.1 call.2
  index call := call.1
  change call _ := u8From call.2
  update_of_getElem? := by
    intro f call b hb
    exact updateBooleanFlagValue_of_lt f call.2 (List.getElem?_eq_some_iff.mp hb).1
  update_of_offset := by
    intro f call
    split
    next e he => rw [updateBooleanFlagValue, flagValueHeaderFromBytes, he]
    next head hhead =>
      intro hlt
      rw [updateBooleanFlagValue, flagValueHeaderFromBytes, hhead]
      exact congrArg Prod.fst (if_pos hlt)

theorem foldl_booleanUpdater
    (calls : List (UInt32 × Bool)) (index : UInt32) (value : Bool) :
    (calls.filter (fun call => booleanUpdater.index call = index)).foldl
      (fun b call => booleanUpdater.change call b) (u8From value) =
        u8From (lastValue calls index value) := by
  induction calls using List.reverseRecOn with
  | nil => rfl
  | append_singleton calls call ih =>
      rw [lastValue_concat, List.filter_append, List.foldl_append, ih]
      by_cases hindex : call.1 = index
      · rw [if_pos hindex, List.filter_singleton]
        simp [booleanUpdater, hindex]
      · rw [if_neg hindex, List.filter_singleton]
        simp [booleanUpdater, hindex]

end FlagValues

section FlagInfos

/-- `update_flag_has_server_override` and `update_flag_has_local_override`. -/
def overrideUpdater : Updater .flagInfo ((UInt32 × OverrideBit) × Bool) where
  message := "binary file is not a flag info file"
  update call buf := updateFlagOverride call.1.2 buf call.1.1 call.2
  index call := call.1.1
  change call b := call.1.2.write call.2 b
  update_of_getElem? := by
    intro f call b hb
    exact updateFlagOverride_of_getElem? f call.1.2 call.2 hb
  update_of_offset := by
    intro f call
    split
    next e he =>
      rw [updateFlagOverride, getFlagAttributeAndOffset, flagInfoHeaderFromBytes, he]
      rfl
    next head hhead =>
      intro hlt
      obtain ⟨q, hread⟩ := readU8_of_getElem? (List.getElem?_eq_getElem hlt)
      have hget : getFlagAttributeAndOffset f.bytes call.1.1 = .ok (f.bytes[head], head) := by
        simp only [getFlagAttributeAndOffset, flagInfoHeaderFromBytes, hhead, hread, bind,
          Except.bind, pure, Except.pure]
      rw [updateFlagOverride, hget]
      simp only
      split_ifs <;> rfl

/-- The attributes of a flag with the overrides that are written last. -/
def overridden (calls : List ((UInt32 × OverrideBit) × Bool)) (index : UInt32) (bits : UInt8) :
    UInt8 :=
  OverrideBit.hasServerOverride.write
    (lastValue calls (index, .hasServerOverride) (OverrideBit.hasServerOverride.isSet bits))
    (OverrideBit.hasLocalOverride.write
      (lastValue calls (index, .hasLocalOverride) (OverrideBit.hasLocalOverride.isSet bits)) bits)

theorem foldl_overrideUpdater
    (calls : List ((UInt32 × OverrideBit) × Bool)) (index : UInt32) (bits : UInt8) :
    (calls.filter (fun call => overrideUpdater.index call = index)).foldl
      (fun b call => overrideUpdater.change call b) bits = overridden calls index bits := by
  induction calls using List.reverseRecOn with
  | nil =>
      rw [overridden]
      simp [lastValue, OverrideBit.write_isSet]
  | append_singleton calls call ih =>
      obtain ⟨⟨i, bit⟩, value⟩ := call
      rw [List.filter_append, List.foldl_append, ih, overridden, overridden, lastValue_concat,
        lastValue_concat]
      by_cases hindex : i = index
      · rw [List.filter_singleton]
        cases bit with
        | hasServerOverride =>
            simp [overrideUpdater, hindex, OverrideBit.write_write]
        | hasLocalOverride =>
            have hne : OverrideBit.hasLocalOverride ≠ .hasServerOverride := by decide
            simp [overrideUpdater, hindex, OverrideBit.write_comm hne, OverrideBit.write_write]
      · rw [List.filter_singleton]
        simp [overrideUpdater, hindex]

end FlagInfos

section UpdatedFiles

/-- The flag values behave under updates: see `Updater.Kept`, and the values that were written
last are found. -/
structure ValuesKept (t : FlagValueList)
    (ht : t.Consistent .flagVal (fun v => Bytes.ofNat 1 (u8From v).toNat))
    (calls : List (UInt32 × Bool)) : Prop where
  kept : booleanUpdater.Kept (t.file (fun _ => rfl) ht) calls
  found : ∀ done more, calls = done ++ more →
    ∀ (index : UInt32) (value : Bool), t.values[index.toNat]? = some value →
      findBooleanFlagValue (booleanUpdater.run (flagValueListIntoBytes t) done) index =
        .ok (lastValue done index value)

/-- The flag infos behave under updates. -/
structure InfosKept (t : FlagInfoList) (ht : t.Consistent .flagInfo FlagInfoNode.intoBytes)
    (calls : List ((UInt32 × OverrideBit) × Bool)) : Prop where
  kept : overrideUpdater.Kept (t.file (fun _ => rfl) ht) calls
  found : ∀ done more, calls = done ++ more →
    ∀ (index : UInt32) (node : FlagInfoNode), t.values[index.toNat]? = some node →
      findFlagAttribute (overrideUpdater.run (flagInfoListIntoBytes t) done) index =
        .ok (overridden done index node.attributes)

theorem findByte_run
    {type : StorageFileType} {ι : Type} {u : Updater type ι} {f : ListFile type} {calls : List ι}
    (hsum : ∀ call ∈ calls, f.header.booleanOffset.toNat + (u.index call).toNat < 2 ^ 32)
    (message : String) {index : UInt32} {b : UInt8} (hb : f.data[index.toNat]? = some b) :
    findByte u.header message (u.run f.bytes calls) index =
      .ok ((calls.filter (fun call => u.index call = index)).foldl
        (fun b call => u.change call b) b) := by
  rw [Updater.run_eq_foldl_step hsum]
  refine ListFile.findByte_bytes _ message (ListFile.header_eq _ _) ?_
  rw [Updater.getElem?_foldl_step, hb]
  rfl

theorem getElem?_flatMap_byte
    {ν : Type} {values : List ν} {valueBytes : ν → List UInt8} {byte : ν → UInt8}
    (hbyte : ∀ v, valueBytes v = Bytes.ofNat 1 (byte v).toNat) {i : Nat} {v : ν}
    (hi : values[i]? = some v) :
    (values.flatMap valueBytes)[i]? = some (byte v) := by
  have hmap : values.flatMap valueBytes = values.map byte := by
    rw [List.map_eq_flatMap]
    refine List.flatMap_congr ?_
    intro v _
    rw [hbyte v, Bytes.ofNat, Bytes.ofNat, UInt8.ofNat_toNat]
  rw [hmap, List.getElem?_map, hi]
  rfl

/-- The updates behave exactly if no sum of the offset of the flags and an index wraps. -/
theorem updates_kept_iff
    (values : FlagValueList)
    (hvalues : values.Consistent .flagVal (fun v => Bytes.ofNat 1 (u8From v).toNat))
    (valueCalls : List (UInt32 × Bool)) (infos : FlagInfoList)
    (hinfos : infos.Consistent .flagInfo FlagInfoNode.intoBytes)
    (infoCalls : List ((UInt32 × OverrideBit) × Bool)) :
    (ValuesKept values hvalues valueCalls ↔
      ∀ call ∈ valueCalls, values.header.booleanOffset.toNat + call.1.toNat < 2 ^ 32) ∧
    (InfosKept infos hinfos infoCalls ↔
      ∀ call ∈ infoCalls, infos.header.booleanOffset.toNat + call.1.1.toNat < 2 ^ 32) := by
  refine ⟨?_, ?_⟩
  · refine ⟨fun h => Updater.lt_of_kept h.kept, ?_⟩
    intro hsum
    refine ⟨Updater.kept_of_lt hsum, ?_⟩
    rintro done more rfl index value hvalue
    have hdata : (values.file (fun _ => rfl) hvalues).data[index.toNat]? = some (u8From value) :=
      getElem?_flatMap_byte (fun _ => rfl) hvalue
    have hbyte := findByte_run (u := booleanUpdater)
      (fun call hcall => hsum call (List.mem_append_left more hcall))
      "Flag value offset goes beyond the end of the file." hdata
    rw [foldl_booleanUpdater] at hbyte
    have hfind : findByte flagValueHeaderFromBytes
        "Flag value offset goes beyond the end of the file."
        (booleanUpdater.run (flagValueListIntoBytes values) done) index = _ := hbyte
    rw [findBooleanFlagValue, hfind]
    exact congrArg Except.ok (u8From_beq_one _)
  · refine ⟨fun h => Updater.lt_of_kept h.kept, ?_⟩
    intro hsum
    refine ⟨Updater.kept_of_lt hsum, ?_⟩
    rintro done more rfl index node hnode
    have hdata : (infos.file (fun _ => rfl) hinfos).data[index.toNat]? = some node.attributes :=
      getElem?_flatMap_byte (fun _ => rfl) hnode
    have hbyte := findByte_run (u := overrideUpdater)
      (fun call hcall => hsum call (List.mem_append_left more hcall))
      "Flag info offset goes beyond the end of the file." hdata
    rw [foldl_overrideUpdater] at hbyte
    exact hbyte

def smallValues : FlagValueList :=
  ⟨⟨⟨1, "c", StorageFileType.flagVal.toU8, 23, 1⟩, 22⟩, [true]⟩

/-- One flag without overrides. -/
def smallInfos : FlagInfoList :=
  ⟨⟨⟨1, "c", StorageFileType.flagInfo.toU8, 23, 1⟩, 22⟩, [FlagInfoNode.create true]⟩

theorem smallValues_consistent :
    smallValues.Consistent .flagVal (fun v => Bytes.ofNat 1 (u8From v).toNat) :=
  ⟨rfl, by decide, rfl, ⟨by decide +kernel, by decide +kernel, by decide +kernel⟩⟩

theorem smallInfos_consistent :
    smallInfos.Consistent .flagInfo FlagInfoNode.intoBytes :=
  ⟨rfl, by decide, rfl, ⟨by decide +kernel, by decide +kernel, by decide +kernel⟩⟩

theorem updates_kept_example :
    ValuesKept smallValues smallValues_consistent [(0, false), (7, true)] ∧
    InfosKept smallInfos smallInfos_consistent
      [((0, .hasLocalOverride), true), ((0, .hasServerOverride), true), ((7, .hasLocalOverride), true)] :=
  have h := updates_kept_iff smallValues smallValues_consistent [(0, false), (7, true)]
    smallInfos smallInfos_consistent
    [((0, .hasLocalOverride), true), ((0, .hasServerOverride), true), ((7, .hasLocalOverride), true)]
  ⟨h.1.mpr (List.forall_mem_cons.mpr ⟨by decide, List.forall_mem_cons.mpr ⟨by decide, nofun⟩⟩),
    h.2.mpr (List.forall_mem_cons.mpr ⟨by decide, List.forall_mem_cons.mpr ⟨by decide,
      List.forall_mem_cons.mpr ⟨by decide, nofun⟩⟩⟩)⟩

/-- An index far behind the flags overwrites the version in the header. -/
theorem updates_kept_fails :
    updateBooleanFlagValue (flagValueListIntoBytes smallValues) 4294967274 false =
      (.ok 0, (flagValueListIntoBytes smallValues).set 0 0) ∧
    ¬ ValuesKept smallValues smallValues_consistent [(4294967274, false)] := by
  have hupdate : updateBooleanFlagValue (flagValueListIntoBytes smallValues) 4294967274 false =
      (.ok 0, (flagValueListIntoBytes smallValues).set 0 0) := by
    decide +kernel
  refine ⟨hupdate, ?_⟩
  intro h
  obtain ⟨e, he⟩ := h.kept.refused [] (4294967274, false) [] rfl (by decide)
  have hok : (updateBooleanFlagValue (flagValueListIntoBytes smallValues) 4294967274 false).1 =
      fail e := congrArg Prod.fst he
  rw [hupdate] at hok
  cases hok

end UpdatedFiles

end Aconfig
end AndroidBuild
