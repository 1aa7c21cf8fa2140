import AndroidBuild.Aconfig.Lookup

/-!
# The values of the flags

The flag values and the flag infos have one byte for each flag, package by
package in the order of the packages, and in a package in the order of the
flags.  The start index of a package is the number of flags before it, and
the queries read the byte of a flag behind it.
-/

namespace AndroidBuild
namespace Aconfig

section Starts

def allFlags (packages : List FlagPackage) : List ParsedFlag :=
  packages.flatMap (fun p => p.booleanFlags)

/-- The start indices count the flags, from `n` on. -/
def StartsFrom : Nat → List FlagPackage → Prop
  | _, [] => True
  | n, p :: packages =>
      p.booleanStartIndex.toNat = n ∧ StartsFrom (n + p.booleanFlags.length) packages

theorem completePackages_startsFrom
    {version : UInt32} {redact : Bool} {start : UInt32} {groups packages : List FlagPackage}
    (h : completePackages version redact start groups = .ok packages)
    (hflags : ∀ p ∈ packages, p.booleanFlags.length < 2 ^ 32) :
    StartsFrom start.toNat packages := by
  induction groups generalizing start packages with
  | nil =>
      cases h
      trivial
  | cons g groups ih =>
      obtain ⟨next, hnext, h⟩ := Loop.bind_eq_ok.mp h
      obtain ⟨completed, hcompleted, h⟩ := Loop.bind_eq_ok.mp h
      cases h
      rw [List.forall_mem_cons] at hflags
      have hg : g.booleanFlags.length < 2 ^ 32 := hflags.1
      have hsum := Checked.add_eq_ok.mp hnext
      rw [UInt32.toNat_ofNat_of_lt' hg] at hsum
      refine ⟨rfl, ?_⟩
      have hrest := ih hcompleted hflags.2
      rwa [hsum] at hrest

/-- The flags of a package stand from its start index on. -/
theorem StartsFrom.getElem?_allFlags
    {n : Nat} {packages : List FlagPackage} (h : StartsFrom n packages) {p : FlagPackage}
    (hp : p ∈ packages) {i : Nat} {pf : ParsedFlag} (hi : p.booleanFlags[i]? = some pf) :
    n ≤ p.booleanStartIndex.toNat ∧
      (allFlags packages)[p.booleanStartIndex.toNat + i - n]? = some pf := by
  induction packages generalizing n with
  | nil => cases hp
  | cons q packages ih =>
      obtain ⟨hq, hrest⟩ := h
      rw [allFlags, List.flatMap_cons]
      rcases List.mem_cons.mp hp with rfl | hp
      · have hlt := (List.getElem?_eq_some_iff.mp hi).1
        refine ⟨by omega, ?_⟩
        rw [hq, Nat.add_sub_cancel_left, List.getElem?_append_left hlt, hi]
      · obtain ⟨hle, hget⟩ := ih hrest hp
        refine ⟨by omega, ?_⟩
        rw [List.getElem?_append_right (by omega), ← hget, allFlags]
        congr 1
        omega

end Starts

section SetValues

variable {value : ParsedFlag → Bool}

theorem setPackageValues_eq
    {flags : List ParsedFlag} {packages : List FlagPackage} (hgrouped : Grouped flags packages)
    {p : FlagPackage} (hp : p ∈ packages) {before after values : List Bool}
    (hlength : after.length = p.booleanFlags.length) {rest : List Bool}
    (hstart : p.booleanStartIndex.toNat = before.length)
    (h : setPackageValues value (before ++ (after ++ rest)) p.retain = .ok values) :
    values = before ++ (p.booleanFlags.map value ++ rest) := by
  obtain ⟨ids, hids, h⟩ := Loop.bind_eq_ok.mp h
  have hassigned := hgrouped.assignFlagIds hp (liftError_eq_ok.mp hids)
  have hretain := hgrouped.retain_booleanFlags hp
  rw [hretain] at h
  have hall := Loop.forLoop_ok (fun done l =>
    l = before ++ (done.map value ++ (after.drop done.length ++ rest))) h (by simp) ?_
  · rw [hall, ← hlength, List.drop_length, List.nil_append]
  · intro done pf more l l' hflags hl hset
    have hindex : p.flagNames[done.length]? = some pf.name := by
      rw [hgrouped.flagNames p hp, hflags]
      simp
    have hle := hassigned.1
    have hbound : done.length < p.flagNames.length := (List.getElem?_eq_some_iff.mp hindex).1
    have hfid := (hassigned.2.2 pf.name (UInt16.ofNat done.length)).mpr ⟨_, hindex, rfl⟩
    have hlt : done.length < after.length := by
      rw [hlength, hflags]
      simp
    rw [setFlagValue, hfid] at hset
    simp only at hset
    have hNat : (UInt16.ofNat done.length).toNat = done.length :=
      UInt16.toNat_ofNat_of_lt' (show done.length < 2 ^ 16 by omega)
    have hbase : p.retain.booleanStartIndex.toNat = before.length := hstart
    rw [hNat, hbase] at hset
    split at hset
    · cases hset
      rw [hl, List.set_append_right _ _ (by omega), Nat.add_sub_cancel_left,
        List.set_append_right _ _ (by simp), List.length_map, Nat.sub_self,
        List.drop_eq_getElem_cons hlt, List.cons_append, List.set_cons_zero, List.map_append,
        List.append_assoc, List.length_append]
      rfl
    · cases hset

theorem setValues_eq
    {flags : List ParsedFlag} {packages : List FlagPackage} (hgrouped : Grouped flags packages)
    (hstarts : StartsFrom 0 packages) {values : List Bool}
    (h : (packages.map FlagPackage.retain).foldlM (setPackageValues value)
      (List.replicate (allFlags packages).length false) = .ok values) :
    values = (allFlags packages).map value := by
  suffices H : ∀ (rest : List FlagPackage) (before : List Bool) (values : List Bool),
      (∀ p ∈ rest, p ∈ packages) → StartsFrom before.length rest →
      (rest.map FlagPackage.retain).foldlM (setPackageValues value)
        (before ++ List.replicate (allFlags rest).length false) = .ok values →
      values = before ++ (allFlags rest).map value from
    H packages [] values (fun _ hp => hp) hstarts h
  intro rest
  induction rest with
  | nil =>
      intro before values _ _ h
      cases h
      rfl
  | cons p rest ih =>
      intro before values hmem hstarts h
      rw [List.forall_mem_cons] at hmem
      rw [List.map_cons] at h
      obtain ⟨l, hl, h⟩ := Loop.foldlM_cons_ok h
      have hsplit : List.replicate (allFlags (p :: rest)).length false =
          List.replicate p.booleanFlags.length false ++
            List.replicate (allFlags rest).length false := by
        rw [allFlags, List.flatMap_cons, List.length_append, List.replicate_add]
        rfl
      rw [hsplit] at hl
      rw [setPackageValues_eq hgrouped hmem.1 (List.length_replicate ..) hstarts.1 hl,
        ← List.append_assoc] at h
      have hrest := ih (before ++ p.booleanFlags.map value) values hmem.2 (by
        rw [List.length_append, List.length_map]
        exact hstarts.2) h
      rw [hrest, allFlags, allFlags, List.flatMap_cons, List.map_append, List.append_assoc]

end SetValues

section Lists

variable {ν : Type}

theorem stands_flatMap
    {valueBytes : ν → List UInt8} {values : List ν} (hone : ∀ v, (valueBytes v).length = 1)
    (start : List UInt8) {i : Nat} {v : ν} (hi : values[i]? = some v) :
    Stands (start ++ values.flatMap valueBytes) (start.length + i) (valueBytes v) := by
  obtain ⟨hlt, rfl⟩ := List.getElem?_eq_some_iff.mp hi
  refine ⟨start ++ (values.take i).flatMap valueBytes, (values.drop (i + 1)).flatMap valueBytes,
    ?_, ?_⟩
  · have hsplit : values = values.take i ++ values[i] :: values.drop (i + 1) := by
      rw [List.getElem_cons_drop, List.take_append_drop]
    nth_rewrite 1 [hsplit]
    rw [List.flatMap_append, List.flatMap_cons, List.append_assoc]
  · rw [List.length_append, List.length_flatMap]
    simp only [hone, List.map_const', List.sum_replicate, List.length_take, smul_eq_mul, mul_one]
    omega

theorem findByte_of_readU8
    {header : List UInt8 → Storage ListHeader} (message : String) {buf : List UInt8}
    {h : ListHeader} (hheader : header buf = .ok h) (hversion : checkVersion h.version = .ok ())
    {index : UInt32} (hinside : h.booleanOffset.toNat + index.toNat < h.fileSize.toNat)
    {byte : UInt8} (hread : ∃ q, readU8 buf (h.booleanOffset.toNat + index.toNat) = .ok (byte, q)) :
    findByte header message buf index = .ok byte := by
  have hlt := h.fileSize.toNat_lt
  have hhead : (UInt32.ofNat (h.booleanOffset.toNat + index.toNat)).toNat =
      h.booleanOffset.toNat + index.toNat :=
    UInt32.toNat_ofNat_of_lt' (show h.booleanOffset.toNat + index.toNat < 2 ^ 32 by omega)
  have hadd : Checked.add (ε := AconfigStorageError) h.booleanOffset index =
      .ok (UInt32.ofNat (h.booleanOffset.toNat + index.toNat)) := by
    rw [Checked.add_eq_ok, hhead]
  have hle : ¬ h.fileSize ≤ UInt32.ofNat (h.booleanOffset.toNat + index.toNat) := by
    rw [UInt32.le_iff_toNat_le, hhead]
    omega
  obtain ⟨q, hread⟩ := hread
  simp only [findByte, hheader, hversion, hadd, hhead, hread, bind, Except.bind, pure, Except.pure]
  rw [if_neg hle]

theorem findByte_eq
    {header : List UInt8 → Storage ListHeader} {message : String} {valueBytes : ν → List UInt8}
    {type : StorageFileType} {t : FlagList ν} (hregular : t.Regular type) (hlaid : t.Laid valueBytes)
    (hone : ∀ v, (valueBytes v).length = 1)
    (hheader : header (t.intoBytes valueBytes) = .ok t.header) {byte : UInt8} {v : ν}
    {index : UInt32} (hindex : t.values[index.toNat]? = some v)
    (hbyte : valueBytes v = Bytes.ofNat 1 byte.toNat) :
    findByte header message (t.intoBytes valueBytes) index = .ok byte := by
  have hversion : checkVersion t.header.version = .ok () := by
    rcases hregular.version with hv | hv | hv <;> rw [hv] <;> rfl
  have hbound := (List.getElem?_eq_some_iff.mp hindex).1
  have hsize := hlaid.fileSize
  rw [FlagList.intoBytes, List.length_append, List.length_flatMap] at hsize
  simp only [hone, List.map_const', List.sum_replicate, smul_eq_mul, mul_one] at hsize
  rw [← hlaid.booleanOffset] at hsize
  refine findByte_of_readU8 message hheader hversion (by omega) ?_
  obtain ⟨before, after, hbuf, hbefore⟩ := stands_flatMap hone t.header.intoBytes hindex
  rw [FlagList.intoBytes, hlaid.booleanOffset, hbuf, ← hbefore, hbyte]
  exact ⟨_, decodes_readU8 byte before after⟩

end Lists

section Create

variable {flags : List ParsedFlag} {packages : List FlagPackage} {container : String}
  {version : UInt32}

theorem sumFlags_retain
    (hgrouped : Grouped flags packages) (hlt : ∀ p ∈ packages, p.booleanFlags.length < 2 ^ 32)
    {n : UInt32} (h : sumFlags (packages.map FlagPackage.retain) = .ok n) :
    n.toNat = (allFlags packages).length := by
  have hsame : (packages.map FlagPackage.retain).map (fun p => p.booleanFlags.length) =
      packages.map (fun p => p.booleanFlags.length) := by
    rw [List.map_map]
    refine List.map_congr_left ?_
    intro p hp
    exact congrArg List.length (hgrouped.retain_booleanFlags hp)
  rw [allFlags, List.length_flatMap, ← hsame]
  refine sumFlags_eq_ok h ?_
  intro p' hp'
  obtain ⟨p, hp, rfl⟩ := List.mem_map.mp hp'
  rw [hgrouped.retain_booleanFlags hp]
  exact hlt p hp

variable (hgrouped : Grouped flags packages) (hstarts : StartsFrom 0 packages)
  (hlt : ∀ p ∈ packages, p.booleanFlags.length < 2 ^ 32)
  (hversion : version = 1 ∨ version = 2 ∨ version = 3)

include hgrouped hstarts hlt hversion

theorem createFlagValue_eq_ok
    {t : FlagValueList} (hrun : createFlagValue container packages version = .ok t) :
    t.values = (allFlags packages).map (fun pf => decide (pf.state = .enabled)) ∧
      t.Regular .flagVal := by
  obtain ⟨numFlags, hsum, hrun⟩ := Loop.bind_eq_ok.mp hrun
  obtain ⟨booleans, hvalues, hrun⟩ := Loop.bind_eq_ok.mp hrun
  obtain ⟨fileSize, hfile, hrun⟩ := Loop.bind_eq_ok.mp hrun
  cases hrun
  have hcount := sumFlags_retain hgrouped hlt hsum
  rw [hcount] at hvalues
  have hall := setValues_eq hgrouped hstarts hvalues
  refine ⟨hall, rfl, hversion, ?_⟩
  simp only
  rw [hall, List.length_map, hcount]

theorem createFlagInfo_eq_ok
    {t : FlagInfoList} (hrun : createFlagInfo container packages version = .ok t) :
    t.values = (allFlags packages).map
        (fun pf => FlagInfoNode.create (decide (pf.permission = .readWrite))) ∧
      t.Regular .flagInfo := by
  obtain ⟨numFlags, hsum, hrun⟩ := Loop.bind_eq_ok.mp hrun
  obtain ⟨isFlagRw, hvalues, hrun⟩ := Loop.bind_eq_ok.mp hrun
  obtain ⟨nodeSize, hmul, hrun⟩ := Loop.bind_eq_ok.mp hrun
  obtain ⟨fileSize, hfile, hrun⟩ := Loop.bind_eq_ok.mp hrun
  cases hrun
  have hcount := sumFlags_retain hgrouped hlt hsum
  rw [hcount] at hvalues
  have hall := setValues_eq hgrouped hstarts hvalues
  refine ⟨?_, rfl, hversion, ?_⟩
  · simp only
    rw [hall, List.map_map]
    rfl
  · simp only
    rw [hall, List.length_map, List.length_map, hcount]

/-- `find_boolean_flag_value` reads the state of the flag. -/
theorem findBooleanFlagValue_eq
    {t : FlagValueList} (hrun : createFlagValue container packages version = .ok t)
    (hsize : (flagValueListIntoBytes t).length < 2 ^ 32) {pf : ParsedFlag} {index : UInt32}
    (hindex : (allFlags packages)[index.toNat]? = some pf) :
    findBooleanFlagValue (flagValueListIntoBytes t) index = .ok (decide (pf.state = .enabled)) := by
  obtain ⟨hvalues, hregular⟩ := createFlagValue_eq_ok hgrouped hstarts hlt hversion hrun
  rw [flagValueListIntoBytes, FlagList.intoBytes, List.length_append] at hsize
  have hlaid := createFlagValue_laid hrun (by omega)
  have hcontainer : StrFits t.header.container := by
    rw [length_listHeader_intoBytes] at hsize
    rw [StrFits]
    omega
  have hvalue : t.values[index.toNat]? = some (decide (pf.state = .enabled)) := by
    rw [hvalues, List.getElem?_map, hindex]
    rfl
  have hbyte : findByte flagValueHeaderFromBytes
      "Flag value offset goes beyond the end of the file." (flagValueListIntoBytes t) index =
      .ok (u8From (decide (pf.state = .enabled))) :=
    findByte_eq hregular hlaid (fun _ => rfl) (flagList_header hregular hcontainer _) hvalue rfl
  rw [findBooleanFlagValue, hbyte]
  exact congrArg Except.ok (u8From_beq_one _)

/-- `find_flag_attribute` reads the permission of the flag. -/
theorem findFlagAttribute_eq
    {t : FlagInfoList} (hrun : createFlagInfo container packages version = .ok t)
    (hsize : (flagInfoListIntoBytes t).length < 2 ^ 32) {pf : ParsedFlag} {index : UInt32}
    (hindex : (allFlags packages)[index.toNat]? = some pf) :
    findFlagAttribute (flagInfoListIntoBytes t) index =
      .ok (FlagInfoNode.create (decide (pf.permission = .readWrite))).attributes := by
  obtain ⟨hvalues, hregular⟩ := createFlagInfo_eq_ok hgrouped hstarts hlt hversion hrun
  rw [flagInfoListIntoBytes, FlagList.intoBytes, List.length_append] at hsize
  have hlaid := createFlagInfo_laid hrun (by omega)
  have hcontainer : StrFits t.header.container := by
    rw [length_listHeader_intoBytes] at hsize
    rw [StrFits]
    omega
  have hvalue : t.values[index.toNat]? =
      some (FlagInfoNode.create (decide (pf.permission = .readWrite))) := by
    rw [hvalues, List.getElem?_map, hindex]
    rfl
  exact findByte_eq hregular hlaid (fun _ => rfl) (flagList_header hregular hcontainer _) hvalue rfl

end Create

end Aconfig
end AndroidBuild
