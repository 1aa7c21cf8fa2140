import AndroidBuild.FsConfig.Generate

/-!
# Ids with one number

The header parser tells ids apart by the text of their value, the config.fs
parser by their number.  So two ids of the header may have one number when it
is spelled in two ways, and no other two ids can.
-/

namespace AndroidBuild
namespace FsConfig

open Text IntLiteral

section Header

variable {U : Unicode}

/-- The identifier and the value of a line that defines an id to handle. -/
def handledDefine (line : Str) : Option (Str × Str) :=
  match aidDefine line with
  | some (identifier, some value) =>
      if skipAid identifier || aidSkipRange identifier then none else some (identifier, value)
  | _ => none

def defines (lines : List Str) : List (Str × Str) :=
  lines.filterMap handledDefine

theorem not_collisionOk_of_not_skipped
    {identifier : Str} (h : skipAid identifier = false) :
    identifier ∉ collisionOk := by
  intro hmem
  have hall : ∀ id ∈ collisionOk, skipAid id = true := by decide
  rw [hall identifier hmem] at h
  cases h

theorem headerHandleAid_eq_ok
    {aidHeader identifier value : Str} {st st' : HeaderState U}
    (hok : identifier ∉ collisionOk)
    (h : headerHandleAid aidHeader identifier value st = .ok st') :
    ∃ aid : AID U, aid.identifier = identifier ∧ aid.value = value ∧
      aid.friendly ∉ st.aidNameToValue.keys ∧ value ∉ st.aidValueToName.keys ∧
      st' = { st with
        aidNameToValue := st.aidNameToValue.set aid.friendly aid
        aidValueToName := st.aidValueToName.set value aid.friendly } := by
  obtain ⟨aid, hnew, h⟩ := Loop.bind_eq_ok.mp h
  obtain ⟨hid, hvalue⟩ := AID.new_eq_ok hnew
  split at h
  · cases h
  · rename_i hfriendly
    split at h
    · cases h
    · rename_i hcond
      have hfresh : value ∉ st.aidValueToName.keys := by
        intro hmem
        exact hcond ⟨hmem, by rwa [hid]⟩
      cases h
      exact ⟨aid, hid, hvalue, hfriendly, hfresh, rfl⟩

/-- What a line does to the ids. -/
theorem parseLine_eq_ok
    {aidHeader : Str} {line : Str × Nat} {st st' : HeaderState U}
    (h : parseLine aidHeader st line = .ok st') :
    (handledDefine line.1 = none ∧ st'.aidNameToValue = st.aidNameToValue ∧
      st'.aidValueToName = st.aidValueToName) ∨
    (∃ aid : AID U, handledDefine line.1 = some (aid.identifier, aid.value) ∧
      aid.friendly ∉ st.aidNameToValue.keys ∧ aid.value ∉ st.aidValueToName.keys ∧
      st'.aidNameToValue = st.aidNameToValue.set aid.friendly aid ∧
      st'.aidValueToName = st.aidValueToName.set aid.value aid.friendly) := by
  obtain ⟨rangesByName, -, h⟩ := Loop.bind_eq_ok.mp h
  unfold parseDefine at h
  unfold handledDefine
  cases hdefine : aidDefine line.1 with
  | none =>
      rw [hdefine] at h
      cases h
      exact Or.inl ⟨rfl, rfl, rfl⟩
  | some define =>
      obtain ⟨identifier, value⟩ := define
      rw [hdefine] at h
      cases value with
      | none => cases h
      | some value =>
          simp only at h ⊢
          cases hskip : skipAid identifier with
          | true =>
              rw [hskip, if_pos rfl] at h
              cases h
              exact Or.inl ⟨by simp, rfl, rfl⟩
          | false =>
              cases hrange : aidSkipRange identifier with
              | true =>
                  rw [hskip, hrange, if_neg (by simp), if_pos rfl] at h
                  cases h
                  exact Or.inl ⟨by simp, rfl, rfl⟩
              | false =>
                  rw [hskip, hrange, if_neg (by simp), if_neg (by simp)] at h
                  split at h
                  · rename_i st₁ hhandle
                    obtain ⟨aid, rfl, rfl, hfriendly, hvalue, rfl⟩ :=
                      headerHandleAid_eq_ok (not_collisionOk_of_not_skipped hskip) hhandle
                    cases h
                    exact Or.inr ⟨aid, by simp, hfriendly, hvalue, rfl, rfl⟩
                  · cases h

/-- The ids of the state are those of the lines read, in order. -/
structure AidsOf (lines : List Str) (st : HeaderState U) : Prop where
  aids : st.aidNameToValue.values.map (fun aid => (aid.identifier, aid.value)) = defines lines
  values : st.aidValueToName.keys = (defines lines).map Prod.snd

theorem AidsOf.step
    {aidHeader : Str} {lines : List Str} {line : Str × Nat} {st st' : HeaderState U}
    (h : AidsOf lines st) (hstep : parseLine aidHeader st line = .ok st') :
    AidsOf (lines ++ [line.1]) st' := by
  rcases parseLine_eq_ok hstep with
    ⟨hnone, hnames, hvalues⟩ | ⟨aid, hsome, hfriendly, hvalue, hnames, hvalues⟩
  · have hdefines : defines (lines ++ [line.1]) = defines lines := by
      unfold defines
      rw [List.filterMap_append, List.filterMap_cons_none hnone, List.filterMap_nil,
        List.append_nil]
    exact ⟨by rw [hnames, hdefines, h.aids], by rw [hvalues, hdefines, h.values]⟩
  · have hdefines : defines (lines ++ [line.1]) =
        defines lines ++ [(aid.identifier, aid.value)] := by
      unfold defines
      rw [List.filterMap_append, List.filterMap_cons_some hsome, List.filterMap_nil]
    constructor
    · rw [hnames, hdefines, ← h.aids]
      unfold OrderedDict.values
      rw [OrderedDict.entries_set_of_fresh hfriendly]
      simp
    · rw [hvalues, hdefines, List.map_append, ← h.values]
      unfold OrderedDict.keys
      rw [OrderedDict.entries_set_of_fresh hvalue]
      simp

/-- The lines of the header give the ids, with distinct texts of their values, outside of
every range. -/
theorem parseHeader_eq_ok
    {aidHeader : Str} {lines : List Str} {header : AIDHeaderParser U}
    (h : parseHeader aidHeader lines = .ok header) :
    header.aids.map (fun aid => (aid.identifier, aid.value)) = defines lines ∧
      ((defines lines).map Prod.snd).Nodup ∧
      ∀ aid ∈ header.aids, ∀ e ∈ header.ranges.entries, inAnyRange aid.uid e.2 = false := by
  obtain ⟨st, hlines, h⟩ := Loop.bind_eq_ok.mp h
  obtain ⟨ranges, -, h⟩ := Loop.bind_eq_ok.mp h
  have haids : AidsOf lines st := by
    have hloop := Loop.forLoop_ok
      (fun (done : List (Str × Nat)) (st : HeaderState U) => AidsOf (done.map Prod.fst) st)
      hlines ⟨rfl, rfl⟩ ?_
    · rwa [List.zipIdx_map_fst] at hloop
    · intro done line rest st st' _ hdone hstep
      rw [List.map_append]
      exact hdone.step hstep
  unfold processAndCheck at h
  split at h
  · cases h
  split at h
  · cases h
  rename_i hreserved
  cases h
  refine ⟨haids.aids, ?_, ?_⟩
  · rw [← haids.values]
    exact st.aidValueToName.keys_nodup
  · intro aid haid e he
    have hmem : aid.value ∈ st.aidValueToName.keys := by
      rw [haids.values, ← haids.aids, List.map_map]
      exact List.mem_map_of_mem haid
    have hwithin : withinReserved (U := U) ranges aid.value = false := by
      by_contra hne
      exact hreserved (List.any_eq_true.mpr ⟨_, hmem, by simpa using hne⟩)
    unfold withinReserved at hwithin
    rw [List.any_eq_false] at hwithin
    have hrange := hwithin e.2 (List.mem_map_of_mem he)
    rw [aid.readInt_value, Option.getD_some] at hrange
    simpa using hrange

end Header

section Config

variable {U : Unicode} {ranges : OrderedDict Str (List (Int × Int))}

/-- The id lies in a range of the partition with the longest name that its friendly name
starts with. -/
def InOwnRange (ranges : OrderedDict Str (List (Int × Int))) (aid : AID U) : Prop :=
  ∃ e ∈ ranges.entries, e.1 <+: aid.friendly ∧
    (∀ e' ∈ ranges.entries, e'.1 <+: aid.friendly → e'.1.length ≤ e.1.length) ∧
    inAnyRange aid.uid e.2 = true

theorem pairwise_longestFirst
    (partitions : List Str) :
    (longestFirst partitions).Pairwise (fun a b => b.length ≤ a.length) := by
  have : Std.Total (fun a b : Str => b.length ≤ a.length) := ⟨fun a b => Nat.le_total _ _⟩
  have : IsTrans Str (fun a b : Str => b.length ≤ a.length) := ⟨fun a b c h h' => h'.trans h⟩
  exact partitions.pairwise_insertionSort _

theorem mem_longestFirst
    {partitions : List Str} {partition : Str} :
    partition ∈ longestFirst partitions ↔ partition ∈ partitions :=
  (partitions.perm_insertionSort _).mem_iff

theorem partitionOf_eq_some
    {friendly partition : Str} (h : partitionOf ranges friendly = some partition) :
    partition <+: friendly ∧
      ∀ q ∈ ranges.keys, q <+: friendly → q.length ≤ partition.length := by
  obtain ⟨hpre, before, after, heq, hbefore⟩ := List.find?_eq_some_iff_append.mp h
  refine ⟨List.isPrefixOf_iff_prefix.mp hpre, ?_⟩
  intro q hq hqpre
  have hsorted := pairwise_longestFirst ranges.keys
  rw [heq] at hsorted
  rw [← mem_longestFirst, heq] at hq
  rcases List.mem_append.mp hq with hq | hq
  · have hnot := hbefore q hq
    rw [List.isPrefixOf_iff_prefix.mpr hqpre] at hnot
    cases hnot
  · rcases List.mem_cons.mp hq with rfl | hq
    · exact le_rfl
    · exact (List.pairwise_cons.mp (List.pairwise_append.mp hsorted).2.1).1 q hq

theorem inOwnRange_of_verify
    {aid : AID U} (h : verifyValidRange ranges aid = .ok ()) :
    InOwnRange ranges aid := by
  obtain ⟨partition, rs, hpartition, hget, hrange⟩ := verifyValidRange_eq_ok.mp h
  obtain ⟨hpre, hlongest⟩ := partitionOf_eq_some hpartition
  refine ⟨(partition, rs), OrderedDict.mem_of_get? hget, hpre, ?_, hrange⟩
  intro e he
  exact hlongest e.1 (List.mem_map_of_mem he)

/-- The ids of the config.fs files so far. -/
structure ConfigAids (ranges : OrderedDict Str (List (Int × Int))) (st : ConfigState U) :
    Prop where
  inRange : ∀ aid ∈ st.aids, InOwnRange ranges aid
  seen : ∀ aid ∈ st.aids, aid.normalizedValue ∈ st.seenAidValues.keys
  distinct : st.aids.Pairwise (fun a b => a.normalizedValue ≠ b.normalizedValue)

theorem ConfigAids.sorted
    {st : ConfigState U} (h : ConfigAids ranges st) :
    ConfigAids ranges st.sorted := by
  have hperm : st.sorted.aids.Perm st.aids := st.aids.perm_insertionSort _
  refine ⟨?_, ?_, ?_⟩
  · intro aid haid
    exact h.inRange aid (hperm.mem_iff.mp haid)
  · intro aid haid
    exact h.seen aid (hperm.mem_iff.mp haid)
  · exact (hperm.pairwise_iff (fun hab => hab.symm)).mpr h.distinct

theorem ConfigAids.step
    {e : Str × ConfigSection} {st st' : ConfigState U} (h : ConfigAids ranges st)
    (hstep : parseSection ranges e.1 st e.2 = .ok st') :
    ConfigAids ranges st' := by
  obtain ⟨st₁, hsection, rfl⟩ := parseSection_eq_ok.mp hstep
  refine ConfigAids.sorted ?_
  rcases handleSection_eq_ok.mp hsection with
    ⟨value, aid, -, haid, -, hfresh, rfl⟩ | ⟨entry, -, -, -, rfl⟩
  · obtain ⟨-, -, hverify⟩ := configAid_eq_ok haid
    refine ⟨?_, ?_, ?_⟩
    · intro a ha
      rcases List.mem_append.mp ha with ha | ha
      · exact h.inRange a ha
      · rw [List.mem_singleton.mp ha]
        exact inOwnRange_of_verify hverify
    · intro a ha
      rw [OrderedDict.mem_keys_set]
      rcases List.mem_append.mp ha with ha | ha
      · exact Or.inr (h.seen a ha)
      · rw [List.mem_singleton.mp ha]
        exact Or.inl rfl
    · rw [List.pairwise_append]
      refine ⟨h.distinct, List.pairwise_singleton _ _, ?_⟩
      intro a ha b hb heq
      rw [List.mem_singleton.mp hb] at heq
      rw [← heq] at hfresh
      exact hfresh (h.seen a ha)
  · exact ⟨h.inRange, h.seen, h.distinct⟩

theorem configAids_parseConfigs
    {configFiles : List (Str × List ConfigSection)} {st : ConfigState U}
    (h : parseConfigs ranges configFiles = .ok st) :
    ConfigAids ranges st := by
  rw [parseConfigs_eq] at h
  refine Loop.forLoop_ok (fun _ st => ConfigAids ranges st) h ?_ ?_
  · exact ⟨by simp [ConfigState.initial], by simp [ConfigState.initial], List.Pairwise.nil⟩
  · intro done e rest st st' _ hdone hstep
    exact hdone.step hstep

end Config

section Collisions

variable {U : Unicode}

/-- No two ids have the same number, other than those whose collision is allowed. -/
def UidsDistinct (aids : List (AID U)) : Prop :=
  aids.Pairwise (fun a b => a.identifier ∉ collisionOk → b.identifier ∉ collisionOk →
    a.uid ≠ b.uid)

/-- A number is spelled in one way in the header. -/
def SpelledOnce (U : Unicode) (lines : List Str) : Prop :=
  ∀ d ∈ defines lines, ∀ d' ∈ defines lines, readInt U 0 d.2 = readInt U 0 d'.2 → d.2 = d'.2

theorem not_collisionOk_of_defines
    {lines : List Str} {d : Str × Str} (h : d ∈ defines lines) :
    d.1 ∉ collisionOk := by
  obtain ⟨line, -, hline⟩ := List.mem_filterMap.mp h
  unfold handledDefine at hline
  split at hline
  · rename_i identifier value _
    cases hskip : skipAid identifier with
    | true => simp [hskip] at hline
    | false =>
        split_ifs at hline
        cases hline
        exact not_collisionOk_of_not_skipped hskip
  · cases hline

/-- The ids of the header. -/
theorem uidsDistinct_header
    {lines : List Str} {aids : List (AID U)}
    (haids : aids.map (fun aid => (aid.identifier, aid.value)) = defines lines)
    (hnodup : ((defines lines).map Prod.snd).Nodup) :
    UidsDistinct aids ↔ SpelledOnce U lines := by
  have hmem : ∀ aid ∈ aids, (aid.identifier, aid.value) ∈ defines lines := by
    intro aid haid
    rw [← haids]
    exact List.mem_map_of_mem haid
  have hvalues : aids.Pairwise (fun a b => a.value ≠ b.value) := by
    rw [← haids, List.map_map] at hnodup
    exact List.pairwise_map.mp hnodup
  constructor
  · intro hdistinct d hd d' hd' heq
    rw [← haids] at hd hd'
    obtain ⟨a, ha, rfl⟩ := List.mem_map.mp hd
    obtain ⟨b, hb, rfl⟩ := List.mem_map.mp hd'
    rw [a.readInt_value, b.readInt_value] at heq
    by_contra hne
    have hsymm : aids.Pairwise (fun a b => a.uid ≠ b.uid) := by
      refine hdistinct.imp_of_mem ?_
      intro a b ha hb hab
      exact hab (not_collisionOk_of_defines (hmem a ha)) (not_collisionOk_of_defines (hmem b hb))
    have hab : a ≠ b := by
      rintro rfl
      exact hne rfl
    have : Std.Symm (fun a b : AID U => a.uid ≠ b.uid) := ⟨fun a b h => h.symm⟩
    exact hsymm.forall ha hb hab (Option.some.inj heq)
  · intro hspelled
    refine hvalues.imp_of_mem ?_
    intro a b ha hb hab _ _ heq
    refine hab (hspelled _ (hmem a ha) _ (hmem b hb) ?_)
    rw [a.readInt_value, b.readInt_value, heq]

/-- No two ids have one number iff the header spells every number in one way; the ids of the
header are outside of the reserved ranges and those of the config.fs files in their own. -/
theorem aids_distinct_iff
    {aidHeader : Str} {lines : List Str} {configFiles : List (Str × List ConfigSection)}
    {header : AIDHeaderParser U} {config : ConfigState U}
    (hheader : parseHeader aidHeader lines = .ok header)
    (hconfig : parseConfigs header.ranges configFiles = .ok config) :
    (UidsDistinct (header.aids ++ config.aids) ∧
      (∀ aid ∈ header.aids, ∀ e ∈ header.ranges.entries, inAnyRange aid.uid e.2 = false) ∧
      ∀ aid ∈ config.aids, InOwnRange header.ranges aid) ↔
    SpelledOnce U lines := by
  obtain ⟨haids, hnodup, hreserved⟩ := parseHeader_eq_ok hheader
  have hconf := configAids_parseConfigs hconfig
  have hconfDistinct : UidsDistinct config.aids := by
    refine hconf.distinct.imp ?_
    intro a b hab _ _ heq
    rw [a.normalizedValue_eq, b.normalizedValue_eq, heq] at hab
    exact hab rfl
  have hacross : ∀ a ∈ header.aids, ∀ b ∈ config.aids, a.uid ≠ b.uid := by
    intro a ha b hb heq
    obtain ⟨e, he, -, -, hrange⟩ := hconf.inRange b hb
    rw [← heq, hreserved a ha e he] at hrange
    cases hrange
  have hsplit : UidsDistinct (header.aids ++ config.aids) ↔ UidsDistinct header.aids := by
    unfold UidsDistinct at hconfDistinct ⊢
    rw [List.pairwise_append]
    constructor
    · intro h
      exact h.1
    · intro h
      exact ⟨h, hconfDistinct, fun a ha b hb _ _ => hacross a ha b hb⟩
  rw [hsplit, uidsDistinct_header haids hnodup]
  constructor
  · intro h
    exact h.1
  · intro h
    exact ⟨h, hreserved, hconf.inRange⟩

/-- A run of the two parsers and of the check for collisions, with the ids it ends in. -/
def collectAids (U : Unicode) (lines : List Str)
    (configFiles : List (Str × List ConfigSection)) : Except Failure (List (Str × Int)) := do
  let header ← parseHeader (U := U) "header".toList lines
  let config ← parseConfigs (U := U) header.ranges configFiles
  let _ ← collect .empty header.aids config.aids
  .ok ((header.aids ++ config.aids).map (fun aid => (aid.identifier, aid.uid)))

theorem collectAids_eq_ok
    {lines : List Str} {configFiles : List (Str × List ConfigSection)} {ids : List (Str × Int)}
    (h : collectAids U lines configFiles = .ok ids) :
    ∃ (header : AIDHeaderParser U) (config : ConfigState U) (gen : FSConfigGen U),
      parseHeader "header".toList lines = .ok header ∧
      parseConfigs header.ranges configFiles = .ok config ∧
      collect .empty header.aids config.aids = .ok gen ∧
      ids = (header.aids ++ config.aids).map (fun aid => (aid.identifier, aid.uid)) := by
  obtain ⟨header, hheader, h⟩ := Loop.bind_eq_ok.mp h
  obtain ⟨config, hconfig, h⟩ := Loop.bind_eq_ok.mp h
  obtain ⟨gen, hgen, h⟩ := Loop.bind_eq_ok.mp h
  cases h
  exact ⟨header, config, gen, hheader, hconfig, hgen, rfl⟩

/-- A header with a range, and a config.fs file with an id in it. -/
theorem aids_distinct_vendor :
    ∃ (header : AIDHeaderParser Unicode.ascii) (config : ConfigState Unicode.ascii),
      parseHeader "header".toList
        ["#define AID_ROOT 0\n".toList, "#define AID_OEM_RESERVED_START 2900\n".toList,
          "#define AID_OEM_RESERVED_END 2999\n".toList] = .ok header ∧
      UidsDistinct (header.aids ++ config.aids) := by
  have hrun : collectAids Unicode.ascii
      ["#define AID_ROOT 0\n".toList, "#define AID_OEM_RESERVED_START 2900\n".toList,
        "#define AID_OEM_RESERVED_END 2999\n".toList]
      [("f".toList, [⟨"AID_VENDOR_FOO".toList, [("value".toList, "0xb60".toList)]⟩])] =
      .ok [("AID_ROOT".toList, 0), ("AID_VENDOR_FOO".toList, 2912)] := by
    decide +kernel
  obtain ⟨header, config, gen, hheader, hconfig, -⟩ := collectAids_eq_ok hrun
  refine ⟨header, config, hheader, ((aids_distinct_iff hheader hconfig).mpr ?_).1⟩
  unfold SpelledOnce
  decide

/-- Two ids of the header with one number, spelled as a decimal and as a hexadecimal. -/
theorem aids_collide_hexadecimal :
    ∃ (header : AIDHeaderParser Unicode.ascii) (config : ConfigState Unicode.ascii)
      (gen : FSConfigGen Unicode.ascii),
      parseHeader "header".toList
        ["#define AID_FOO 100\n".toList, "#define AID_BAR 0x64\n".toList] = .ok header ∧
      parseConfigs header.ranges [] = .ok config ∧
      collect .empty header.aids config.aids = .ok gen ∧
      ¬UidsDistinct (header.aids ++ config.aids) := by
  have hrun : collectAids Unicode.ascii
      ["#define AID_FOO 100\n".toList, "#define AID_BAR 0x64\n".toList] [] =
      .ok [("AID_FOO".toList, 100), ("AID_BAR".toList, 100)] := by
    decide +kernel
  obtain ⟨header, config, gen, hheader, hconfig, hgen, hids⟩ := collectAids_eq_ok hrun
  refine ⟨header, config, gen, hheader, hconfig, hgen, ?_⟩
  intro hdistinct
  have hpairs : ((header.aids ++ config.aids).map (fun aid => (aid.identifier, aid.uid))).Pairwise
      (fun a b => a.1 ∉ collisionOk → b.1 ∉ collisionOk → a.2 ≠ b.2) :=
    List.pairwise_map.mpr hdistinct
  rw [← hids] at hpairs
  revert hpairs
  decide

end Collisions

end FsConfig
end AndroidBuild
