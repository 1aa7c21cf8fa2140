import AndroidBuild.FsConfig.Generate
import AndroidBuild.Lib.KeySort

/-!
# The order of the files

The device takes the first entry that matches a path.  `_file_key` puts the
specified paths in alphabetical order before the prefix matches, and these with
the longest prefix first.
-/

namespace AndroidBuild
namespace FsConfig

open Text

section Rank

/-- The place of a key in the order: specified paths, then prefixes by length. -/
def StringWrapper.rank (key : StringWrapper) : Str ⊕ₗ ℕᵒᵈ :=
  if key.isPrefix then Sum.inrₗ (OrderDual.toDual key.path.length) else Sum.inlₗ key.path

/-- `__lt__` compares the places. -/
theorem StringWrapper.lt_iff
    (a b : StringWrapper) :
    a.lt b = true ↔ a.rank < b.rank := by
  obtain ⟨aPrefix, aPath⟩ := a
  obtain ⟨bPrefix, bPath⟩ := b
  unfold StringWrapper.lt StringWrapper.rank
  cases aPrefix with
  | false =>
      cases bPrefix with
      | false => simp
      | true => simp
  | true =>
      cases bPrefix with
      | false => simp
      | true => simp

/-- `__lt__` is a strict weak order. -/
theorem StringWrapper.isStrictWeakOrder :
    IsStrictWeakOrder StringWrapper (fun a b => a.lt b = true) where
  irrefl a := by
    rw [StringWrapper.lt_iff]
    exact lt_irrefl _
  trans a b c := by
    rw [StringWrapper.lt_iff, StringWrapper.lt_iff, StringWrapper.lt_iff]
    exact lt_trans
  incomp_trans a b c := by
    simp only [StringWrapper.lt_iff, not_lt]
    rintro ⟨hba, hab⟩ ⟨hcb, hbc⟩
    exact ⟨hcb.trans hba, hab.trans hbc⟩

def fileRank (entry : FSConfig) : Str ⊕ₗ ℕᵒᵈ :=
  (fileKey entry).rank

theorem fileLe_iff
    (a b : FSConfig) :
    fileLe a b = true ↔ fileRank a ≤ fileRank b := by
  unfold fileLe fileRank
  rw [Bool.not_eq_true', Bool.eq_false_iff, ne_eq, StringWrapper.lt_iff, not_lt]

theorem sortFiles_eq
    (files : List FSConfig) :
    sortFiles files = KeySort.sortByKey fileRank files := by
  unfold sortFiles KeySort.sortByKey
  simp only [fileLe_iff]

/-- In order. -/
def FilesSorted (files : List FSConfig) : Prop :=
  files.Pairwise (fun a b => fileRank a ≤ fileRank b)

theorem perm_sortFiles
    (files : List FSConfig) :
    (sortFiles files).Perm files := by
  rw [sortFiles_eq]
  exact KeySort.perm_sortByKey files

theorem filesSorted_sortFiles
    (files : List FSConfig) :
    FilesSorted (sortFiles files) := by
  rw [sortFiles_eq]
  exact KeySort.pairwise_sortByKey files

end Rank

section Lookup

/-- The entry matches the path: it is equal to it, or its prefix is the start of it. -/
def matchesPath (p : Str) (entry : FSConfig) : Bool :=
  if (fileKey entry).isPrefix then (fileKey entry).path.isPrefixOf p else (fileKey entry).path = p

def lookupFile (files : List FSConfig) (p : Str) : Option FSConfig :=
  files.find? (matchesPath p)

/-- The entry equal to the path. -/
def EqualTo (p : Str) (entry : FSConfig) : Prop :=
  entry.path = p

/-- The entry that specifies the path and does not end in `*`. -/
def Specifies (p : Str) (entry : FSConfig) : Prop :=
  entry.path = p ∧ (fileKey entry).isPrefix = false

/-- A matching prefix entry, with no longer prefix among the matching ones. -/
def LongestPrefix (files : List FSConfig) (p : Str) (entry : FSConfig) : Prop :=
  (fileKey entry).isPrefix = true ∧ matchesPath p entry = true ∧
    ∀ e ∈ files, (fileKey e).isPrefix = true → matchesPath p e = true →
      (fileKey e).path.length ≤ (fileKey entry).path.length

/-- The first match is the `best` entry if there is one, and otherwise the entry with the
longest prefix. -/
def Finds (best : FSConfig → Prop) (files : List FSConfig) (p : Str) : Prop :=
  match lookupFile files p with
  | none => ∀ e ∈ files, matchesPath p e = false ∧ ¬best e
  | some entry =>
      ((∃ e ∈ files, best e) → best entry) ∧
        ((∀ e ∈ files, ¬best e) → LongestPrefix files p entry)

variable {files : List FSConfig} {p : Str} {e : FSConfig}

theorem fileKey_path
    (h : (fileKey e).isPrefix = false) :
    (fileKey e).path = e.path := by
  unfold fileKey StringWrapper.new at h ⊢
  split_ifs at h ⊢
  rfl

theorem matchesPath_of_specified
    (h : (fileKey e).isPrefix = false) :
    matchesPath p e = true ↔ e.path = p := by
  unfold matchesPath
  rw [if_neg (by simp [h]), decide_eq_true_eq, fileKey_path h]

theorem fileRank_of_specified
    (h : (fileKey e).isPrefix = false) :
    fileRank e = Sum.inlₗ e.path := by
  unfold fileRank StringWrapper.rank
  rw [if_neg (by simp [h]), fileKey_path h]

theorem fileRank_of_isPrefix
    (h : (fileKey e).isPrefix = true) :
    fileRank e = Sum.inrₗ (OrderDual.toDual (fileKey e).path.length) := by
  unfold fileRank StringWrapper.rank
  rw [if_pos h]

/-- The first match in a sorted list. -/
theorem FilesSorted.finds
    (h : FilesSorted files) (p : Str) :
    Finds (Specifies p) files p := by
  unfold Finds
  cases hfind : lookupFile files p with
  | none =>
      have hnone : ∀ e ∈ files, matchesPath p e = false := by
        simpa using List.find?_eq_none.mp hfind
      intro e he
      refine ⟨hnone e he, ?_⟩
      rintro ⟨hpath, hspec⟩
      have hmatch := (matchesPath_of_specified hspec).mpr hpath
      rw [hnone e he] at hmatch
      cases hmatch
  | some entry =>
      obtain ⟨hentry, before, after, rfl, hbefore⟩ := List.find?_eq_some_iff_append.mp hfind
      have hle : ∀ e ∈ before ++ entry :: after, matchesPath p e = true →
          fileRank entry ≤ fileRank e := by
        intro e he hmatch
        rcases List.mem_append.mp he with he | he
        · simpa [hmatch] using hbefore e he
        · rcases List.mem_cons.mp he with rfl | he
          · exact le_rfl
          · exact (List.pairwise_cons.mp (List.pairwise_append.mp h).2.1).1 e he
      constructor
      · rintro ⟨e, he, hpath, hspec⟩
        have hrank := hle e he ((matchesPath_of_specified hspec).mpr hpath)
        rw [fileRank_of_specified hspec] at hrank
        have hspec' : (fileKey entry).isPrefix = false := by
          by_contra hne
          rw [fileRank_of_isPrefix (by simpa using hne)] at hrank
          exact Sum.Lex.not_inr_le_inl hrank
        exact ⟨(matchesPath_of_specified hspec').mp hentry, hspec'⟩
      · intro hnone
        have hpre : (fileKey entry).isPrefix = true := by
          by_contra hne
          have hspec : (fileKey entry).isPrefix = false := by simpa using hne
          exact hnone entry (by simp) ⟨(matchesPath_of_specified hspec).mp hentry, hspec⟩
        refine ⟨hpre, hentry, ?_⟩
        intro e he hepre hmatch
        have hrank := hle e he hmatch
        rw [fileRank_of_isPrefix hpre, fileRank_of_isPrefix hepre] at hrank
        exact OrderDual.toDual_le_toDual.mp (Sum.Lex.inr_le_inr_iff.mp hrank)

end Lookup

section Parsed

variable {U : Unicode}

def isPathSection (e : Str × ConfigSection) : Bool :=
  (e.2.get? "value".toList).isNone

theorem isPathSection_of_value
    {e : Str × ConfigSection} {value : Str} (h : e.2.get? "value".toList = some value) :
    isPathSection e = false := by
  unfold isPathSection
  rw [h, Option.isNone_some]

theorem isPathSection_iff
    {e : Str × ConfigSection} :
    isPathSection e = true ↔ e.2.get? "value".toList = none :=
  Option.isNone_iff_eq_none

def fileEntry (U : Unicode) (e : Str × ConfigSection) : Option FSConfig :=
  if isPathSection e ∧ ¬isDir e.2.name then sectionEntry U e else none

def pathNames (sections : List (Str × ConfigSection)) : List Str :=
  (sections.filter isPathSection).map (fun e => e.2.name)

/-- The files of the state are the file entries of the sections read, in order. -/
structure FilesOf (U : Unicode) (sections : List (Str × ConfigSection)) (st : ConfigState U) :
    Prop where
  perm : st.files.Perm (sections.filterMap (fileEntry U))
  sorted : FilesSorted st.files
  seen : ∀ path, path ∈ st.seenPaths.keys ↔ path ∈ pathNames sections
  nodup : (pathNames sections).Nodup

variable {ranges : OrderedDict Str (List (Int × Int))}

theorem pathNames_append
    (sections : List (Str × ConfigSection)) (e : Str × ConfigSection) :
    pathNames (sections ++ [e]) =
      pathNames sections ++ if isPathSection e then [e.2.name] else [] := by
  unfold pathNames
  rw [List.filter_append, List.map_append]
  split_ifs with h
  all_goals simp [h]

theorem FilesOf.step
    {sections : List (Str × ConfigSection)} {e : Str × ConfigSection} {st st' : ConfigState U}
    (h : FilesOf U sections st) (hstep : parseSection ranges e.1 st e.2 = .ok st') :
    FilesOf U (sections ++ [e]) st' := by
  obtain ⟨st₁, hsection, rfl⟩ := parseSection_eq_ok.mp hstep
  rcases handleSection_eq_ok.mp hsection with
    ⟨value, aid, hvalue, -, -, -, rfl⟩ | ⟨entry, hvalue, hentry, hpath, rfl⟩
  · have hnone : fileEntry U e = none := by
      unfold fileEntry
      rw [if_neg (by simp [isPathSection_of_value hvalue])]
    refine ⟨?_, filesSorted_sortFiles _, ?_, ?_⟩
    · rw [List.filterMap_append, List.filterMap_cons_none hnone, List.filterMap_nil,
        List.append_nil]
      exact (perm_sortFiles _).trans h.perm
    · rw [pathNames_append, if_neg (by simp [isPathSection_of_value hvalue]), List.append_nil]
      exact h.seen
    · rw [pathNames_append, if_neg (by simp [isPathSection_of_value hvalue]), List.append_nil]
      exact h.nodup
  · have hsec := isPathSection_iff.mpr hvalue
    refine ⟨?_, filesSorted_sortFiles _, ?_, ?_⟩
    · have hfile : [e].filterMap (fileEntry U) = if isDir e.2.name then [] else [entry] := by
        unfold fileEntry
        split_ifs with hdir
        all_goals simp [hsec, hdir, hentry]
      rw [List.filterMap_append, hfile]
      exact (perm_sortFiles _).trans (h.perm.append_right _)
    · intro path
      rw [pathNames_append, if_pos hsec, List.mem_append, List.mem_singleton, ← h.seen path]
      change path ∈ (st.seenPaths.set e.2.name e.1).keys ↔ _
      rw [OrderedDict.mem_keys_set, or_comm]
    · rw [pathNames_append, if_pos hsec]
      refine List.Nodup.append h.nodup (by simp) ?_
      rw [List.disjoint_singleton, ← h.seen]
      exact hpath

theorem filesOf_initial :
    FilesOf U [] (ConfigState.initial U) :=
  ⟨List.Perm.refl _, List.Pairwise.nil, by simp [ConfigState.initial, pathNames],
    by simp [pathNames]⟩

theorem filesOf_parseConfigs
    {configFiles : List (Str × List ConfigSection)} {st : ConfigState U}
    (h : parseConfigs ranges configFiles = .ok st) :
    FilesOf U (allSections configFiles) st := by
  rw [parseConfigs_eq] at h
  refine Loop.forLoop_ok (fun done st => FilesOf U done st) h filesOf_initial ?_
  intro done e rest st st' _ hdone hstep
  exact hdone.step hstep

/-- Every section read as a path has an entry. -/
theorem sectionEntry_of_parseConfigs
    {configFiles : List (Str × List ConfigSection)} {st : ConfigState U}
    (h : parseConfigs ranges configFiles = .ok st) :
    ∀ e ∈ allSections configFiles, isPathSection e = true →
      ∃ entry, sectionEntry U e = some entry := by
  rw [parseConfigs_eq] at h
  refine Loop.forLoop_ok (fun done _ => ∀ e ∈ done, isPathSection e = true →
    ∃ entry, sectionEntry U e = some entry) h (by simp) ?_
  intro done e rest st st' _ hdone hstep e' he'
  rcases List.mem_append.mp he' with he' | he'
  · exact hdone e' he'
  · rw [List.mem_singleton.mp he']
    intro hvalue
    obtain ⟨st₁, hsection, -⟩ := parseSection_eq_ok.mp hstep
    rcases handleSection_eq_ok.mp hsection with
      ⟨value, aid, hvalue', -⟩ | ⟨entry, -, hentry, -⟩
    · rw [isPathSection_of_value hvalue'] at hvalue
      cases hvalue
    · exact ⟨entry, hentry⟩

/-- Path sections with distinct paths and entries are accepted. -/
theorem parseConfigs_total
    {configFiles : List (Str × List ConfigSection)}
    (hpath : ∀ e ∈ allSections configFiles, isPathSection e = true)
    (hentry : ∀ e ∈ allSections configFiles, ∃ entry, sectionEntry U e = some entry)
    (hnodup : (pathNames (allSections configFiles)).Nodup) :
    ∃ st : ConfigState U, parseConfigs ranges configFiles = .ok st := by
  rw [parseConfigs_eq]
  have hstep : ∀ done (e : Str × ConfigSection) rest (st : ConfigState U),
      allSections configFiles = done ++ e :: rest → FilesOf U done st →
      ∃ st', parseSection ranges e.1 st e.2 = .ok st' ∧ FilesOf U (done ++ [e]) st' := by
    intro done e rest st heq hdone
    have hmem : e ∈ allSections configFiles := by simp [heq]
    obtain ⟨entry, he⟩ := hentry e hmem
    have hfresh : e.2.name ∉ st.seenPaths.keys := by
      rw [hdone.seen]
      intro hin
      have hsplit : (pathNames (done ++ [e])).Nodup := by
        refine hnodup.sublist (List.Sublist.map _ (List.Sublist.filter _ ?_))
        rw [heq]
        exact List.Sublist.append_left (by simp) _
      rw [pathNames_append, if_pos (hpath e hmem)] at hsplit
      exact List.disjoint_of_nodup_append hsplit hin (by simp)
    obtain ⟨st₁, hsection⟩ : ∃ st₁, handleSection ranges e.1 e.2 st = .ok st₁ :=
      ⟨_, handleSection_eq_ok.mpr
        (Or.inr ⟨entry, isPathSection_iff.mp (hpath e hmem), he, hfresh, rfl⟩)⟩
    have hparse := parseSection_eq_ok.mpr ⟨st₁, hsection, rfl⟩
    exact ⟨_, hparse, hdone.step hparse⟩
  obtain ⟨st, hst, -⟩ := Loop.forLoop_total _ (fun done st => FilesOf U done st) _ _
    filesOf_initial hstep
  exact ⟨st, hst⟩

end Parsed

section Ties

/-- Entries that may stand for each other: the same one, or two prefixes of one length. -/
def Tied (a b : FSConfig) : Prop :=
  a = b ∨ ((fileKey a).isPrefix = true ∧ (fileKey b).isPrefix = true ∧
    (fileKey a).path.length = (fileKey b).path.length)

variable {U : Unicode} {ranges : OrderedDict Str (List (Int × Int))}

theorem tied_of_fileRank_eq
    {files : List FSConfig} (hnodup : (files.map FSConfig.path).Nodup) {a b : FSConfig}
    (ha : a ∈ files) (hb : b ∈ files) (h : fileRank a = fileRank b) :
    Tied a b := by
  cases hap : (fileKey a).isPrefix with
  | true =>
      rw [fileRank_of_isPrefix hap] at h
      cases hbp : (fileKey b).isPrefix with
      | true =>
          rw [fileRank_of_isPrefix hbp] at h
          exact Or.inr ⟨hap, hbp, by simpa using h⟩
      | false =>
          rw [fileRank_of_specified hbp] at h
          cases h
  | false =>
      rw [fileRank_of_specified hap] at h
      cases hbp : (fileKey b).isPrefix with
      | true =>
          rw [fileRank_of_isPrefix hbp] at h
          cases h
      | false =>
          rw [fileRank_of_specified hbp] at h
          have hpath : a.path = b.path := by simpa using h
          exact Or.inl (List.inj_on_of_nodup_map hnodup ha hb hpath)

/-- The file entries have distinct paths. -/
theorem FilesOf.nodup_paths
    {sections : List (Str × ConfigSection)} {st : ConfigState U} (h : FilesOf U sections st) :
    (st.files.map FSConfig.path).Nodup := by
  rw [(h.perm.map _).nodup_iff]
  refine h.nodup.sublist ?_
  unfold pathNames
  generalize sections = sections'
  induction sections' with
  | nil => simp
  | cons e sections' ih =>
      cases hfile : fileEntry U e with
      | none =>
          rw [List.filterMap_cons_none hfile]
          refine ih.trans (List.Sublist.map _ (List.Sublist.filter _ ?_))
          exact List.sublist_cons_self e sections'
      | some entry =>
          have hfile' := hfile
          unfold fileEntry at hfile'
          split_ifs at hfile' with hcond
          rw [List.filterMap_cons_some hfile, List.filter_cons_of_pos (by simp [hcond.1]),
            List.map_cons, List.map_cons, (sectionEntry_path hfile').1]
          exact ih.cons_cons _

theorem FilesOf.tied
    {sections sections' : List (Str × ConfigSection)} {st st' : ConfigState U}
    (h : FilesOf U sections st) (h' : FilesOf U sections' st') (hperm : sections'.Perm sections) :
    List.Forall₂ Tied st.files st'.files := by
  have hfiles : st.files.Perm st'.files :=
    h.perm.trans ((hperm.filterMap _).symm.trans h'.perm.symm)
  have hkeys := KeySort.map_key_eq_of_perm hfiles h.sorted h'.sorted
  rw [← List.forall₂_eq_eq_eq, List.forall₂_map_left_iff, List.forall₂_map_right_iff] at hkeys
  rw [List.forall₂_iff_get] at hkeys ⊢
  refine ⟨hkeys.1, ?_⟩
  intro i hi hi'
  exact tied_of_fileRank_eq h.nodup_paths (List.get_mem _ _)
    (hfiles.mem_iff.mpr (List.get_mem _ _)) (hkeys.2 i hi hi')

end Ties

section Results

variable {U : Unicode} {ranges : OrderedDict Str (List (Int × Int))}

/-- The first match for every path, also among the entries that a run writes, and the order
of the files for every order of the sections. -/
theorem parseConfigs_lookup
    {configFiles : List (Str × List ConfigSection)} {st : ConfigState U}
    (h : parseConfigs ranges configFiles = .ok st)
    (hpath : ∀ e ∈ allSections configFiles, isPathSection e = true) :
    (∀ p, Finds (Specifies p) st.files p) ∧
      (∀ partition allPartitions p,
        Finds (Specifies p)
          (st.files.filter (fun e => emitEntry partition allPartitions e.path)) p) ∧
      IsStrictWeakOrder StringWrapper (fun a b => a.lt b = true) ∧
      (∀ configFiles', (allSections configFiles').Perm (allSections configFiles) →
        ∃ st' : ConfigState U, parseConfigs ranges configFiles' = .ok st' ∧
          List.Forall₂ Tied st.files st'.files) := by
  have hfiles := filesOf_parseConfigs h
  refine ⟨hfiles.sorted.finds, ?_, StringWrapper.isStrictWeakOrder, ?_⟩
  · intro partition allPartitions p
    exact FilesSorted.finds (List.Pairwise.filter _ hfiles.sorted) p
  · intro configFiles' hperm
    have hpath' : ∀ e ∈ allSections configFiles', isPathSection e = true := by
      intro e he
      exact hpath e (hperm.mem_iff.mp he)
    have hentry' : ∀ e ∈ allSections configFiles', ∃ entry, sectionEntry U e = some entry := by
      intro e he
      exact sectionEntry_of_parseConfigs h e (hperm.mem_iff.mp he) (hpath' e he)
    have hnodup' : (pathNames (allSections configFiles')).Nodup :=
      ((hperm.filter _).map _).nodup_iff.mpr hfiles.nodup
    obtain ⟨st', hst'⟩ : ∃ st' : ConfigState U, parseConfigs ranges configFiles' = .ok st' :=
      parseConfigs_total hpath' hentry' hnodup'
    exact ⟨st', hst', hfiles.tied (filesOf_parseConfigs hst') hperm⟩

def pathSection (path : String) : ConfigSection where
  name := path.toList
  options := [("mode".toList, "755".toList), ("user".toList, "root".toList),
    ("group".toList, "root".toList), ("caps".toList, "0".toList)]

/-- The entry of the section, in a file `f`. -/
def pathSectionEntry (path : String) : FSConfig :=
  ⟨"0755".toList, "root".toList, "root".toList, "0".toList, path.toList, "f".toList⟩

theorem parseConfigs_overlapping :
    (parseConfigs (U := Unicode.ascii) .empty
      [("f".toList, [pathSection "a*", pathSection "ac", pathSection "ac*"])]).map
        ConfigState.files =
      .ok [pathSectionEntry "ac", pathSectionEntry "ac*", pathSectionEntry "a*"] := by
  decide +kernel

theorem parseConfigs_lookup_overlapping :
    ∃ st : ConfigState Unicode.ascii,
      parseConfigs .empty
        [("f".toList, [pathSection "a*", pathSection "ac", pathSection "ac*"])] = .ok st ∧
      ∀ p, Finds (Specifies p) st.files p := by
  cases h : parseConfigs (U := Unicode.ascii) .empty
      [("f".toList, [pathSection "a*", pathSection "ac", pathSection "ac*"])] with
  | error failure =>
      have hfiles := parseConfigs_overlapping
      rw [h] at hfiles
      cases hfiles
  | ok st => exact ⟨st, rfl, (parseConfigs_lookup h (by decide)).1⟩

/-- The file `a*` matches the entry `a**` before the entry `a*`, which is equal to it. -/
theorem parseConfigs_lookup_star :
    ∃ st : ConfigState Unicode.ascii,
      parseConfigs .empty [("f".toList, [pathSection "a*", pathSection "a**"])] = .ok st ∧
      ¬Finds (EqualTo "a*".toList) st.files "a*".toList := by
  have hfiles : (parseConfigs (U := Unicode.ascii) .empty
      [("f".toList, [pathSection "a*", pathSection "a**"])]).map ConfigState.files =
      .ok [pathSectionEntry "a**", pathSectionEntry "a*"] := by
    decide +kernel
  cases h : parseConfigs (U := Unicode.ascii) .empty
      [("f".toList, [pathSection "a*", pathSection "a**"])] with
  | error failure =>
      rw [h] at hfiles
      cases hfiles
  | ok st =>
      rw [h] at hfiles
      have hst : st.files = [pathSectionEntry "a**", pathSectionEntry "a*"] :=
        Except.ok.inj hfiles
      refine ⟨st, rfl, ?_⟩
      rw [hst]
      intro hfinds
      have hentry : EqualTo "a*".toList (pathSectionEntry "a**") :=
        hfinds.1 ⟨pathSectionEntry "a*", by simp, rfl⟩
      revert hentry
      unfold EqualTo
      decide

end Results

end FsConfig
end AndroidBuild
