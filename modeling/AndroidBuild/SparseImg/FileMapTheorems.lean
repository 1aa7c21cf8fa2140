import AndroidBuild.SparseImg.FileMapPartition
import Mathlib

/-!
# `file_map` as a partition of `care_map`

Two kinds of lines keep `LoadFileBlockMap` from a partition into non-empty
parts.  A file whose only blocks are holes gets an empty entry, although a file
that is left with nothing because others share its blocks is skipped.  A file
with one of the generated names loses its blocks to the generated entry.
-/

namespace AndroidBuild
namespace SparseImg

open RangeLib SparseImage

section Partition

variable {care : Finset Int} {clobbered : RangeSet} {files : List ListedFile}
variable {out fm : FileMap} {groups : List (List Int)}

/-- The entries are non-empty, disjoint, and together all of `total`. -/
structure IsPartition (total : Finset Int) (fm : FileMap) : Prop where
  nonempty : ∀ name r, fm.get? name = some r → r.elements.Nonempty
  disjoint : ∀ name name' r r', fm.get? name = some r → fm.get? name' = some r' →
    name ≠ name' → Disjoint r.elements r'.elements
  covers : ∀ i, i ∈ total ↔ ∃ name r, fm.get? name = some r ∧ i ∈ r.elements

/-- Every listed block is in the entry of the first file that lists it, and in no other. -/
def FirstListed (care : Finset Int) (files : List ListedFile) (fm : FileMap) : Prop :=
  ∀ before fn R after, files = before ++ (fn, R) :: after → ∀ i, Owns care before R i →
    ∀ name, (∃ r, fm.get? name = some r ∧ i ∈ r.elements) ↔ name = fn

/-- Files without blocks have generated names, and files with generated names own nothing. -/
def NamesFit (care : Finset Int) (clobbered : RangeSet) (files : List ListedFile) : Prop :=
  ∀ before fn R after, files = before ++ (fn, R) :: after →
    (R.elements = ∅ → Generated clobbered (leftover care clobbered files).card fn) ∧
    (Generated clobbered (leftover care clobbered files).card fn → ¬ ∃ i, Owns care before R i)

theorem split_cases
    {α : Type} {l before before' after after' : List α} {x y : α}
    (h : l = before ++ x :: after) (h' : l = before' ++ y :: after') :
    x ∈ before' ∨ y ∈ before ∨ (before = before' ∧ x = y) := by
  rw [h] at h'
  rcases List.append_eq_append_iff.mp h' with ⟨mid, hmid, hrest⟩ | ⟨mid, hmid, hrest⟩
  · cases mid with
    | nil =>
        simp only [List.append_nil, List.nil_append, List.cons.injEq] at hmid hrest
        exact Or.inr (Or.inr ⟨hmid.symm, hrest.1⟩)
    | cons z mid =>
        rw [List.cons_append, List.cons.injEq] at hrest
        exact Or.inl (by rw [hmid, hrest.1]; simp)
  · cases mid with
    | nil =>
        simp only [List.append_nil, List.nil_append, List.cons.injEq] at hmid hrest
        exact Or.inr (Or.inr ⟨hmid, hrest.1.symm⟩)
    | cons z mid =>
        rw [List.cons_append, List.cons.injEq] at hrest
        exact Or.inr (Or.inl (by rw [hmid, hrest.1]; simp))

/-- A block has at most one owner. -/
theorem owns_unique
    {before before' after after' : List ListedFile} {fn fn' : String} {R R' : RangeSet} {i : Int}
    (h : files = before ++ (fn, R) :: after) (h' : files = before' ++ (fn', R') :: after')
    (hi : Owns care before R i) (hi' : Owns care before' R' i) :
    fn = fn' := by
  rcases split_cases h h' with hmem | hmem | ⟨_, heq⟩
  · exact absurd hi.2.1 (hi'.2.2 _ hmem)
  · exact absurd hi'.2.1 (hi.2.2 _ hmem)
  · cases heq
    rfl

theorem exists_owner
    {i : Int} (hcare : i ∈ care) {f : ListedFile} (hf : f ∈ files) (hi : i ∈ f.2.elements) :
    ∃ before fn R after, files = before ++ (fn, R) :: after ∧ Owns care before R i := by
  induction files generalizing f with
  | nil => simp at hf
  | cons g files ih =>
      by_cases hg : i ∈ g.2.elements
      · exact ⟨[], g.1, g.2, files, rfl, hcare, hg, by simp⟩
      · rcases List.mem_cons.mp hf with rfl | hf
        · exact absurd hi hg
        · obtain ⟨before, fn, R, after, hsplit, hown⟩ := ih hf hi
          refine ⟨g :: before, fn, R, after, by rw [hsplit]; rfl, hown.1, hown.2.1, ?_⟩
          exact List.forall_mem_cons.mpr ⟨hg, hown.2.2⟩

theorem split_of_name
    (hnames : (files.map Prod.fst).Nodup) {before before' after after' : List ListedFile}
    {fn : String} {R R' : RangeSet} (h : files = before ++ (fn, R) :: after)
    (h' : files = before' ++ (fn, R') :: after') :
    before = before' ∧ R = R' := by
  have hnot : ∀ {pre post : List ListedFile} {S : RangeSet}, files = pre ++ (fn, S) :: post →
      ∀ g ∈ pre, g.1 ≠ fn := by
    intro pre post S hsplit g hg hname
    rw [hsplit, List.map_append, List.map_cons, List.nodup_append] at hnames
    exact hnames.2.2 g.1 (List.mem_map_of_mem hg) fn (by simp) hname
  rcases split_cases h h' with hmem | hmem | ⟨hbefore, heq⟩
  · exact absurd rfl (hnot h' _ hmem)
  · exact absurd rfl (hnot h _ hmem)
  · cases heq
    exact ⟨hbefore, rfl⟩

theorem Loaded.entry_cases
    (h : Loaded care clobbered files out groups fm) {name : String} {r : RangeSet}
    (hget : fm.get? name = some r) :
    (clobbered.nonempty = true ∧ name = "__COPY" ∧ r = clobbered) ∨
    (∃ k c, groups[k]? = some c ∧ name = nonzeroName k ∧ r.blocks = c) ∨
    (¬ Generated clobbered (leftover care clobbered files).card name ∧ out.get? name = some r) := by
  by_cases hgen : Generated clobbered (leftover care clobbered files).card name
  · rcases hgen with ⟨hne, rfl⟩ | ⟨k, hk, rfl⟩
    · rw [h.copy hne] at hget
      cases hget
      exact Or.inl ⟨hne, rfl, rfl⟩
    · have hlt := (h.count k).mpr hk
      have hgroup : groups[k]? = some groups[k] := List.getElem?_eq_getElem hlt
      obtain ⟨r', hr', _, hblocks⟩ := h.group k _ hgroup
      rw [hr'] at hget
      cases hget
      exact Or.inr (Or.inl ⟨k, _, hgroup, rfl, hblocks⟩)
  · rw [h.other name hgen] at hget
    exact Or.inr (Or.inr ⟨hgen, hget⟩)

theorem Loaded.mem_leftover
    (h : Loaded care clobbered files out groups fm) {k : Nat} {c : List Int}
    (hk : groups[k]? = some c) {i : Int} (hi : i ∈ c) :
    i ∈ care ∧ i ∉ clobbered.elements ∧ ∀ f ∈ files, i ∉ f.2.elements := by
  have hmem : i ∈ groups.flatten := List.mem_flatten.mpr ⟨c, List.mem_of_getElem? hk, hi⟩
  rw [h.grouped i, leftover, Finset.mem_filter] at hmem
  exact ⟨hmem.1, hmem.2⟩

theorem Loaded.exists_group
    (h : Loaded care clobbered files out groups fm) {i : Int}
    (hi : i ∈ leftover care clobbered files) :
    ∃ k r, 512 * k < (leftover care clobbered files).card ∧
      fm.get? (nonzeroName k) = some r ∧ i ∈ r.elements := by
  obtain ⟨c, hc, hic⟩ := List.mem_flatten.mp ((h.grouped i).mpr hi)
  obtain ⟨k, hk, hget⟩ := List.getElem_of_mem hc
  have hgroup : groups[k]? = some c := by rw [List.getElem?_eq_getElem hk, hget]
  obtain ⟨r, hr, _, hblocks⟩ := h.group k c hgroup
  exact ⟨k, r, (h.count k).mp hk, hr, by rw [RangeSet.mem_elements, hblocks]; exact hic⟩

theorem Loaded.groups_disjoint
    (h : Loaded care clobbered files out groups fm) {k k' : Nat} {c c' : List Int}
    (hk : groups[k]? = some c) (hk' : groups[k']? = some c') {i : Int} (hi : i ∈ c) (hi' : i ∈ c') :
    k = k' := by
  have hpair := (List.pairwise_flatten.mp h.sorted).2
  rw [List.pairwise_iff_getElem] at hpair
  obtain ⟨hlt, rfl⟩ := List.getElem?_eq_some_iff.mp hk
  obtain ⟨hlt', rfl⟩ := List.getElem?_eq_some_iff.mp hk'
  by_contra hne
  rcases Nat.lt_or_gt_of_ne hne with hkk | hkk
  · exact lt_irrefl i (hpair k k' hlt hlt' hkk i hi i hi')
  · exact lt_irrefl i (hpair k' k hlt' hlt hkk i hi' i hi)

theorem Loaded.file_entry
    (h : Loaded care clobbered files out groups fm) {name : String} {r : RangeSet}
    (hget : out.get? name = some r) :
    ∃ before R after, files = before ++ (name, R) :: after ∧
      (∀ i, i ∈ r.elements ↔ Owns care before R i) ∧ Disjoint clobbered.elements r.elements ∧
      (R.elements.Nonempty → r.elements.Nonempty) := by
  obtain ⟨remaining, hclaims⟩ := h.claims
  obtain ⟨before, R, after, hsplit, _, hrest⟩ := hclaims.stored name r hget
  exact ⟨before, R, after, hsplit, hrest⟩

theorem Loaded.mem_entry
    (h : Loaded care clobbered files out groups fm) {name : String} {r : RangeSet}
    (hget : fm.get? name = some r) {i : Int} (hi : i ∈ r.elements) :
    (clobbered.nonempty = true ∧ name = "__COPY" ∧ i ∈ clobbered.elements) ∨
    (∃ k, name = nonzeroName k ∧ i ∈ leftover care clobbered files ∧
      ∃ c, groups[k]? = some c ∧ i ∈ c) ∨
    (¬ Generated clobbered (leftover care clobbered files).card name ∧ i ∉ clobbered.elements ∧
      ∃ before R after, files = before ++ (name, R) :: after ∧ Owns care before R i) := by
  rcases h.entry_cases hget with ⟨hne, rfl, rfl⟩ | ⟨k, c, hk, rfl, rfl⟩ | ⟨hgen, hout⟩
  · exact Or.inl ⟨hne, rfl, hi⟩
  · rw [RangeSet.mem_elements] at hi
    refine Or.inr (Or.inl ⟨k, rfl, ?_, _, hk, hi⟩)
    exact Finset.mem_filter.mpr (h.mem_leftover hk hi)
  · obtain ⟨before, R, after, hsplit, hown, hdisjoint, _⟩ := h.file_entry hout
    refine Or.inr (Or.inr ⟨hgen, ?_, before, R, after, hsplit, (hown i).mp hi⟩)
    exact Finset.disjoint_right.mp hdisjoint hi

theorem mem_of_split
    {before after : List ListedFile} {f : ListedFile} (h : files = before ++ f :: after) :
    f ∈ files := by
  rw [h]
  simp

theorem not_owns_of_leftover
    {i : Int} (hi : i ∈ leftover care clobbered files) {before after : List ListedFile}
    {fn : String} {R : RangeSet} (hsplit : files = before ++ (fn, R) :: after) :
    ¬ Owns care before R i := by
  intro hown
  exact (Finset.mem_filter.mp hi).2.2 _ (mem_of_split hsplit) hown.2.1

/-- No block is in two entries, whatever the names of the files are. -/
theorem Loaded.entry_unique
    (h : Loaded care clobbered files out groups fm) {name name' : String} {r r' : RangeSet}
    (hget : fm.get? name = some r) (hget' : fm.get? name' = some r') {i : Int}
    (hi : i ∈ r.elements) (hi' : i ∈ r'.elements) :
    name = name' := by
  rcases h.mem_entry hget hi with ⟨_, hn, hc⟩ | ⟨k, hn, hleft, c, hk, hic⟩ |
      ⟨_, hc, before, R, after, hsplit, hown⟩
  · rcases h.mem_entry hget' hi' with ⟨_, hn', _⟩ | ⟨_, _, hleft', _⟩ | ⟨_, hc', _⟩
    · rw [hn, hn']
    · exact absurd hc (Finset.mem_filter.mp hleft').2.1
    · exact absurd hc hc'
  · rcases h.mem_entry hget' hi' with ⟨_, _, hc'⟩ | ⟨k', hn', _, c', hk', hic'⟩ |
        ⟨_, _, _, _, _, hsplit', hown'⟩
    · exact absurd hc' (Finset.mem_filter.mp hleft).2.1
    · rw [hn, hn', h.groups_disjoint hk hk' hic hic']
    · exact absurd hown' (not_owns_of_leftover hleft hsplit')
  · rcases h.mem_entry hget' hi' with ⟨_, _, hc'⟩ | ⟨_, _, hleft', _⟩ |
        ⟨_, _, _, _, _, hsplit', hown'⟩
    · exact absurd hc' hc
    · exact absurd hown (not_owns_of_leftover hleft' hsplit)
    · exact owns_unique hsplit hsplit' hown hown'

theorem Loaded.owner_stored
    (h : Loaded care clobbered files out groups fm) (hnames : (files.map Prod.fst).Nodup)
    {before after : List ListedFile} {fn : String} {R : RangeSet}
    (hsplit : files = before ++ (fn, R) :: after)
    (hcond : R.elements = ∅ ∨ ∃ i, Owns care before R i) :
    ∃ r, out.get? fn = some r ∧ (∀ i, i ∈ r.elements ↔ Owns care before R i) ∧
      Disjoint clobbered.elements r.elements := by
  obtain ⟨remaining, hclaims⟩ := h.claims
  obtain ⟨r, hr⟩ := hclaims.kept before fn R after hsplit hcond
  obtain ⟨before', R', after', hsplit', hown, hdisjoint, _⟩ := h.file_entry hr
  obtain ⟨rfl, rfl⟩ := split_of_name hnames hsplit hsplit'
  exact ⟨r, hr, hown, hdisjoint⟩

theorem Loaded.partition_of_namesFit
    (h : Loaded care clobbered files out groups fm) (hnames : (files.map Prod.fst).Nodup)
    (hclobbered : Canonical clobbered.data) (hsub : clobbered.elements ⊆ care)
    (hfit : NamesFit care clobbered files) :
    IsPartition care fm ∧ FirstListed care files fm := by
  have howner : ∀ before fn R after, files = before ++ (fn, R) :: after → ∀ i,
      Owns care before R i → ∃ r, fm.get? fn = some r ∧ i ∈ r.elements := by
    intro before fn R after hsplit i hown
    obtain ⟨r, hr, hmem, _⟩ := h.owner_stored hnames hsplit (Or.inr ⟨i, hown⟩)
    have hgen : ¬ Generated clobbered (leftover care clobbered files).card fn :=
      fun hgen => (hfit before fn R after hsplit).2 hgen ⟨i, hown⟩
    exact ⟨r, by rw [h.other fn hgen, hr], (hmem i).mpr hown⟩
  refine ⟨⟨?_, ?_, ?_⟩, ?_⟩
  · intro name r hget
    rcases h.entry_cases hget with ⟨hne, _, rfl⟩ | ⟨k, c, hk, _, hblocks⟩ | ⟨hgen, hout⟩
    · exact (nonempty_iff_elements hclobbered).mp hne
    · obtain ⟨i, hi⟩ := List.exists_mem_of_ne_nil c (h.nonempty c (List.mem_of_getElem? hk))
      exact ⟨i, by rw [RangeSet.mem_elements, hblocks]; exact hi⟩
    · obtain ⟨before, R, after, hsplit, _, _, hne⟩ := h.file_entry hout
      by_cases hR : R.elements = ∅
      · exact absurd ((hfit before name R after hsplit).1 hR) hgen
      · exact hne (Finset.nonempty_iff_ne_empty.mpr hR)
  · intro name name' r r' hget hget' hne
    rw [Finset.disjoint_left]
    intro i hi hi'
    exact hne (h.entry_unique hget hget' hi hi')
  · intro i
    constructor
    · intro hcare
      by_cases hc : i ∈ clobbered.elements
      · have hne := (nonempty_iff_elements hclobbered).mpr ⟨i, hc⟩
        exact ⟨"__COPY", clobbered, h.copy hne, hc⟩
      · by_cases hlisted : ∀ f ∈ files, i ∉ f.2.elements
        · obtain ⟨k, r, _, hget, hi⟩ :=
            h.exists_group (Finset.mem_filter.mpr ⟨hcare, hc, hlisted⟩)
          exact ⟨nonzeroName k, r, hget, hi⟩
        · push Not at hlisted
          obtain ⟨f, hf, hi⟩ := hlisted
          obtain ⟨before, fn, R, after, hsplit, hown⟩ := exists_owner hcare hf hi
          exact ⟨fn, howner before fn R after hsplit i hown⟩
    · rintro ⟨name, r, hget, hi⟩
      rcases h.mem_entry hget hi with ⟨_, _, hc⟩ | ⟨_, _, hleft, _⟩ | ⟨_, _, _, _, _, _, hown⟩
      · exact hsub hc
      · exact (Finset.mem_filter.mp hleft).1
      · exact hown.1
  · intro before fn R after hsplit i hown name
    obtain ⟨r, hr, hi⟩ := howner before fn R after hsplit i hown
    constructor
    · rintro ⟨r', hr', hi'⟩
      exact h.entry_unique hr' hr hi' hi
    · rintro rfl
      exact ⟨r, hr, hi⟩

theorem Loaded.namesFit_of_partition
    (h : Loaded care clobbered files out groups fm) (hnames : (files.map Prod.fst).Nodup)
    (hpart : IsPartition care fm) :
    NamesFit care clobbered files := by
  intro before fn R after hsplit
  refine ⟨?_, ?_⟩
  · intro hempty
    by_contra hgen
    obtain ⟨r, hr, hmem, _⟩ := h.owner_stored hnames hsplit (Or.inl hempty)
    rw [← h.other fn hgen] at hr
    obtain ⟨i, hi⟩ := hpart.nonempty fn r hr
    have hiR := ((hmem i).mp hi).2.1
    rw [hempty] at hiR
    simp at hiR
  · rintro hgen ⟨i, hown⟩
    obtain ⟨r, _, hmem, hdisjoint⟩ := h.owner_stored hnames hsplit (Or.inr ⟨i, hown⟩)
    have hnot : i ∉ clobbered.elements := Finset.disjoint_right.mp hdisjoint ((hmem i).mpr hown)
    obtain ⟨name, r', hget, hi⟩ := (hpart.covers i).mp hown.1
    rcases h.mem_entry hget hi with ⟨_, _, hc⟩ | ⟨_, _, hleft, _⟩ |
        ⟨hgen', _, _, _, _, hsplit', hown'⟩
    · exact hnot hc
    · exact not_owns_of_leftover hleft hsplit hown
    · rw [owns_unique hsplit hsplit' hown hown'] at hgen
      exact hgen' hgen

/-- `LoadFileBlockMap` partitions `care_map`, each block going to the first file that lists
it, exactly if the names and the blocks of the files fit. -/
theorem loadFileBlockMap_partition
    (file : Bytes) (text : Option String) (img : SparseImage) (hinit : init file text = some img)
    (mapText : String) (clobbered : RangeSet) (hclobbered : Canonical clobbered.data)
    (hsub : clobbered.elements ⊆ img.careMap.elements) (allow : Bool) (files : List ListedFile)
    (hfiles : (Text.fileLines mapText).mapM readLine = some files)
    (hnames : (files.map Prod.fst).Nodup) (fm : FileMap)
    (hrun : loadFileBlockMap img mapText clobbered allow = some fm) :
    (IsPartition img.careMap.elements fm ∧
      (allow = true → FirstListed img.careMap.elements files fm)) ↔
    NamesFit img.careMap.elements clobbered files := by
  obtain ⟨files', out, groups, hfiles', hloaded⟩ :=
    loadFileBlockMap_spec (init_careMap hinit) hclobbered hrun
  rw [hfiles] at hfiles'
  cases hfiles'
  constructor
  · rintro ⟨hpart, _⟩
    exact hloaded.namesFit_of_partition hnames hpart
  · intro hfit
    obtain ⟨hpart, hfirst⟩ := hloaded.partition_of_namesFit hnames hclobbered hsub hfit
    exact ⟨hpart, fun _ => hfirst⟩

def superblock : RangeSet :=
  ⟨[0, 1], true, {}⟩

/-- An entry of the map that is loaded for the example image. -/
theorem exists_load
    (f : SparseFile) (mapText name : String) (allow : Bool) (r : RangeSet)
    (h : ((init f.encode none).bind (fun img =>
      (loadFileBlockMap img mapText superblock allow).bind (fun fm => fm.get? name))) = some r) :
    ∃ img fm, init f.encode none = some img ∧ Opened f img ∧
      loadFileBlockMap img mapText superblock allow = some fm ∧ fm.get? name = some r := by
  obtain ⟨img, hinit, h⟩ := Option.bind_eq_some_iff.mp h
  obtain ⟨fm, hload, hget⟩ := Option.bind_eq_some_iff.mp h
  exact ⟨img, fm, hinit, (opened_of_init hinit).1, hload, hget⟩

theorem superblock_subset
    {img : SparseImage} (hopened : Opened exampleFile img) :
    superblock.elements ⊆ img.careMap.elements := by
  intro i hi
  have hi : i ∈ [(0 : Int)] := RangeSet.mem_elements.mp hi
  rw [List.mem_singleton.mp hi, RangeSet.mem_elements, mem_careMap_iff hopened]
  exact ⟨by decide, [1, 2, 3, 4], by decide⟩

/-- The files `a` and `b` which both list block 1. -/
def sharedFiles : List ListedFile :=
  [("/system/a", ⟨[1, 2], true, { textStr := some "1" }⟩),
    ("/system/b", ⟨[1, 2, 5, 6], true, { textStr := some "1 5" }⟩)]

/-- Two files that share a block and a clobbered block, in an image with the blocks 0, 1 and 5. -/
theorem loadFileBlockMap_partition_example :
    ∃ img fm r, init exampleFile.encode none = some img ∧
      loadFileBlockMap img "/system/a 1\n/system/b 1 5\n" superblock true = some fm ∧
      IsPartition img.careMap.elements fm ∧ FirstListed img.careMap.elements sharedFiles fm ∧
      fm.get? "/system/b" = some r ∧ r.data = [5, 6] := by
  obtain ⟨img, fm, hinit, hopened, hload, hget⟩ := exists_load exampleFile
    "/system/a 1\n/system/b 1 5\n" "/system/b" true
    ⟨[5, 6], true, { usesSharedBlocks := some [1, 2, 5, 6] }⟩ (by decide +kernel)
  have hfiles : (Text.fileLines "/system/a 1\n/system/b 1 5\n").mapM readLine =
      some sharedFiles := by decide +kernel
  have hgen : ∀ f ∈ sharedFiles, ∀ n, ¬ Generated superblock n f.1 := by
    rintro f hf n (⟨_, hname⟩ | ⟨i, _, hname⟩)
    · have hnot : ∀ f ∈ sharedFiles, f.1 ≠ "__COPY" := by decide
      exact hnot f hf hname
    · have hnot : ∀ f ∈ sharedFiles, f.1.toList.take 1 ≠ ['_'] := by decide
      refine hnot f hf ?_
      rw [hname]
      simp [nonzeroName]
  have hfit : NamesFit img.careMap.elements superblock sharedFiles := by
    intro before fn R after hsplit
    have hmem := mem_of_split hsplit
    have hsome : ∀ f ∈ sharedFiles, f.2.elements ≠ ∅ := by decide
    exact ⟨fun hempty => absurd hempty (hsome _ hmem), fun h => absurd h (hgen _ hmem _)⟩
  obtain ⟨hpart, hfirst⟩ := (loadFileBlockMap_partition _ _ _ hinit _ _ ⟨by decide, by decide⟩
    (superblock_subset hopened) _ _ hfiles (by decide) _ hload).mpr hfit
  exact ⟨img, fm, _, hinit, hload, hpart, hfirst rfl, hget, rfl⟩

/-- A file that consists of a hole gets an empty entry. -/
theorem loadFileBlockMap_hole :
    ∃ img fm files, init exampleFile.encode none = some img ∧
      superblock.elements ⊆ img.careMap.elements ∧
      (Text.fileLines "/system/a 1\n/system/hole 0\n").mapM readLine = some files ∧
      (files.map Prod.fst).Nodup ∧
      loadFileBlockMap img "/system/a 1\n/system/hole 0\n" superblock false = some fm ∧
      ¬ IsPartition img.careMap.elements fm := by
  obtain ⟨img, fm, hinit, hopened, hload, hget⟩ := exists_load exampleFile
    "/system/a 1\n/system/hole 0\n" "/system/hole" false
    ⟨[], true, { textStr := some "0" }⟩ (by decide +kernel)
  refine ⟨img, fm, [("/system/a", ⟨[1, 2], true, { textStr := some "1" }⟩),
    ("/system/hole", ⟨[], true, { textStr := some "0" }⟩)], hinit, ?_, by decide +kernel,
    by decide, hload, ?_⟩
  · exact superblock_subset hopened
  · intro hpart
    obtain ⟨i, hi⟩ := hpart.nonempty _ _ hget
    exact absurd (RangeSet.mem_elements.mp hi) (List.not_mem_nil)

end Partition

section ZeroBlocks

/-- A block of zero bytes. -/
def AllZero (bytes : Bytes) : Prop :=
  ∀ x ∈ bytes, x = 0

instance (bytes : Bytes) : Decidable (AllZero bytes) :=
  inferInstanceAs (Decidable (∀ x ∈ bytes, x = 0))

theorem nonzeroName_ne_zero
    (i : Nat) :
    nonzeroName i ≠ "__ZERO" := by
  intro h
  have hlist := congrArg (fun s => s.toList.take 3) h
  simp [nonzeroName] at hlist

/-- The left-over blocks are classified by their content exactly if none of them is zero. -/
theorem loadFileBlockMap_zero
    (f : SparseFile) (text : Option String) (img : SparseImage)
    (hinit : init f.encode text = some img) (mapText : String) (clobbered : RangeSet)
    (hclobbered : Canonical clobbered.data) (allow : Bool) (files : List ListedFile)
    (hfiles : (Text.fileLines mapText).mapM readLine = some files) (fm : FileMap)
    (hrun : loadFileBlockMap img mapText clobbered allow = some fm) :
    (∀ i ∈ leftover img.careMap.elements clobbered files,
      ((∃ r, fm.get? "__ZERO" = some r ∧ i ∈ r.elements) ↔ AllZero (blockBytes f.expansion i)) ∧
      (¬ AllZero (blockBytes f.expansion i) →
        ∃! k, ∃ r, fm.get? (nonzeroName k) = some r ∧ i ∈ r.elements)) ↔
    ∀ i ∈ leftover img.careMap.elements clobbered files, ¬ AllZero (blockBytes f.expansion i) := by
  obtain ⟨files', out, groups, hfiles', hloaded⟩ :=
    loadFileBlockMap_spec (init_careMap hinit) hclobbered hrun
  rw [hfiles] at hfiles'
  cases hfiles'
  have hnever : ∀ i ∈ leftover img.careMap.elements clobbered files,
      ¬ ∃ r, fm.get? "__ZERO" = some r ∧ i ∈ r.elements := by
    rintro i hleft ⟨r, hget, hi⟩
    rcases hloaded.mem_entry hget hi with ⟨_, hn, _⟩ | ⟨k, hn, _⟩ | ⟨_, _, _, _, _, hsplit, hown⟩
    · simp at hn
    · exact nonzeroName_ne_zero k hn.symm
    · exact not_owns_of_leftover hleft hsplit hown
  have hone : ∀ i ∈ leftover img.careMap.elements clobbered files,
      ∃! k, ∃ r, fm.get? (nonzeroName k) = some r ∧ i ∈ r.elements := by
    intro i hleft
    obtain ⟨k, r, _, hget, hi⟩ := hloaded.exists_group hleft
    refine ⟨k, ⟨r, hget, hi⟩, ?_⟩
    rintro k' ⟨r', hget', hi'⟩
    exact nonzeroName_inj (hloaded.entry_unique hget' hget hi' hi)
  constructor
  · intro h i hleft hzero
    exact hnever i hleft ((h i hleft).1.mpr hzero)
  · intro h i hleft
    refine ⟨⟨fun hz => absurd hz (hnever i hleft), fun hz => absurd hz (h i hleft)⟩, ?_⟩
    exact fun _ => hone i hleft

theorem loadFileBlockMap_zero_example :
    ∃ img fm, init exampleFile.encode none = some img ∧
      loadFileBlockMap img "/system/a 1\n" superblock false = some fm ∧
      ∃! k, ∃ r, fm.get? (nonzeroName k) = some r ∧ (5 : Int) ∈ r.elements := by
  obtain ⟨img, fm, hinit, hopened, hload, _⟩ := exists_load exampleFile
    "/system/a 1\n" "__COPY" false superblock
    (by decide +kernel)
  refine ⟨img, fm, hinit, hload, ?_⟩
  have hfiles : (Text.fileLines "/system/a 1\n").mapM readLine =
      some [("/system/a", ⟨[1, 2], true, { textStr := some "1" }⟩)] := by decide +kernel
  have hspec := (loadFileBlockMap_zero _ _ _ hinit _ superblock ⟨by decide, by decide⟩ _ _ hfiles
    _ hload).mpr (by
      intro i hi
      obtain ⟨hnonneg, bytes, hbytes⟩ := (mem_careMap_iff hopened i).mp
        (RangeSet.mem_elements.mp (Finset.mem_filter.mp hi).1)
      have hlt : i.toNat < 6 := (List.getElem?_eq_some_iff.mp hbytes).1
      have hexp : exampleFile.expansion = [some [1, 2, 3, 4], some [5, 6, 7, 8], none, none, none,
          some [9, 9, 9, 9]] := by decide
      rw [hexp] at hbytes
      obtain ⟨k, rfl⟩ : ∃ k : Nat, i = k := ⟨i.toNat, by omega⟩
      rw [Int.toNat_natCast] at hlt hbytes
      interval_cases k
      all_goals first | decide +kernel | simp at hbytes)
  have hleft : (5 : Int) ∈ leftover img.careMap.elements superblock
      [("/system/a", ⟨[1, 2], true, { textStr := some "1" }⟩)] := by
    refine Finset.mem_filter.mpr ⟨?_, by decide⟩
    rw [RangeSet.mem_elements, mem_careMap_iff hopened]
    exact ⟨by decide, [9, 9, 9, 9], by decide⟩
  exact (hspec 5 hleft).2 (by decide)

/-- The superblock, a block of a file, a raw zero block and a zero fill chunk. -/
def zeroFile : SparseFile where
  blkSz := 4
  checksum := 0
  chunks := [⟨0, 3, .raw [7, 7, 7, 7, 1, 2, 3, 4, 0, 0, 0, 0]⟩, ⟨0, 1, .fill [0, 0, 0, 0]⟩]
  blkSz_lt := exampleFile.blkSz_lt
  blkSz_mod := exampleFile.blkSz_mod
  chunks_ok := by
    intro c hc
    simp only [List.mem_cons, List.not_mem_nil, or_false] at hc
    rcases hc with rfl | rfl
    all_goals exact ⟨by decide, by decide, by decide, by decide⟩
  totalChunks_lt := by decide
  totalBlks_lt := by decide

/-- Zero blocks, from a raw and from a fill chunk, that are taken for non-zero blocks. -/
theorem loadFileBlockMap_zero_missed :
    ∃ img fm files, init zeroFile.encode none = some img ∧
      (Text.fileLines "/system/a 1\n").mapM readLine = some files ∧
      loadFileBlockMap img "/system/a 1\n" superblock false = some fm ∧
      (∀ i ∈ [(2 : Int), 3], i ∈ leftover img.careMap.elements superblock files ∧
        AllZero (blockBytes zeroFile.expansion i) ∧ fm.get? "__ZERO" = none ∧
        ∃ r, fm.get? "__NONZERO-0" = some r ∧ i ∈ r.elements) := by
  obtain ⟨img, fm, hinit, hopened, hload, hget⟩ := exists_load zeroFile
    "/system/a 1\n" "__NONZERO-0" false ⟨[2, 4], true, {}⟩ (by decide +kernel)
  refine ⟨img, fm, [("/system/a", ⟨[1, 2], true, { textStr := some "1" }⟩)], hinit,
    by decide +kernel, hload, ?_⟩
  have hnone : ((init zeroFile.encode none).bind (fun img =>
      (loadFileBlockMap img "/system/a 1\n" superblock false).bind
        (fun fm => fm.get? "__ZERO"))) = none := by decide +kernel
  rw [hinit, Option.bind_some, hload, Option.bind_some] at hnone
  intro i hi
  simp only [List.mem_cons, List.not_mem_nil, or_false] at hi
  refine ⟨Finset.mem_filter.mpr ⟨?_, ?_⟩, ?_, hnone, ⟨[2, 4], true, {}⟩, hget, ?_⟩
  · rw [RangeSet.mem_elements, mem_careMap_iff hopened]
    rcases hi with rfl | rfl
    all_goals exact ⟨by decide, [0, 0, 0, 0], by decide⟩
  · rcases hi with rfl | rfl <;> decide +kernel
  · rcases hi with rfl | rfl <;> decide +kernel
  · rcases hi with rfl | rfl <;> decide +kernel

end ZeroBlocks

end SparseImg
end AndroidBuild
