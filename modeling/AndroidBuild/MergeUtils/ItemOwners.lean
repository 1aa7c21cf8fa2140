import AndroidBuild.Lib.Glob
import AndroidBuild.Lib.Strip
import AndroidBuild.MergeUtils.ItemLists

/-!
# Which build an item is taken from

The item list of a build holds its fixed items and, for every name, the items of
that name alone, whatever was seen before.  From this every entry is matched by
the items of one build only, and a partition that is read back from the items of
a build is expected from it.
-/

namespace AndroidBuild
namespace MergeUtils

open Text Glob

section Collected

variable {m : CaseMapping} {framework : Bool}

/-- The items that an entry of the directories for images gives. -/
def imageItems (framework : Bool) (name : Str) : List Str :=
  if (splitext (basename name)).1 = "vbmeta".toList then []
  else if (splitext (basename name)).2 ∈ [".img".toList, ".map".toList] then
    if isExpected framework (splitext (basename name)).1 then [name] else []
  else if !framework then [name]
  else []

def expectedItems (m : CaseMapping) (framework : Bool) (partition : Str) : List Str :=
  if isExpected framework partition then partitionItems m partition else []

/-- The items that a name gives. -/
def itemsOf (m : CaseMapping) (framework : Bool) (name : Str) : List Str :=
  if name.getLast? = some '/' then []
  else if m.lower (name.takeWhile (· ≠ '/')) = "meta".toList then []
  else if m.lower (name.takeWhile (· ≠ '/')) ∈ ["images".toList, "prebuilt_images".toList] then
    imageItems framework name
  else expectedItems m framework (m.lower (name.takeWhile (· ≠ '/')))

theorem addImage_eq
    (item_set : Finset Str) (name : Str) :
    addImage framework item_set name = item_set ∪ (imageItems framework name).toFinset := by
  have hnil : item_set ∪ ([] : List Str).toFinset = item_set := Finset.union_empty _
  have hone : item_set ∪ [name].toFinset = insert name item_set := by
    ext x
    simp
  unfold addImage imageItems
  simp only
  split_ifs
  · exact hnil.symm
  · exact hone.symm
  · exact hnil.symm
  · exact hone.symm
  · exact hnil.symm

/-- The loop has collected the items of the names that are done, and the items of the partitions
that have been seen are among them. -/
structure Collected (m : CaseMapping) (framework : Bool) (done : List Str)
    (s : Finset Str × List Str) : Prop where
  mem : ∀ item, item ∈ s.1 ↔
    item ∈ fixedItems framework ∨ ∃ name ∈ done, item ∈ itemsOf m framework name
  seen : ∀ p ∈ s.2, ∃ name ∈ done, itemsOf m framework name = expectedItems m framework p

/-- A name whose items are added. -/
theorem Collected.add
    {done seen : List Str} {s : Finset Str × List Str} (h : Collected m framework done s)
    {name : Str} {items : List Str} (hitems : itemsOf m framework name = items)
    (hseen : ∀ p ∈ seen, p ∈ s.2 ∨ items = expectedItems m framework p) :
    Collected m framework (done ++ [name]) (s.1 ∪ items.toFinset, seen) := by
  constructor
  · intro item
    rw [Finset.mem_union, List.mem_toFinset, h.mem, or_assoc]
    simp only [List.mem_append, List.mem_singleton, or_and_right, exists_or, exists_eq_left,
      hitems]
  · intro p hp
    rcases hseen p hp with hold | hnew
    · obtain ⟨other, hother, heq⟩ := h.seen p hold
      exact ⟨other, List.mem_append_left _ hother, heq⟩
    · exact ⟨name, List.mem_append_right _ (List.mem_singleton_self _), hitems.trans hnew⟩

theorem Collected.skip
    {done : List Str} {s : Finset Str × List Str} (h : Collected m framework done s) {name : Str}
    (hskip : ∀ item ∈ itemsOf m framework name, ∃ other ∈ done, item ∈ itemsOf m framework other) :
    Collected m framework (done ++ [name]) s := by
  constructor
  · intro item
    rw [h.mem]
    simp only [List.mem_append, List.mem_singleton, or_and_right, exists_or, exists_eq_left]
    constructor
    · rintro (hfixed | hdone)
      · exact Or.inl hfixed
      · exact Or.inr (Or.inl hdone)
    · rintro (hfixed | hdone | hname)
      · exact Or.inl hfixed
      · exact Or.inr hdone
      · exact Or.inr (hskip item hname)
  · intro p hp
    obtain ⟨other, hother, heq⟩ := h.seen p hp
    exact ⟨other, List.mem_append_left _ hother, heq⟩

theorem Collected.step
    {done : List Str} {s : Finset Str × List Str} (h : Collected m framework done s)
    (name : Str) :
    Collected m framework (done ++ [name]) (inferStep m framework s name) := by
  unfold inferStep
  by_cases hdir : name.getLast? = some '/'
  · rw [if_pos hdir]
    refine h.skip fun item hitem => ?_
    rw [itemsOf, if_pos hdir] at hitem
    exact absurd hitem List.not_mem_nil
  rw [if_neg hdir]
  simp only
  by_cases hmeta : m.lower (name.takeWhile (· ≠ '/')) = "meta".toList
  · rw [if_pos hmeta]
    refine h.skip fun item hitem => ?_
    rw [itemsOf, if_neg hdir, if_pos hmeta] at hitem
    exact absurd hitem List.not_mem_nil
  rw [if_neg hmeta]
  by_cases himage : m.lower (name.takeWhile (· ≠ '/')) ∈
      ["images".toList, "prebuilt_images".toList]
  · rw [if_pos himage, addImage_eq]
    exact h.add (by rw [itemsOf, if_neg hdir, if_neg hmeta, if_pos himage]) fun p hp => Or.inl hp
  rw [if_neg himage]
  have hitems : itemsOf m framework name =
      expectedItems m framework (m.lower (name.takeWhile (· ≠ '/'))) := by
    rw [itemsOf, if_neg hdir, if_neg hmeta, if_neg himage]
  by_cases hseen : m.lower (name.takeWhile (· ≠ '/')) ∈ s.2
  · rw [if_pos hseen]
    obtain ⟨other, hother, heq⟩ := h.seen _ hseen
    refine h.skip fun item hitem => ⟨other, hother, ?_⟩
    rw [heq, ← hitems]
    exact hitem
  rw [if_neg hseen]
  have hlast : ∀ p ∈ s.2 ++ [m.lower (name.takeWhile (· ≠ '/'))], p ∈ s.2 ∨
      expectedItems m framework (m.lower (name.takeWhile (· ≠ '/'))) =
        expectedItems m framework p := by
    intro p hp
    rcases List.mem_append.mp hp with hp | hp
    · exact Or.inl hp
    · rw [List.mem_singleton.mp hp]
      exact Or.inr rfl
  have hadd := h.add hitems hlast
  by_cases hexp : isExpected framework (m.lower (name.takeWhile (· ≠ '/'))) = true
  · rw [if_pos hexp]
    rw [expectedItems, if_pos hexp] at hadd
    exact hadd
  · rw [if_neg hexp]
    rw [expectedItems, if_neg hexp, List.toFinset_nil, Finset.union_empty] at hadd
    exact hadd

theorem collected_foldl
    (names : List Str) {done : List Str} {s : Finset Str × List Str}
    (h : Collected m framework done s) :
    Collected m framework (done ++ names) (names.foldl (inferStep m framework) s) := by
  induction names generalizing done s with
  | nil => rwa [List.append_nil]
  | cons name names ih =>
      rw [List.foldl_cons, List.append_cons]
      exact ih (h.step name)

theorem mem_inferItemList
    {names : List Str} {item : Str} :
    item ∈ inferItemList m names framework ↔
      item ∈ fixedItems framework ∨ ∃ name ∈ names, item ∈ itemsOf m framework name := by
  have hstart : Collected m framework [] ((fixedItems framework).toFinset, []) :=
    ⟨fun item => by simp, fun p hp => absurd hp List.not_mem_nil⟩
  have hcollected := collected_foldl names hstart
  have hsorted := (HashOrder.sorted (α := Str)).mem_iterate
    (names.foldl (inferStep m framework) ((fixedItems framework).toFinset, [])).1 item
  rw [inferItemList]
  exact hsorted.trans (hcollected.mem item)

end Collected

section Directories

variable {m : CaseMapping}

/-- A top-level directory: upper-case letters and underscores. -/
def IsTopDir (dir : Str) : Prop :=
  dir ≠ [] ∧ ∀ c ∈ dir, isDirChar c = true

instance (dir : Str) : Decidable (IsTopDir dir) :=
  decidable_of_iff (dir ≠ [] ∧ dir.all isDirChar = true) (by rw [IsTopDir, List.all_eq_true])

/-- What is used of the characters of a directory. -/
structure DirCharSpec (c : Char) : Prop where
  ascii : c.toNat < 128
  ascii_lower : c.toLower.toNat < 128
  upper_lower : c.toLower.toUpper = c
  ne_slash : c ≠ '/' ∧ c.toLower ≠ '/'
  not_space : isSpace c = false
  literal : c ≠ '*' ∧ c ≠ '?' ∧ c ≠ '['
  literal_lower : c.toLower ≠ '*' ∧ c.toLower ≠ '?' ∧ c.toLower ≠ '['

theorem isDirChar_spec
    {c : Char} (h : isDirChar c = true) :
    DirCharSpec c := by
  have hall : dirChars.all (fun c => decide (c.toNat < 128 ∧ c.toLower.toNat < 128 ∧
      c.toLower.toUpper = c ∧ (c ≠ '/' ∧ c.toLower ≠ '/') ∧ isSpace c = false ∧
      (c ≠ '*' ∧ c ≠ '?' ∧ c ≠ '[') ∧ c.toLower ≠ '*' ∧ c.toLower ≠ '?' ∧
      c.toLower ≠ '[')) = true := by
    decide
  have hspec := of_decide_eq_true (List.all_eq_true.mp hall c (List.contains_iff_mem.mp h))
  exact ⟨hspec.1, hspec.2.1, hspec.2.2.1, hspec.2.2.2.1, hspec.2.2.2.2.1, hspec.2.2.2.2.2.1,
    hspec.2.2.2.2.2.2⟩

theorem IsTopDir.lower
    {dir : Str} (h : IsTopDir dir) :
    m.lower dir = dir.map Char.toLower :=
  m.lower_ascii dir fun c hc => (isDirChar_spec (h.2 c hc)).ascii

theorem IsTopDir.upper_lower
    {dir : Str} (h : IsTopDir dir) :
    m.upper (m.lower dir) = dir := by
  rw [h.lower, m.upper_ascii, List.map_map]
  · conv_rhs => rw [← List.map_id dir]
    exact List.map_congr_left fun c hc => (isDirChar_spec (h.2 c hc)).upper_lower
  · intro c hc
    obtain ⟨d, hd, rfl⟩ := List.mem_map.mp hc
    exact (isDirChar_spec (h.2 d hd)).ascii_lower

theorem IsTopDir.not_mem_slash
    {dir : Str} (h : IsTopDir dir) :
    '/' ∉ dir :=
  fun hmem => (isDirChar_spec (h.2 _ hmem)).ne_slash.1 rfl

theorem IsTopDir.not_mem_slash_lower
    {dir : Str} (h : IsTopDir dir) :
    '/' ∉ m.lower dir := by
  rw [h.lower]
  intro hmem
  obtain ⟨c, hc, heq⟩ := List.mem_map.mp hmem
  exact (isDirChar_spec (h.2 c hc)).ne_slash.2 heq

theorem IsTopDir.lower_eq_iff
    {dir dir' : Str} (h : IsTopDir dir) (h' : IsTopDir dir') :
    m.lower dir = m.lower dir' ↔ dir = dir' := by
  refine ⟨fun heq => ?_, fun heq => heq ▸ rfl⟩
  rw [← h.upper_lower (m := m), heq, h'.upper_lower]

theorem lower_meta :
    m.lower "META".toList = "meta".toList := by
  rw [IsTopDir.lower (by decide)]
  decide

theorem lower_images :
    m.lower "IMAGES".toList = "images".toList := by
  rw [IsTopDir.lower (by decide)]
  decide

theorem lower_prebuilt_images :
    m.lower "PREBUILT_IMAGES".toList = "prebuilt_images".toList := by
  rw [IsTopDir.lower (by decide)]
  decide

def imageDirs : List Str :=
  ["IMAGES".toList, "PREBUILT_IMAGES".toList]

theorem IsTopDir.lower_eq_meta_iff
    {dir : Str} (h : IsTopDir dir) :
    m.lower dir = "meta".toList ↔ dir = "META".toList := by
  rw [← lower_meta (m := m)]
  exact h.lower_eq_iff (by decide)

theorem IsTopDir.lower_mem_images_iff
    {dir : Str} (h : IsTopDir dir) :
    m.lower dir ∈ ["images".toList, "prebuilt_images".toList] ↔ dir ∈ imageDirs := by
  rw [← lower_images (m := m), ← lower_prebuilt_images (m := m)]
  simp only [imageDirs, List.mem_cons, List.not_mem_nil, or_false]
  rw [h.lower_eq_iff (by decide), h.lower_eq_iff (by decide)]

/-- The first part of a path. -/
theorem takeWhile_slash
    {dir : Str} (h : '/' ∉ dir) (rest : Str) :
    (dir ++ '/' :: rest).takeWhile (· ≠ '/') = dir := by
  rw [List.takeWhile_append_of_pos fun c hc => by simpa using ne_of_mem_of_not_mem hc h,
    List.takeWhile_cons_of_neg (by simp), List.append_nil]

theorem takeWhile_no_slash
    {dir : Str} (h : '/' ∉ dir) :
    dir.takeWhile (· ≠ '/') = dir := by
  rw [List.takeWhile_eq_self_iff]
  exact fun c hc => by simpa using ne_of_mem_of_not_mem hc h

theorem eq_of_append_slash
    {dir dir' rest rest' : Str} (h : '/' ∉ dir) (h' : '/' ∉ dir')
    (heq : dir ++ '/' :: rest = dir' ++ '/' :: rest') :
    dir = dir' ∧ rest = rest' := by
  have hdir : dir = dir' := by
    rw [← takeWhile_slash h rest, heq, takeWhile_slash h']
  subst hdir
  exact ⟨rfl, (List.cons.inj (List.append_cancel_left heq)).2⟩

end Directories

section Matching

variable {m : CaseMapping} {framework : Bool}

/-- An entry of target files: a top-level directory or something below one.  An image has a base
name in lower case, and there are no glob characters. -/
structure IsEntry (m : CaseMapping) (name : Str) : Prop where
  top : ∃ dir, IsTopDir dir ∧ (name = dir ∨ ∃ rest, name = dir ++ '/' :: rest)
  image : (∃ dir ∈ imageDirs, dir ++ ['/'] <+: name) →
    (splitext (basename name)).2 ∈ [".img".toList, ".map".toList] →
      m.lower (splitext (basename name)).1 = (splitext (basename name)).1
  literal : IsLiteral name

def fromFramework (m : CaseMapping) (dir name : Str) : Bool :=
  if dir ∈ imageDirs then
    decide ((splitext (basename name)).2 ∈ [".img".toList, ".map".toList]) &&
      frameworkPartitions.contains (splitext (basename name)).1
  else frameworkPartitions.contains (m.lower dir)

theorem isExpected_iff
    {partition : Str} :
    isExpected framework partition = true ↔
      framework = frameworkPartitions.contains partition := by
  unfold isExpected
  cases framework <;> cases frameworkPartitions.contains partition <;> decide

/-- The items of an entry for images: itself, for one of the builds. -/
theorem imageItems_eq
    {name : Str} (hvbmeta : (splitext (basename name)).1 ≠ "vbmeta".toList)
    {dir : Str} (hdir : dir ∈ imageDirs) :
    imageItems framework name = if framework = fromFramework m dir name then [name] else [] := by
  unfold imageItems fromFramework
  rw [if_neg hvbmeta, if_pos hdir]
  by_cases himage : (splitext (basename name)).2 ∈ [".img".toList, ".map".toList]
  · rw [if_pos himage, decide_eq_true himage, Bool.true_and]
    by_cases hexp : isExpected framework (splitext (basename name)).1 = true
    · rw [if_pos hexp, if_pos (isExpected_iff.mp hexp)]
    · rw [if_neg hexp, if_neg (fun heq => hexp (isExpected_iff.mpr heq))]
  · rw [if_neg himage, decide_eq_false himage, Bool.false_and]
    cases framework <;> rfl

theorem eq_of_mem_imageItems
    {name item : Str} (h : item ∈ imageItems framework name) :
    item = name := by
  unfold imageItems at h
  split_ifs at h
  · exact absurd h List.not_mem_nil
  · exact List.mem_singleton.mp h
  · exact absurd h List.not_mem_nil
  · exact List.mem_singleton.mp h
  · exact absurd h List.not_mem_nil

theorem itemsOf_dir
    {dir name : Str} (hdir : IsTopDir dir)
    (hname : name = dir ∨ ∃ rest, name = dir ++ '/' :: rest) :
    itemsOf m framework name =
      if name.getLast? = some '/' then []
      else if dir = "META".toList then []
      else if dir ∈ imageDirs then imageItems framework name
      else expectedItems m framework (m.lower dir) := by
  have hfirst : name.takeWhile (· ≠ '/') = dir := by
    rcases hname with rfl | ⟨rest, rfl⟩
    · exact takeWhile_no_slash hdir.not_mem_slash
    · exact takeWhile_slash hdir.not_mem_slash rest
  unfold itemsOf
  rw [hfirst]
  simp only [hdir.lower_eq_meta_iff, hdir.lower_mem_images_iff]

/-- No blank stands at the end. -/
def NoFinalBlank (name : Str) : Prop :=
  ∀ c, name.getLast? = some c → isSpace c = false

theorem noFinalBlank_of_all
    {name : Str} (h : name.getLast?.all (fun c => !isSpace c) = true) :
    NoFinalBlank name := by
  intro c hc
  rw [hc] at h
  simpa using h

/-- An item below `META`. -/
structure IsMetaItem (item : Str) : Prop where
  literal : IsLiteral item
  below : ∃ rest, item = "META".toList ++ '/' :: rest
  last : NoFinalBlank item

theorem isMetaItem_fixed
    {item : Str} (h : item ∈ fixedItems framework) :
    IsMetaItem item := by
  have hall : ∀ item ∈ fixedItems framework, IsLiteral item ∧ "META/".toList <+: item ∧
      item.getLast?.all (fun c => !isSpace c) = true := by
    cases framework <;> decide
  obtain ⟨hliteral, ⟨rest, hrest⟩, hlast⟩ := hall item h
  exact ⟨hliteral, ⟨rest, hrest.symm⟩, noFinalBlank_of_all hlast⟩

theorem IsTopDir.isLiteral_lower
    {dir : Str} (h : IsTopDir dir) :
    IsLiteral (m.lower dir) := by
  rw [h.lower]
  intro c hc
  obtain ⟨d, hd, rfl⟩ := List.mem_map.mp hc
  exact (isDirChar_spec (h.2 d hd)).literal_lower

theorem IsTopDir.isLiteral_slash
    {dir : Str} (h : IsTopDir dir) :
    IsLiteral (dir ++ ['/']) := by
  intro c hc
  rcases List.mem_append.mp hc with hc | hc
  · exact (isDirChar_spec (h.2 c hc)).literal
  · rw [List.mem_singleton.mp hc]
    decide

/-- The two items of a partition: its directory with a star, and a file below `META`. -/
theorem mem_partitionItems
    {dir item : Str} (hdir : IsTopDir dir) (h : item ∈ partitionItems m (m.lower dir)) :
    item = dir ++ ['/'] ++ ['*'] ∨ IsMetaItem item := by
  unfold partitionItems at h
  rw [List.mem_pair] at h
  rcases h with rfl | rfl
  · left
    rw [hdir.upper_lower, List.append_assoc]
    rfl
  · right
    have hfront : IsLiteral ("META/".toList ++
        if m.lower dir = "system".toList then [] else m.lower dir ++ ['_']) := by
      intro c hc
      rcases List.mem_append.mp hc with hc | hc
      · exact (by decide : IsLiteral "META/".toList) c hc
      · split_ifs at hc with hsystem
        · exact absurd hc List.not_mem_nil
        · rcases List.mem_append.mp hc with hc | hc
          · exact hdir.isLiteral_lower c hc
          · rw [List.mem_singleton.mp hc]
            decide
    refine ⟨fun c hc => ?_, ⟨_, List.append_assoc _ _ _⟩, fun c hc => ?_⟩
    · rcases List.mem_append.mp hc with hc | hc
      · exact hfront c hc
      · exact (by decide : IsLiteral "filesystem_config.txt".toList) c hc
    · rw [List.getLast?_append] at hc
      cases hc
      rfl

theorem IsMetaItem.not_fnmatch
    {inSet : Str → Char → Bool} {item dir rest : Str} (h : IsMetaItem item) (hdir : IsTopDir dir)
    (hne : dir ≠ "META".toList) :
    ¬ fnmatch inSet (dir ++ '/' :: rest) item = true := by
  intro hmatch
  obtain ⟨rest', hrest'⟩ := h.below
  rw [fnmatch_literal_iff h.literal, hrest'] at hmatch
  exact hne (eq_of_append_slash hdir.not_mem_slash (by decide) hmatch).1

/-- An entry is matched by the items of the build that it is taken from, and by no others. -/
theorem exists_fnmatch_iff
    {inSet : Str → Char → Bool} {names : List Str} (hentries : ∀ name ∈ names, IsEntry m name)
    {dir rest : Str} (hdir : IsTopDir dir) (hmem : dir ++ '/' :: rest ∈ names)
    (hfile : (dir ++ '/' :: rest).getLast? ≠ some '/') (hmeta : dir ≠ "META".toList)
    (hvbmeta : dir ∈ imageDirs → (splitext (basename (dir ++ '/' :: rest))).1 ≠ "vbmeta".toList) :
    (∃ item ∈ inferItemList m names framework, fnmatch inSet (dir ++ '/' :: rest) item = true) ↔
      framework = fromFramework m dir (dir ++ '/' :: rest) := by
  have hitems := @itemsOf_dir m framework dir _ hdir (Or.inr ⟨rest, rfl⟩)
  rw [if_neg hfile, if_neg hmeta] at hitems
  constructor
  · rintro ⟨item, hitem, hmatch⟩
    rcases mem_inferItemList.mp hitem with hfixed | ⟨name', hname', hitem⟩
    · exact absurd hmatch ((isMetaItem_fixed hfixed).not_fnmatch hdir hmeta)
    · have hentry := hentries name' hname'
      obtain ⟨dir', hdir', htop⟩ := hentry.top
      rw [itemsOf_dir hdir' htop] at hitem
      split_ifs at hitem with hslash hmeta' himages
      · exact absurd hitem List.not_mem_nil
      · exact absurd hitem List.not_mem_nil
      · -- an entry for images gives itself
        have hsame := eq_of_mem_imageItems hitem
        subst hsame
        rw [fnmatch_literal_iff hentry.literal] at hmatch
        subst hmatch
        have hdirs : dir = dir' := by
          rcases htop with heq | ⟨rest', heq⟩
          · exact absurd (heq ▸ List.mem_append_right dir List.mem_cons_self :
              '/' ∈ dir') hdir'.not_mem_slash
          · exact (eq_of_append_slash hdir.not_mem_slash hdir'.not_mem_slash heq).1
        subst hdirs
        rw [imageItems_eq (hvbmeta himages) himages (m := m)] at hitem
        by_contra hne
        rw [if_neg hne] at hitem
        exact absurd hitem List.not_mem_nil
      · -- a partition gives its directory
        unfold expectedItems at hitem
        split_ifs at hitem with hexp
        · rcases mem_partitionItems hdir' hitem with rfl | hmetaItem
          · rw [fnmatch_star_iff hdir'.isLiteral_slash] at hmatch
            obtain ⟨rest', hrest'⟩ := hmatch
            rw [List.append_assoc] at hrest'
            have hdirs := (eq_of_append_slash hdir'.not_mem_slash hdir.not_mem_slash hrest').1
            subst hdirs
            rw [fromFramework, if_neg himages]
            exact isExpected_iff.mp hexp
          · exact absurd hmatch (hmetaItem.not_fnmatch hdir hmeta)
        · exact absurd hitem List.not_mem_nil
  · intro hside
    by_cases himages : dir ∈ imageDirs
    · rw [if_pos himages, imageItems_eq (hvbmeta himages) himages (m := m), if_pos hside] at hitems
      refine ⟨_, mem_inferItemList.mpr (Or.inr ⟨_, hmem, ?_⟩),
        (fnmatch_literal_iff (hentries _ hmem).literal).mpr rfl⟩
      rw [hitems]
      exact List.mem_singleton_self _
    · rw [if_neg himages, expectedItems, if_pos (isExpected_iff.mpr ?_)] at hitems
      · refine ⟨dir ++ ['/'] ++ ['*'], mem_inferItemList.mpr (Or.inr ⟨_, hmem, ?_⟩), ?_⟩
        · rw [hitems, partitionItems, hdir.upper_lower]
          exact List.mem_cons.mpr (Or.inl (List.append_assoc _ _ _))
        · rw [fnmatch_star_iff hdir.isLiteral_slash]
          exact ⟨rest, by simp⟩
      · rw [hside, fromFramework, if_neg himages]

end Matching

section Partitions

variable {m : CaseMapping} {framework : Bool}

theorem mem_foldl_addPartition
    {groups : List (Option Str)} {partition_set : Finset Str} {p : Str} :
    p ∈ groups.foldl (addPartition m) partition_set ↔
      p ∈ partition_set ∨ ∃ group, some group ∈ groups ∧ m.lower group = p ∧ p ∉ notPartitions := by
  induction groups generalizing partition_set with
  | nil => simp
  | cons group? groups ih =>
      rw [List.foldl_cons, ih]
      cases group? with
      | none => simp [addPartition]
      | some group =>
          simp only [addPartition, List.mem_cons, Option.some.injEq]
          by_cases hnot : m.lower group ∈ notPartitions
          · rw [if_neg (not_not.mpr hnot)]
            constructor
            · rintro (hold | ⟨g, hg, hrest⟩)
              · exact Or.inl hold
              · exact Or.inr ⟨g, Or.inr hg, hrest⟩
            · rintro (hold | ⟨g, rfl | hg, heq, hp⟩)
              · exact Or.inl hold
              · exact absurd (heq ▸ hnot) hp
              · exact Or.inr ⟨g, hg, heq, hp⟩
          · rw [if_pos hnot, Finset.mem_insert]
            constructor
            · rintro ((rfl | hold) | ⟨g, hg, hrest⟩)
              · exact Or.inr ⟨group, Or.inl rfl, rfl, hnot⟩
              · exact Or.inl hold
              · exact Or.inr ⟨g, Or.inr hg, hrest⟩
            · rintro (hold | ⟨g, rfl | hg, heq, hp⟩)
              · exact Or.inl (Or.inr hold)
              · exact Or.inl (Or.inl heq.symm)
              · exact Or.inr ⟨g, hg, heq, hp⟩

/-- A partition is the lower case of a group of some item. -/
theorem mem_itemListToPartitionSet
    {items : List Str} {p : Str} :
    p ∈ itemListToPartitionSet m items ↔
      ∃ item ∈ items, ∃ group, some group ∈ partitionGroups (stripChars item) ∧
        m.lower group = p ∧ p ∉ notPartitions := by
  suffices hfold : ∀ partition_set : Finset Str,
      p ∈ items.foldl (fun partition_set item =>
          (partitionGroups (stripChars item)).foldl (addPartition m) partition_set) partition_set ↔
        p ∈ partition_set ∨ ∃ item ∈ items, ∃ group,
          some group ∈ partitionGroups (stripChars item) ∧ m.lower group = p ∧
            p ∉ notPartitions by
    rw [itemListToPartitionSet, hfold ∅]
    simp
  induction items with
  | nil => simp
  | cons item items ih =>
      intro partition_set
      rw [List.foldl_cons, ih, mem_foldl_addPartition, or_assoc, List.exists_mem_cons_iff]

theorem partitionGroups_of_dir
    {dir rest group : Str} (hdir : IsTopDir dir)
    (h : some group ∈ partitionGroups (dir ++ '/' :: rest)) :
    group = dir ∨ dir ∈ imageDirs ∧ imagePartition dir (dir ++ '/' :: rest) = some group := by
  have himage (d : Str) (hd : d ∈ imageDirs) (hslash : '/' ∉ d)
      (hgroup : some group = imagePartition d (dir ++ '/' :: rest)) :
      dir ∈ imageDirs ∧ imagePartition dir (dir ++ '/' :: rest) = some group := by
    have hprefix : d ++ ['/'] <+: dir ++ '/' :: rest := by
      by_contra hnot
      rw [imagePartition, if_neg (fun h => hnot (List.isPrefixOf_iff_prefix.mp h))] at hgroup
      cases hgroup
    obtain ⟨rest', hrest'⟩ := hprefix
    rw [List.append_assoc] at hrest'
    have heq := (eq_of_append_slash hslash hdir.not_mem_slash hrest').1
    subst heq
    exact ⟨hd, hgroup.symm⟩
  unfold partitionGroups at h
  simp only [List.mem_cons, List.not_mem_nil, or_false] at h
  rcases h with hitem | hgroup | hgroup
  · left
    have htake : (dir ++ '/' :: rest).takeWhile isDirChar = dir := by
      rw [List.takeWhile_append_of_pos hdir.2, List.takeWhile_cons_of_neg (by decide),
        List.append_nil]
    have hdrop : (dir ++ '/' :: rest).dropWhile isDirChar = '/' :: rest := by
      rw [List.dropWhile_append_of_pos hdir.2, List.dropWhile_cons_of_neg (by decide)]
    rw [partitionItem, hdrop, htake] at hitem
    simp only at hitem
    split_ifs at hitem
    exact Option.some.inj hitem
  · exact Or.inr (himage _ (by decide) (by decide) hgroup)
  · exact Or.inr (himage _ (by decide) (by decide) hgroup)

theorem partitionGroups_dir
    {dir group : Str} (hdir : IsTopDir dir) :
    some group ∉ partitionGroups dir := by
  have himage (d : Str) : imagePartition d dir = none := by
    rw [imagePartition, if_neg]
    intro hprefix
    obtain ⟨rest, rfl⟩ := List.isPrefixOf_iff_prefix.mp hprefix
    exact hdir.not_mem_slash (by simp)
  have hdrop : dir.dropWhile isDirChar = [] := List.dropWhile_eq_nil_iff.mpr hdir.2
  unfold partitionGroups partitionItem
  rw [hdrop, himage, himage]
  simp

theorem imagePartition_eq_some
    {dir rest group : Str} (h : imagePartition dir (dir ++ '/' :: rest) = some group)
    (hlast : rest.getLast? ≠ some '\n') :
    rest = group ++ ".img".toList := by
  have hdrop : (dir ++ '/' :: rest).drop (dir.length + 1) = rest := by
    rw [List.append_cons, List.drop_left' (by simp)]
  unfold imagePartition at h
  split_ifs at h with hprefix
  simp only [hdrop, dropFinalNewline, if_neg hlast] at h
  split_ifs at h with hsuffix
  rw [Option.some.injEq] at h
  obtain ⟨front, hfront⟩ := hsuffix.1
  rw [← hfront] at h ⊢
  rw [← h, List.take_left' (by simp)]

end Partitions

section BaseNames

theorem not_mem_basename
    (path : Str) :
    '/' ∉ basename path := by
  rw [basename, List.mem_reverse]
  intro hmem
  simpa using List.mem_takeWhile_imp hmem

theorem basename_append
    {tail : Str} (h : '/' ∉ tail) (path : Str) :
    basename (path ++ tail) = basename path ++ tail := by
  have hall : ∀ c ∈ tail.reverse, decide (c ≠ '/') = true := by
    intro c hc
    simpa using ne_of_mem_of_not_mem (List.mem_reverse.mp hc) h
  rw [basename, List.reverse_append, List.takeWhile_append_of_pos hall, List.reverse_append,
    List.reverse_reverse, basename]

theorem basename_slash
    (a b : Str) :
    basename (a ++ '/' :: b) = basename b := by
  rw [basename, List.reverse_append, List.reverse_cons, List.append_assoc, List.takeWhile_append]
  split_ifs with hall
  · have hself : b.reverse.takeWhile (· ≠ '/') = b.reverse :=
      (List.takeWhile_prefix _).eq_of_length hall
    rw [List.singleton_append, List.takeWhile_cons_of_neg (by simp), List.append_nil, basename,
      hself]
  · rfl

theorem basename_eq_self
    {path : Str} (h : '/' ∉ path) :
    basename path = path := by
  have happend := basename_append h []
  rw [List.nil_append] at happend
  rw [happend]
  rfl

theorem eq_slash_basename
    (path : Str) :
    '/' ∉ path ∨ ∃ front, path = front ++ '/' :: basename path := by
  have hsplit : path.reverse.takeWhile (· ≠ '/') ++ path.reverse.dropWhile (· ≠ '/') =
      path.reverse := List.takeWhile_append_dropWhile
  cases hdrop : path.reverse.dropWhile (· ≠ '/') with
  | nil =>
      left
      rw [← List.mem_reverse]
      intro hmem
      simpa using List.dropWhile_eq_nil_iff.mp hdrop _ hmem
  | cons c front =>
      right
      have hc : c = '/' := by
        have hhead := List.head?_dropWhile_not (· ≠ '/') path.reverse
        rw [hdrop] at hhead
        simpa using hhead
      refine ⟨front.reverse, ?_⟩
      rw [hdrop, hc] at hsplit
      have hpath := congrArg List.reverse hsplit
      rw [List.reverse_append, List.reverse_cons, List.append_assoc, List.reverse_reverse] at hpath
      exact hpath.symm

theorem basename_lower
    {m : CaseMapping} {path : Str} (h : m.lower (basename path) = basename path) :
    basename (m.lower path) = basename path := by
  rcases eq_slash_basename path with hno | ⟨front, hfront⟩
  · rw [basename_eq_self hno] at h
    rw [h]
  · conv_lhs => rw [hfront, m.lower_slash, basename_slash, h]
    exact basename_eq_self (not_mem_basename path)

/-- The extension of an image is found unless only dots stand in front of it. -/
theorem splitext_img
    (name : Str) :
    splitext (name ++ ".img".toList) =
      if name.all (· = '.') then (name ++ ".img".toList, []) else (name, ".img".toList) := by
  have hreverse : (name ++ ".img".toList).reverse = 'g' :: 'm' :: 'i' :: '.' :: name.reverse := by
    rw [List.reverse_append]
    rfl
  have hdrop : (name ++ ".img".toList).reverse.dropWhile (· ≠ '.') = '.' :: name.reverse := by
    rw [hreverse]
    rfl
  have htake : (name ++ ".img".toList).reverse.takeWhile (· ≠ '.') = ['g', 'm', 'i'] := by
    rw [hreverse]
    rfl
  rw [splitext, hdrop, htake]
  simp only [List.all_reverse, List.reverse_reverse]
  rfl

end BaseNames

section Expected

variable {m : CaseMapping} {framework : Bool}

theorem IsTopDir.stripChars_eq
    {dir tail : Str} (hdir : IsTopDir dir) (hlast : NoFinalBlank (dir ++ tail)) :
    stripChars (dir ++ tail) = dir ++ tail := by
  refine Stripped.stripChars_eq ⟨fun c hc => ?_, hlast⟩
  obtain ⟨d, dir', rfl⟩ := List.exists_cons_of_ne_nil hdir.1
  rw [List.cons_append, List.head?_cons, Option.some.injEq] at hc
  exact hc ▸ (isDirChar_spec (hdir.2 d List.mem_cons_self)).not_space

theorem lower_dots
    {name : Str} (h : name.all (· = '.') = true) :
    m.lower name = name := by
  have hdot : ∀ c ∈ name, c = '.' := fun c hc => of_decide_eq_true (List.all_eq_true.mp h c hc)
  rw [m.lower_ascii name fun c hc => by rw [hdot c hc]; decide]
  conv_rhs => rw [← List.map_id name]
  exact List.map_congr_left fun c hc => by rw [hdot c hc]; decide

theorem frameworkPartitions_not_dots :
    ∀ p ∈ frameworkPartitions, p.all (· = '.') = false := by
  decide

/-- The partition of an image in the item list of a build is expected from it. -/
theorem isExpected_of_imageItems
    {dir rest item group : Str} (hentry : IsEntry m (dir ++ '/' :: rest)) (hdir : dir ∈ imageDirs)
    (hitem : item ∈ imageItems framework (dir ++ '/' :: rest))
    (hgroup : imagePartition dir (dir ++ '/' :: rest) = some group)
    (hlast : rest.getLast? ≠ some '\n') :
    isExpected framework (basename (m.lower group)) = true := by
  have hrest := imagePartition_eq_some hgroup hlast
  have hbase : basename (dir ++ '/' :: rest) = basename group ++ ".img".toList := by
    rw [basename_slash, hrest, basename_append (by decide)]
  have hsplit : splitext (basename (dir ++ '/' :: rest)) =
      if (basename group).all (· = '.') then (basename group ++ ".img".toList, [])
      else (basename group, ".img".toList) := by
    rw [hbase, splitext_img]
  by_cases hdots : (basename group).all (· = '.') = true
  · rw [if_pos hdots] at hsplit
    unfold imageItems at hitem
    rw [hsplit] at hitem
    rw [isExpected_iff, basename_lower (lower_dots hdots)]
    have hnot : frameworkPartitions.contains (basename group) = false := by
      rw [List.contains_eq_mem, decide_eq_false_iff_not]
      intro hmem
      rw [frameworkPartitions_not_dots _ hmem] at hdots
      cases hdots
    rw [hnot]
    cases framework with
    | false => rfl
    | true =>
        simp only [Bool.not_true, Bool.false_eq_true, if_false] at hitem
        split_ifs at hitem with _ himage
        · exact absurd hitem List.not_mem_nil
        · exact absurd himage (by decide)
        · exact absurd himage (by decide)
        · exact absurd hitem List.not_mem_nil
  · rw [if_neg hdots] at hsplit
    have himage : ".img".toList ∈ [".img".toList, ".map".toList] := List.mem_cons_self
    have hlower := hentry.image ⟨dir, hdir, ⟨rest, List.append_assoc _ _ _⟩⟩
      (by rw [hsplit]; exact himage)
    rw [hsplit] at hlower
    rw [basename_lower hlower]
    unfold imageItems at hitem
    rw [hsplit] at hitem
    simp only at hitem
    split_ifs at hitem with _ hexp
    · exact absurd hitem List.not_mem_nil
    · exact hexp
    · exact absurd hitem List.not_mem_nil

/-- A partition that is read back from the items of a build is expected from it. -/
theorem isExpected_of_mem_partitions
    {names : List Str} (hentries : ∀ name ∈ names, IsEntry m name)
    (hblank : ∀ name ∈ names, NoFinalBlank name) {p : Str}
    (hp : p ∈ itemListToPartitionSet m (inferItemList m names framework)) :
    isExpected framework (basename p) = true := by
  obtain ⟨item, hitem, group, hgroup, rfl, hnot⟩ := mem_itemListToPartitionSet.mp hp
  have hmetaDir : IsTopDir "META".toList := by decide
  have hmetaItem (hmeta : IsMetaItem item) : False := by
    obtain ⟨rest, hrest⟩ := hmeta.below
    have hlast := hmeta.last
    rw [hrest] at hgroup hlast
    rw [hmetaDir.stripChars_eq hlast] at hgroup
    rcases partitionGroups_of_dir hmetaDir hgroup with rfl | ⟨himages, _⟩
    · rw [lower_meta] at hnot
      exact hnot List.mem_cons_self
    · exact absurd himages (by decide)
  rcases mem_inferItemList.mp hitem with hfixed | ⟨name, hname, hitem⟩
  · exact (hmetaItem (isMetaItem_fixed hfixed)).elim
  have hentry := hentries name hname
  obtain ⟨dir, hdir, htop⟩ := hentry.top
  rw [itemsOf_dir hdir htop] at hitem
  split_ifs at hitem with hslash hmeta himages
  · exact absurd hitem List.not_mem_nil
  · exact absurd hitem List.not_mem_nil
  · have hsame := eq_of_mem_imageItems hitem
    subst hsame
    rcases htop with rfl | ⟨rest, rfl⟩
    · have hlast : NoFinalBlank (item ++ []) := by
        simpa using hblank _ hname
      have hstrip := hdir.stripChars_eq hlast
      rw [List.append_nil] at hstrip
      rw [hstrip] at hgroup
      exact absurd hgroup (partitionGroups_dir hdir)
    · rw [hdir.stripChars_eq (hblank _ hname)] at hgroup
      rcases partitionGroups_of_dir hdir hgroup with rfl | ⟨_, hgroup⟩
      · refine absurd ?_ hnot
        exact List.mem_cons_of_mem _ (hdir.lower_mem_images_iff.mpr himages)
      · refine isExpected_of_imageItems hentry himages hitem hgroup fun hnewline => ?_
        have hlast := hblank _ hname '\n' (by
          rw [List.getLast?_append, List.getLast?_cons, hnewline]
          rfl)
        exact absurd hlast (by decide)
  · unfold expectedItems at hitem
    split_ifs at hitem with hexp
    · rcases mem_partitionItems hdir hitem with rfl | hmetaItem'
      · rw [List.append_assoc, hdir.stripChars_eq ?_] at hgroup
        · rcases partitionGroups_of_dir hdir hgroup with rfl | ⟨himages', _⟩
          · rw [basename_eq_self hdir.not_mem_slash_lower]
            exact hexp
          · exact absurd himages' himages
        · intro c hc
          rw [List.getLast?_append] at hc
          cases hc
          decide
      · exact (hmetaItem hmetaItem').elim
    · exact absurd hitem List.not_mem_nil

end Expected

/-- Every entry is matched by the items of one build only, and no partition is shared: for all
names that do not end in a blank. -/
theorem inferItemList_splits
    (m : CaseMapping) (inSet : Str → Char → Bool) :
    (∀ names : List Str, (∀ name ∈ names, IsEntry m name) →
      ∀ dir rest : Str, IsTopDir dir → dir ++ '/' :: rest ∈ names →
        (dir ++ '/' :: rest).getLast? ≠ some '/' → dir ≠ "META".toList →
        (dir ∈ imageDirs →
          (splitext (basename (dir ++ '/' :: rest))).1 ≠ "vbmeta".toList) →
        Xor (∃ item ∈ inferItemList m names true, fnmatch inSet (dir ++ '/' :: rest) item = true)
          (∃ item ∈ inferItemList m names false,
            fnmatch inSet (dir ++ '/' :: rest) item = true)) ∧
    ∀ names names' : List Str, (∀ name ∈ names, IsEntry m name ∧ NoFinalBlank name) →
      (∀ name ∈ names', IsEntry m name ∧ NoFinalBlank name) →
      Disjoint (itemListToPartitionSet m (inferItemList m names true))
          (itemListToPartitionSet m (inferItemList m names' false)) ∧
        ∀ keys, ∀ shared, ConfigError.samePartition shared ∉
          (validateConfigLists m (inferItemList m names true) (inferItemList m names' false)
            keys).1 := by
  constructor
  · intro names hentries dir rest hdir hmem hfile hmeta hvbmeta
    rw [exists_fnmatch_iff hentries hdir hmem hfile hmeta hvbmeta,
      exists_fnmatch_iff hentries hdir hmem hfile hmeta hvbmeta]
    cases fromFramework m dir (dir ++ '/' :: rest) with
    | true => exact Or.inl ⟨rfl, by decide⟩
    | false => exact Or.inr ⟨rfl, by decide⟩
  · intro names names' hnames hnames'
    have hdisjoint : Disjoint (itemListToPartitionSet m (inferItemList m names true))
        (itemListToPartitionSet m (inferItemList m names' false)) := by
      rw [Finset.disjoint_left]
      intro p hp hp'
      have htrue := isExpected_iff.mp (isExpected_of_mem_partitions
        (fun name hname => (hnames name hname).1) (fun name hname => (hnames name hname).2) hp)
      have hfalse := isExpected_iff.mp (isExpected_of_mem_partitions
        (fun name hname => (hnames' name hname).1) (fun name hname => (hnames' name hname).2) hp')
      rw [← htrue] at hfalse
      cases hfalse
    refine ⟨hdisjoint, fun keys shared => ?_⟩
    rw [validateConfigLists]
    simp only [Finset.disjoint_iff_inter_eq_empty.mp hdisjoint, ne_eq, not_true_eq_false, if_false,
      List.nil_append]
    split_ifs
    · simp
    · exact List.not_mem_nil

section Sample

/-- The case mappings of texts of ASCII characters. -/
def asciiMapping : CaseMapping where
  lower := List.map Char.toLower
  upper := List.map Char.toUpper
  lower_ascii := fun _ _ => rfl
  upper_ascii := fun _ _ => rfl
  lower_slash := fun a b => by
    rw [List.map_append, List.map_cons]
    rfl

def systemEntry : Str :=
  "SYSTEM/build.prop".toList

def vendorImage : Str :=
  "IMAGES/vendor.img".toList

/-- A name that ends in a blank. -/
def blankImage : Str :=
  "IMAGES/system.img ".toList

theorem isEntry_systemEntry :
    IsEntry asciiMapping systemEntry :=
  ⟨⟨"SYSTEM".toList, by decide, Or.inr ⟨"build.prop".toList, rfl⟩⟩,
    fun _ himage => absurd himage (by decide), by decide⟩

theorem isEntry_vendorImage :
    IsEntry asciiMapping vendorImage :=
  ⟨⟨"IMAGES".toList, by decide, Or.inr ⟨"vendor.img".toList, rfl⟩⟩,
    fun _ _ => by decide, by decide⟩

theorem isEntry_blankImage :
    IsEntry asciiMapping blankImage :=
  ⟨⟨"IMAGES".toList, by decide, Or.inr ⟨"system.img ".toList, rfl⟩⟩,
    fun _ himage => absurd himage (by decide), by decide⟩

/-- Items are stripped before partitions are read from them, so that a file of the vendor build
counts as the image of a framework partition. -/
theorem shared_partition_blankImage :
    (IsEntry asciiMapping systemEntry ∧ IsEntry asciiMapping blankImage) ∧
      ¬ Disjoint
        (itemListToPartitionSet asciiMapping (inferItemList asciiMapping [systemEntry] true))
        (itemListToPartitionSet asciiMapping
          (inferItemList asciiMapping [blankImage] false)) := by
  refine ⟨⟨isEntry_systemEntry, isEntry_blankImage⟩, ?_⟩
  rw [Finset.not_disjoint_iff]
  refine ⟨"system".toList, ?_, ?_⟩
  · have hitem : "SYSTEM/*".toList ∈ itemsOf asciiMapping true systemEntry := by decide
    refine mem_itemListToPartitionSet.mpr ⟨_,
      mem_inferItemList.mpr (Or.inr ⟨_, List.mem_singleton_self _, hitem⟩), "SYSTEM".toList, ?_⟩
    decide
  · have hitem : blankImage ∈ itemsOf asciiMapping false blankImage := by decide
    refine mem_itemListToPartitionSet.mpr ⟨_,
      mem_inferItemList.mpr (Or.inr ⟨_, List.mem_singleton_self _, hitem⟩), "system".toList, ?_⟩
    decide

theorem inferItemList_splits_sample :
    Xor (∃ item ∈ inferItemList asciiMapping [systemEntry, vendorImage] true,
          fnmatch (fun _ _ => false) systemEntry item = true)
        (∃ item ∈ inferItemList asciiMapping [systemEntry, vendorImage] false,
          fnmatch (fun _ _ => false) systemEntry item = true) ∧
      Disjoint
        (itemListToPartitionSet asciiMapping
          (inferItemList asciiMapping [systemEntry, vendorImage] true))
        (itemListToPartitionSet asciiMapping
          (inferItemList asciiMapping [systemEntry, vendorImage] false)) := by
  have hnames : ∀ name ∈ [systemEntry, vendorImage],
      IsEntry asciiMapping name ∧ NoFinalBlank name := by
    intro name hname
    rcases List.mem_pair.mp hname with rfl | rfl
    · exact ⟨isEntry_systemEntry, noFinalBlank_of_all (by decide)⟩
    · exact ⟨isEntry_vendorImage, noFinalBlank_of_all (by decide)⟩
  have h := inferItemList_splits asciiMapping (fun _ _ => false)
  refine ⟨?_, (h.2 _ _ hnames hnames).1⟩
  exact h.1 _ (fun name hname => (hnames name hname).1) "SYSTEM".toList "build.prop".toList
    (by decide) List.mem_cons_self (by decide) (by decide)
    fun himages => absurd himages (by decide)

end Sample

end MergeUtils
end AndroidBuild
