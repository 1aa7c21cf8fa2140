import AndroidBuild.SparseImg.FileClaims
import AndroidBuild.SparseImg.Reading

/-!
# The entries of `file_map`

The blocks that no file lists and that are not clobbered end up in the entries
`__NONZERO-0`, `__NONZERO-1`, ..., 512 blocks each: what is read from the image
never equals `reference`.  Entries with generated names replace entries of
files with the same name.
-/

namespace AndroidBuild
namespace SparseImg

open RangeLib SparseImage

section Leftover

variable {img : SparseImage}

def blockPoints (blocks : List Int) : List Int :=
  blocks.flatMap (fun b => [b, b + 1])

theorem length_blockPoints
    (blocks : List Int) :
    (blockPoints blocks).length = 2 * blocks.length := by
  induction blocks with
  | nil => rfl
  | cons b blocks ih =>
      simp only [blockPoints, List.flatMap_cons, List.length_append, List.length_cons,
        List.length_nil] at ih ⊢
      omega

theorem blockPoints_sorted
    {blocks : List Int} (h : blocks.Pairwise (· < ·)) :
    (blockPoints blocks).Pairwise (· ≤ ·) := by
  induction h with
  | nil => exact List.Pairwise.nil
  | @cons b blocks hall _ ih =>
      have hafter : ∀ p ∈ blockPoints blocks, b + 1 ≤ p := by
        intro p hp
        obtain ⟨c, hc, hp⟩ := List.mem_flatMap.mp hp
        have hlt := hall c hc
        simp only [List.mem_cons, List.not_mem_nil, or_false] at hp
        omega
      refine List.pairwise_cons.mpr ⟨?_, List.pairwise_cons.mpr ⟨hafter, ih⟩⟩
      intro p hp
      rcases List.mem_cons.mp hp with rfl | hp
      · omega
      · have hle := hafter p hp
        omega

theorem blocksOf_blockPoints
    (blocks : List Int) :
    RangeSet.blocksOf (blockPoints blocks) = blocks := by
  induction blocks with
  | nil => rfl
  | cons b blocks ih =>
      have hcons : blockPoints (b :: blocks) = b :: (b + 1) :: blockPoints blocks := rfl
      have hone : RangeSet.intRange b (b + 1) = [b] := by simp [RangeSet.intRange]
      rw [hcons, blocksOf_cons_cons, ih, hone]
      rfl

theorem ofData_blockPoints
    {blocks : List Int} (h : blocks.Pairwise (· < ·)) {r : RangeSet}
    (hr : RangeSet.ofData (blockPoints blocks) = some r) :
    Canonical r.data ∧ r.blocks = blocks := by
  obtain ⟨r', hr', hcan, hblocks⟩ := ofData_spec (blockPoints_sorted h)
    (by rw [length_blockPoints]; omega)
  rw [hr] at hr'
  cases hr'
  exact ⟨hcan, by rw [hblocks, blocksOf_blockPoints]⟩

/-- What is read from the image is never a `str`. -/
theorem blockData_ne_reference
    {b : Int} {data : PyData} (h : blockData img b = some data) :
    data ≠ .str (reference img) := by
  obtain ⟨e, _, h⟩ := Option.bind_eq_some_iff.mp h
  cases hdata : e.data with
  | raw filepos =>
      simp only [hdata] at h
      obtain ⟨bytes, _, hpure⟩ := Option.bind_eq_some_iff.mp h
      cases hpure
      simp
  | fill word =>
      simp only [hdata] at h
      cases h
      simp

/-- The loop after the blocks `done`: full groups, and a group that is not full. -/
structure Grouped (done : List Int) (st : Leftovers) : Prop where
  zero : st.zeroBlocks = []
  groups : ∃ (full : List (List Int)) (last : List Int),
    st.nonzeroGroups = full.map blockPoints ∧ st.nonzeroBlocks = blockPoints last ∧
    full.flatten ++ last = done ∧ (∀ c ∈ full, c.length = 512) ∧ last.length < 512

theorem classifyBlock_spec
    {done : List Int} {st st' : Leftovers} (hst : Grouped done st) {b : Int}
    (hrun : classifyBlock img st b = some st') :
    Grouped (done ++ [b]) st' := by
  obtain ⟨data, hdata, hrun⟩ := Option.bind_eq_some_iff.mp hrun
  obtain ⟨full, last, hfull, hlast, hdone, hlengths, hlt⟩ := hst.groups
  have hpoints : st.nonzeroBlocks ++ [b, b + 1] = blockPoints (last ++ [b]) := by
    rw [hlast]
    simp [blockPoints]
  have hlength : (blockPoints (last ++ [b])).length = 2 * (last.length + 1) := by
    rw [length_blockPoints, List.length_append, List.length_singleton]
  rw [if_neg (blockData_ne_reference hdata)] at hrun
  simp only [hpoints, hlength] at hrun
  split_ifs at hrun with hmax
  · cases hrun
    rw [maxBlocksPerGroup] at hmax
    refine ⟨hst.zero, full ++ [last ++ [b]], [], by simp [hfull], rfl, ?_, ?_, by decide⟩
    · rw [← hdone]
      simp
    · intro c hc
      rcases List.mem_append.mp hc with hc | hc
      · exact hlengths c hc
      · rw [List.mem_singleton.mp hc, List.length_append, List.length_singleton]
        omega
  · cases hrun
    rw [maxBlocksPerGroup] at hmax
    refine ⟨hst.zero, full, last ++ [b], hfull, rfl, ?_, hlengths, ?_⟩
    · rw [← hdone]
      simp
    · rw [List.length_append, List.length_singleton]
      omega

theorem classifyBlocks_spec
    {blocks done : List Int} {st st' : Leftovers} (hst : Grouped done st)
    (hrun : blocks.foldlM (classifyBlock img) st = some st') :
    Grouped (done ++ blocks) st' := by
  induction blocks generalizing done st with
  | nil =>
      cases hrun
      simpa using hst
  | cons b blocks ih =>
      rw [List.foldlM_cons] at hrun
      obtain ⟨st₁, hb, hrest⟩ := Option.bind_eq_some_iff.mp hrun
      simpa using ih (classifyBlock_spec hst hb) hrest

/-- All remaining blocks are grouped as non-zero blocks, 512 in a group. -/
theorem classify_spec
    {remaining : RangeSet} {st : Leftovers} (hrun : classify img remaining = some st) :
    st.zeroBlocks = [] ∧ ∃ groups : List (List Int),
      st.nonzeroGroups = groups.map blockPoints ∧ groups.flatten = remaining.blocks ∧
      (∀ c ∈ groups, c ≠ []) ∧ ∀ i, i < groups.length ↔ 512 * i < remaining.blocks.length := by
  obtain ⟨st₁, hloop, hrun⟩ := Option.bind_eq_some_iff.mp hrun
  have hgrouped : Grouped [] {} := ⟨rfl, [], [], rfl, rfl, rfl, by simp, by decide⟩
  obtain ⟨hzero, full, last, hfull, hlast, hdone, hlengths, hlt⟩ :=
    classifyBlocks_spec hgrouped hloop
  rw [List.nil_append] at hdone
  have hfullLength : full.flatten.length = 512 * full.length := by
    rw [List.length_flatten, List.map_congr_left hlengths, List.map_const', List.sum_replicate,
      smul_eq_mul, mul_comm]
  have htotal : remaining.blocks.length = 512 * full.length + last.length := by
    rw [← hdone, List.length_append, hfullLength]
  have hne : ∀ c ∈ full, c ≠ [] := by
    intro c hc hnil
    have := hlengths c hc
    rw [hnil] at this
    simp at this
  have hempty : st₁.nonzeroBlocks = [] ↔ last = [] := by
    rw [hlast, ← List.length_eq_zero_iff, length_blockPoints, ← List.length_eq_zero_iff]
    omega
  split_ifs at hrun with hcase
  · cases hrun
    rw [hempty.mp hcase, List.append_nil] at hdone
    have hzeroLast : last.length = 0 := by rw [hempty.mp hcase, List.length_nil]
    exact ⟨hzero, full, hfull, hdone, hne, fun i => by omega⟩
  · cases hrun
    have hlastNe : last ≠ [] := fun h => hcase (hempty.mpr h)
    have hpos := List.length_pos_iff.mpr hlastNe
    refine ⟨hzero, full ++ [last], by simp [hfull, hlast], by rw [← hdone]; simp, ?_, ?_⟩
    · intro c hc
      rcases List.mem_append.mp hc with hc | hc
      · exact hne c hc
      · rwa [List.mem_singleton.mp hc]
    · intro i
      rw [List.length_append, List.length_singleton]
      omega

end Leftover

section Names

theorem nonzeroName_inj
    {i j : Nat} (h : nonzeroName i = nonzeroName j) :
    i = j := by
  have hlist := congrArg String.toList h
  simp only [nonzeroName, String.toList_append, List.append_cancel_left_eq] at hlist
  have hi := (Text.isNumeral_toString i).value
  have hj := (Text.isNumeral_toString j).value
  have hstr : toString i = toString j := String.toList_inj.mp hlist
  rw [hstr] at hi
  exact hi.symm.trans hj

theorem nonzeroName_ne_copy
    (i : Nat) :
    nonzeroName i ≠ "__COPY" := by
  intro h
  have hlist := congrArg (fun s => s.toList.take 3) h
  simp [nonzeroName] at hlist

/-- The names that `LoadFileBlockMap` makes up, for `n` blocks that are left over. -/
def Generated (clobbered : RangeSet) (n : Nat) (name : String) : Prop :=
  (clobbered.nonempty = true ∧ name = "__COPY") ∨ ∃ i, 512 * i < n ∧ name = nonzeroName i

/-- The groups of left-over blocks become the entries `__NONZERO-i`. -/
theorem storeGroups_spec
    {groups : List (List Int)} (hsorted : ∀ c ∈ groups, c.Pairwise (· < ·)) {i : Nat}
    {out out' : FileMap} (hrun : storeGroups i out (groups.map blockPoints) = some out') :
    (∀ k c, groups[k]? = some c →
      ∃ r, out'.get? (nonzeroName (i + k)) = some r ∧ Canonical r.data ∧ r.blocks = c) ∧
    ∀ name, (∀ k < groups.length, name ≠ nonzeroName (i + k)) →
      out'.get? name = out.get? name := by
  induction groups generalizing i out with
  | nil =>
      cases hrun
      exact ⟨by simp, fun _ _ => rfl⟩
  | cons c groups ih =>
      rw [List.forall_mem_cons] at hsorted
      rw [List.map_cons, storeGroups] at hrun
      obtain ⟨r, hr, hrun⟩ := Option.bind_eq_some_iff.mp hrun
      obtain ⟨hcan, hblocks⟩ := ofData_blockPoints hsorted.1 hr
      obtain ⟨hgroups, hother⟩ := ih hsorted.2 hrun
      refine ⟨?_, ?_⟩
      · intro k d hk
        cases k with
        | zero =>
            cases hk
            refine ⟨r, ?_, hcan, hblocks⟩
            rw [hother _ (fun k _ h => by have := nonzeroName_inj h; omega),
              OrderedDict.get?_set, Nat.add_zero, if_pos rfl]
        | succ k =>
            obtain ⟨r', hr', hrest⟩ := hgroups k d hk
            exact ⟨r', by rw [← hr']; congr 2; omega, hrest⟩
      · intro name hname
        rw [hother name ?_, OrderedDict.get?_set, if_neg]
        · exact hname 0 (by simp)
        · intro k hk h
          exact hname (k + 1) (by simpa using hk) (by rw [h]; congr 1; omega)

theorem storeLeftovers_spec
    {clobbered : RangeSet} {st : Leftovers} (hzero : st.zeroBlocks = [])
    {groups : List (List Int)} (hgroups : st.nonzeroGroups = groups.map blockPoints)
    (hsorted : ∀ c ∈ groups, c.Pairwise (· < ·)) {n : Nat}
    (hcount : ∀ i, i < groups.length ↔ 512 * i < n) {out fm : FileMap}
    (hrun : storeLeftovers clobbered st out = some fm) :
    (∀ k c, groups[k]? = some c →
      ∃ r, fm.get? (nonzeroName k) = some r ∧ Canonical r.data ∧ r.blocks = c) ∧
    (clobbered.nonempty = true → fm.get? "__COPY" = some clobbered) ∧
    ∀ name, ¬ Generated clobbered n name → fm.get? name = out.get? name := by
  by_cases hnone : st.zeroBlocks = [] ∧ st.nonzeroGroups = [] ∧ clobbered.nonempty = false
  · rw [storeLeftovers, if_pos hnone] at hrun
    cases hrun
  rw [storeLeftovers, if_neg hnone, storeZero, if_pos hzero, Option.bind_eq_bind,
    Option.bind_some, hgroups] at hrun
  obtain ⟨out₁, hout₁, hrun⟩ := Option.bind_eq_some_iff.mp hrun
  obtain ⟨hentry, hother⟩ := storeGroups_spec hsorted hout₁
  simp only [Nat.zero_add] at hentry hother
  have hkeep : ∀ name, ¬ Generated clobbered n name → out₁.get? name = out.get? name := by
    intro name hname
    apply hother
    intro k hk h
    exact hname (Or.inr ⟨k, (hcount k).mp hk, h⟩)
  cases hrun
  by_cases hclobbered : clobbered.nonempty = true
  · rw [if_pos hclobbered]
    refine ⟨?_, ?_, ?_⟩
    · intro k c hk
      obtain ⟨r, hr, hrest⟩ := hentry k c hk
      refine ⟨r, ?_, hrest⟩
      rw [OrderedDict.get?_set, if_neg (nonzeroName_ne_copy k), hr]
    · intro _
      rw [OrderedDict.get?_set, if_pos rfl]
    · intro name hname
      rw [OrderedDict.get?_set, if_neg (fun h => hname (Or.inl ⟨hclobbered, h⟩)), hkeep name hname]
  · rw [if_neg hclobbered]
    exact ⟨hentry, fun h => absurd h hclobbered, hkeep⟩

end Names

section Load

/-- The blocks that belong to no file and are not clobbered. -/
def leftover (care : Finset Int) (clobbered : RangeSet) (files : List ListedFile) : Finset Int :=
  care.filter (fun i => i ∉ clobbered.elements ∧ ∀ f ∈ files, i ∉ f.2.elements)

/-- What `LoadFileBlockMap` has done when it returns. -/
structure Loaded (care : Finset Int) (clobbered : RangeSet) (files : List ListedFile)
    (out : FileMap) (groups : List (List Int)) (fm : FileMap) : Prop where
  claims : ∃ remaining, Claimed care clobbered files ⟨remaining, out⟩
  sorted : groups.flatten.Pairwise (· < ·)
  grouped : ∀ i, i ∈ groups.flatten ↔ i ∈ leftover care clobbered files
  nonempty : ∀ c ∈ groups, c ≠ []
  count : ∀ i, i < groups.length ↔ 512 * i < (leftover care clobbered files).card
  group : ∀ k c, groups[k]? = some c →
    ∃ r, fm.get? (nonzeroName k) = some r ∧ Canonical r.data ∧ r.blocks = c
  copy : clobbered.nonempty = true → fm.get? "__COPY" = some clobbered
  other : ∀ name, ¬ Generated clobbered (leftover care clobbered files).card name →
    fm.get? name = out.get? name

theorem loadFileBlockMap_spec
    {img : SparseImage} (hcare : Canonical img.careMap.data) {clobbered : RangeSet}
    (hclobbered : Canonical clobbered.data) {text : String} {allow : Bool} {fm : FileMap}
    (hrun : loadFileBlockMap img text clobbered allow = some fm) :
    ∃ files out groups, (Text.fileLines text).mapM readLine = some files ∧
      Loaded img.careMap.elements clobbered files out groups fm := by
  obtain ⟨st, hlines, hrun⟩ := Option.bind_eq_some_iff.mp hrun
  obtain ⟨remaining, hremaining, hrun⟩ := Option.bind_eq_some_iff.mp hrun
  obtain ⟨leftovers, hclassify, hrun⟩ := Option.bind_eq_some_iff.mp hrun
  obtain ⟨files, hfiles, hclaims⟩ := loadLines_spec (claimed_nil hcare) hclobbered hlines
  rw [List.nil_append] at hclaims
  obtain ⟨hcan, helements⟩ := subtract_elements hclaims.canonical hclobbered hremaining
  obtain ⟨hzero, groups, hgroups, hflat, hne, hcount⟩ := classify_spec hclassify
  have hleft : remaining.elements = leftover img.careMap.elements clobbered files := by
    ext i
    rw [helements, Finset.mem_sdiff, hclaims.remaining i, leftover, Finset.mem_filter]
    tauto
  have hsorted : groups.flatten.Pairwise (· < ·) := by
    rw [hflat]
    exact RangeSet.blocks_strict hcan
  have hcard : remaining.blocks.length =
      (leftover img.careMap.elements clobbered files).card := by
    rw [← hleft, RangeSet.card_elements hcan]
  rw [hcard] at hcount
  obtain ⟨hgroup, hcopy, hother⟩ := storeLeftovers_spec hzero hgroups
    (List.pairwise_flatten.mp hsorted).1 hcount hrun
  refine ⟨files, st.out, groups, hfiles, ⟨st.remaining, hclaims⟩, hsorted, ?_, hne, hcount,
    hgroup, hcopy, hother⟩
  intro i
  rw [← hleft, hflat, RangeSet.mem_elements]

end Load

section CareMap

variable {file : Bytes} {blkSz : Nat}

/-- `care_data` of any file, well-formed or not. -/
structure CareData (st : Scan) : Prop where
  sorted : st.careData.Pairwise (· ≤ ·)
  bound : ∀ p ∈ st.careData, p ≤ st.pos
  even : st.careData.length % 2 = 0

theorem CareData.add
    {st : Scan} (h : CareData st) (n : Nat) (data : ChunkData) (tell : Nat) :
    CareData (st.add n data tell) where
  sorted := by
    refine List.pairwise_append.mpr ⟨h.sorted, by simp, ?_⟩
    intro p hp q hq
    have hle := h.bound p hp
    simp only [List.mem_cons, List.not_mem_nil, or_false] at hq
    rcases hq with rfl | rfl <;> omega
  bound := by
    intro p hp
    rcases List.mem_append.mp hp with hp | hp
    · have hle := h.bound p hp
      simp only [Scan.add]
      omega
    · simp only [List.mem_cons, List.not_mem_nil, or_false] at hp
      simp only [Scan.add]
      rcases hp with rfl | rfl <;> omega
  even := by
    have heven := h.even
    simp only [Scan.add, List.length_append, List.length_cons, List.length_nil]
    omega

theorem scanChunk_careData
    {st st' : Scan} (h : CareData st) (hrun : scanChunk file blkSz st = some st') :
    CareData st' := by
  obtain ⟨hdr, _, hrun⟩ := Option.bind_eq_some_iff.mp hrun
  simp only at hrun
  split_ifs at hrun
  · cases hrun
    exact h.add _ _ _
  · cases hrun
    exact h.add _ _ _
  · cases hrun
    refine ⟨h.sorted, ?_, h.even⟩
    intro p hp
    have hle := h.bound p hp
    push_cast
    omega

theorem scanChunks_careData
    {n : Nat} {st st' : Scan} (h : CareData st) (hrun : scanChunks file blkSz n st = some st') :
    CareData st' := by
  induction n generalizing st with
  | zero =>
      cases hrun
      exact h
  | succ n ih =>
      obtain ⟨st₁, hst₁, hrest⟩ := Option.bind_eq_some_iff.mp hrun
      exact ih (scanChunk_careData h hst₁) hrest

theorem init_careMap
    {text : Option String} {img : SparseImage} (h : init file text = some img) :
    Canonical img.careMap.data := by
  obtain ⟨hdr, _, h⟩ := Option.bind_eq_some_iff.mp h
  split_ifs at h with hcheck
  simp only [Option.bind_eq_bind, Option.bind_eq_some_iff] at h
  obtain ⟨clobbered, _, st, hscan, care, hcare, _, _, _, _, _, _, _, _, hpure⟩ := h
  cases hpure
  have hdata := scanChunks_careData ⟨by simp, by simp, rfl⟩ hscan
  obtain ⟨r, hr, hcan, _⟩ := ofData_spec hdata.sorted hdata.even
  rw [hcare] at hr
  cases hr
  exact hcan

end CareMap

end SparseImg
end AndroidBuild
