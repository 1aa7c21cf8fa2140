import AndroidBuild.SparseImg.FileBlockMap

/-!
# Which file gets which block

Every file owns the blocks of `care_map` that it lists and that no file before
it lists.  The loop of `LoadFileBlockMap` keeps this for the lines it has read:
`remaining` is what no file has listed, and each entry of `out` holds the
blocks that its file owns.
-/

namespace AndroidBuild
namespace SparseImg

open RangeLib

/-- A line of the block map after it has been read. -/
abbrev ListedFile := String × RangeSet

section Specs

variable {a b : RangeSet}

theorem size_eq_iff_subset
    (ha : Canonical a.data) (hb : Canonical b.data) {common : RangeSet}
    (hcommon : a.intersect b = some common) :
    a.size = common.size ↔ a.elements ⊆ b.elements := by
  obtain ⟨r, hr, hcan, hmem⟩ := RangeSet.intersect_spec ha hb
  rw [hcommon] at hr
  cases hr
  have hinter : common.elements = a.elements ∩ b.elements := by
    ext i
    simp [hmem i]
  rw [RangeSet.size_eq_length ha, RangeSet.size_eq_length hcan, ← RangeSet.card_elements ha,
    ← RangeSet.card_elements hcan, hinter, Nat.cast_inj]
  constructor
  · intro hcard
    rw [← Finset.inter_eq_left]
    exact Finset.eq_of_subset_of_card_le Finset.inter_subset_left (le_of_eq hcard)
  · intro hsub
    rw [Finset.inter_eq_left.mpr hsub]

theorem subtract_elements
    (ha : Canonical a.data) (hb : Canonical b.data) {r : RangeSet}
    (h : a.subtract b = some r) :
    Canonical r.data ∧ r.elements = a.elements \ b.elements := by
  obtain ⟨r', hr, hcan, hmem⟩ := RangeSet.subtract_spec ha hb
  rw [h] at hr
  cases hr
  refine ⟨hcan, ?_⟩
  ext i
  simp [hmem i]

theorem nonempty_iff_elements
    (ha : Canonical a.data) :
    a.nonempty = true ↔ a.elements.Nonempty := by
  rw [RangeSet.nonempty_iff ha, Finset.Nonempty]
  simp

theorem overlaps_false_iff
    (ha : Canonical a.data) (hb : Canonical b.data) :
    a.overlaps b = false ↔ Disjoint a.elements b.elements := by
  rw [← Bool.not_eq_true, RangeSet.overlaps_spec ha hb, Finset.disjoint_left]
  simp

end Specs

section Claims

variable {care : Finset Int} {clobbered : RangeSet} {allow : Bool}

/-- The file that lists `R` behind the files `before` owns block `i`. -/
def Owns (care : Finset Int) (before : List ListedFile) (R : RangeSet) (i : Int) : Prop :=
  i ∈ care ∧ i ∈ R.elements ∧ ∀ f ∈ before, i ∉ f.2.elements

/-- The loop after the files `done`. -/
structure Claimed (care : Finset Int) (clobbered : RangeSet) (done : List ListedFile)
    (st : Load) : Prop where
  canonical : Canonical st.remaining.data
  remaining : ∀ i, i ∈ st.remaining.elements ↔ i ∈ care ∧ ∀ f ∈ done, i ∉ f.2.elements
  stored : ∀ fn r, st.out.get? fn = some r → ∃ before R after,
    done = before ++ (fn, R) :: after ∧ Canonical r.data ∧
    (∀ i, i ∈ r.elements ↔ Owns care before R i) ∧ Disjoint clobbered.elements r.elements ∧
    (R.elements.Nonempty → r.elements.Nonempty)
  kept : ∀ before fn R after, done = before ++ (fn, R) :: after →
    R.elements = ∅ ∨ (∃ i, Owns care before R i) → ∃ r, st.out.get? fn = some r

theorem claimed_nil
    {careMap : RangeSet} (hcare : Canonical careMap.data) :
    Claimed careMap.elements clobbered [] ⟨careMap, .empty⟩ where
  canonical := hcare
  remaining := by simp
  stored := by
    intro fn r h
    simp [OrderedDict.get?, OrderedDict.empty] at h
  kept := by simp

/-- The last line of the listing, or one before it. -/
theorem append_singleton_eq_split
    {α : Type} {done before after : List α} {x y : α}
    (h : done ++ [x] = before ++ y :: after) :
    (done = before ∧ x = y ∧ after = []) ∨
      ∃ after', done = before ++ y :: after' ∧ after = after' ++ [x] := by
  rcases List.eq_nil_or_concat after with rfl | ⟨after', z, rfl⟩
  · obtain ⟨h₁, h₂⟩ := List.append_inj' h rfl
    exact Or.inl ⟨h₁, by simpa using h₂, rfl⟩
  · rw [List.concat_eq_append, ← List.cons_append, ← List.append_assoc] at h
    obtain ⟨h₁, h₂⟩ := List.append_inj' h rfl
    refine Or.inr ⟨after', h₁, ?_⟩
    rw [List.concat_eq_append, ← h₂]

theorem Claimed.store
    {done : List ListedFile} {st st' : Load} (hst : Claimed care clobbered done st)
    (hclobbered : Canonical clobbered.data) {fn : String} {R r : RangeSet}
    (hr : Canonical r.data) (hown : ∀ i, i ∈ r.elements ↔ i ∈ R.elements ∧ i ∈ st.remaining.elements)
    (hne : R.elements.Nonempty → r.elements.Nonempty)
    (hrun : storeFile clobbered st fn r = some st') :
    Claimed care clobbered (done ++ [(fn, R)]) st' := by
  simp only [storeFile, Option.bind_eq_bind, Option.bind_eq_some_iff] at hrun
  obtain ⟨common, hcommon, hrun⟩ := hrun
  split_ifs at hrun with hsize hover
  obtain ⟨remaining, hsub, hpure⟩ := Option.bind_eq_some_iff.mp hrun
  cases hpure
  obtain ⟨hcan, helements⟩ := subtract_elements hst.canonical hr hsub
  have hdisjoint : Disjoint clobbered.elements r.elements :=
    (overlaps_false_iff hclobbered hr).mp (by simpa using hover)
  have hOwns : ∀ i, i ∈ r.elements ↔ Owns care done R i := by
    intro i
    rw [hown i, hst.remaining i, Owns]
    tauto
  refine ⟨hcan, ?_, ?_, ?_⟩
  · intro i
    rw [helements, Finset.mem_sdiff, hst.remaining i, hOwns i, Owns]
    simp only [List.mem_append, List.mem_singleton, or_imp, forall_and, forall_eq]
    tauto
  · intro fn' r' hget
    rw [OrderedDict.get?_set] at hget
    split_ifs at hget with hfn
    · cases hget
      subst hfn
      exact ⟨done, R, [], rfl, hr, hOwns, hdisjoint, hne⟩
    · obtain ⟨before, R', after, hdone, hrest⟩ := hst.stored fn' r' hget
      exact ⟨before, R', after ++ [(fn, R)], by rw [hdone]; simp, hrest⟩
  · intro before fn' R' after hsplit hcond
    rw [OrderedDict.get?_set]
    split_ifs with hfn
    · exact ⟨r, rfl⟩
    · rcases append_singleton_eq_split hsplit with ⟨_, heq, _⟩ | ⟨after', hdone, _⟩
      · cases heq
        exact absurd rfl hfn
      · exact hst.kept before fn' R' after' hdone hcond

theorem Claimed.skip
    {done : List ListedFile} {st : Load} (hst : Claimed care clobbered done st)
    {fn : String} {R : RangeSet} (hne : R.elements.Nonempty)
    (hdisjoint : ∀ i ∈ R.elements, i ∉ st.remaining.elements) :
    Claimed care clobbered (done ++ [(fn, R)]) st where
  canonical := hst.canonical
  remaining := by
    intro i
    have hi := hst.remaining i
    have := hdisjoint i
    simp only [List.mem_append, List.mem_singleton, or_imp, forall_and, forall_eq]
    tauto
  stored := by
    intro fn' r' hget
    obtain ⟨before, R', after, hdone, hrest⟩ := hst.stored fn' r' hget
    exact ⟨before, R', after ++ [(fn, R)], by rw [hdone]; simp, hrest⟩
  kept := by
    intro before fn' R' after hsplit hcond
    rcases append_singleton_eq_split hsplit with ⟨hdone, heq, _⟩ | ⟨after', hdone, _⟩
    · cases heq
      rcases hcond with hempty | ⟨i, hcare, hi, hbefore⟩
      · exact absurd hempty hne.ne_empty
      · rw [← hdone] at hbefore
        exact absurd ((hst.remaining i).mpr ⟨hcare, hbefore⟩) (hdisjoint i hi)
    · exact hst.kept before fn' R' after' hdone hcond

theorem claimFile_spec
    {done : List ListedFile} {st st' : Load} (hst : Claimed care clobbered done st)
    (hclobbered : Canonical clobbered.data) {file : ListedFile} (hfile : Canonical file.2.data)
    (hrun : claimFile clobbered allow st file = some st') :
    Claimed care clobbered (done ++ [file]) st' := by
  -- an entry with all blocks of the file: the assertion makes them remaining blocks
  have hwhole : storeFile clobbered st file.1 file.2 = some st' →
      Claimed care clobbered (done ++ [file]) st' := by
    intro hstore
    refine hst.store hclobbered hfile ?_ id hstore
    intro i
    simp only [storeFile, Option.bind_eq_bind, Option.bind_eq_some_iff] at hstore
    obtain ⟨common, hcommon, hstore⟩ := hstore
    split_ifs at hstore with hsize hover
    have hsub := (size_eq_iff_subset hfile hst.canonical hcommon).mp (by simpa using hsize)
    exact ⟨fun hi => ⟨hi, hsub hi⟩, fun hi => hi.1⟩
  rw [claimFile] at hrun
  split_ifs at hrun with hallow
  · obtain ⟨shared, hshared, hrun⟩ := Option.bind_eq_some_iff.mp hrun
    obtain ⟨hcanShared, hshared⟩ := subtract_elements hfile hst.canonical hshared
    split_ifs at hrun with hsharedNe
    · obtain ⟨nonShared, hnonShared, hrun⟩ := Option.bind_eq_some_iff.mp hrun
      obtain ⟨hcanNon, hnonShared⟩ := subtract_elements hfile hcanShared hnonShared
      have hown : ∀ i, i ∈ nonShared.elements ↔
          i ∈ file.2.elements ∧ i ∈ st.remaining.elements := by
        intro i
        rw [hnonShared, hshared]
        simp only [Finset.mem_sdiff]
        tauto
      split_ifs at hrun with hnonNe
      · have hnonNe := (nonempty_iff_elements hcanNon).mp hnonNe
        refine hst.store hclobbered ?_ ?_ ?_ hrun
        · exact hcanNon
        · exact hown
        · exact fun _ => hnonNe
      · cases hrun
        have hsharedNe := (nonempty_iff_elements hcanShared).mp hsharedNe
        refine hst.skip (hsharedNe.mono ?_) ?_
        · rw [hshared]
          exact Finset.sdiff_subset
        · intro i hi hrem
          exact hnonNe ((nonempty_iff_elements hcanNon).mpr ⟨i, (hown i).mpr ⟨hi, hrem⟩⟩)
    · exact hwhole hrun
  · exact hwhole hrun

theorem readLine_canonical
    {line : String} {file : ListedFile} (h : readLine line = some file) :
    Canonical file.2.data := by
  simp only [readLine, Option.bind_eq_bind, Option.bind_eq_some_iff] at h
  obtain ⟨⟨fn, text⟩, _, raw, hraw, zero, hzero, ranges, hranges, hfile⟩ := h
  cases hfile
  exact (subtract_elements (RangeSet.parse_canonical hraw) (RangeSet.parse_canonical hzero)
    hranges).1

/-- The whole loop reads every line and keeps the invariant. -/
theorem loadLines_spec
    {lines : List String} {done : List ListedFile} {st st' : Load}
    (hst : Claimed care clobbered done st) (hclobbered : Canonical clobbered.data)
    (hrun : lines.foldlM (loadLine clobbered allow) st = some st') :
    ∃ files, lines.mapM readLine = some files ∧ Claimed care clobbered (done ++ files) st' := by
  induction lines generalizing done st with
  | nil =>
      cases hrun
      exact ⟨[], rfl, by simpa using hst⟩
  | cons line lines ih =>
      rw [List.foldlM_cons] at hrun
      obtain ⟨st₁, hline, hrest⟩ := Option.bind_eq_some_iff.mp hrun
      obtain ⟨file, hread, hclaim⟩ := Option.bind_eq_some_iff.mp hline
      have hst₁ := claimFile_spec hst hclobbered (readLine_canonical hread) hclaim
      obtain ⟨files, hfiles, hst'⟩ := ih hst₁ hrest
      refine ⟨file :: files, ?_, by simpa using hst'⟩
      rw [List.mapM_cons, hread, hfiles]
      rfl

end Claims

end SparseImg
end AndroidBuild
