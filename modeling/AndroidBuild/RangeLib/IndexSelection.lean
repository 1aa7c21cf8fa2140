import AndroidBuild.RangeLib.Format

/-!
# Selecting the blocks of a file by their positions

`map_within` replaces the blocks of a subset by their positions.  The loop of
`ParseAndValidateSplitInfo` over `split_src_indices` goes the other way: it
collects the blocks of `src_ranges` at the positions of an index set, range by
range, and asserts that no block is collected twice.
-/

namespace AndroidBuild
namespace RangeLib
namespace RangeSet

/-- One round of the loop; `none` is a failed assertion. -/
def selectRange (src split : RangeSet) (r : Int × Int) : Option RangeSet := do
  let upper ← src.first r.2
  let lower ← src.first r.1
  let curr ← upper.subtract lower
  if split.overlaps curr then none else split.union curr

/-- `split_src_ranges` for the positions `indices`. -/
def selectIndices (src indices : RangeSet) : Option RangeSet :=
  indices.pairs.foldlM (selectRange src) {}

variable {src : RangeSet}

/-- The blocks of a strictly sorted list that have a rank below `n`. -/
theorem mem_take_iff_rank
    {l : List Int} (hl : l.Pairwise (· < ·)) {n : Nat} {i : Int} :
    i ∈ l.take n ↔ i ∈ l ∧ rank l i < n := by
  constructor
  · intro hi
    obtain ⟨k, hk⟩ := List.mem_iff_getElem?.mp hi
    rw [List.getElem?_take] at hk
    split_ifs at hk with hkn
    have hmem : i ∈ l := List.mem_iff_getElem?.mpr ⟨k, hk⟩
    have hrank := getElem?_rank hl hmem
    have hlen := (List.getElem?_eq_some_iff.mp hk).1
    have heq := (List.getElem?_inj hlen (hl.imp (fun h => ne_of_lt h))).mp
      (hk.trans hrank.symm)
    exact ⟨hmem, by omega⟩
  · rintro ⟨hmem, hlt⟩
    refine List.mem_iff_getElem?.mpr ⟨(rank l i).toNat, ?_⟩
    have hnonneg : 0 ≤ rank l i := by
      unfold rank
      omega
    rw [List.getElem?_take, if_pos (by omega), getElem?_rank hl hmem]

theorem subtract_first_spec
    (hsrc : Canonical src.data) {s e : Int} (hs : 0 ≤ s) (he : 0 ≤ e) :
    ∃ upper lower curr, src.first e = some upper ∧ src.first s = some lower ∧
      upper.subtract lower = some curr ∧ Canonical curr.data ∧
      ∀ i, i ∈ curr.blocks ↔ i ∈ src.blocks ∧ s ≤ rank src.blocks i ∧ rank src.blocks i < e := by
  have hsorted := blocks_strict hsrc
  obtain ⟨upper, hupper, hucan, hublocks⟩ := first_spec hsrc he
  obtain ⟨lower, hlower, hlcan, hlblocks⟩ := first_spec hsrc hs
  obtain ⟨curr, hcurr, hcan, hmem⟩ := subtract_spec hucan hlcan
  refine ⟨upper, lower, curr, hupper, hlower, hcurr, hcan, ?_⟩
  intro i
  rw [hmem i, hublocks, hlblocks, mem_take_iff_rank hsorted, mem_take_iff_rank hsorted,
    Int.toNat_of_nonneg hs, Int.toNat_of_nonneg he]
  constructor
  · rintro ⟨⟨hi, hlt⟩, hnot⟩
    exact ⟨hi, le_of_not_gt (fun h => hnot ⟨hi, h⟩), hlt⟩
  · rintro ⟨hi, hle, hlt⟩
    exact ⟨⟨hi, hlt⟩, fun h => absurd h.2 (not_lt.mpr hle)⟩

/-- The blocks collected for some of the ranges. -/
def Selects (src : RangeSet) (ranges : List (Int × Int)) (split : RangeSet) : Prop :=
  Canonical split.data ∧ ∀ i, i ∈ split.blocks ↔
    i ∈ src.blocks ∧ ∃ r ∈ ranges, r.1 ≤ rank src.blocks i ∧ rank src.blocks i < r.2

/-- A round for a range above those already consumed. -/
theorem selectRange_selects
    (hsrc : Canonical src.data) {done : List (Int × Int)} {r : Int × Int} {split : RangeSet}
    (hdone : Selects src done split) (hr : 0 ≤ r.1 ∧ r.1 < r.2)
    (habove : ∀ d ∈ done, d.2 ≤ r.1) :
    ∃ split', selectRange src split r = some split' ∧ Selects src (done ++ [r]) split' := by
  obtain ⟨upper, lower, curr, hupper, hlower, hcurr, hcan, hmem⟩ :=
    subtract_first_spec hsrc hr.1 (e := r.2) (by omega)
  obtain ⟨u, hu, hucan, humem⟩ := union_spec hdone.1 hcan
  have hoverlap : split.overlaps curr = false := by
    rw [← Bool.not_eq_true, overlaps_spec hdone.1 hcan]
    rintro ⟨i, hi, hi'⟩
    obtain ⟨_, d, hd, _, hlt⟩ := (hdone.2 i).mp hi
    have := ((hmem i).mp hi').2.1
    have := habove d hd
    omega
  refine ⟨u, ?_, hucan, ?_⟩
  · simp [selectRange, hupper, hlower, hcurr, hoverlap, hu]
  · intro i
    rw [humem i, hdone.2 i, hmem i]
    constructor
    · rintro (⟨hi, d, hd, h⟩ | ⟨hi, h⟩)
      · exact ⟨hi, d, by simp [hd], h⟩
      · exact ⟨hi, r, by simp, h⟩
    · rintro ⟨hi, d, hd, h⟩
      rcases List.mem_append.mp hd with hd | hd
      · exact Or.inl ⟨hi, d, hd, h⟩
      · rw [List.mem_singleton.mp hd] at h
        exact Or.inr ⟨hi, h⟩

theorem pairsOf_above :
    ∀ {data : List Int}, data.Pairwise (· < ·) →
      (pairsOf data).Pairwise (fun p q => p.2 ≤ q.1)
  | [], _ => by simp [pairsOf]
  | [_], _ => by simp [pairsOf]
  | s :: e :: rest, h => by
      have hs := List.pairwise_cons.mp h
      have he := List.pairwise_cons.mp hs.2
      rw [pairsOf, List.pairwise_cons]
      refine ⟨?_, pairsOf_above he.2⟩
      intro q hq
      have hmem : q.1 ∈ blocksOf rest :=
        mem_blocksOf_iff_pairs.mpr ⟨q, hq, le_refl _, pairsOf_lt he.2 q hq⟩
      exact le_of_mem_blocksOf (fun p hp => le_of_lt (he.1 p hp)) hmem

theorem selectRanges_selects
    (hsrc : Canonical src.data) {ranges done : List (Int × Int)} {split : RangeSet}
    (hdone : Selects src done split) (hranges : ∀ r ∈ ranges, 0 ≤ r.1 ∧ r.1 < r.2)
    (habove : (done ++ ranges).Pairwise (fun p q => p.2 ≤ q.1)) :
    ∃ split', ranges.foldlM (selectRange src) split = some split' ∧
      Selects src (done ++ ranges) split' := by
  induction ranges generalizing done split with
  | nil => exact ⟨split, rfl, by simpa using hdone⟩
  | cons r ranges ih =>
      rw [List.forall_mem_cons] at hranges
      have hr : ∀ d ∈ done, d.2 ≤ r.1 := by
        intro d hd
        exact (List.pairwise_append.mp habove).2.2 d hd r (by simp)
      obtain ⟨split₁, hsplit₁, hdone₁⟩ := selectRange_selects hsrc hdone hranges.1 hr
      have hcons : done ++ r :: ranges = done ++ [r] ++ ranges := by simp
      rw [hcons] at habove ⊢
      obtain ⟨split₂, hsplit₂, hdone₂⟩ := ih hdone₁ hranges.2 habove
      refine ⟨split₂, ?_, hdone₂⟩
      rw [List.foldlM_cons, hsplit₁]
      exact hsplit₂

/-- The loop never fails its assertion, and collects the blocks with the given positions. -/
theorem selectIndices_spec
    (hsrc : Canonical src.data) {indices : RangeSet} (hindices : Canonical indices.data)
    (hnonneg : ∀ k ∈ indices.blocks, 0 ≤ k) :
    ∃ split, selectIndices src indices = some split ∧ Canonical split.data ∧
      ∀ i, i ∈ split.blocks ↔ i ∈ src.blocks ∧ rank src.blocks i ∈ indices.blocks := by
  have hranges : ∀ r ∈ indices.pairs, 0 ≤ r.1 ∧ r.1 < r.2 := by
    intro r hr
    exact ⟨pairs_nonneg hindices hnonneg r hr, pairsOf_lt hindices.strict r hr⟩
  have hempty : Selects src [] {} := ⟨canonical_nil, by simp [blocks]⟩
  obtain ⟨split, hsplit, hcan, hmem⟩ :=
    selectRanges_selects hsrc hempty hranges (pairsOf_above hindices.strict)
  refine ⟨split, hsplit, hcan, ?_⟩
  intro i
  rw [hmem i]
  have hpairs : rank src.blocks i ∈ indices.blocks ↔
      ∃ r ∈ indices.pairs, r.1 ≤ rank src.blocks i ∧ rank src.blocks i < r.2 :=
    mem_blocksOf_iff_pairs
  rw [hpairs]
  rfl

theorem exists_rank
    {l : List Int} (hl : l.Pairwise (· < ·)) {k : Int} (h₀ : 0 ≤ k) (hk : k < l.length) :
    ∃ i ∈ l, rank l i = k := by
  have hmem : k ∈ l.map (rank l) := by
    rw [map_rank hl, mem_intRange]
    exact ⟨h₀, hk⟩
  exact List.mem_map.mp hmem

/-- `map_within` computes positions, and the selection by positions inverts it. -/
theorem mapWithin_selectIndices
    (self : RangeSet) (hself : Canonical self.data) :
    (∀ other : RangeSet, Canonical other.data → other.elements ⊆ self.elements →
      ∃ r, self.mapWithin other = some r ∧ Canonical r.data ∧
        r.elements = other.elements.image
          (fun b => (((self.elements.filter (· < b)).card : Nat) : Int))) ∧
    (∀ indices : RangeSet, Canonical indices.data →
      (∀ k ∈ indices.elements, 0 ≤ k ∧ k < self.size) →
      ∃ split r, selectIndices self indices = some split ∧ split.elements ⊆ self.elements ∧
        self.mapWithin split = some r ∧ r.sameData indices = true) := by
  have hsorted := blocks_strict hself
  have hcard : ∀ b, (((self.elements.filter (· < b)).card : Nat) : Int) = rank self.blocks b := by
    intro b
    have hfilter : self.elements.filter (· < b) =
        (self.blocks.filter (fun i => decide (i < b))).toFinset := by
      ext i
      simp [elements]
    rw [hfilter, List.toFinset_card_of_nodup ((blocks_nodup hself).filter _), rank,
      List.countP_eq_length_filter]
  refine ⟨?_, ?_⟩
  · intro other hother hsub
    obtain ⟨r, hr, hcan, hblocks⟩ := mapWithin_spec hself hother
      (fun i hi => mem_elements.mp (hsub (mem_elements.mpr hi)))
    refine ⟨r, hr, hcan, ?_⟩
    ext k
    simp only [mem_elements, hblocks, List.mem_map, Finset.mem_image, hcard]
  · intro indices hindices hrange
    have hnonneg : ∀ k ∈ indices.blocks, 0 ≤ k :=
      fun k hk => (hrange k (mem_elements.mpr hk)).1
    obtain ⟨split, hsplit, hcan, hmem⟩ := selectIndices_spec hself hindices hnonneg
    have hsub : ∀ i ∈ split.blocks, i ∈ self.blocks := fun i hi => ((hmem i).mp hi).1
    obtain ⟨r, hr, hrcan, hblocks⟩ := mapWithin_spec hself hcan hsub
    refine ⟨split, r, hsplit, ?_, hr, (sameData_iff hrcan hindices).mpr ?_⟩
    · intro i hi
      exact mem_elements.mpr (hsub i (mem_elements.mp hi))
    · intro k
      rw [hblocks, List.mem_map]
      constructor
      · rintro ⟨i, hi, rfl⟩
        exact ((hmem i).mp hi).2
      · intro hk
        have hbounds := hrange k (mem_elements.mpr hk)
        rw [size_eq_length hself] at hbounds
        obtain ⟨i, hi, rfl⟩ := exists_rank hsorted hbounds.1 hbounds.2
        exact ⟨i, (hmem i).mpr ⟨hi, hk⟩, rfl⟩

/-- Two ranges, and the positions 1 and 2 across the gap. -/
theorem mapWithin_selectIndices_gap :
    Canonical [10, 12, 30, 35] ∧
      ∃ split r, selectIndices ⟨[10, 12, 30, 35], true, {}⟩ ⟨[1, 3], true, {}⟩ = some split ∧
        split.elements ⊆ elements ⟨[10, 12, 30, 35], true, {}⟩ ∧
        mapWithin ⟨[10, 12, 30, 35], true, {}⟩ split = some r ∧
        r.sameData ⟨[1, 3], true, {}⟩ = true := by
  have hself : Canonical [10, 12, 30, 35] := ⟨by decide, by decide⟩
  have hindices : Canonical [1, 3] := ⟨by decide, by decide⟩
  exact ⟨hself, (mapWithin_selectIndices ⟨[10, 12, 30, 35], true, {}⟩ hself).2
    ⟨[1, 3], true, {}⟩ hindices (by decide)⟩

end RangeSet
end RangeLib
end AndroidBuild
