import AndroidBuild.BlockImageDiff.SequenceGood

/-!
# Images

An image gives the content of its blocks, the blocks that matter (`care_map`),
the blocks around them that have to be zero (`extended`) and the blocks of each
file.  The programs that the tool runs or links against are the parameters
`Tools`.
-/

namespace AndroidBuild
namespace BlockImageDiff

open Loop RangeLib

variable {Block : Type}

structure Image (Block : Type) where
  totalBlocks : Nat
  careMap : BlockSet
  extended : BlockSet
  fileMap : OrderedDict String BlockSet
  content : Int → Block
  /-- `extended` is computed by subtracting `care_map`. -/
  extended_disjoint : ∀ i, i ∈ extended → i ∉ careMap

/-- `ReadRangeSet`. -/
def Image.read (img : Image Block) (s : BlockSet) : List Block :=
  s.blocks.map img.content

/-- One line `<patch_size> <tgt_size> <src_ranges>` of `--split-info`; the source
ranges are the numbers of a raw range string. -/
structure SplitLine where
  patchSize : Nat
  tgtSize : Nat
  srcRanges : List Nat

/-- The output of `imgdiff --split-info`: the lines of the info file and the patch. -/
structure SplitOutput where
  version : Int
  count : Nat
  lines : List SplitLine
  patch : List UInt8

/-- Programs and libraries outside of the repository.  `none` is a failure. -/
structure Tools (Block : Type) where
  sha1 : List Block → String
  /-- `bsdiff`, or `imgdiff -z` when the flag is set. -/
  computePatch : Bool → List Block → List Block → Option (List UInt8)
  /-- `imgdiff -z --block-limit`. -/
  imgdiffSplit : Nat → List Block → List Block → Option SplitOutput
  /-- The length after `deflate`. -/
  compressedSize : List Block → Option Nat
  /-- The floating-point number `a * 100.0 / b`. -/
  percent : Nat → Nat → ℚ

def Image.rangeSha1 (img : Image Block) (tools : Tools Block) (s : BlockSet) : String :=
  tools.sha1 (img.read s)

/-- One round of `AssertPartition`. -/
def addPart (soFar : RangeSet) (i : RangeSet) : Except PyError RangeSet :=
  if soFar.overlaps i then .error .assertionError
  else
    match soFar.union i with
    | none => .error .assertionError
    | some r => .ok r

def assertPartition (total : RangeSet) (seq : List RangeSet) : Except PyError Unit := do
  let soFar ← seq.foldlM addPart {}
  if soFar.sameData total then pure () else .error .assertionError

/-- The ranges of `image.file_map` partition `image.care_map`. -/
def Image.assertFileMap (img : Image Block) : Except PyError Unit :=
  assertPartition img.careMap.toRangeSet (img.fileMap.values.map BlockSet.toRangeSet)

section Read

theorem length_read
    (img : Image Block) (s : BlockSet) :
    ((img.read s).length : Int) = s.size := by
  rw [BlockSet.size_eq_length]
  simp [Image.read]

end Read

section Partition

/-- Every part of a partition belongs to the whole. -/
theorem assertPartition_subset
    {total : RangeSet} {seq : List RangeSet} (hcanon : ∀ r ∈ seq, Canonical r.data)
    (hrun : assertPartition total seq = .ok ()) :
    ∀ r ∈ seq, ∀ i ∈ r.blocks, i ∈ total.blocks := by
  unfold assertPartition at hrun
  obtain ⟨soFar, hfold, hrun⟩ := bind_eq_ok.mp hrun
  split_ifs at hrun with hsame
  have hinv := forLoop_ok
    (fun done (soFar : RangeSet) => Canonical soFar.data ∧
      ∀ r ∈ done, ∀ i ∈ r.blocks, i ∈ soFar.blocks) hfold
    ⟨canonical_nil, by simp⟩
    (by
      intro done r rest soFar soFar' hsplit hinv hstep
      obtain ⟨u, hu, hcu, hmem⟩ :=
        RangeSet.union_spec hinv.1 (hcanon r (by simp [hsplit]))
      unfold addPart at hstep
      split_ifs at hstep
      rw [hu] at hstep
      cases hstep
      refine ⟨hcu, ?_⟩
      intro r' hr' i hi
      rw [hmem]
      rcases List.mem_append.mp hr' with hr' | hr'
      · exact Or.inl (hinv.2 r' hr' i hi)
      · rw [List.mem_singleton.mp hr'] at hi
        exact Or.inr hi)
  have hdata : soFar.data = total.data := of_decide_eq_true hsame
  intro r hr i hi
  have := hinv.2 r hr i hi
  unfold RangeSet.blocks at this ⊢
  rwa [← hdata]

theorem assertFileMap_subset
    {img : Image Block} (hrun : img.assertFileMap = .ok ()) {name : String} {s : BlockSet}
    (hs : (name, s) ∈ img.fileMap.entries) :
    ∀ i, i ∈ s → i ∈ img.careMap := by
  have hmem : s.toRangeSet ∈ img.fileMap.values.map BlockSet.toRangeSet :=
    List.mem_map_of_mem (List.mem_map.mpr ⟨(name, s), hs, rfl⟩)
  refine assertPartition_subset ?_ hrun s.toRangeSet hmem
  intro r hr
  obtain ⟨s', _, rfl⟩ := List.mem_map.mp hr
  exact s'.canonical

theorem assertPartition_nodup
    {total : RangeSet} {seq : List RangeSet} (hcanon : ∀ r ∈ seq, Canonical r.data)
    (hrun : assertPartition total seq = .ok ()) :
    (seq.flatMap RangeSet.blocks).Nodup := by
  unfold assertPartition at hrun
  obtain ⟨soFar, hfold, _⟩ := bind_eq_ok.mp hrun
  have hinv := forLoop_ok
    (fun done (soFar : RangeSet) => Canonical soFar.data ∧
      (∀ i, i ∈ soFar.blocks ↔ i ∈ done.flatMap RangeSet.blocks) ∧
      (done.flatMap RangeSet.blocks).Nodup) hfold
    ⟨canonical_nil, by simp [RangeSet.blocks], by simp⟩
    (by
      intro done r rest soFar soFar' hsplit hinv hstep
      obtain ⟨hcan, hmemDone, hnodup⟩ := hinv
      have hr : Canonical r.data := hcanon r (by simp [hsplit])
      obtain ⟨u, hu, hcu, hmem⟩ := RangeSet.union_spec hcan hr
      unfold addPart at hstep
      split_ifs at hstep with hoverlap
      rw [hu] at hstep
      cases hstep
      rw [RangeSet.overlaps_spec hcan hr] at hoverlap
      refine ⟨hcu, ?_, ?_⟩
      · intro i
        rw [hmem i, hmemDone i]
        simp
      · rw [List.flatMap_append, List.flatMap_singleton, List.nodup_append]
        refine ⟨hnodup, RangeSet.blocks_nodup hr, ?_⟩
        intro i hi j hj hij
        subst hij
        exact hoverlap ⟨i, (hmemDone i).mpr hi, hj⟩)
  exact hinv.2.2

theorem assertFileMap_nodup
    {img : Image Block} (hrun : img.assertFileMap = .ok ()) :
    (img.fileMap.entries.flatMap (fun e => e.2.blocks)).Nodup := by
  have hcanon : ∀ r ∈ img.fileMap.values.map BlockSet.toRangeSet, Canonical r.data := by
    intro r hr
    obtain ⟨s', _, rfl⟩ := List.mem_map.mp hr
    exact s'.canonical
  have h := assertPartition_nodup hcanon hrun
  rw [OrderedDict.values, List.map_map, List.flatMap_map] at h
  exact h

end Partition

end BlockImageDiff
end AndroidBuild
