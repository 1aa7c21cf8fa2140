import AndroidBuild.SparseImg.Expansion

/-!
# Reading from a sparse image

`_GetRangeData` takes the last chunk that starts at or before the first block
of a range.  Chunks without blocks start at the same block as the chunk behind
them, so the last one is the one that holds the block; the chunks behind it
continue the range because every block of the range has content.
-/

namespace AndroidBuild
namespace SparseImg

open RangeLib SparseImage

section Opening

/-- What `__init__` makes of a well-formed file. -/
structure Opened (f : SparseFile) (img : SparseImage) : Prop where
  file : img.simgF = f.encode
  blocksize : img.blocksize = f.blkSz
  totalBlocks : img.totalBlocks = f.totalBlks
  totalChunks : img.totalChunks = f.chunks.length
  covers : Covers img.simgF img.blocksize img.offsetMap f.expansion
  canonical : Canonical img.careMap.data
  careMap : ∀ i, i ∈ img.careMap.blocks ↔
    ∃ e ∈ img.offsetMap, (e.chunkStart : Int) ≤ i ∧ i < (e.chunkStart + e.chunkLen : Nat)

/-- The end points of the chunks with data. -/
def carePoints (offsetMap : List ChunkEntry) : List Int :=
  offsetMap.flatMap
    (fun e => [(e.chunkStart : Int), ((e.chunkStart + e.chunkLen : Nat) : Int)])

theorem length_carePoints
    (offsetMap : List ChunkEntry) :
    (carePoints offsetMap).length % 2 = 0 := by
  induction offsetMap with
  | nil => rfl
  | cons e offsetMap ih =>
      simp only [carePoints, List.flatMap_cons, List.length_append, List.length_cons,
        List.length_nil] at ih ⊢
      omega

theorem carePoints_sorted
    {offsetMap : List ChunkEntry}
    (h : offsetMap.Pairwise (fun a b => a.chunkStart + a.chunkLen ≤ b.chunkStart)) :
    (carePoints offsetMap).Pairwise (· ≤ ·) := by
  induction h with
  | nil => exact List.Pairwise.nil
  | @cons e offsetMap hall _ ih =>
      have hafter : ∀ p ∈ carePoints offsetMap, ((e.chunkStart + e.chunkLen : Nat) : Int) ≤ p := by
        intro p hp
        obtain ⟨d, hd, hp⟩ := List.mem_flatMap.mp hp
        have hle := hall d hd
        simp only [List.mem_cons, List.not_mem_nil, or_false] at hp
        rcases hp with rfl | rfl <;> omega
      refine List.pairwise_cons.mpr ⟨?_, List.pairwise_cons.mpr ⟨hafter, ih⟩⟩
      intro p hp
      rcases List.mem_cons.mp hp with rfl | hp
      · omega
      · have hle := hafter p hp
        omega

theorem mem_carePoints_blocks
    (offsetMap : List ChunkEntry) (i : Int) :
    i ∈ RangeSet.blocksOf (carePoints offsetMap) ↔
      ∃ e ∈ offsetMap, (e.chunkStart : Int) ≤ i ∧ i < (e.chunkStart + e.chunkLen : Nat) := by
  have hpairs : RangeSet.pairsOf (carePoints offsetMap) =
      offsetMap.map (fun e => ((e.chunkStart : Int), ((e.chunkStart + e.chunkLen : Nat) : Int))) := by
    induction offsetMap with
    | nil => rfl
    | cons e offsetMap ih =>
        rw [List.map_cons, ← ih]
        rfl
  rw [RangeSet.mem_blocksOf_iff_pairs, hpairs]
  simp

/-- `__init__` accepts a well-formed file. -/
theorem init_encode
    (f : SparseFile) {text : Option String} {clobbered : RangeSet}
    (htext : clobberedSet text = some clobbered) :
    ∃ img, init f.encode text = some img ∧ Opened f img ∧ img.clobberedBlocks = clobbered := by
  have hheader : Bytes.slice f.encode 0 28 = f.header :=
    Bytes.slice_mid (a := []) rfl rfl (length_fileHeader f).symm
  obtain ⟨st, hrun, hst⟩ := scanChunks_spec (length_fileHeader f) scanned_nil f.chunks_ok
    (show f.encode = f.header ++ _ from rfl)
  have hcare : st.careData = carePoints st.offsetMap := hst.care
  obtain ⟨care, hofData, hcan, hblocks⟩ :=
    ofData_spec (carePoints_sorted hst.covers.sorted) (length_carePoints st.offsetMap)
  rw [← hcare] at hofData
  have hmem : ∀ i, i ∈ care.blocks ↔ ∃ e ∈ st.offsetMap,
      (e.chunkStart : Int) ≤ i ∧ i < (e.chunkStart + e.chunkLen : Nat) := by
    intro i
    rw [hblocks]
    exact mem_carePoints_blocks st.offsetMap i
  have hnonneg : ∀ i ∈ care.blocks, 0 ≤ i := by
    intro i hi
    obtain ⟨e, _, hle, _⟩ := (hmem i).mp hi
    omega
  obtain ⟨ext₁, hext₁, hcan₁, _⟩ := RangeSet.extend_spec hcan hnonneg (n := 512) (by decide)
  obtain ⟨all, hall, hcanAll, _⟩ := ofData_spec
    (l := [0, (f.totalBlks : Int)]) (by simp) (by simp)
  obtain ⟨ext₂, hext₂, hcan₂, _⟩ := RangeSet.intersect_spec hcan₁ hcanAll
  obtain ⟨ext₃, hext₃, _, _⟩ := RangeSet.subtract_spec hcan₂ hcan
  refine ⟨⟨f.encode, f.blkSz, f.totalBlks, f.chunks.length, st.offsetMap, clobbered, care, ext₃⟩,
    ?_, ⟨rfl, rfl, rfl, rfl, hst.covers, hcan, hmem⟩, rfl⟩
  rw [init, hheader, unpackHeader_header]
  simp [Header.check, htext, hrun, hofData, hext₁, hall, hext₂, hext₃]

theorem opened_of_init
    {f : SparseFile} {text : Option String} {img : SparseImage}
    (h : init f.encode text = some img) :
    Opened f img ∧ clobberedSet text = some img.clobberedBlocks := by
  cases htext : clobberedSet text with
  | none =>
      rw [init] at h
      simp only [htext, Option.bind_eq_bind, Option.bind_none] at h
      cases hheader : unpackHeader (Bytes.slice f.encode 0 28) with
      | none => simp [hheader] at h
      | some hdr => simp [hheader] at h
  | some clobbered =>
      obtain ⟨img', hinit, hopened, hclobbered⟩ := init_encode f htext
      rw [h] at hinit
      cases hinit
      exact ⟨hopened, by rw [hclobbered]⟩

end Opening

section Chunks

variable {img : SparseImage} {blocks : List Block}

/-- The blocks `s`, ..., `s + n - 1` one after the other. -/
def blockRun (blocks : List Block) (s : Int) (n : Nat) : Bytes :=
  (List.range n).flatMap (fun k : Nat => blockBytes blocks (s + (k : Int)))

theorem blockRun_add
    (blocks : List Block) (s : Int) (n m : Nat) :
    blockRun blocks s (n + m) = blockRun blocks s n ++ blockRun blocks (s + n) m := by
  unfold blockRun
  rw [List.range_add, List.flatMap_append, List.flatMap_map]
  simp only [Nat.cast_add, add_assoc]

theorem blockRun_eq_flatMap_intRange
    (blocks : List Block) (s e : Int) :
    blockRun blocks s (e - s).toNat = (RangeSet.intRange s e).flatMap (blockBytes blocks) := by
  unfold blockRun RangeSet.intRange
  rw [List.flatMap_map]

theorem slice_blocks
    (file : Bytes) (p blkSz m : Nat) :
    Bytes.slice file p (m * blkSz) =
      (List.range m).flatMap (fun k => Bytes.slice file (p + k * blkSz) blkSz) := by
  induction m with
  | zero => simp [Bytes.slice]
  | succ m ih =>
      rw [Nat.succ_mul, Bytes.slice_add, ih, List.range_succ, List.flatMap_append,
        List.flatMap_singleton]

theorem repeated_blocks
    (word : Bytes) (q m : Nat) :
    repeated word ((m : Int) * (q : Int)) = (List.range m).flatMap (fun _ => repeated word q) := by
  induction m with
  | zero => simp [repeated]
  | succ m ih =>
      have hsucc : (((m + 1 : Nat) : Int) * (q : Int)).toNat = ((m : Int) * q).toNat + (q : Int).toNat := by
        rw [← Nat.cast_mul, ← Nat.cast_mul, Int.toNat_natCast, Int.toNat_natCast,
          Int.toNat_natCast, Nat.succ_mul]
      rw [List.range_succ, List.flatMap_append, List.flatMap_singleton, ← ih]
      unfold repeated
      rw [hsucc, ← List.replicate_append_replicate, List.flatten_append]

/-- What is yielded for blocks of one chunk. -/
theorem chunkPiece_spec
    (h : Covers img.simgF img.blocksize img.offsetMap blocks) {e : ChunkEntry}
    (he : e ∈ img.offsetMap) (skip m : Nat) (hle : skip + m ≤ e.chunkLen) :
    chunkPiece img e skip m = some (blockRun blocks ((e.chunkStart + skip : Nat) : Int) m) := by
  have hblock : ∀ k ∈ List.range m, blockBytes blocks (((e.chunkStart + skip : Nat) : Int) + k) =
      entryBlock img.simgF img.blocksize e (skip + k) := by
    intro k hk
    have hk := List.mem_range.mp hk
    have hdata := h.data e he (skip + k) (by omega)
    have hindex : (((e.chunkStart + skip : Nat) : Int) + k).toNat = e.chunkStart + (skip + k) := by
      omega
    rw [blockBytes, hindex, hdata]
    rfl
  rw [blockRun, List.flatMap_congr hblock]
  unfold chunkPiece entryBlock
  cases e.data with
  | raw filepos =>
      have hpos : (filepos : Int) + (skip : Int) * (img.blocksize : Int) =
          ((filepos + skip * img.blocksize : Nat) : Int) := by push_cast; rfl
      have hlen : (m : Int) * (img.blocksize : Int) = ((m * img.blocksize : Nat) : Int) := by
        push_cast
        rfl
      simp only [readFile, hpos, hlen, Int.toNat_natCast]
      rw [if_neg (by omega), if_neg (by omega), slice_blocks]
      simp only [Nat.add_mul, Nat.add_assoc]
  | fill word =>
      simp only [repeated_blocks]

theorem readFollowing_spec
    (h : Covers img.simgF img.blocksize img.offsetMap blocks)
    {entries : List ChunkEntry} (hsub : ∀ e ∈ entries, e ∈ img.offsetMap)
    (hsorted : entries.Pairwise (fun a b => a.chunkStart + a.chunkLen ≤ b.chunkStart))
    (cur n : Nat) (hstart : ∀ e ∈ entries, cur ≤ e.chunkStart)
    (hcov : ∀ i, cur ≤ i → i < cur + n →
      ∃ e ∈ entries, e.chunkStart ≤ i ∧ i < e.chunkStart + e.chunkLen) :
    ∃ pieces, readFollowing img entries n = some pieces ∧
      pieces.flatten = blockRun blocks cur n := by
  induction entries generalizing cur n with
  | nil =>
      have hn : n = 0 := by
        by_contra hne
        obtain ⟨e, he, _⟩ := hcov cur (le_refl _) (by omega)
        simp at he
      subst hn
      exact ⟨[], rfl, rfl⟩
  | cons e entries ih =>
      rw [List.forall_mem_cons] at hsub hstart
      rw [List.pairwise_cons] at hsorted
      by_cases hn : n = 0
      · subst hn
        exact ⟨[], rfl, rfl⟩
      · -- a chunk with blocks starts where the last one ended
        have hcur : min e.chunkLen n = 0 ∨ e.chunkStart = cur := by
          obtain ⟨d, hd, hle, hlt⟩ := hcov cur (le_refl _) (by omega)
          rcases List.mem_cons.mp hd with rfl | hd
          · omega
          · have := hsorted.1 d hd
            omega
        have hpiece : chunkPiece img e 0 (min (e.chunkLen : Int) n) =
            some (blockRun blocks cur (min e.chunkLen n)) := by
          have hspec := chunkPiece_spec h hsub.1 0 (min e.chunkLen n) (by omega)
          rw [Nat.cast_zero, Nat.cast_min, Nat.add_zero] at hspec
          rw [hspec]
          rcases hcur with hzero | hstart
          · rw [hzero]
            rfl
          · rw [hstart]
        obtain ⟨pieces, hpieces, hflat⟩ := ih hsub.2 hsorted.2
          (cur + min e.chunkLen n) (n - min e.chunkLen n)
          (by
            intro d hd
            have := hsorted.1 d hd
            have := hstart.2 d hd
            omega)
          (by
            intro i hle hlt
            obtain ⟨d, hd, hdi⟩ := hcov i (by omega) (by omega)
            rcases List.mem_cons.mp hd with rfl | hd
            · omega
            · exact ⟨d, hd, hdi⟩)
        refine ⟨blockRun blocks cur (min e.chunkLen n) :: pieces, ?_, ?_⟩
        · have hrest : (n : Int) - min (e.chunkLen : Int) n = ((n - min e.chunkLen n : Nat) : Int) := by
            omega
          rw [readFollowing, if_neg (by omega)]
          simp only [hpiece, hrest, hpieces, Option.bind_eq_bind, Option.bind_some]
          rfl
        · rw [List.flatten_cons, hflat, Nat.cast_add, ← blockRun_add]
          congr 1
          omega

end Chunks

section Ranges

variable {f : SparseFile} {img : SparseImage}

theorem bisectRight_split
    {before after : List ChunkEntry} {e : ChunkEntry} {s : Nat}
    (hsorted : (before ++ e :: after).Pairwise
      (fun a b => a.chunkStart + a.chunkLen ≤ b.chunkStart))
    (hle : e.chunkStart ≤ s) (hlt : s < e.chunkStart + e.chunkLen) :
    bisectRight (before ++ e :: after) s = before.length + 1 := by
  obtain ⟨_, hafter, hcross⟩ := List.pairwise_append.mp hsorted
  have hbefore : ∀ d ∈ before, decide ((d.chunkStart : Int) ≤ s) = true := by
    intro d hd
    have := hcross d hd e (by simp)
    simp
    omega
  have hnil : after.takeWhile (fun e => decide ((e.chunkStart : Int) ≤ s)) = [] := by
    cases after with
    | nil => rfl
    | cons d after =>
        have := (List.pairwise_cons.mp hafter).1 d (by simp)
        rw [List.takeWhile_cons_of_neg]
        simp
        omega
  rw [bisectRight, List.takeWhile_append_of_pos hbefore,
    List.takeWhile_cons_of_pos (by simpa using hle), hnil]
  simp

theorem readRange_spec
    (h : Opened f img) {s e : Int} (hlt : s < e)
    (hcare : ∀ i, s ≤ i → i < e → i ∈ img.careMap.blocks) :
    ∃ pieces, readRange img (s, e) = some pieces ∧
      pieces.flatten = (RangeSet.intRange s e).flatMap (blockBytes f.expansion) := by
  obtain ⟨c, hc, hle, hend⟩ := (h.careMap s).mp (hcare s (le_refl _) hlt)
  obtain ⟨s, rfl⟩ : ∃ k : Nat, s = k := ⟨s.toNat, by omega⟩
  obtain ⟨n, rfl⟩ : ∃ n : Nat, e = ((s + n : Nat) : Int) := ⟨(e - s).toNat, by omega⟩
  obtain ⟨before, after, hsplit⟩ := List.append_of_mem hc
  have hsorted := h.covers.sorted
  rw [hsplit] at hsorted
  have hidx : bisectRight img.offsetMap s = before.length + 1 := by
    rw [hsplit]
    exact bisectRight_split hsorted (by omega) (by omega)
  have hentry : entryAt img.offsetMap before.length = some c := by
    rw [entryAt, if_neg (by omega), hsplit]
    simp
  have hafter : ∀ d ∈ after, c.chunkStart + c.chunkLen ≤ d.chunkStart := by
    intro d hd
    exact (List.pairwise_cons.mp (List.pairwise_append.mp hsorted).2.1).1 d hd
  -- the part of the range in the first chunk
  obtain ⟨m, hm⟩ : ∃ m, m = min (c.chunkStart + c.chunkLen - s) n := ⟨_, rfl⟩
  have hpiece := chunkPiece_spec h.covers hc (s - c.chunkStart) m (by omega)
  have hskip : c.chunkStart + (s - c.chunkStart) = s := by omega
  rw [hskip] at hpiece
  obtain ⟨pieces, hpieces, hflat⟩ := readFollowing_spec h.covers
    (fun d (hd : d ∈ after) => by rw [hsplit]; simp [hd])
    (List.pairwise_cons.mp (List.pairwise_append.mp hsorted).2.1).2 (s + m) (n - m)
    (fun d hd => by have := hafter d hd; omega)
    (by
      intro i hi hin
      obtain ⟨d, hd, hdi⟩ := (h.careMap i).mp (hcare i (by omega) (by omega))
      rw [hsplit] at hd
      rcases List.mem_append.mp hd with hd | hd
      · have := (List.pairwise_append.mp hsorted).2.2 d hd c (by simp)
        omega
      · rcases List.mem_cons.mp hd with rfl | hd
        · omega
        · exact ⟨d, hd, by omega, by omega⟩)
  refine ⟨blockRun f.expansion s m :: pieces, ?_, ?_⟩
  · have hread : ((s + n : Nat) : Int) - s = n := by omega
    have hskip' : (s : Int) - c.chunkStart = ((s - c.chunkStart : Nat) : Int) := by omega
    have hthis : min ((c.chunkLen : Int) - ((s - c.chunkStart : Nat) : Int)) n = m := by omega
    have hrest : (n : Int) - m = ((n - m : Nat) : Int) := by omega
    have hdrop : img.offsetMap.drop ((before.length : Int) + 1).toNat = after := by
      have : ((before.length : Int) + 1).toNat = before.length + 1 := by omega
      rw [this, hsplit]
      simp
    have hindex : ((before.length + 1 : Nat) : Int) - 1 = before.length := by omega
    rw [readRange]
    simp only [hidx, hindex, hentry, hread, hskip', hthis, hpiece, hdrop, hrest, hpieces,
      Option.bind_eq_bind, Option.bind_some]
    rfl
  · have hn : (((s + n : Nat) : Int) - s).toNat = m + (n - m) := by omega
    rw [List.flatten_cons, hflat, ← blockRun_eq_flatMap_intRange, hn, blockRun_add, Nat.cast_add]

theorem readRangeSet_spec
    (h : Opened f img) {ranges : RangeSet} (hcan : Canonical ranges.data)
    (hcare : ∀ i ∈ ranges.blocks, i ∈ img.careMap.blocks) :
    ∃ pieces, img.readRangeSet ranges = some pieces ∧
      pieces.flatten = ranges.blocks.flatMap (blockBytes f.expansion) := by
  have hpairs : ∀ p ∈ ranges.pairs, p.1 < p.2 ∧
      ∀ i, p.1 ≤ i → i < p.2 → i ∈ img.careMap.blocks := by
    intro p hp
    refine ⟨RangeSet.pairsOf_lt hcan.strict p hp, ?_⟩
    intro i hle hlt
    exact hcare i (RangeSet.mem_blocksOf_iff_pairs.mpr ⟨p, hp, hle, hlt⟩)
  unfold readRangeSet RangeSet.blocks RangeSet.blocksOf
  change ∃ pieces, (ranges.pairs.mapM (readRange img)).bind _ = _ ∧
    _ = (ranges.pairs.flatMap _).flatMap _
  generalize ranges.pairs = pairs at hpairs
  induction pairs with
  | nil => exact ⟨[], rfl, rfl⟩
  | cons p pairs ih =>
      rw [List.forall_mem_cons] at hpairs
      obtain ⟨first, hfirst, hflat₁⟩ := readRange_spec h hpairs.1.1 hpairs.1.2
      obtain ⟨pieces, hpieces, hflat₂⟩ := ih hpairs.2
      obtain ⟨rest, hrest, hjoin⟩ := Option.bind_eq_some_iff.mp hpieces
      cases hjoin
      refine ⟨first ++ rest.flatten, ?_, ?_⟩
      · rw [List.mapM_cons, hfirst, hrest]
        rfl
      · rw [List.flatten_append, hflat₁, hflat₂, List.flatMap_cons, List.flatMap_append]

end Ranges

section Append

/-- The chunk that `AppendFillChunk` writes. -/
def fillChunk (data blocks : Nat) : Chunk where
  reserved := 0
  chunkSz := blocks
  body := .fill (Bytes.ofNat 4 data)

theorem fillChunk_wellFormed
    {data blocks : Nat} (hblocks : blocks < 256 ^ 4) (blkSz : Nat) :
    (fillChunk data blocks).WellFormed blkSz where
  reserved_lt := by simp [fillChunk]
  chunkSz_lt := hblocks
  totalSz_lt := by simp [Chunk.payload, fillChunk]
  body_ok := by simp [fillChunk]

def SparseFile.append
    (f : SparseFile) (c : Chunk) (hc : c.WellFormed f.blkSz)
    (hchunks : f.chunks.length + 1 < 256 ^ 4) (hblks : f.totalBlks + c.chunkSz < 256 ^ 4) :
    SparseFile where
  blkSz := f.blkSz
  checksum := f.checksum
  chunks := f.chunks ++ [c]
  blkSz_lt := f.blkSz_lt
  blkSz_mod := f.blkSz_mod
  chunks_ok := by
    intro d hd
    rcases List.mem_append.mp hd with hd | hd
    · exact f.chunks_ok d hd
    · rw [List.mem_singleton.mp hd]
      exact hc
  totalChunks_lt := by simpa using hchunks
  totalBlks_lt := by simpa [SparseFile.totalBlks] using hblks

/-- Writing over the two totals of the header. -/
theorem encode_append
    (f : SparseFile) (c : Chunk) (hc : c.WellFormed f.blkSz)
    (hchunks : f.chunks.length + 1 < 256 ^ 4) (hblks : f.totalBlks + c.chunkSz < 256 ^ 4) :
    (f.append c hc hchunks hblks).encode =
      (f.encode ++ c.encode).take 16 ++
        (Bytes.ofNat 4 (f.totalBlks + c.chunkSz) ++ Bytes.ofNat 4 (f.chunks.length + 1)) ++
        (f.encode ++ c.encode).drop 24 := by
  have hsplit : ∀ g : SparseFile, g.header =
      Bytes.fields [(4, 0xED26FF3A), (2, 1), (2, 0), (2, 28), (2, 12), (4, g.blkSz)] ++
        (Bytes.ofNat 4 g.totalBlks ++ Bytes.ofNat 4 g.chunks.length) ++
        Bytes.ofNat 4 g.checksum := by
    intro g
    simp [SparseFile.header, SparseFile.headerFields, Bytes.fields]
  have htotal : (f.append c hc hchunks hblks).totalBlks = f.totalBlks + c.chunkSz := by
    simp [SparseFile.totalBlks, SparseFile.append]
  have hfile : f.encode ++ c.encode =
      Bytes.fields [(4, 0xED26FF3A), (2, 1), (2, 0), (2, 28), (2, 12), (4, f.blkSz)] ++
        ((Bytes.ofNat 4 f.totalBlks ++ Bytes.ofNat 4 f.chunks.length) ++
          (Bytes.ofNat 4 f.checksum ++ (f.chunks ++ [c]).flatMap Chunk.encode)) := by
    rw [SparseFile.encode, hsplit f]
    simp
  have htake : (f.encode ++ c.encode).take 16 =
      Bytes.fields [(4, 0xED26FF3A), (2, 1), (2, 0), (2, 28), (2, 12), (4, f.blkSz)] := by
    rw [hfile]
    exact List.take_left' (by simp)
  have hdrop : (f.encode ++ c.encode).drop 24 =
      Bytes.ofNat 4 f.checksum ++ (f.chunks ++ [c]).flatMap Chunk.encode := by
    rw [hfile, ← List.append_assoc]
    exact List.drop_left' (by simp)
  rw [htake, hdrop, SparseFile.encode, hsplit, htotal]
  simp [SparseFile.append]

/-- `AppendFillChunk` writes the well-formed file with one more chunk. -/
theorem appendFillChunk_spec
    {f : SparseFile} {img img' : SparseImage} (h : Opened f img) {data blocks : Nat}
    (hrun : img.appendFillChunk data blocks = some img') :
    ∃ g : SparseFile, img'.simgF = g.encode ∧ g.blkSz = f.blkSz ∧
      g.chunks = f.chunks ++ [fillChunk data blocks] := by
  simp only [appendFillChunk, pack, h.totalBlocks, h.totalChunks, Option.bind_eq_bind,
    Option.bind_eq_some_iff, Option.ite_none_right_eq_some, Option.some.injEq] at hrun
  obtain ⟨_, ⟨hblocks, rfl⟩, _, ⟨hdata, rfl⟩, _, ⟨htotal, rfl⟩, _, ⟨hchunks, rfl⟩, hpure⟩ := hrun
  cases hpure
  refine ⟨f.append (fillChunk data blocks) (fillChunk_wellFormed hblocks f.blkSz) hchunks htotal,
    ?_, rfl, rfl⟩
  have hchunk : (fillChunk data blocks).encode = Bytes.ofNat 2 0xCAC2 ++ Bytes.ofNat 2 0 ++
      Bytes.ofNat 4 blocks ++ Bytes.ofNat 4 16 ++ Bytes.ofNat 4 data := by
    simp [fillChunk, Chunk.encode, Chunk.header, Chunk.headerFields, Chunk.chunkType,
      Chunk.payload, Bytes.fields]
  refine Eq.trans ?_ (encode_append f (fillChunk data blocks) _ _ _).symm
  rw [hchunk, h.file]
  rfl

theorem appendFillChunk_total
    {f : SparseFile} {img : SparseImage} (h : Opened f img) {data blocks : Nat}
    (hdata : data < 256 ^ 4) (hblocks : f.totalBlks + blocks < 256 ^ 4)
    (hchunks : f.chunks.length + 1 < 256 ^ 4) :
    (img.appendFillChunk data blocks).isSome = true := by
  have hlt : blocks < 256 ^ 4 := by omega
  simp only [appendFillChunk, pack, h.totalBlocks, h.totalChunks, if_pos hdata, if_pos hlt,
    if_pos hblocks, if_pos hchunks, Option.bind_eq_bind, Option.bind_some]
  rfl

end Append

section Image

theorem mem_careMap_iff
    {f : SparseFile} {img : SparseImage} (h : Opened f img) (i : Int) :
    i ∈ img.careMap.blocks ↔
      0 ≤ i ∧ ∃ bytes, f.expansion[i.toNat]? = some (some bytes) := by
  rw [h.careMap i]
  constructor
  · rintro ⟨e, he, hle, hlt⟩
    refine ⟨by omega, entryBlock img.simgF img.blocksize e (i.toNat - e.chunkStart), ?_⟩
    rw [← h.covers.data e he (i.toNat - e.chunkStart) (by omega)]
    congr 1
    omega
  · rintro ⟨hnonneg, bytes, hbytes⟩
    obtain ⟨e, he, hle, hlt⟩ := h.covers.complete _ _ hbytes
    exact ⟨e, he, by omega, by omega⟩

/-- A sparse image: what it cares about, what it reads, and what a fill chunk adds. -/
theorem sparseImage_expands
    (f : SparseFile) (text : Option String) (img : SparseImage)
    (hinit : init f.encode text = some img) :
    (∀ i, i ∈ img.careMap.elements ↔
      0 ≤ i ∧ ∃ bytes, f.expansion[i.toNat]? = some (some bytes)) ∧
    (∀ ranges : RangeSet, Canonical ranges.data → ranges.elements ⊆ img.careMap.elements →
      ∃ pieces, img.readRangeSet ranges = some pieces ∧
        pieces.flatten = ranges.blocks.flatMap (blockBytes f.expansion)) ∧
    (∀ data blocks : Nat,
      (data < 256 ^ 4 → f.totalBlks + blocks < 256 ^ 4 → f.chunks.length + 1 < 256 ^ 4 →
        (img.appendFillChunk data blocks).isSome = true) ∧
      ∀ img', img.appendFillChunk data blocks = some img' →
        ∃ g : SparseFile, img'.simgF = g.encode ∧
          g.expansion = f.expansion ++ List.replicate blocks
            (some (repeated (Bytes.ofNat 4 data) (f.blkSz / 4 : Nat))) ∧
          (init img'.simgF text).isSome = true) := by
  obtain ⟨hopened, htext⟩ := opened_of_init hinit
  refine ⟨?_, ?_, ?_⟩
  · intro i
    rw [RangeSet.mem_elements]
    exact mem_careMap_iff hopened i
  · intro ranges hcan hsub
    apply readRangeSet_spec hopened hcan
    intro i hi
    exact RangeSet.mem_elements.mp (hsub (RangeSet.mem_elements.mpr hi))
  · intro data blocks
    refine ⟨appendFillChunk_total hopened, ?_⟩
    intro img' hrun
    obtain ⟨g, hfile, hblkSz, hchunks⟩ := appendFillChunk_spec hopened hrun
    refine ⟨g, hfile, ?_, ?_⟩
    · rw [SparseFile.expansion, hchunks, hblkSz, flatMap_snoc]
      rfl
    · obtain ⟨img'', hinit'', _⟩ := init_encode g htext
      rw [hfile, hinit'']
      rfl

/-- Two raw blocks, a chunk without blocks, a hole and a fill chunk, with four-byte blocks. -/
def exampleFile : SparseFile where
  blkSz := 4
  checksum := 0
  chunks :=
    [⟨0, 2, .raw [1, 2, 3, 4, 5, 6, 7, 8]⟩, ⟨0, 0, .raw []⟩, ⟨0, 3, .dontCare⟩,
      ⟨0, 1, .fill [9, 9, 9, 9]⟩]
  blkSz_lt := by decide
  blkSz_mod := by decide
  chunks_ok := by
    intro c hc
    simp only [List.mem_cons, List.not_mem_nil, or_false] at hc
    rcases hc with rfl | rfl | rfl | rfl
    all_goals exact ⟨by decide, by decide, by decide, by decide⟩
  totalChunks_lt := by decide
  totalBlks_lt := by decide

theorem sparseImage_expands_example :
    ∃ img, init exampleFile.encode (some "0") = some img ∧
      ∃ pieces, img.readRangeSet ⟨[1, 2, 5, 6], true, {}⟩ = some pieces ∧
        pieces.flatten = [5, 6, 7, 8, 9, 9, 9, 9] := by
  have htext : clobberedSet (some "0") = some ⟨[0, 1], true, {}⟩ := by
    decide +kernel
  obtain ⟨img, hinit, hopened, _⟩ := init_encode exampleFile htext
  refine ⟨img, hinit, ?_⟩
  have hspec := sparseImage_expands exampleFile (some "0") img hinit
  obtain ⟨pieces, hpieces, hflat⟩ := hspec.2.1 ⟨[1, 2, 5, 6], true, {}⟩
    ⟨by decide, by decide⟩ (by
      intro i hi
      rw [hspec.1 i]
      have hi : i ∈ [(1 : Int), 5] := RangeSet.mem_elements.mp hi
      simp only [List.mem_cons, List.not_mem_nil, or_false] at hi
      rcases hi with rfl | rfl
      · exact ⟨by decide, [5, 6, 7, 8], by decide⟩
      · exact ⟨by decide, [9, 9, 9, 9], by decide⟩)
  refine ⟨pieces, hpieces, ?_⟩
  rw [hflat]
  decide

end Image

end SparseImg
end AndroidBuild
