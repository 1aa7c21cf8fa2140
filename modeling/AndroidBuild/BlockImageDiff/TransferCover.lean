import AndroidBuild.BlockImageDiff.FindTransfers

/-!
# The transfers cover the target image

`FindTransfers` cuts every file of the target into transfers.  No route (a
small file, chunks of a fixed size, the cropping of `.odex` files, the pieces
of `imgdiff`) loses a block or takes one twice, and the source of a piece lies
in the file that was matched.
-/

namespace AndroidBuild
namespace BlockImageDiff

open Loop RangeLib Text

variable {Block : Type}

def tgtBlocks (ts : List Transfer) : List Int :=
  ts.flatMap (fun t => t.tgtRanges.blocks)

def srcBlocks (ts : List Transfer) : List Int :=
  ts.flatMap (fun t => t.srcRanges.blocks)

@[simp] theorem tgtBlocks_append (ts us : List Transfer) :
    tgtBlocks (ts ++ us) = tgtBlocks ts ++ tgtBlocks us := by
  simp [tgtBlocks]

@[simp] theorem srcBlocks_append (ts us : List Transfer) :
    srcBlocks (ts ++ us) = srcBlocks ts ++ srcBlocks us := by
  simp [srcBlocks]

@[simp] theorem tgtBlocks_singleton (t : Transfer) :
    tgtBlocks [t] = t.tgtRanges.blocks := by
  simp [tgtBlocks]

@[simp] theorem srcBlocks_singleton (t : Transfer) :
    srcBlocks [t] = t.srcRanges.blocks := by
  simp [srcBlocks]

theorem mem_tgtBlocks
    {ts : List Transfer} {i : Int} :
    i ∈ tgtBlocks ts ↔ ∃ t ∈ ts, i ∈ t.tgtRanges := by
  simp [tgtBlocks]

section Names

/-- The name of a transfer for the unchanged blocks of the file `name`. -/
def IsSkippedName (name transferName : String) : Prop :=
  transferName = name ++ "-skipped" ∨ ∃ k, transferName = pieceName (name ++ "-skipped") k

/-- The characters that follow the name of the file start with a dash and an `s`. -/
theorem IsSkippedName.chars
    {name transferName : String} (h : IsSkippedName name transferName) :
    ∃ rest, transferName.toList = name.toList ++ '-' :: 's' :: rest := by
  rcases h with rfl | ⟨k, rfl⟩
  · exact ⟨"kipped".toList, by simp⟩
  · exact ⟨"kipped".toList ++ '-' :: (toString k).toList, by simp [pieceName]⟩

theorem not_isSkippedName_self (name : String) :
    ¬ IsSkippedName name name := by
  intro h
  obtain ⟨rest, hrest⟩ := h.chars
  have := congrArg List.length hrest
  simp at this

theorem not_isSkippedName_piece (name : String) (k : Nat) :
    ¬ IsSkippedName name (pieceName name k) := by
  intro h
  obtain ⟨rest, hrest⟩ := h.chars
  have hnum := isNumeral_toString k
  rw [pieceName, String.toList_append, String.toList_append, List.append_assoc] at hrest
  have hdigits : (toString k).toList = 's' :: rest := by
    simpa using List.append_cancel_left hrest
  have := hnum.digits 's' (by rw [hdigits]; simp)
  exact absurd this (by decide)

theorem not_isSkippedName_cropped
    {name transferName : String}
    (h : transferName = name ++ "-cropped" ∨
      ∃ k, transferName = pieceName (name ++ "-cropped") k) :
    ¬ IsSkippedName name transferName := by
  intro hskip
  obtain ⟨rest, hrest⟩ := hskip.chars
  rcases h with rfl | ⟨k, rfl⟩
  · rw [String.toList_append] at hrest
    have := List.append_cancel_left hrest
    simp at this
  · rw [pieceName, String.toList_append, String.toList_append, String.toList_append,
      List.append_assoc, List.append_assoc] at hrest
    have := List.append_cancel_left hrest
    simp at this

theorem fileTypeSupportedByImgdiff_append_d (stem : List Char) :
    fileTypeSupportedByImgdiff (String.ofList (stem ++ ['d'])) = false := by
  simp [fileTypeSupportedByImgdiff, endsWith, List.isSuffixOf, lowerChar, List.isPrefixOf]

theorem fileTypeSupportedByImgdiff_skipped (name : String) :
    fileTypeSupportedByImgdiff (name ++ "-skipped") = false := by
  have h : name ++ "-skipped" = String.ofList (name.toList ++ "-skippe".toList ++ ['d']) := by
    apply String.toList_injective
    simp
  rw [h]
  exact fileTypeSupportedByImgdiff_append_d _

theorem fileTypeSupportedByImgdiff_cropped (name : String) :
    fileTypeSupportedByImgdiff (name ++ "-cropped") = false := by
  have h : name ++ "-cropped" = String.ofList (name.toList ++ "-croppe".toList ++ ['d']) := by
    apply String.toList_injective
    simp
  rw [h]
  exact fileTypeSupportedByImgdiff_append_d _

end Names

section Pieces

variable {ctx : Context Block}

/-- Transfers that cut two lists of blocks into pieces, in order. -/
structure Pieces (ctx : Context Block) (name : String) (tgt src : List Int)
    (ts : List Transfer) : Prop where
  writes : tgtBlocks ts = tgt
  reads : srcBlocks ts = src
  nonempty : ∀ t ∈ ts, t.tgtRanges.nonempty = true ∧ t.srcRanges.nonempty = true
  style : ∀ t ∈ ts, t.style = .diff
  named : ∀ t ∈ ts, t.tgtName = name ∨ ∃ k, t.tgtName = pieceName name k
  aligned : src.map ctx.src.content = tgt.map ctx.tgt.content →
    ∀ t ∈ ts, ctx.src.read t.srcRanges = ctx.tgt.read t.tgtRanges

theorem Pieces.nil (name : String) :
    Pieces ctx name [] [] [] := by
  constructor <;> simp [tgtBlocks, srcBlocks]

/-- One more piece, after as many source as target blocks. -/
theorem Pieces.snoc
    {name : String} {tgt src : List Int} {ts : List Transfer} (h : Pieces ctx name tgt src ts)
    (hlen : tgt.length = src.length) {t : Transfer}
    (hne : t.tgtRanges.nonempty = true ∧ t.srcRanges.nonempty = true) (hstyle : t.style = .diff)
    (hname : t.tgtName = name ∨ ∃ k, t.tgtName = pieceName name k) :
    Pieces ctx name (tgt ++ t.tgtRanges.blocks) (src ++ t.srcRanges.blocks) (ts ++ [t]) where
  writes := by rw [tgtBlocks_append, tgtBlocks_singleton, h.writes]
  reads := by rw [srcBlocks_append, srcBlocks_singleton, h.reads]
  nonempty := List.forall_mem_append.mpr ⟨h.nonempty, by simpa using hne⟩
  style := List.forall_mem_append.mpr ⟨h.style, by simpa using hstyle⟩
  named := List.forall_mem_append.mpr ⟨h.named, by simpa using hname⟩
  aligned := by
    intro heq
    rw [List.map_append, List.map_append] at heq
    obtain ⟨h₁, h₂⟩ := List.append_inj heq (by simp [hlen])
    refine List.forall_mem_append.mpr ⟨h.aligned h₁, ?_⟩
    intro t' ht'
    rw [List.mem_singleton.mp ht']
    exact h₂

/-- The state of the loop over chunks of a fixed size. -/
structure ChunkInv (ctx : Context Block) (name : String) (tgt src : BlockSet) (f : Found)
    (c : Chunks) : Prop where
  cut : ∃ new tgtDone srcDone, c.byId = f.byId ++ new ∧
    tgt.blocks = tgtDone ++ c.tgtRanges.blocks ∧ src.blocks = srcDone ++ c.srcRanges.blocks ∧
    tgtDone.length = srcDone.length ∧ Pieces ctx name tgtDone srcDone new
  tgt_pos : 0 < c.tgtRanges.size
  src_pos : 0 < c.srcRanges.size

theorem size_subtract_first
    {s : BlockSet} {n : Nat} :
    (s.subtract (s.first n)).size = ((s.blocks.length - n : Nat) : Int) := by
  rw [BlockSet.size_eq_length, BlockSet.blocks_subtract_first, List.length_drop]

theorem nonempty_first
    {s : BlockSet} {n : Nat} (hn : 1 ≤ n) (hs : 0 < s.size) :
    (s.first n).nonempty = true := by
  rw [BlockSet.nonempty_iff, ← BlockSet.size_pos_iff, BlockSet.size_eq_length,
    BlockSet.blocks_first, List.length_take]
  rw [BlockSet.size_eq_length] at hs
  omega

/-- A chunk leaves blocks on both sides. -/
theorem addChunk_inv
    {maxBlocks : Nat} (hmax : 1 ≤ maxBlocks) {tgtName srcName : String} {tgt src : BlockSet}
    {f : Found} {c : Chunks} (h : ChunkInv ctx tgtName tgt src f c)
    (hmore : (maxBlocks : Int) < c.tgtRanges.size ∧ (maxBlocks : Int) < c.srcRanges.size) :
    ChunkInv ctx tgtName tgt src f (ctx.addChunk maxBlocks tgtName srcName c) ∧
      (ctx.addChunk maxBlocks tgtName srcName c).tgtRanges.size < c.tgtRanges.size := by
  obtain ⟨new, tgtDone, srcDone, hbyId, htgt, hsrc, hlen, hpieces⟩ := h.cut
  have htgtLen := hmore.1
  have hsrcLen := hmore.2
  rw [BlockSet.size_eq_length] at htgtLen hsrcLen
  refine ⟨⟨⟨_, _, _, ?_, ?_, ?_, ?_, hpieces.snoc hlen
    (t := ctx.transfer (pieceName tgtName c.pieces) (some (pieceName srcName c.pieces))
      (c.tgtRanges.first maxBlocks) (c.srcRanges.first maxBlocks) .diff)
    ⟨nonempty_first hmax h.tgt_pos, nonempty_first hmax h.src_pos⟩ rfl (Or.inr ⟨_, rfl⟩)⟩,
    ?_, ?_⟩, ?_⟩
  · simp only [Context.addChunk, hbyId, List.append_assoc]
  · simp only [Context.addChunk, Context.transfer, BlockSet.blocks_subtract_first,
      BlockSet.blocks_first, List.append_assoc, List.take_append_drop, htgt]
  · simp only [Context.addChunk, Context.transfer, BlockSet.blocks_subtract_first,
      BlockSet.blocks_first, List.append_assoc, List.take_append_drop, hsrc]
  · simp only [Context.transfer, BlockSet.blocks_first, List.length_append, List.length_take]
    omega
  · simp only [Context.addChunk, size_subtract_first]
    omega
  · simp only [Context.addChunk, size_subtract_first]
    omega
  · simp only [Context.addChunk, BlockSet.size_eq_length, BlockSet.blocks_subtract_first,
      List.length_drop]
    omega

theorem addSplitTransfersWithFixedSizeChunks_pieces
    {maxBlocks : Nat} (hmax : 1 ≤ maxBlocks) {tgtName srcName : String} {tgt src : BlockSet}
    (htgt : tgt.nonempty = true) (hsrc : src.nonempty = true) (f : Found) :
    ∃ new, ctx.addSplitTransfersWithFixedSizeChunks maxBlocks tgtName srcName tgt src f =
        .ok { f with byId := f.byId ++ new } ∧
      Pieces ctx tgtName tgt.blocks src.blocks new := by
  have hinit : ChunkInv ctx tgtName tgt src f ⟨f.byId, tgt, src, 0⟩ :=
    ⟨⟨[], [], [], by simp, by simp, by simp, rfl, Pieces.nil tgtName⟩,
      BlockSet.size_pos_iff.mpr (BlockSet.nonempty_iff.mp htgt),
      BlockSet.size_pos_iff.mpr (BlockSet.nonempty_iff.mp hsrc)⟩
  obtain ⟨c, hrun, hinv, _⟩ := whileLoop_total PyError.exhausted
    (fun c : Chunks => decide (maxBlocks < c.tgtRanges.size ∧ maxBlocks < c.srcRanges.size))
    (fun c => .ok (ctx.addChunk maxBlocks tgtName srcName c))
    (ChunkInv ctx tgtName tgt src f) (fun c => c.tgtRanges.size.toNat)
    (by
      intro c hc hmore
      obtain ⟨hc', hlt⟩ := addChunk_inv hmax hc (of_decide_eq_true hmore)
      have := hc'.tgt_pos
      exact ⟨_, rfl, hc', by omega⟩)
    tgt.size.toNat ⟨f.byId, tgt, src, 0⟩ (le_refl _) hinit
  obtain ⟨new, tgtDone, srcDone, hbyId, htgtB, hsrcB, hlen, hpieces⟩ := hinv.cut
  have htgt_pos := hinv.tgt_pos
  have hsrc_pos := hinv.src_pos
  have hlast := hpieces.snoc hlen
    (t := ctx.transfer (pieceName tgtName c.pieces) (some (pieceName srcName c.pieces))
      c.tgtRanges c.srcRanges .diff)
    ⟨BlockSet.nonempty_iff.mpr (BlockSet.size_pos_iff.mp htgt_pos),
      BlockSet.nonempty_iff.mpr (BlockSet.size_pos_iff.mp hsrc_pos)⟩ rfl (Or.inr ⟨_, rfl⟩)
  refine ⟨_, ?_, by simpa only [Context.transfer, ← htgtB, ← hsrcB] using hlast⟩
  unfold Context.addSplitTransfersWithFixedSizeChunks
  rw [hrun]
  show (if c.tgtRanges.size = 0 ∧ c.srcRanges.size = 0 then _ else _) = _
  rw [if_neg (by omega), if_neg (by omega), hbyId, List.append_assoc]
  rfl

/-- A file that `imgdiff` does not split. -/
theorem addSplitTransfers_pieces
    {maxBlocks : Nat} (hmax : 1 ≤ maxBlocks) {tgtName srcName : String} {tgt src : BlockSet}
    (htgt : tgt.nonempty = true) (hsrc : src.nonempty = true) (f : Found) :
    (∃ new, ctx.addSplitTransfers maxBlocks tgtName srcName tgt src f =
        .ok { f with byId := f.byId ++ new } ∧
      Pieces ctx tgtName tgt.blocks src.blocks new) ∨
    (ctx.addSplitTransfers maxBlocks tgtName srcName tgt src f =
        .ok { f with largeApks := f.largeApks ++ [⟨tgtName, srcName, tgt, src⟩] } ∧
      fileTypeSupportedByImgdiff tgtName = true) := by
  unfold Context.addSplitTransfers
  split_ifs with hsmall hapk
  · refine Or.inl ⟨_, rfl, ?_⟩
    have hnil : Pieces ctx tgtName [] [] [] := Pieces.nil tgtName
    have h := hnil.snoc rfl
      (t := ctx.transfer tgtName (some srcName) tgt src .diff) ⟨htgt, hsrc⟩ rfl (Or.inl rfl)
    simpa [Context.transfer] using h
  · exact Or.inr ⟨rfl, hapk.1⟩
  · exact Or.inl (addSplitTransfersWithFixedSizeChunks_pieces hmax htgt hsrc f)

end Pieces

section Crop

variable {ctx : Context Block} [DecidableEq Block]

theorem blocks_singleBlock
    {i : Int} (h : 0 ≤ i) :
    (singleBlock i).blocks = [i] := by
  refine (BlockSet.blocks_strict _).eq_of_mem_iff (by simp) ?_
  intro j
  rw [BlockSet.mem_blocks_iff, singleBlock, BlockSet.mem_blockRange, List.mem_singleton]
  omega

theorem blocks_union_singleBlock
    {s : BlockSet} {i : Int} (h₀ : 0 ≤ i) (habove : ∀ j ∈ s.blocks, j < i) :
    (s.union (singleBlock i)).blocks = s.blocks ++ [i] := by
  refine (BlockSet.blocks_strict _).eq_of_mem_iff ?_ ?_
  · rw [List.pairwise_append]
    refine ⟨s.blocks_strict, by simp, ?_⟩
    intro j hj k hk
    rw [List.mem_singleton.mp hk]
    exact habove j hj
  · intro j
    rw [BlockSet.mem_blocks_iff, BlockSet.mem_union, List.mem_append,
      ← blocks_singleBlock h₀]
    rfl

variable (ctx) in
/-- The source and target blocks at one position have the same content. -/
def SameContent (p : Int × Int) : Prop :=
  ctx.src.content p.1 = ctx.tgt.content p.2

instance : DecidablePred (SameContent ctx) := fun p =>
  inferInstanceAs (Decidable (ctx.src.content p.1 = ctx.tgt.content p.2))

/-- What the comparison has collected, if it was not given up. -/
theorem cropBlocks_collects
    {n : Int} {pairs : List (Int × Int)} {c : Crop}
    (hnonneg : ∀ p ∈ pairs, 0 ≤ p.1 ∧ 0 ≤ p.2)
    (hsrc : (c.srcSkipped.blocks ++ pairs.map Prod.fst).Pairwise (· < ·))
    (htgt : (c.tgtSkipped.blocks ++ pairs.map Prod.snd).Pairwise (· < ·))
    (hkept : 2 * ((ctx.cropBlocks n pairs c).tgtChanged : Int) ≤ n) :
    (ctx.cropBlocks n pairs c).srcSkipped.blocks =
        c.srcSkipped.blocks ++ (pairs.filter (SameContent ctx)).map Prod.fst ∧
      (ctx.cropBlocks n pairs c).tgtSkipped.blocks =
        c.tgtSkipped.blocks ++ (pairs.filter (SameContent ctx)).map Prod.snd ∧
      (ctx.cropBlocks n pairs c).tgtChanged + (pairs.filter (SameContent ctx)).length =
        c.tgtChanged + pairs.length := by
  induction pairs generalizing c with
  | nil => simp [Context.cropBlocks]
  | cons p pairs ih =>
      obtain ⟨i, j⟩ := p
      rw [List.forall_mem_cons] at hnonneg
      have hstop : ¬ n < 2 * ((ctx.cropBlock c i j).tgtChanged : Int) := by
        intro hlt
        rw [Context.cropBlocks, if_pos hlt] at hkept
        omega
      rw [Context.cropBlocks, if_neg hstop] at hkept ⊢
      have hi : ∀ k ∈ c.srcSkipped.blocks, k < i := fun k hk =>
        (List.pairwise_append.mp hsrc).2.2 k hk i (by simp)
      have hj : ∀ k ∈ c.tgtSkipped.blocks, k < j := fun k hk =>
        (List.pairwise_append.mp htgt).2.2 k hk j (by simp)
      by_cases hsame : SameContent ctx (i, j)
      · have hcrop : ctx.cropBlock c i j = { c with
            tgtSkipped := c.tgtSkipped.union (singleBlock j)
            srcSkipped := c.srcSkipped.union (singleBlock i) } := by
          have hcontent : ctx.src.content i = ctx.tgt.content j := hsame
          rw [Context.cropBlock, if_pos hcontent]
        have hsrcB := blocks_union_singleBlock hnonneg.1.1 hi
        have htgtB := blocks_union_singleBlock hnonneg.1.2 hj
        rw [hcrop] at hkept ⊢
        obtain ⟨h₁, h₂, h₃⟩ := ih hnonneg.2 (by simpa [hsrcB] using hsrc)
          (by simpa [htgtB] using htgt) hkept
        rw [List.filter_cons_of_pos (by simpa using hsame), h₁, h₂]
        refine ⟨by simp [hsrcB], by simp [htgtB], ?_⟩
        simp only [List.length_cons] at h₃ ⊢
        omega
      · have hcrop : ctx.cropBlock c i j = { c with tgtChanged := c.tgtChanged + 1 } := by
          have hcontent : ¬ ctx.src.content i = ctx.tgt.content j := hsame
          rw [Context.cropBlock, if_neg hcontent]
        have hsub : ∀ l : List Int, ∀ k : Int, ∀ ks : List Int,
            (l ++ k :: ks).Pairwise (· < ·) → (l ++ ks).Pairwise (· < ·) := by
          intro l k ks h
          exact h.sublist (List.Sublist.append_left (List.sublist_cons_self k ks) l)
        rw [hcrop] at hkept ⊢
        obtain ⟨h₁, h₂, h₃⟩ := ih (c := { c with tgtChanged := c.tgtChanged + 1 })
          hnonneg.2 (hsub _ _ _ hsrc) (hsub _ _ _ htgt) hkept
        rw [List.filter_cons_of_neg (by simpa using hsame), h₁, h₂]
        refine ⟨rfl, rfl, ?_⟩
        simp only [List.length_cons] at h₃ ⊢
        omega

/-- The unchanged blocks of a file that is worth cropping. -/
structure Cropped (ctx : Context Block) (tgt src : BlockSet) (c : Crop) : Prop where
  tgt_subset : ∀ i, i ∈ c.tgtSkipped → i ∈ tgt
  src_subset : ∀ i, i ∈ c.srcSkipped → i ∈ src
  size_eq : c.tgtSkipped.size = c.srcSkipped.size
  total : c.tgtChanged + c.tgtSkipped.size = tgt.size
  same : ctx.src.read c.srcSkipped = ctx.tgt.read c.tgtSkipped

theorem cropBlocks_cropped
    {tgt src : BlockSet} (hsize : tgt.size = src.size)
    (hkept : 2 * ((ctx.cropBlocks tgt.size (src.blocks.zip tgt.blocks) {}).tgtChanged : Int) <
      tgt.size) :
    Cropped ctx tgt src (ctx.cropBlocks tgt.size (src.blocks.zip tgt.blocks) {}) := by
  have hlen : src.blocks.length = tgt.blocks.length := by
    rw [BlockSet.size_eq_length, BlockSet.size_eq_length] at hsize
    omega
  have hfst : (src.blocks.zip tgt.blocks).map Prod.fst = src.blocks :=
    List.map_fst_zip (by omega)
  have hsnd : (src.blocks.zip tgt.blocks).map Prod.snd = tgt.blocks :=
    List.map_snd_zip (by omega)
  have hmem : ∀ p ∈ src.blocks.zip tgt.blocks, p.1 ∈ src ∧ p.2 ∈ tgt :=
    fun p hp => ⟨(List.of_mem_zip hp).1, (List.of_mem_zip hp).2⟩
  obtain ⟨h₁, h₂, h₃⟩ := cropBlocks_collects (n := tgt.size) (c := {})
    (fun p hp => ⟨BlockSet.nonneg_of_mem (hmem p hp).1, BlockSet.nonneg_of_mem (hmem p hp).2⟩)
    (by simpa [hfst] using src.blocks_strict) (by simpa [hsnd] using tgt.blocks_strict)
    hkept.le
  rw [BlockSet.blocks_empty, List.nil_append] at h₁ h₂
  generalize ctx.cropBlocks tgt.size (src.blocks.zip tgt.blocks) {} = c at h₁ h₂ h₃ ⊢
  refine ⟨?_, ?_, ?_, ?_, ?_⟩
  · intro i hi
    rw [← BlockSet.mem_blocks_iff, h₂] at hi
    obtain ⟨p, hp, rfl⟩ := List.mem_map.mp hi
    exact (hmem p (List.mem_of_mem_filter hp)).2
  · intro i hi
    rw [← BlockSet.mem_blocks_iff, h₁] at hi
    obtain ⟨p, hp, rfl⟩ := List.mem_map.mp hi
    exact (hmem p (List.mem_of_mem_filter hp)).1
  · rw [BlockSet.size_eq_length, BlockSet.size_eq_length, h₁, h₂, List.length_map,
      List.length_map]
  · rw [BlockSet.size_eq_length, BlockSet.size_eq_length, h₂, List.length_map]
    simp only [List.length_zip] at h₃
    omega
  · unfold Image.read
    rw [h₁, h₂, List.map_map, List.map_map]
    apply List.map_congr_left
    intro p hp
    exact of_decide_eq_true (List.mem_filter.mp hp).2

end Crop

section Files

variable {ctx : Context Block}

/-- The transfers of one file that was matched with a source file. -/
structure FilePieces (ctx : Context Block) (name : String) (tgt src : BlockSet)
    (ts : List Transfer) : Prop where
  writes : (tgtBlocks ts).Perm tgt.blocks
  reads : (srcBlocks ts).Perm src.blocks
  nonempty : ∀ t ∈ ts, t.tgtRanges.nonempty = true ∧ t.srcRanges.nonempty = true
  style : ∀ t ∈ ts, t.style = .diff
  skipped : ∀ t ∈ ts, IsSkippedName name t.tgtName →
    ctx.src.read t.srcRanges = ctx.tgt.read t.tgtRanges

theorem Pieces.filePieces
    {name : String} {tgt src : BlockSet} {ts : List Transfer}
    (h : Pieces ctx name tgt.blocks src.blocks ts) :
    FilePieces ctx name tgt src ts where
  writes := by rw [h.writes]
  reads := by rw [h.reads]
  nonempty := h.nonempty
  style := h.style
  skipped := by
    intro t ht hskip
    rcases h.named t ht with hname | ⟨k, hname⟩
    · rw [hname] at hskip
      exact absurd hskip (not_isSkippedName_self name)
    · rw [hname] at hskip
      exact absurd hskip (not_isSkippedName_piece name k)

/-- The pieces of the unchanged blocks, and of the others. -/
theorem filePieces_skipped
    {name : String} {tgt src : BlockSet} {c : Crop} (hc : Cropped ctx tgt src c)
    {ts : List Transfer}
    (h : Pieces ctx (name ++ "-skipped") c.tgtSkipped.blocks c.srcSkipped.blocks ts)
    {us : List Transfer}
    (hus : Pieces ctx (name ++ "-cropped") (tgt.subtract c.tgtSkipped).blocks
      (src.subtract c.srcSkipped).blocks us) :
    FilePieces ctx name tgt src (ts ++ us) where
  writes := by
    rw [tgtBlocks_append, h.writes, hus.writes]
    exact BlockSet.perm_subtract hc.tgt_subset
  reads := by
    rw [srcBlocks_append, h.reads, hus.reads]
    exact BlockSet.perm_subtract hc.src_subset
  nonempty := List.forall_mem_append.mpr ⟨h.nonempty, hus.nonempty⟩
  style := List.forall_mem_append.mpr ⟨h.style, hus.style⟩
  skipped := by
    refine List.forall_mem_append.mpr ⟨fun t ht _ => h.aligned hc.same t ht, ?_⟩
    intro t ht hskip
    exact absurd hskip (not_isSkippedName_cropped (hus.named t ht))

theorem addSplitTransfers_notArchive
    {maxBlocks : Nat} (hmax : 1 ≤ maxBlocks) {tgtName srcName : String} {tgt src : BlockSet}
    (htgt : tgt.nonempty = true) (hsrc : src.nonempty = true)
    (hname : fileTypeSupportedByImgdiff tgtName = false) (f : Found) :
    ∃ new, ctx.addSplitTransfers maxBlocks tgtName srcName tgt src f =
        .ok { f with byId := f.byId ++ new } ∧
      Pieces ctx tgtName tgt.blocks src.blocks new := by
  rcases addSplitTransfers_pieces hmax htgt hsrc f with h | ⟨_, h⟩
  · exact h
  · rw [hname] at h
    cases h

theorem addCropped_pieces
    {maxBlocks : Nat} (tgtName srcName : String) (hmax : 1 ≤ maxBlocks) {tgt src : BlockSet}
    {c : Crop} (hc : Cropped ctx tgt src c) (hsize : tgt.size = src.size)
    (hpos : 0 < c.tgtSkipped.size) (f : Found) :
    ∃ new, ctx.addCropped maxBlocks tgtName srcName tgt src c f =
        .ok { f with byId := f.byId ++ new } ∧
      FilePieces ctx tgtName tgt src new := by
  have hsrc_pos : 0 < c.srcSkipped.size := by
    rw [← hc.size_eq]
    exact hpos
  obtain ⟨ts, hts, hpieces⟩ := addSplitTransfers_notArchive
    hmax
    (BlockSet.nonempty_iff.mpr (BlockSet.size_pos_iff.mp hpos))
    (BlockSet.nonempty_iff.mpr (BlockSet.size_pos_iff.mp hsrc_pos))
    (fileTypeSupportedByImgdiff_skipped tgtName) f
  have htgtSize := BlockSet.size_subtract hc.tgt_subset
  have hsrcSize := BlockSet.size_subtract hc.src_subset
  have hsizes := hc.size_eq
  unfold Context.addCropped
  rw [hts]
  cases hrest : (tgt.subtract c.tgtSkipped).nonempty with
  | false =>
      have htgt_nil : (tgt.subtract c.tgtSkipped).blocks = [] :=
        List.eq_nil_iff_forall_not_mem.mpr (BlockSet.nonempty_eq_false_iff.mp hrest)
      have hsrc_nil : (src.subtract c.srcSkipped).blocks = [] := by
        have hzero := BlockSet.size_eq_length (tgt.subtract c.tgtSkipped)
        rw [htgt_nil, List.length_nil] at hzero
        have hlen := BlockSet.size_eq_length (src.subtract c.srcSkipped)
        exact List.length_eq_zero_iff.mp (by omega)
      refine ⟨ts, ?_, ?_⟩
      · simp [bind, Except.bind, pure, Except.pure]
      · have h := filePieces_skipped hc hpieces
          (by rw [htgt_nil, hsrc_nil]; exact Pieces.nil _)
        simpa using h
  | true =>
      have hsrc_rest : (src.subtract c.srcSkipped).nonempty = true := by
        rw [BlockSet.nonempty_iff, ← BlockSet.size_pos_iff] at hrest ⊢
        omega
      obtain ⟨us, hus, hrestPieces⟩ := addSplitTransfers_notArchive
        hmax hrest hsrc_rest
        (fileTypeSupportedByImgdiff_cropped tgtName) { f with byId := f.byId ++ ts }
      refine ⟨ts ++ us, ?_, filePieces_skipped hc hpieces hrestPieces⟩
      simp only [bind, Except.bind, if_true]
      rw [hus, List.append_assoc]

variable [DecidableEq Block]

variable (ctx) in
/-- A file of the target that was matched with a file of the source. -/
theorem addDiffTransfer_pieces
    {maxBlocks : Nat} (tgtName srcName : String) (hmax : 1 ≤ maxBlocks) {tgt src : BlockSet}
    (htgt : tgt.nonempty = true) (hsrc : src.nonempty = true) (f : Found) :
    (∃ new, ctx.addDiffTransfer maxBlocks tgtName srcName tgt src f =
        .ok { f with byId := f.byId ++ new } ∧ FilePieces ctx tgtName tgt src new) ∨
    (ctx.addDiffTransfer maxBlocks tgtName srcName tgt src f =
        .ok { f with largeApks := f.largeApks ++ [⟨tgtName, srcName, tgt, src⟩] } ∧
      fileTypeSupportedByImgdiff tgtName = true) := by
  unfold Context.addDiffTransfer
  simp only
  by_cases hcrop : isOdex tgtName = true ∧ tgt.size = src.size ∧
      2 * ((ctx.cropBlocks tgt.size (src.blocks.zip tgt.blocks) {}).tgtChanged : Int) < tgt.size
  · have hc := cropBlocks_cropped hcrop.2.1 hcrop.2.2
    have htotal := hc.total
    rw [if_pos hcrop, if_pos htotal]
    exact Or.inl (addCropped_pieces tgtName srcName hmax hc hcrop.2.1 (by omega) f)
  · rw [if_neg hcrop]
    rcases addSplitTransfers_pieces hmax htgt hsrc f with
      ⟨new, hrun, hpieces⟩ | h
    · exact Or.inl ⟨new, hrun, hpieces.filePieces⟩
    · exact Or.inr h

end Files

section Matching

variable (ctx : Context Block)

/-- The source file for a file of the target: the same path, else the same
basename, else the same basename up to numbers. -/
def Context.matchedSource (tgtName : String) : Option String :=
  if (ctx.src.fileMap.get? tgtName).isSome then some tgtName
  else
    match ctx.src.abbreviateSourceNames.basenames.get? (basename tgtName) with
    | some srcName => some srcName
    | none => ctx.src.abbreviateSourceNames.numpatterns.get? (numpattern (basename tgtName))

/-- The abbreviations stand for files of the source. -/
theorem abbreviateSourceNames_keys
    (img : Image Block) {short name : String}
    (h : img.abbreviateSourceNames.basenames.get? short = some name ∨
      img.abbreviateSourceNames.numpatterns.get? short = some name) :
    name ∈ img.fileMap.keys := by
  suffices H : ∀ (keys : List String) (names : SourceNames), keys ⊆ img.fileMap.keys →
      (∀ short name, names.basenames.get? short = some name ∨
        names.numpatterns.get? short = some name → name ∈ img.fileMap.keys) →
      ∀ short name, (keys.foldl (fun names k => {
          basenames := names.basenames.set (basename k) k
          numpatterns := names.numpatterns.set (numpattern (basename k)) k }) names
        : SourceNames).basenames.get? short = some name ∨
        (keys.foldl (fun names k => {
          basenames := names.basenames.set (basename k) k
          numpatterns := names.numpatterns.set (numpattern (basename k)) k }) names
        : SourceNames).numpatterns.get? short = some name →
        name ∈ img.fileMap.keys from
    H img.fileMap.keys {} (List.Subset.refl _)
      (by intro short name h; simp [OrderedDict.get?, OrderedDict.empty] at h) short name h
  intro keys
  induction keys with
  | nil =>
      intro names _ hnames
      exact hnames
  | cons k keys ih =>
      intro names hkeys hnames
      rw [List.cons_subset] at hkeys
      refine ih _ hkeys.2 ?_
      intro short name h
      simp only [OrderedDict.get?_set] at h
      rcases h with h | h
      · split_ifs at h
        · cases h
          exact hkeys.1
        · exact hnames short name (Or.inl h)
      · split_ifs at h
        · cases h
          exact hkeys.1
        · exact hnames short name (Or.inr h)

theorem matchedSource_get
    {tgtName srcName : String} (h : ctx.matchedSource tgtName = some srcName) :
    ∃ src, ctx.src.fileMap.get? srcName = some src := by
  unfold Context.matchedSource at h
  split_ifs at h with hsome
  · cases h
    exact Option.isSome_iff_exists.mp hsome
  · split at h
    · rename_i name hname
      cases h
      exact OrderedDict.mem_keys_iff.mp (abbreviateSourceNames_keys ctx.src (Or.inl hname))
    · exact OrderedDict.mem_keys_iff.mp (abbreviateSourceNames_keys ctx.src (Or.inr h))

end Matching

section Entries

variable {ctx : Context Block}

/-- A transfer that patches part of the target file `entry` from its source file. -/
structure FromFile (ctx : Context Block) (entry : String × BlockSet) (t : Transfer) : Prop where
  source : ∃ srcName src, ctx.matchedSource entry.1 = some srcName ∧
    ctx.src.fileMap.get? srcName = some src ∧ ∀ i, i ∈ t.srcRanges → i ∈ src
  target : ∀ i, i ∈ t.tgtRanges → i ∈ entry.2
  nonempty : t.srcRanges.nonempty = true
  skipped : IsSkippedName entry.1 t.tgtName →
    ctx.src.read t.srcRanges = ctx.tgt.read t.tgtRanges

/-- The transfers of one file of the target. -/
structure EntryTransfers (ctx : Context Block) (entry : String × BlockSet)
    (ts : List Transfer) : Prop where
  writes : (tgtBlocks ts).Perm entry.2.blocks
  nonempty : ∀ t ∈ ts, t.tgtRanges.nonempty = true
  diff : ∀ t ∈ ts, t.style = .diff → FromFile ctx entry t

/-- An archive that is left to `imgdiff`. -/
structure IsLargeApk (ctx : Context Block) (entry : String × BlockSet) (apk : LargeApk) :
    Prop where
  name : apk.tgtName = entry.1
  tgt : apk.tgtRanges = entry.2
  matched : ctx.matchedSource entry.1 = some apk.srcName
  src : ctx.src.fileMap.get? apk.srcName = some apk.srcRanges
  archive : fileTypeSupportedByImgdiff entry.1 = true

theorem entryTransfers_single
    {entry : String × BlockSet} (hne : entry.2.nonempty = true) {t : Transfer}
    (htgt : t.tgtRanges = entry.2) (hstyle : t.style ≠ .diff) :
    EntryTransfers ctx entry [t] where
  writes := by rw [tgtBlocks_singleton, htgt]
  nonempty := by simpa [htgt] using hne
  diff := by
    intro t' ht' hdiff
    rw [List.mem_singleton.mp ht'] at hdiff
    exact absurd hdiff hstyle

theorem FilePieces.entryTransfers
    {entry : String × BlockSet} {srcName : String} {src : BlockSet} {ts : List Transfer}
    (h : FilePieces ctx entry.1 entry.2 src ts)
    (hmatch : ctx.matchedSource entry.1 = some srcName)
    (hsrc : ctx.src.fileMap.get? srcName = some src) :
    EntryTransfers ctx entry ts where
  writes := h.writes
  nonempty := fun t ht => (h.nonempty t ht).1
  diff := by
    intro t ht _
    refine ⟨⟨srcName, src, hmatch, hsrc, ?_⟩, ?_, (h.nonempty t ht).2, h.skipped t ht⟩
    · intro i hi
      exact h.reads.subset (List.mem_flatMap.mpr ⟨t, ht, hi⟩)
    · intro i hi
      exact h.writes.subset (List.mem_flatMap.mpr ⟨t, ht, hi⟩)

variable [DecidableEq Block]

/-- One round of the loop over the files of the target. -/
theorem findTransfer_entry
    {maxBlocks : Nat} (hmax : 1 ≤ maxBlocks)
    (hsrc : ∀ e ∈ ctx.src.fileMap.entries, e.2.nonempty = true)
    {entry : String × BlockSet} (hentry : entry.2.nonempty = true)
    (hname : entry.1 ≠ "__HASHTREE") (f : Found) :
    (∃ new, ctx.findTransfer ctx.src.abbreviateSourceNames maxBlocks f entry =
        .ok { f with byId := f.byId ++ new } ∧ EntryTransfers ctx entry new) ∨
    (∃ apk, ctx.findTransfer ctx.src.abbreviateSourceNames maxBlocks f entry =
        .ok { f with largeApks := f.largeApks ++ [apk] } ∧ IsLargeApk ctx entry apk) := by
  obtain ⟨name, tgt⟩ := entry
  have hfrom : ∀ srcName, ctx.matchedSource name = some srcName →
      ctx.findTransfer ctx.src.abbreviateSourceNames maxBlocks f (name, tgt) =
        ctx.addFromSource maxBlocks name tgt f srcName →
      (∃ new, ctx.findTransfer ctx.src.abbreviateSourceNames maxBlocks f (name, tgt) =
        .ok { f with byId := f.byId ++ new } ∧ EntryTransfers ctx (name, tgt) new) ∨
      (∃ apk, ctx.findTransfer ctx.src.abbreviateSourceNames maxBlocks f (name, tgt) =
        .ok { f with largeApks := f.largeApks ++ [apk] } ∧ IsLargeApk ctx (name, tgt) apk) := by
    intro srcName hmatch hrun
    obtain ⟨src, hget⟩ := matchedSource_get ctx hmatch
    rw [hrun, Context.addFromSource, hget]
    rcases addDiffTransfer_pieces ctx name srcName hmax hentry
      (hsrc _ (OrderedDict.mem_of_get? hget)) f with ⟨new, hnew, hpieces⟩ | ⟨hnew, harchive⟩
    · exact Or.inl ⟨new, hnew, FilePieces.entryTransfers hpieces hmatch hget⟩
    · exact Or.inr ⟨_, hnew, ⟨rfl, rfl, hmatch, hget, harchive⟩⟩
  by_cases hzero : name = "__ZERO"
  · refine Or.inl ⟨_, ?_, entryTransfers_single hentry (t := ctx.transfer name (some "__ZERO") tgt
      ((ctx.src.fileMap.get? "__ZERO").getD .empty) .zero) rfl (by simp [Context.transfer])⟩
    rw [Context.findTransfer, if_pos hzero]
    rfl
  by_cases hcopy : name = "__COPY"
  · refine Or.inl ⟨_, ?_, entryTransfers_single hentry
      (t := ctx.transfer name none tgt .empty .new) rfl (by simp [Context.transfer])⟩
    rw [Context.findTransfer, if_neg hzero, if_pos hcopy]
    rfl
  have hstart : ctx.findTransfer ctx.src.abbreviateSourceNames maxBlocks f (name, tgt) =
      match ctx.matchedSource name with
      | some srcName => ctx.addFromSource maxBlocks name tgt f srcName
      | none => .ok (ctx.addTransfer name none tgt .empty .new f) := by
    rw [Context.findTransfer, if_neg hzero, if_neg hcopy, if_neg hname, Context.matchedSource]
    split_ifs with hsome
    · rfl
    · cases ctx.src.abbreviateSourceNames.basenames.get? (basename name) with
      | some srcName => rfl
      | none => rfl
  cases hmatch : ctx.matchedSource name with
  | some srcName =>
      rw [hmatch] at hstart
      exact hfrom srcName hmatch hstart
  | none =>
      rw [hmatch] at hstart
      exact Or.inl ⟨_, hstart, entryTransfers_single hentry
        (t := ctx.transfer name none tgt .empty .new) rfl (by simp [Context.transfer])⟩

/-- The transfers and archives found for the files consumed so far. -/
structure FoundInv (ctx : Context Block) (done : List (String × BlockSet)) (f : Found) :
    Prop where
  writes : (tgtBlocks f.byId ++ f.largeApks.flatMap (fun a => a.tgtRanges.blocks)).Perm
    ((done.filter (fun e => e.1 ≠ "__HASHTREE")).flatMap (fun e => e.2.blocks))
  nonempty : ∀ t ∈ f.byId, t.tgtRanges.nonempty = true
  diff : ∀ t ∈ f.byId, t.style = .diff → ∃ entry ∈ ctx.tgt.fileMap.entries, FromFile ctx entry t
  apks : ∀ a ∈ f.largeApks, ∃ entry ∈ ctx.tgt.fileMap.entries, IsLargeApk ctx entry a

theorem findTransfer_inv
    {maxBlocks : Nat} (hmax : 1 ≤ maxBlocks)
    (hsrc : ∀ e ∈ ctx.src.fileMap.entries, e.2.nonempty = true)
    (htgt : ∀ e ∈ ctx.tgt.fileMap.entries, e.2.nonempty = true)
    {done : List (String × BlockSet)} {entry : String × BlockSet}
    (hentry : entry ∈ ctx.tgt.fileMap.entries) {f : Found} (h : FoundInv ctx done f) :
    ∃ f', ctx.findTransfer ctx.src.abbreviateSourceNames maxBlocks f entry = .ok f' ∧
      FoundInv ctx (done ++ [entry]) f' := by
  by_cases hname : entry.1 = "__HASHTREE"
  · refine ⟨f, ?_, ?_⟩
    · rw [Context.findTransfer]
      simp [hname]
    · have hfilter : (done ++ [entry]).filter (fun e => e.1 ≠ "__HASHTREE") =
          done.filter (fun e => e.1 ≠ "__HASHTREE") := by
        simp [List.filter_append, hname]
      exact ⟨by rw [hfilter]; exact h.writes, h.nonempty, h.diff, h.apks⟩
  · have hfilter : (done ++ [entry]).filter (fun e => e.1 ≠ "__HASHTREE") =
        done.filter (fun e => e.1 ≠ "__HASHTREE") ++ [entry] := by
      simp [List.filter_append, hname]
    rcases findTransfer_entry hmax hsrc (htgt entry hentry) hname f with
      ⟨new, hrun, hnew⟩ | ⟨apk, hrun, hapk⟩
    · refine ⟨_, hrun, ?_, ?_, ?_, h.apks⟩
      · rw [hfilter, List.flatMap_append, List.flatMap_singleton, tgtBlocks_append,
          List.append_assoc]
        refine (List.perm_append_comm.append_left _).trans ?_
        rw [← List.append_assoc]
        exact h.writes.append hnew.writes
      · exact List.forall_mem_append.mpr ⟨h.nonempty, hnew.nonempty⟩
      · exact List.forall_mem_append.mpr
          ⟨h.diff, fun t ht hdiff => ⟨entry, hentry, hnew.diff t ht hdiff⟩⟩
    · refine ⟨_, hrun, ?_, h.nonempty, h.diff, ?_⟩
      · rw [hfilter, List.flatMap_append, List.flatMap_singleton, List.flatMap_append,
          List.flatMap_singleton, ← List.append_assoc, hapk.tgt]
        exact h.writes.append_right _
      · refine List.forall_mem_append.mpr ⟨h.apks, ?_⟩
        intro a ha
        rw [List.mem_singleton.mp ha]
        exact ⟨entry, hentry, hapk⟩

end Entries

section Archives

variable {ctx : Context Block}

/-- The pieces of `imgdiff` cover the target, one after the other. -/
theorem parseAndValidateSplitInfo_writes
    {tgt src : BlockSet} {o : SplitOutput} {infos : List SplitInfo}
    (hrun : parseAndValidateSplitInfo tgt src o = .ok infos) :
    infos.flatMap (fun info => info.tgtRanges.blocks) = tgt.blocks := by
  unfold parseAndValidateSplitInfo at hrun
  split_ifs at hrun
  obtain ⟨p, hp, hrun⟩ := bind_eq_ok.mp hrun
  split_ifs at hrun with hend
  cases hrun
  have hinv := forLoop_ok
    (fun _ (p : SplitParse) =>
      p.infos.flatMap (fun info => info.tgtRanges.blocks) ++ p.tgtRemain.blocks = tgt.blocks) hp
    rfl
    (by
      intro done line rest p p' _ hp hstep
      unfold parseSplitLine at hstep
      split_ifs at hstep
      obtain ⟨indices, _, hstep⟩ := bind_eq_ok.mp hstep
      obtain ⟨split, _, hstep⟩ := bind_eq_ok.mp hstep
      cases hstep
      rw [List.flatMap_append, List.flatMap_singleton, BlockSet.blocks_first,
        BlockSet.blocks_subtract_first, List.append_assoc, List.take_append_drop]
      exact hp)
  have hnil : p.tgtRemain.blocks = [] := by
    have := hend.1
    rw [BlockSet.size_eq_length] at this
    exact List.length_eq_zero_iff.mp (by omega)
  rw [hnil, List.append_nil] at hinv
  exact hinv

/-- A line of `split_info` with a part of the target and a part of the source. -/
def SplitLine.HasBlocks (line : SplitLine) (src : BlockSet) : Prop :=
  0 < line.tgtSize ∧ ∃ indices, parseRaw line.srcRanges = .ok indices ∧
    ∃ k ∈ indices.blocks, 0 ≤ k ∧ k < src.size

/-- Every piece has blocks on both sides. -/
theorem parseAndValidateSplitInfo_nonempty
    {tgt src : BlockSet} {o : SplitOutput} {infos : List SplitInfo}
    (hrun : parseAndValidateSplitInfo tgt src o = .ok infos)
    (hlines : ∀ line ∈ o.lines, line.HasBlocks src) :
    ∀ info ∈ infos, info.tgtRanges.nonempty = true ∧ info.srcRanges.nonempty = true := by
  unfold parseAndValidateSplitInfo at hrun
  split_ifs at hrun
  obtain ⟨p, hp, hrun⟩ := bind_eq_ok.mp hrun
  split_ifs at hrun with hend
  cases hrun
  refine forLoop_preserves (fun p : SplitParse => ∀ info ∈ p.infos,
    info.tgtRanges.nonempty = true ∧ info.srcRanges.nonempty = true) hp (by simp) ?_
  intro line p p' hline hp hstep
  obtain ⟨hpos, indices', hindices', k, hk, h₀, hlt⟩ := hlines line hline
  unfold parseSplitLine at hstep
  split_ifs at hstep with halign hfits
  obtain ⟨indices, hindices, hstep⟩ := bind_eq_ok.mp hstep
  obtain ⟨split, hsplit, hstep⟩ := bind_eq_ok.mp hstep
  cases hstep
  rw [hindices'] at hindices
  cases hindices
  refine List.forall_mem_append.mpr ⟨hp, ?_⟩
  intro info hinfo
  rw [List.mem_singleton.mp hinfo]
  refine ⟨nonempty_first (by omega) (by omega), ?_⟩
  obtain ⟨r, hr, h₁, h₂⟩ := RangeSet.mem_blocksOf_iff_pairs.mp hk
  rw [BlockSet.size_eq_length] at hlt
  have hget := List.getElem?_eq_getElem (l := src.blocks) (i := k.toNat) (by omega)
  rw [BlockSet.nonempty_iff]
  refine ⟨src.blocks[k.toNat], ?_⟩
  rw [← BlockSet.mem_blocks_iff, addSourcePiece_all hsplit, mem_blocksAt]
  exact ⟨k.toNat, hget, r, hr, by omega, by omega⟩

/-- `imgdiff` splits every archive, its output passes the validation and no piece of it is
empty. -/
structure SplitsArchives (ctx : Context Block) (maxBlocks : Nat) : Prop where
  split : ∀ entry ∈ ctx.tgt.fileMap.entries, ∀ source ∈ ctx.src.fileMap.entries,
    fileTypeSupportedByImgdiff entry.1 = true →
    ∃ o infos, ctx.tools.imgdiffSplit maxBlocks (ctx.src.read source.2)
        (ctx.tgt.read entry.2) = some o ∧
      parseAndValidateSplitInfo entry.2 source.2 o = .ok infos ∧
      ∀ line ∈ o.lines, line.HasBlocks source.2

/-- The pieces of one archive. -/
theorem splitLargeApk_pieces
    {maxBlocks : Nat} (hsplits : SplitsArchives ctx maxBlocks) {entry : String × BlockSet}
    (hentry : entry ∈ ctx.tgt.fileMap.entries) {apk : LargeApk}
    (hapk : IsLargeApk ctx entry apk) :
    ∃ pieces, ctx.splitLargeApk maxBlocks apk = .ok pieces ∧
      pieces.flatMap (fun p => p.tgtRanges.blocks) = apk.tgtRanges.blocks ∧
      ∀ p ∈ pieces, p.tgtRanges.nonempty = true ∧ FromFile ctx entry (ctx.addSplitApk p) := by
  obtain ⟨o, infos, ho, hinfos, hlines⟩ := hsplits.split entry hentry (apk.srcName, apk.srcRanges)
    (OrderedDict.mem_of_get? hapk.src) hapk.archive
  have hwrites := parseAndValidateSplitInfo_writes hinfos
  have hne := parseAndValidateSplitInfo_nonempty hinfos hlines
  have hpieceOf := parseAndValidateSplitInfo_pieces hinfos
  refine ⟨_, by rw [Context.splitLargeApk, hapk.tgt, ho]; simp only [hinfos]; rfl, ?_, ?_⟩
  · rw [List.flatMap_map, hapk.tgt, ← hwrites]
    have hfst := List.zipIdx_map_fst 0 infos
    conv_rhs => rw [← hfst, List.flatMap_map]
  · intro p hp
    obtain ⟨q, hq, rfl⟩ := List.mem_map.mp hp
    have hmem : q.1 ∈ infos := by
      rw [← List.zipIdx_map_fst 0 infos]
      exact List.mem_map_of_mem hq
    obtain ⟨pre, line, post, indices, _, _, _, _, _, hsrc⟩ := hpieceOf q.1 hmem
    refine ⟨(hne q.1 hmem).1, ⟨apk.srcName, apk.srcRanges, hapk.matched, hapk.src, ?_⟩, ?_,
      (hne q.1 hmem).2, ?_⟩
    · intro i hi
      have hi' : i ∈ q.1.srcRanges.blocks := hi
      rw [hsrc] at hi'
      obtain ⟨k, hk, _⟩ := mem_blocksAt.mp hi'
      exact List.mem_iff_getElem?.mpr ⟨k, hk⟩
    · intro i hi
      have hi' : i ∈ infos.flatMap (fun info => info.tgtRanges.blocks) :=
        List.mem_flatMap.mpr ⟨q.1, hmem, hi⟩
      rw [hwrites] at hi'
      exact hi'
    · intro hskip
      have hname : (ctx.addSplitApk ⟨⟨pieceName apk.tgtName q.2, pieceName apk.srcName q.2,
          q.1.tgtRanges, q.1.srcRanges⟩,
          (o.patch.drop q.1.patchStart).take q.1.patchLength⟩).tgtName =
          pieceName entry.1 q.2 := by
        rw [← hapk.name]
        rfl
      rw [hname] at hskip
      exact absurd hskip (not_isSkippedName_piece entry.1 q.2)

theorem splitLargeApks_pieces
    {maxBlocks workers : Nat} (hsplits : SplitsArchives ctx maxBlocks) {apks : List LargeApk}
    (hapks : ∀ a ∈ apks, ∃ entry ∈ ctx.tgt.fileMap.entries, IsLargeApk ctx entry a) :
    (ctx.splitLargeApks maxBlocks (workers + 1) apks).flatMap (fun p => p.tgtRanges.blocks) =
        apks.flatMap (fun a => a.tgtRanges.blocks) ∧
      ∀ p ∈ ctx.splitLargeApks maxBlocks (workers + 1) apks, p.tgtRanges.nonempty = true ∧
        ∃ entry ∈ ctx.tgt.fileMap.entries, FromFile ctx entry (ctx.addSplitApk p) := by
  induction apks with
  | nil => simp [Context.splitLargeApks]
  | cons apk apks ih =>
      rw [List.forall_mem_cons] at hapks
      obtain ⟨entry, hentry, hapk⟩ := hapks.1
      obtain ⟨pieces, hrun, hwrites, hpieces⟩ := splitLargeApk_pieces hsplits hentry hapk
      obtain ⟨ihwrites, ihpieces⟩ := ih hapks.2
      rw [Context.splitLargeApks, hrun]
      simp only [List.flatMap_append, List.flatMap_cons, hwrites, ihwrites, true_and]
      refine List.forall_mem_append.mpr ⟨?_, ihpieces⟩
      intro p hp
      exact ⟨(hpieces p hp).1, entry, hentry, (hpieces p hp).2⟩

end Archives

section Cover

variable [DecidableEq Block]

theorem addDiffTransfer_odex
    {ctx : Context Block} {maxBlocks : Nat} (hmax : 1 ≤ maxBlocks) {tgtName srcName : String}
    {tgt src : BlockSet} (hodex : isOdex tgtName = true) (hsize : tgt.size = src.size)
    (hkept : 2 * ((ctx.cropBlocks tgt.size (src.blocks.zip tgt.blocks) {}).tgtChanged : Int) <
      tgt.size) (f : Found) :
    ∃ new, ctx.addDiffTransfer maxBlocks tgtName srcName tgt src f =
        .ok { f with byId := f.byId ++ new } ∧
      (tgtBlocks new).Perm tgt.blocks ∧ (srcBlocks new).Perm src.blocks := by
  have hc := cropBlocks_cropped hsize hkept
  have htotal := hc.total
  obtain ⟨new, hrun, hpieces⟩ := addCropped_pieces tgtName srcName hmax hc hsize (by omega) f
  refine ⟨new, ?_, hpieces.writes, hpieces.reads⟩
  unfold Context.addDiffTransfer
  rw [if_pos ⟨hodex, hsize, hkept⟩, if_pos htotal]
  exact hrun

theorem findTransfers_found
    {ctx : Context Block} {maxBlocks : Nat} (hmax : 1 ≤ maxBlocks)
    (hsrc : ∀ e ∈ ctx.src.fileMap.entries, e.2.nonempty = true)
    (htgt : ∀ e ∈ ctx.tgt.fileMap.entries, e.2.nonempty = true) :
    ∃ f, (ctx.tgt.fileMap.entries.insertionSort (fun a b => ¬ b.1 < a.1)).foldlM
        (ctx.findTransfer ctx.src.abbreviateSourceNames maxBlocks) {} = .ok f ∧
      FoundInv ctx (ctx.tgt.fileMap.entries.insertionSort (fun a b => ¬ b.1 < a.1)) f := by
  refine forLoop_total _ (fun done f => FoundInv ctx done f) _ _
    ⟨by simp [tgtBlocks], by simp, by simp, by simp⟩ ?_
  intro done entry rest f hsplit hf
  refine findTransfer_inv hmax hsrc htgt ?_ hf
  rw [← (List.perm_insertionSort (fun a b : String × BlockSet => ¬ b.1 < a.1) _).mem_iff, hsplit]
  simp

/-- The transfers of `FindTransfers` partition the files of the target, and the source of
each lies in the matched file. -/
theorem findTransfers_covers
    {ctx : Context Block} (htgtMap : ctx.tgt.assertFileMap = .ok ())
    (hsrc : ∀ e ∈ ctx.src.fileMap.entries, e.2.nonempty = true)
    (htgt : ∀ e ∈ ctx.tgt.fileMap.entries, e.2.nonempty = true)
    {maxBlocks : Nat} (hlimit : ctx.maxBlocksPerTransfer = .ok maxBlocks) (hmax : 1 ≤ maxBlocks)
    (hthreads : 1 ≤ ctx.threads) (hsplits : SplitsArchives ctx maxBlocks) :
    ∃ ts, ctx.findTransfers = .ok ts ∧
      (∀ t ∈ ts, t.tgtRanges.nonempty = true) ∧
      ts.Pairwise (fun t u => ∀ i, i ∈ t.tgtRanges → i ∉ u.tgtRanges) ∧
      (∀ i, (∃ t ∈ ts, i ∈ t.tgtRanges) ↔
        ∃ e ∈ ctx.tgt.fileMap.entries, e.1 ≠ "__HASHTREE" ∧ i ∈ e.2) ∧
      (∀ t ∈ ts, t.style = .diff → ∃ entry ∈ ctx.tgt.fileMap.entries, FromFile ctx entry t) ∧
      (∀ tgtName srcName tgt src f, tgt.nonempty = true → src.nonempty = true →
        ∃ new, ctx.addSplitTransfersWithFixedSizeChunks maxBlocks tgtName srcName tgt src f =
            .ok { f with byId := f.byId ++ new } ∧
          tgtBlocks new = tgt.blocks ∧ srcBlocks new = src.blocks) ∧
      (∀ tgtName srcName tgt src f, isOdex tgtName = true → tgt.size = src.size →
        2 * ((ctx.cropBlocks tgt.size (src.blocks.zip tgt.blocks) {}).tgtChanged : Int) <
          tgt.size →
        ∃ new, ctx.addDiffTransfer maxBlocks tgtName srcName tgt src f =
            .ok { f with byId := f.byId ++ new } ∧
          (tgtBlocks new).Perm tgt.blocks ∧ (srcBlocks new).Perm src.blocks) := by
  obtain ⟨f, hf, hinv⟩ := findTransfers_found hmax hsrc htgt
  obtain ⟨workers, hworkers⟩ := Nat.exists_eq_add_of_le' hthreads
  obtain ⟨hwrites, hpieces⟩ := splitLargeApks_pieces hsplits hinv.apks
  rw [← hworkers] at hwrites hpieces
  have hsort := List.perm_insertionSort Context.SplitApk.le
    (ctx.splitLargeApks maxBlocks ctx.threads f.largeApks)
  have hentries := List.perm_insertionSort (fun a b : String × BlockSet => ¬ b.1 < a.1)
    ctx.tgt.fileMap.entries
  generalize hsplit : (ctx.splitLargeApks maxBlocks ctx.threads f.largeApks).insertionSort
    Context.SplitApk.le = split at hsort
  have hsplitBlocks : tgtBlocks (split.map ctx.addSplitApk) =
      split.flatMap (fun p => p.tgtRanges.blocks) := by
    rw [tgtBlocks, List.flatMap_map]
    rfl
  have hall : (tgtBlocks (f.byId ++ split.map ctx.addSplitApk)).Perm
      ((ctx.tgt.fileMap.entries.filter (fun e => e.1 ≠ "__HASHTREE")).flatMap
        (fun e => e.2.blocks)) := by
    have h₁ : (split.flatMap (fun p => p.tgtRanges.blocks)).Perm
        (f.largeApks.flatMap (fun a => a.tgtRanges.blocks)) := by
      rw [← hwrites]
      exact hsort.flatMap_right _
    rw [tgtBlocks_append, hsplitBlocks]
    exact ((h₁.append_left _).trans hinv.writes).trans
      ((hentries.filter _).flatMap_right _)
  have hnodup : (tgtBlocks (f.byId ++ split.map ctx.addSplitApk)).Nodup := by
    rw [hall.nodup_iff]
    exact (assertFileMap_nodup htgtMap).sublist (List.filter_sublist.flatMap _)
  refine ⟨f.byId ++ split.map ctx.addSplitApk, ?_, ?_, ?_, ?_, ?_, ?_, ?_⟩
  · unfold Context.findTransfers
    rw [hlimit]
    simp only [bind, Except.bind, hf, hsplit]
    rfl
  · refine List.forall_mem_append.mpr ⟨hinv.nonempty, ?_⟩
    intro t ht
    obtain ⟨p, hp, rfl⟩ := List.mem_map.mp ht
    exact (hpieces p (hsort.mem_iff.mp hp)).1
  · refine (List.nodup_flatMap.mp hnodup).2.imp ?_
    intro t u hdisj i hi hi'
    exact hdisj hi hi'
  · intro i
    rw [← mem_tgtBlocks, hall.mem_iff, List.mem_flatMap]
    simp only [List.mem_filter, decide_eq_true_eq, BlockSet.mem_blocks_iff, and_assoc]
  · refine List.forall_mem_append.mpr ⟨hinv.diff, ?_⟩
    intro t ht _
    obtain ⟨p, hp, rfl⟩ := List.mem_map.mp ht
    exact (hpieces p (hsort.mem_iff.mp hp)).2
  · intro tgtName srcName tgt src f htgt hsrc
    obtain ⟨new, hrun, hnew⟩ := addSplitTransfersWithFixedSizeChunks_pieces
      hmax htgt hsrc f
    exact ⟨new, hrun, hnew.writes, hnew.reads⟩
  · intro tgtName srcName tgt src f hodex hsize hkept
    exact addDiffTransfer_odex hmax hodex hsize hkept f

end Cover

section Archive

/-- An archive of two blocks that has changed; `imgdiff` splits it as given. -/
def archiveContext (threads : Nat) (lines : List SplitLine) (patch : List UInt8) :
    Context Bool where
  src := {
    totalBlocks := 2
    careMap := .blockRange 0 2
    extended := .empty
    fileMap := ⟨[("a.apk", .blockRange 0 2)], by decide⟩
    content := fun _ => false
    extended_disjoint := fun i hi => absurd hi (BlockSet.not_mem_empty i) }
  tgt := {
    totalBlocks := 2
    careMap := .blockRange 0 2
    extended := .empty
    fileMap := ⟨[("a.apk", .blockRange 0 2)], by decide⟩
    content := fun _ => true
    extended_disjoint := fun i hi => absurd hi (BlockSet.not_mem_empty i) }
  tools := { bitTools with imgdiffSplit := fun _ _ _ => some ⟨2, lines.length, lines, patch⟩ }
  opts := ⟨some 32768, 1⟩
  version := 4
  threads := threads
  disableImgdiff := false

/-- The validation of `split_info` accepts the lines. -/
def accepts (lines : List SplitLine) (patch : List UInt8) : Bool :=
  (parseAndValidateSplitInfo (.blockRange 0 2) (.blockRange 0 2)
    ⟨2, lines.length, lines, patch⟩).isOk

def hasEmptySide (r : Except PyError (List Transfer)) : Bool :=
  match r with
  | .ok ts => ts.any (fun t => !t.tgtRanges.nonempty || !t.srcRanges.nonempty)
  | .error _ => false

def leavesOut (block : Int) (r : Except PyError (List Transfer)) : Bool :=
  match r with
  | .ok ts => ts.all (fun t => !decide (block ∈ t.tgtRanges))
  | .error _ => false

/-- The validation lets empty pieces through, and without a worker no archive is split. -/
theorem findTransfers_emptyPieces :
    (archiveContext 1 [⟨1, 8192, [0]⟩] [7]).tgt.assertFileMap = .ok () ∧
    (archiveContext 1 [⟨1, 8192, [0]⟩] [7]).src.assertFileMap = .ok () ∧
    (archiveContext 1 [⟨1, 8192, [0]⟩] [7]).maxBlocksPerTransfer = .ok 1 ∧
    accepts [⟨0, 0, [2, 0, 1]⟩, ⟨1, 8192, [2, 0, 2]⟩] [7] = true ∧
    hasEmptySide (archiveContext 1 [⟨0, 0, [2, 0, 1]⟩, ⟨1, 8192, [2, 0, 2]⟩] [7]).findTransfers =
      true ∧
    accepts [⟨1, 8192, [0]⟩] [7] = true ∧
    hasEmptySide (archiveContext 1 [⟨1, 8192, [0]⟩] [7]).findTransfers = true ∧
    accepts [⟨1, 8192, [2, 0, 2]⟩] [7] = true ∧
    leavesOut 0 (archiveContext 0 [⟨1, 8192, [2, 0, 2]⟩] [7]).findTransfers = true := by
  decide +kernel

theorem archiveContext_splits :
    SplitsArchives (archiveContext 1 [⟨1, 4096, [2, 0, 1]⟩, ⟨1, 4096, [2, 1, 2]⟩] [7, 8]) 1 where
  split := by
    intro entry hentry source hsource _
    obtain rfl : entry = ("a.apk", .blockRange 0 2) := List.mem_singleton.mp hentry
    obtain rfl : source = ("a.apk", .blockRange 0 2) := List.mem_singleton.mp hsource
    obtain ⟨infos, hinfos⟩ := exists_eq_ok (r := parseAndValidateSplitInfo (.blockRange 0 2)
      (.blockRange 0 2) ⟨2, 2, [⟨1, 4096, [2, 0, 1]⟩, ⟨1, 4096, [2, 1, 2]⟩], [7, 8]⟩)
      (by decide +kernel)
    refine ⟨_, infos, rfl, hinfos, ?_⟩
    have hpiece : ∀ k : Nat, k < 2 → (⟨1, 4096, [2, k, k + 1]⟩ : SplitLine).HasBlocks
        (.blockRange 0 2) := by
      intro k hk
      refine ⟨by simp, ⟨[k, k + 1], true, {}⟩, ?_, k, ?_, by omega, ?_⟩
      · interval_cases k <;> decide +kernel
      · interval_cases k <;> decide +kernel
      · have : (BlockSet.blockRange 0 2).size = 2 := by decide +kernel
        omega
    exact List.forall_mem_cons.mpr ⟨hpiece 0 (by omega),
      List.forall_mem_cons.mpr ⟨hpiece 1 (by omega), by simp⟩⟩

/-- An archive in two pieces. -/
theorem findTransfers_covers_archive :
    ∃ ts, (archiveContext 1 [⟨1, 4096, [2, 0, 1]⟩, ⟨1, 4096, [2, 1, 2]⟩] [7, 8]).findTransfers =
        .ok ts ∧
      (∃ t ∈ ts, (0 : Int) ∈ t.tgtRanges) ∧
      ts.Pairwise (fun t u => ∀ i, i ∈ t.tgtRanges → i ∉ u.tgtRanges) := by
  obtain ⟨ts, hrun, _, hdisj, hcover, _⟩ := findTransfers_covers

    (by decide +kernel) (by decide +kernel) (by decide +kernel) (by decide +kernel) (by decide)
    (by decide) archiveContext_splits
  refine ⟨ts, hrun, (hcover 0).mpr ⟨("a.apk", .blockRange 0 2), ?_, ?_, ?_⟩, hdisj⟩
  · exact List.mem_cons_self
  · decide +kernel
  · decide +kernel

end Archive

end BlockImageDiff
end AndroidBuild
