import AndroidBuild.BlockImageDiff.ComputePatches
import AndroidBuild.RangeLib.IndexSelection

/-!
# `FindTransfers`

Every file of the target image becomes one or several transfers.  Large files
are split: archives by `imgdiff`, which also makes the patches of the pieces,
and the others into chunks of a fixed size.  In `.odex` files the blocks that
did not change are split off.
-/

namespace AndroidBuild
namespace BlockImageDiff

open Loop RangeLib

variable {Block : Type}

/-- `os.path.basename`. -/
def basename (path : String) : String :=
  String.ofList (path.toList.reverse.takeWhile (fun c => c ≠ '/')).reverse

/-- `re.sub("[0-9]+", "#", ...)`; the flag says that the last character was a digit. -/
def substituteDigits : Bool → List Char → List Char
  | _, [] => []
  | inRun, c :: cs =>
      if c.isDigit then
        if inRun then substituteDigits true cs else '#' :: substituteDigits true cs
      else c :: substituteDigits false cs

def numpattern (name : String) : String :=
  String.ofList (substituteDigits false name.toList)

/-- `name.split(".")[-1].lower() == 'odex'`. -/
def isOdex (name : String) : Bool :=
  (name.toList.reverse.takeWhile (fun c => c ≠ '.')).reverse.map lowerChar = "odex".toList

/-- `"%s-%d"`. -/
def pieceName (name : String) (piece : Nat) : String :=
  name ++ "-" ++ toString piece

/-- `src_basenames` and `src_numpatterns`. -/
structure SourceNames where
  basenames : OrderedDict String String := .empty
  numpatterns : OrderedDict String String := .empty

def Image.abbreviateSourceNames (src : Image Block) : SourceNames :=
  src.fileMap.keys.foldl
    (fun names k => {
      basenames := names.basenames.set (basename k) k
      numpatterns := names.numpatterns.set (numpattern (basename k)) k }) {}

/-- An entry of `large_apks`. -/
structure LargeApk where
  tgtName : String
  srcName : String
  tgtRanges : BlockSet
  srcRanges : BlockSet

/-- An entry of `split_large_apks`. -/
structure SplitApk extends LargeApk where
  patch : List UInt8

/-- The transfers and the large archives found so far. -/
structure Found where
  byId : List Transfer := []
  largeApks : List LargeApk := []

/-- The variables of `AddSplitTransfersWithFixedSizeChunks`. -/
structure Chunks where
  byId : List Transfer
  tgtRanges : BlockSet
  srcRanges : BlockSet
  pieces : Nat

/-- The blocks of an `.odex` file that did and that did not change. -/
structure Crop where
  tgtSkipped : BlockSet := .empty
  srcSkipped : BlockSet := .empty
  tgtChanged : Nat := 0

/-- `RangeSet(str(block))`. -/
def singleBlock (block : Int) : BlockSet :=
  .blockRange block.toNat (block.toNat + 1)

/-- `RangeSet.parse_raw` on the numbers of the string. -/
def parseRaw : List Nat → Except PyError RangeSet
  | [] => .error .valueError
  | count :: data =>
      if count = data.length then
        match RangeSet.ofData (data.map Int.ofNat) with
        | some r => .ok r
        | none => .error .assertionError
      else .error .assertionError

/-- A piece of a large archive: its patch within the patch file and its blocks. -/
structure SplitInfo where
  patchStart : Nat
  patchLength : Nat
  tgtRanges : BlockSet
  srcRanges : BlockSet

/-- The variables of the loop over the lines of `split_info`. -/
structure SplitParse where
  infos : List SplitInfo
  patchStart : Nat
  tgtRemain : BlockSet

/-- The blocks of `src` at the positions of one range. -/
def addSourcePiece (src : BlockSet) (split : BlockSet) (r : Int × Int) :
    Except PyError BlockSet :=
  let curr := (src.first r.2.toNat).subtract (src.first r.1.toNat)
  if split.overlaps curr then .error .assertionError else .ok (split.union curr)

/-- One line of `split_info`. -/
def parseSplitLine (src : BlockSet) (p : SplitParse) (line : SplitLine) :
    Except PyError SplitParse := do
  if line.tgtSize % 4096 ≠ 0 then .error .assertionError
  else if p.tgtRemain.size < (line.tgtSize / 4096 : Nat) then .error .assertionError
  else
    let tgt := p.tgtRemain.first (line.tgtSize / 4096)
    let indices ← parseRaw line.srcRanges
    let split ← indices.pairs.foldlM (addSourcePiece src) .empty
    pure {
      infos := p.infos ++ [⟨p.patchStart, line.patchSize, tgt, split⟩]
      patchStart := p.patchStart + line.patchSize
      tgtRemain := p.tgtRemain.subtract tgt }

def parseAndValidateSplitInfo (tgt src : BlockSet) (o : SplitOutput) :
    Except PyError (List SplitInfo) := do
  if o.version ≠ 2 ∨ o.lines.length ≠ o.count then .error .assertionError
  else
    let p ← o.lines.foldlM (parseSplitLine src) ⟨[], 0, tgt⟩
    if p.tgtRemain.size = 0 ∧ p.patchStart = o.patch.length then pure p.infos
    else .error .assertionError

namespace Context

variable (ctx : Context Block)

/-- `Transfer(...)` with the hashes of its ranges. -/
def transfer (tgtName : String) (srcName : Option String) (tgt src : BlockSet) (style : Style) :
    Transfer where
  tgtName := tgtName
  srcName := srcName
  tgtRanges := tgt
  srcRanges := src
  tgtSha1 := ctx.tgtSha1 tgt
  srcSha1 := ctx.srcSha1 src
  style := style

def addChunk (maxBlocks : Nat) (tgtName srcName : String) (c : Chunks) : Chunks :=
  let tgtFirst := c.tgtRanges.first maxBlocks
  let srcFirst := c.srcRanges.first maxBlocks
  { byId := c.byId ++ [ctx.transfer (pieceName tgtName c.pieces)
      (some (pieceName srcName c.pieces)) tgtFirst srcFirst .diff]
    tgtRanges := c.tgtRanges.subtract tgtFirst
    srcRanges := c.srcRanges.subtract srcFirst
    pieces := c.pieces + 1 }

/-- The loop does not end when no block fits into a transfer. -/
def addSplitTransfersWithFixedSizeChunks (maxBlocks : Nat) (tgtName srcName : String)
    (tgt src : BlockSet) (f : Found) : Except PyError Found := do
  let c ← whileLoop .exhausted
    (fun c : Chunks => decide (maxBlocks < c.tgtRanges.size ∧ maxBlocks < c.srcRanges.size))
    (fun c => .ok (ctx.addChunk maxBlocks tgtName srcName c))
    tgt.size.toNat ⟨f.byId, tgt, src, 0⟩
  if c.tgtRanges.size = 0 ∧ c.srcRanges.size = 0 then pure { f with byId := c.byId }
  else if c.tgtRanges.size = 0 ∨ c.srcRanges.size = 0 then .error .assertionError
  else pure { f with
    byId := c.byId ++ [ctx.transfer (pieceName tgtName c.pieces)
      (some (pieceName srcName c.pieces)) c.tgtRanges c.srcRanges .diff] }

/-- `AddSplitTransfers`, for the style `diff`. -/
def addSplitTransfers (maxBlocks : Nat) (tgtName srcName : String) (tgt src : BlockSet)
    (f : Found) : Except PyError Found :=
  if tgt.size ≤ maxBlocks ∧ src.size ≤ maxBlocks then
    .ok { f with byId := f.byId ++ [ctx.transfer tgtName (some srcName) tgt src .diff] }
  else if fileTypeSupportedByImgdiff tgtName ∧ ctx.tgtSha1 tgt ≠ ctx.srcSha1 src ∧
      ctx.canUseImgdiff tgtName tgt src then
    .ok { f with largeApks := f.largeApks ++ [⟨tgtName, srcName, tgt, src⟩] }
  else ctx.addSplitTransfersWithFixedSizeChunks maxBlocks tgtName srcName tgt src f

/-- Compare a block of the source with one of the target. -/
def cropBlock [DecidableEq Block] (c : Crop) (src tgt : Int) : Crop :=
  if ctx.src.content src = ctx.tgt.content tgt then
    { c with
      tgtSkipped := c.tgtSkipped.union (singleBlock tgt)
      srcSkipped := c.srcSkipped.union (singleBlock src) }
  else { c with tgtChanged := c.tgtChanged + 1 }

/-- The blocks of a file compared one by one, until more than half have changed. -/
def cropBlocks [DecidableEq Block] (tgtSize : Int) : List (Int × Int) → Crop → Crop
  | [], c => c
  | (src, tgt) :: rest, c =>
      if tgtSize < 2 * (ctx.cropBlock c src tgt).tgtChanged then ctx.cropBlock c src tgt
      else cropBlocks tgtSize rest (ctx.cropBlock c src tgt)

/-- Patch the changed blocks of an `.odex` file only.  The extension of the name
changes, as the files are no longer in their original format. -/
def addCropped (maxBlocks : Nat) (tgtName srcName : String) (tgt src : BlockSet) (c : Crop)
    (f : Found) : Except PyError Found := do
  let f ← ctx.addSplitTransfers maxBlocks (tgtName ++ "-skipped") (srcName ++ "-skipped")
    c.tgtSkipped c.srcSkipped f
  if (tgt.subtract c.tgtSkipped).nonempty then
    ctx.addSplitTransfers maxBlocks (tgtName ++ "-cropped") (srcName ++ "-cropped")
      (tgt.subtract c.tgtSkipped) (src.subtract c.srcSkipped) f
  else pure f

/-- `AddTransfer` with `split=True`, for the style `diff`. -/
def addDiffTransfer [DecidableEq Block] (maxBlocks : Nat) (tgtName srcName : String)
    (tgt src : BlockSet) (f : Found) : Except PyError Found :=
  let c := ctx.cropBlocks tgt.size (src.blocks.zip tgt.blocks) {}
  if isOdex tgtName ∧ tgt.size = src.size ∧ 2 * (c.tgtChanged : Int) < tgt.size then
    if c.tgtChanged + c.tgtSkipped.size = tgt.size then
      ctx.addCropped maxBlocks tgtName srcName tgt src c f
    else .error .assertionError
  else ctx.addSplitTransfers maxBlocks tgtName srcName tgt src f

/-- `AddTransfer` without `split`. -/
def addTransfer (tgtName : String) (srcName : Option String) (tgt src : BlockSet) (style : Style)
    (f : Found) : Found :=
  { f with byId := f.byId ++ [ctx.transfer tgtName srcName tgt src style] }

/-- `self.src.file_map[src_fn]` as the source of a file. -/
def addFromSource [DecidableEq Block] (maxBlocks : Nat) (tgtName : String) (tgt : BlockSet)
    (f : Found) (srcName : String) : Except PyError Found :=
  match ctx.src.fileMap.get? srcName with
  | some src => ctx.addDiffTransfer maxBlocks tgtName srcName tgt src f
  | none => .error .keyError

def findTransfer [DecidableEq Block] (names : SourceNames) (maxBlocks : Nat) (f : Found)
    (entry : String × BlockSet) : Except PyError Found :=
  let (tgtName, tgt) := entry
  if tgtName = "__ZERO" then
    .ok (ctx.addTransfer tgtName (some "__ZERO") tgt
      ((ctx.src.fileMap.get? "__ZERO").getD .empty) .zero f)
  else if tgtName = "__COPY" then .ok (ctx.addTransfer tgtName none tgt .empty .new f)
  else if tgtName = "__HASHTREE" then .ok f
  else if (ctx.src.fileMap.get? tgtName).isSome then
    ctx.addFromSource maxBlocks tgtName tgt f tgtName
  else
    match names.basenames.get? (basename tgtName) with
    | some srcName => ctx.addFromSource maxBlocks tgtName tgt f srcName
    | none =>
        match names.numpatterns.get? (numpattern (basename tgtName)) with
        | some srcName => ctx.addFromSource maxBlocks tgtName tgt f srcName
        | none => .ok (ctx.addTransfer tgtName none tgt .empty .new f)

/-- The pieces of one large archive. -/
def splitLargeApk (maxBlocks : Nat) (apk : LargeApk) : Except PyError (List SplitApk) :=
  match ctx.tools.imgdiffSplit maxBlocks (ctx.src.read apk.srcRanges)
      (ctx.tgt.read apk.tgtRanges) with
  | none => .error .assertionError
  | some o => do
      let infos ← parseAndValidateSplitInfo apk.tgtRanges apk.srcRanges o
      pure (infos.zipIdx.map (fun p => {
        tgtName := pieceName apk.tgtName p.2
        srcName := pieceName apk.srcName p.2
        tgtRanges := p.1.tgtRanges
        srcRanges := p.1.srcRanges
        patch := (o.patch.drop p.1.patchStart).take p.1.patchLength }))

/-- `SplitLargeApks` on `workers` threads.  An assertion that fails ends its
thread; the archive is lost, and when no thread is left so are the others. -/
def splitLargeApks (maxBlocks : Nat) : Nat → List LargeApk → List SplitApk
  | 0, _ => []
  | _, [] => []
  | workers + 1, apk :: apks =>
      match ctx.splitLargeApk maxBlocks apk with
      | .ok pieces => pieces ++ splitLargeApks maxBlocks (workers + 1) apks
      | .error _ => splitLargeApks maxBlocks workers apks

/-- The order of `split_large_apks.sort()`; the names of two pieces differ. -/
def SplitApk.le (a b : SplitApk) : Prop :=
  a.tgtName < b.tgtName ∨ (a.tgtName = b.tgtName ∧ ¬ b.srcName < a.srcName)

instance : DecidableRel SplitApk.le := fun a b =>
  inferInstanceAs (Decidable (a.tgtName < b.tgtName ∨
    (a.tgtName = b.tgtName ∧ ¬ b.srcName < a.srcName)))

def addSplitApk (p : SplitApk) : Transfer :=
  { ctx.transfer p.tgtName (some p.srcName) p.tgtRanges p.srcRanges .diff with
    patchInfo := some ⟨true, p.patch⟩ }

def maxBlocksPerTransfer : Except PyError Nat :=
  match ctx.opts.cacheSize with
  | some cacheSize => .ok (cacheSize / (8 * 4096))
  | none => .error .assertionError

/-- The list `self.transfers` that `FindTransfers` fills. -/
def findTransfers [DecidableEq Block] : Except PyError (List Transfer) := do
  let maxBlocks ← ctx.maxBlocksPerTransfer
  let items := ctx.tgt.fileMap.entries.insertionSort (fun a b => ¬ b.1 < a.1)
  let f ← items.foldlM (ctx.findTransfer ctx.src.abbreviateSourceNames maxBlocks) {}
  let split := (ctx.splitLargeApks maxBlocks ctx.threads f.largeApks).insertionSort SplitApk.le
  pure (f.byId ++ split.map ctx.addSplitApk)

end Context

section SplitInfo

/-- The entries of a list at the positions of a range set, in order. -/
def blocksAt {α : Type} (indices : RangeSet) (data : List α) : List α :=
  (data.zipIdx.filter (fun p => indices.pairs.any
    (fun r => decide (r.1 ≤ (p.2 : Int) ∧ (p.2 : Int) < r.2)))).map Prod.fst

theorem blocksAt_map
    {α β : Type} (indices : RangeSet) (f : α → β) (data : List α) :
    blocksAt indices (data.map f) = (blocksAt indices data).map f := by
  unfold blocksAt
  rw [List.zipIdx_map, List.filter_map, List.map_map, List.map_map]
  rfl

theorem mem_blocksAt
    {α : Type} {indices : RangeSet} {data : List α} {a : α} :
    a ∈ blocksAt indices data ↔ ∃ k : Nat, data[k]? = some a ∧
      ∃ r ∈ indices.pairs, r.1 ≤ (k : Int) ∧ (k : Int) < r.2 := by
  unfold blocksAt
  simp only [List.mem_map, List.mem_filter, List.any_eq_true, decide_eq_true_eq]
  constructor
  · rintro ⟨⟨b, k⟩, ⟨hmem, hr⟩, rfl⟩
    exact ⟨k, List.mem_zipIdx_iff_getElem?.mp hmem, hr⟩
  · rintro ⟨k, hget, hr⟩
    exact ⟨(a, k), ⟨List.mem_zipIdx_iff_getElem?.mpr hget, hr⟩, rfl⟩

theorem mem_first_iff
    {s : BlockSet} {n : Nat} {i : Int} :
    i ∈ s.first n ↔ ∃ k < n, s.blocks[k]? = some i := by
  rw [← BlockSet.mem_blocks_iff, BlockSet.blocks_first, List.mem_iff_getElem?]
  constructor
  · rintro ⟨k, hk⟩
    rw [List.getElem?_take] at hk
    split_ifs at hk with hlt
    exact ⟨k, hlt, hk⟩
  · rintro ⟨k, hlt, hk⟩
    refine ⟨k, ?_⟩
    rw [List.getElem?_take, if_pos hlt, hk]

/-- The blocks between two positions. -/
theorem mem_sourcePiece
    {src : BlockSet} {r : Int × Int} {i : Int} :
    i ∈ (src.first r.2.toNat).subtract (src.first r.1.toNat) ↔
      ∃ k : Nat, src.blocks[k]? = some i ∧ r.1 ≤ (k : Int) ∧ (k : Int) < r.2 := by
  rw [BlockSet.mem_subtract, mem_first_iff, mem_first_iff]
  constructor
  · rintro ⟨⟨k, hlt, hk⟩, hnot⟩
    refine ⟨k, hk, ?_, by omega⟩
    by_contra hle
    exact hnot ⟨k, by omega, hk⟩
  · rintro ⟨k, hk, h₁, h₂⟩
    refine ⟨⟨k, by omega, hk⟩, ?_⟩
    rintro ⟨j, hlt, hj⟩
    have hlen : j < src.blocks.length := (List.getElem?_eq_some_iff.mp hj).1
    have := (List.getElem?_inj hlen src.blocks_nodup).mp (hj.trans hk.symm)
    omega

theorem addSourcePiece_all
    {src split : BlockSet} {indices : RangeSet}
    (hrun : indices.pairs.foldlM (addSourcePiece src) .empty = .ok split) :
    split.blocks = blocksAt indices src.blocks := by
  have hmem := forLoop_ok
    (fun done (split : BlockSet) => ∀ i, i ∈ split ↔ ∃ r ∈ done, ∃ k : Nat,
      src.blocks[k]? = some i ∧ r.1 ≤ (k : Int) ∧ (k : Int) < r.2) hrun (by simp)
    (by
      intro done r rest split split' _ hsplit hstep i
      unfold addSourcePiece at hstep
      simp only at hstep
      split_ifs at hstep
      cases hstep
      rw [BlockSet.mem_union, hsplit, mem_sourcePiece]
      simp only [List.mem_append, List.mem_singleton, or_and_right, exists_or, exists_eq_left])
  have hsorted : (blocksAt indices src.blocks).Pairwise (· < ·) := by
    unfold blocksAt
    refine src.blocks_strict.sublist ?_
    have := (List.filter_sublist (l := src.blocks.zipIdx) (p := fun p => indices.pairs.any
      (fun r => decide (r.1 ≤ (p.2 : Int) ∧ (p.2 : Int) < r.2)))).map Prod.fst
    rwa [List.zipIdx_map_fst] at this
  refine List.Pairwise.eq_of_mem_iff split.blocks_strict hsorted ?_
  intro i
  rw [BlockSet.mem_blocks_iff, hmem, mem_blocksAt]
  constructor
  · rintro ⟨r, hr, k, hk, hle⟩
    exact ⟨k, hk, r, hr, hle⟩
  · rintro ⟨k, hk, r, hr, hle⟩
    exact ⟨r, hr, k, hk, hle⟩

def patchTotal (lines : List SplitLine) : Nat :=
  (lines.map SplitLine.patchSize).sum

def tgtTotal (lines : List SplitLine) : Nat :=
  (lines.map (fun l => l.tgtSize / 4096)).sum

/-- A piece that belongs to a line of `split_info`. -/
def PieceOf (tgt src : BlockSet) (lines : List SplitLine) (info : SplitInfo) : Prop :=
  ∃ pre line post indices, lines = pre ++ line :: post ∧
    parseRaw line.srcRanges = .ok indices ∧
    info.patchStart = patchTotal pre ∧ info.patchLength = line.patchSize ∧
    info.tgtRanges.blocks = (tgt.blocks.drop (tgtTotal pre)).take (line.tgtSize / 4096) ∧
    info.srcRanges.blocks = blocksAt indices src.blocks

theorem parseAndValidateSplitInfo_pieces
    {tgt src : BlockSet} {o : SplitOutput} {infos : List SplitInfo}
    (hrun : parseAndValidateSplitInfo tgt src o = .ok infos) :
    ∀ info ∈ infos, PieceOf tgt src o.lines info := by
  unfold parseAndValidateSplitInfo at hrun
  split_ifs at hrun
  obtain ⟨p, hp, hrun⟩ := bind_eq_ok.mp hrun
  split_ifs at hrun
  cases hrun
  have hinv := forLoop_ok
    (fun done (p : SplitParse) => p.patchStart = patchTotal done ∧
      p.tgtRemain.blocks = tgt.blocks.drop (tgtTotal done) ∧
      ∀ info ∈ p.infos, PieceOf tgt src o.lines info) hp
    ⟨rfl, rfl, by simp⟩
    (by
      intro done line rest p p' hsplit hp hstep
      obtain ⟨hstart, hremain, hinfos⟩ := hp
      unfold parseSplitLine at hstep
      split_ifs at hstep
      obtain ⟨indices, hindices, hstep⟩ := bind_eq_ok.mp hstep
      obtain ⟨split, hpieces, hstep⟩ := bind_eq_ok.mp hstep
      cases hstep
      refine ⟨?_, ?_, ?_⟩
      · simp [hstart, patchTotal]
      · rw [BlockSet.blocks_subtract_first, hremain, List.drop_drop]
        simp [tgtTotal]
      · intro info hinfo
        rcases List.mem_append.mp hinfo with hinfo | hinfo
        · exact hinfos info hinfo
        · rw [List.mem_singleton.mp hinfo]
          refine ⟨done, line, rest, indices, hsplit, hindices, hstart, rfl, ?_,
            addSourcePiece_all hpieces⟩
          rw [BlockSet.blocks_first, hremain])
  exact hinv.2.2

end SplitInfo

section Planned

/-- Applying a patch that a tool has computed yields its target.  A piece of a
split archive takes the blocks that its line names, and the pieces of the
target follow one another. -/
structure PatchesApply (tools : Tools Block)
    (applyPatch : Bool → List UInt8 → List Block → Option (List Block)) : Prop where
  computed : ∀ imgdiff src tgt content, tools.computePatch imgdiff src tgt = some content →
    applyPatch imgdiff content src = some tgt
  split : ∀ limit src tgt o, tools.imgdiffSplit limit src tgt = some o →
    ∀ pre line post indices, o.lines = pre ++ line :: post →
      parseRaw line.srcRanges = .ok indices →
      applyPatch true ((o.patch.drop (patchTotal pre)).take line.patchSize)
        (blocksAt indices src) = some ((tgt.drop (tgtTotal pre)).take (line.tgtSize / 4096))

/-- The `__ZERO` entries of both images consist of zero blocks. -/
structure ZeroEntries (ctx : Context Block) (zeroBlock : Block) : Prop where
  tgt : ∀ s, ("__ZERO", s) ∈ ctx.tgt.fileMap.entries → ∀ i, i ∈ s → ctx.tgt.content i = zeroBlock
  src : ∀ s, ("__ZERO", s) ∈ ctx.src.fileMap.entries → ∀ i, i ∈ s → ctx.src.content i = zeroBlock

variable {ctx : Context Block}
variable {applyPatch : Bool → List UInt8 → List Block → Option (List Block)} {zeroBlock : Block}

/-- The ranges of a source and a target lie in the care maps. -/
structure InCareMaps (ctx : Context Block) (tgt src : BlockSet) : Prop where
  tgt : ∀ i, i ∈ tgt → i ∈ ctx.tgt.careMap
  src : ∀ i, i ∈ src → i ∈ ctx.src.careMap

/-- What the later stages need to know about a transfer. -/
structure Planned (ctx : Context Block)
    (applyPatch : Bool → List UInt8 → List Block → Option (List Block)) (zeroBlock : Block)
    (t : Transfer) : Prop where
  care : InCareMaps ctx t.tgtRanges t.srcRanges
  zero : t.style = .zero → (∀ i, i ∈ t.tgtRanges → ctx.tgt.content i = zeroBlock) ∧
    ∀ i, i ∈ t.srcRanges → ctx.src.content i = zeroBlock
  patch : ∀ info, t.patchInfo = some info → applyPatch info.imgdiff info.content
    (ctx.src.read t.srcRanges) = some (ctx.tgt.read t.tgtRanges)

theorem planned_transfer
    {tgtName : String} {srcName : Option String} {tgt src : BlockSet} {style : Style}
    (hcare : InCareMaps ctx tgt src) (hstyle : style ≠ .zero) :
    Planned ctx applyPatch zeroBlock (ctx.transfer tgtName srcName tgt src style) where
  care := hcare
  zero := fun h => absurd h hstyle
  patch := fun _ h => by cases h

variable (ctx applyPatch zeroBlock) in
/-- The transfers and archives found so far. -/
structure FoundPlanned (f : Found) : Prop where
  transfers : ∀ t ∈ f.byId, Planned ctx applyPatch zeroBlock t
  apks : ∀ a ∈ f.largeApks, InCareMaps ctx a.tgtRanges a.srcRanges

theorem FoundPlanned.append
    {f : Found} {t : Transfer} (h : FoundPlanned ctx applyPatch zeroBlock f)
    (ht : Planned ctx applyPatch zeroBlock t) :
    FoundPlanned ctx applyPatch zeroBlock { f with byId := f.byId ++ [t] } := by
  refine ⟨?_, h.apks⟩
  intro t' ht'
  rcases List.mem_append.mp ht' with ht' | ht'
  · exact h.transfers t' ht'
  · rw [List.mem_singleton.mp ht']
    exact ht

theorem addSplitTransfersWithFixedSizeChunks_planned
    {maxBlocks : Nat} {tgtName srcName : String} {tgt src : BlockSet} {f f' : Found}
    (hcare : InCareMaps ctx tgt src) (h : FoundPlanned ctx applyPatch zeroBlock f)
    (hrun : ctx.addSplitTransfersWithFixedSizeChunks maxBlocks tgtName srcName tgt src f =
      .ok f') :
    FoundPlanned ctx applyPatch zeroBlock f' := by
  unfold Context.addSplitTransfersWithFixedSizeChunks at hrun
  obtain ⟨c, hc, hrun⟩ := bind_eq_ok.mp hrun
  have hinv := (whileLoop_ok
    (fun c : Chunks => FoundPlanned ctx applyPatch zeroBlock { f with byId := c.byId } ∧
      InCareMaps ctx c.tgtRanges c.srcRanges)
    (by
      intro c c' hc _ hstep
      cases hstep
      have hfirst : ∀ (s : BlockSet) i, i ∈ s.first maxBlocks → i ∈ s := by
        intro s i hi
        obtain ⟨k, _, hk⟩ := mem_first_iff.mp hi
        exact List.mem_iff_getElem?.mpr ⟨k, hk⟩
      refine ⟨hc.1.append (planned_transfer ?_ (by simp)), ?_⟩
      · exact ⟨fun i hi => hc.2.tgt i (hfirst _ i hi), fun i hi => hc.2.src i (hfirst _ i hi)⟩
      · exact ⟨fun i hi => hc.2.tgt i (BlockSet.mem_subtract.mp hi).1,
          fun i hi => hc.2.src i (BlockSet.mem_subtract.mp hi).1⟩)
    hc ⟨h, hcare⟩).1
  split_ifs at hrun
  · cases hrun
    exact hinv.1
  · cases hrun
    exact hinv.1.append (planned_transfer hinv.2 (by simp))

theorem addSplitTransfers_planned
    {maxBlocks : Nat} {tgtName srcName : String} {tgt src : BlockSet} {f f' : Found}
    (hcare : InCareMaps ctx tgt src) (h : FoundPlanned ctx applyPatch zeroBlock f)
    (hrun : ctx.addSplitTransfers maxBlocks tgtName srcName tgt src f = .ok f') :
    FoundPlanned ctx applyPatch zeroBlock f' := by
  unfold Context.addSplitTransfers at hrun
  split_ifs at hrun
  · cases hrun
    exact h.append (planned_transfer hcare (by simp))
  · cases hrun
    refine ⟨h.transfers, ?_⟩
    intro a ha
    rcases List.mem_append.mp ha with ha | ha
    · exact h.apks a ha
    · rw [List.mem_singleton.mp ha]
      exact hcare
  · exact addSplitTransfersWithFixedSizeChunks_planned hcare h hrun

theorem eq_of_mem_singleBlock
    {i j : Int} (hi : 0 ≤ i) (h : j ∈ singleBlock i) :
    j = i := by
  unfold singleBlock at h
  rw [BlockSet.mem_blockRange] at h
  omega

variable [DecidableEq Block]

theorem cropBlock_care
    {tgt src : BlockSet} (hcare : InCareMaps ctx tgt src) {c : Crop} {i j : Int}
    (hi : i ∈ src) (hj : j ∈ tgt) (hc : InCareMaps ctx c.tgtSkipped c.srcSkipped) :
    InCareMaps ctx (ctx.cropBlock c i j).tgtSkipped (ctx.cropBlock c i j).srcSkipped := by
  unfold Context.cropBlock
  split_ifs
  · refine ⟨?_, ?_⟩
    · intro k hk
      rcases BlockSet.mem_union.mp hk with hk | hk
      · exact hc.tgt k hk
      · rw [eq_of_mem_singleBlock (BlockSet.nonneg_of_mem hj) hk]
        exact hcare.tgt j hj
    · intro k hk
      rcases BlockSet.mem_union.mp hk with hk | hk
      · exact hc.src k hk
      · rw [eq_of_mem_singleBlock (BlockSet.nonneg_of_mem hi) hk]
        exact hcare.src i hi
  · exact hc

theorem cropBlocks_care
    {tgt src : BlockSet} (hcare : InCareMaps ctx tgt src) (tgtSize : Int)
    (pairs : List (Int × Int)) (c : Crop) (hpairs : ∀ p ∈ pairs, p.1 ∈ src ∧ p.2 ∈ tgt)
    (hc : InCareMaps ctx c.tgtSkipped c.srcSkipped) :
    InCareMaps ctx (ctx.cropBlocks tgtSize pairs c).tgtSkipped
      (ctx.cropBlocks tgtSize pairs c).srcSkipped := by
  induction pairs generalizing c with
  | nil => exact hc
  | cons p pairs ih =>
      rw [List.forall_mem_cons] at hpairs
      have hstep := cropBlock_care hcare hpairs.1.1 hpairs.1.2 hc
      unfold Context.cropBlocks
      split_ifs
      · exact hstep
      · exact ih _ hpairs.2 hstep

theorem addDiffTransfer_planned
    {maxBlocks : Nat} {tgtName srcName : String} {tgt src : BlockSet} {f f' : Found}
    (hcare : InCareMaps ctx tgt src) (h : FoundPlanned ctx applyPatch zeroBlock f)
    (hrun : ctx.addDiffTransfer maxBlocks tgtName srcName tgt src f = .ok f') :
    FoundPlanned ctx applyPatch zeroBlock f' := by
  have hcrop := cropBlocks_care hcare tgt.size (src.blocks.zip tgt.blocks) {}
    (fun p hp => ⟨(List.of_mem_zip hp).1, (List.of_mem_zip hp).2⟩)
    ⟨fun i hi => absurd hi (BlockSet.not_mem_empty i),
      fun i hi => absurd hi (BlockSet.not_mem_empty i)⟩
  unfold Context.addDiffTransfer at hrun
  simp only at hrun
  split_ifs at hrun
  · unfold Context.addCropped at hrun
    obtain ⟨f₁, hf₁, hrun⟩ := bind_eq_ok.mp hrun
    have h₁ := addSplitTransfers_planned hcrop h hf₁
    split_ifs at hrun
    · refine addSplitTransfers_planned ?_ h₁ hrun
      exact ⟨fun i hi => hcare.tgt i (BlockSet.mem_subtract.mp hi).1,
        fun i hi => hcare.src i (BlockSet.mem_subtract.mp hi).1⟩
    · cases hrun
      exact h₁
  · exact addSplitTransfers_planned hcare h hrun

theorem findTransfer_planned
    (hsrc : ctx.src.assertFileMap = .ok ()) (htgt : ctx.tgt.assertFileMap = .ok ())
    (hzero : ZeroEntries ctx zeroBlock) {names : SourceNames} {maxBlocks : Nat}
    {entry : String × BlockSet} (hentry : entry ∈ ctx.tgt.fileMap.entries) {f f' : Found}
    (h : FoundPlanned ctx applyPatch zeroBlock f)
    (hrun : ctx.findTransfer names maxBlocks f entry = .ok f') :
    FoundPlanned ctx applyPatch zeroBlock f' := by
  obtain ⟨name, tgt⟩ := entry
  have htgtCare := assertFileMap_subset htgt hentry
  have hnew : InCareMaps ctx tgt .empty :=
    ⟨htgtCare, fun i hi => absurd hi (BlockSet.not_mem_empty i)⟩
  have hfrom : ∀ srcName, ctx.addFromSource maxBlocks name tgt f srcName = .ok f' →
      FoundPlanned ctx applyPatch zeroBlock f' := by
    intro srcName hrun
    unfold Context.addFromSource at hrun
    split at hrun
    · rename_i src hget
      exact addDiffTransfer_planned
        ⟨htgtCare, assertFileMap_subset hsrc (OrderedDict.mem_of_get? hget)⟩ h hrun
    · cases hrun
  unfold Context.findTransfer at hrun
  simp only at hrun
  split_ifs at hrun with hname
  · cases hrun
    subst hname
    refine h.append ?_
    cases hget : ctx.src.fileMap.get? "__ZERO" with
    | none =>
        exact ⟨hnew, fun _ => ⟨hzero.tgt tgt hentry,
          fun i hi => absurd hi (BlockSet.not_mem_empty i)⟩, fun _ h => by cases h⟩
    | some src =>
        have hmem := OrderedDict.mem_of_get? hget
        exact ⟨⟨htgtCare, assertFileMap_subset hsrc hmem⟩,
          fun _ => ⟨hzero.tgt tgt hentry, hzero.src src hmem⟩, fun _ h => by cases h⟩
  · cases hrun
    exact h.append (planned_transfer hnew (by simp))
  · cases hrun
    exact h
  · exact hfrom name hrun
  · split at hrun
    · exact hfrom _ hrun
    · split at hrun
      · exact hfrom _ hrun
      · cases hrun
        exact h.append (planned_transfer hnew (by simp))

omit [DecidableEq Block] in
theorem splitLargeApk_planned
    (happly : PatchesApply ctx.tools applyPatch) {maxBlocks : Nat} {apk : LargeApk}
    (hcare : InCareMaps ctx apk.tgtRanges apk.srcRanges) {pieces : List SplitApk}
    (hrun : ctx.splitLargeApk maxBlocks apk = .ok pieces) :
    ∀ p ∈ pieces, Planned ctx applyPatch zeroBlock (ctx.addSplitApk p) := by
  unfold Context.splitLargeApk at hrun
  split at hrun
  · cases hrun
  · rename_i o ho
    obtain ⟨infos, hinfos, hrun⟩ := bind_eq_ok.mp hrun
    cases hrun
    intro p hp
    obtain ⟨q, hq, rfl⟩ := List.mem_map.mp hp
    have hmem : q.1 ∈ infos := by
      rw [← List.zipIdx_map_fst (l := infos) (i := 0)]
      exact List.mem_map_of_mem hq
    obtain ⟨pre, line, post, indices, hlines, hraw, hstart, hlen, htgt, hsrc⟩ :=
      parseAndValidateSplitInfo_pieces hinfos q.1 hmem
    refine ⟨⟨?_, ?_⟩, ?_, ?_⟩
    · intro i hi
      have hi' : i ∈ q.1.tgtRanges.blocks := hi
      rw [htgt] at hi'
      exact hcare.tgt i (List.mem_of_mem_drop (List.mem_of_mem_take hi'))
    · intro i hi
      have hi' : i ∈ q.1.srcRanges.blocks := hi
      rw [hsrc] at hi'
      obtain ⟨k, hk, _⟩ := mem_blocksAt.mp hi'
      exact hcare.src i (List.mem_iff_getElem?.mpr ⟨k, hk⟩)
    · intro h
      cases h
    · rintro info ⟨⟩
      have := happly.split _ _ _ _ ho pre line post indices hlines hraw
      show applyPatch true ((o.patch.drop q.1.patchStart).take q.1.patchLength)
        (q.1.srcRanges.blocks.map ctx.src.content) =
          some (q.1.tgtRanges.blocks.map ctx.tgt.content)
      rw [hstart, hlen, hsrc, htgt, ← blocksAt_map, List.map_take, List.map_drop]
      exact this

omit [DecidableEq Block] in
theorem splitLargeApks_planned
    (happly : PatchesApply ctx.tools applyPatch) {maxBlocks : Nat} (apks : List LargeApk)
    (workers : Nat) (hcare : ∀ a ∈ apks, InCareMaps ctx a.tgtRanges a.srcRanges) :
    ∀ p ∈ ctx.splitLargeApks maxBlocks workers apks,
      Planned ctx applyPatch zeroBlock (ctx.addSplitApk p) := by
  induction apks generalizing workers with
  | nil =>
      cases workers <;> simp [Context.splitLargeApks]
  | cons apk apks ih =>
      rw [List.forall_mem_cons] at hcare
      cases workers with
      | zero => simp [Context.splitLargeApks]
      | succ workers =>
          unfold Context.splitLargeApks
          split
          · rename_i pieces hpieces
            intro p hp
            rcases List.mem_append.mp hp with hp | hp
            · exact splitLargeApk_planned happly hcare.1 hpieces p hp
            · exact ih _ hcare.2 p hp
          · exact ih workers hcare.2

/-- The transfers that `FindTransfers` finds. -/
theorem findTransfers_planned
    (hsrc : ctx.src.assertFileMap = .ok ()) (htgt : ctx.tgt.assertFileMap = .ok ())
    (hzero : ZeroEntries ctx zeroBlock) (happly : PatchesApply ctx.tools applyPatch)
    {ts : List Transfer} (hrun : ctx.findTransfers = .ok ts) :
    ∀ t ∈ ts, Planned ctx applyPatch zeroBlock t := by
  unfold Context.findTransfers at hrun
  obtain ⟨maxBlocks, _, hrun⟩ := bind_eq_ok.mp hrun
  obtain ⟨f, hf, hrun⟩ := bind_eq_ok.mp hrun
  cases hrun
  have hfound : FoundPlanned ctx applyPatch zeroBlock f := by
    refine forLoop_preserves (fun f => FoundPlanned ctx applyPatch zeroBlock f) hf
      ⟨by simp, by simp⟩ ?_
    intro entry f f' hmem h hstep
    exact findTransfer_planned hsrc htgt hzero
      ((List.perm_insertionSort _ _).mem_iff.mp hmem) h hstep
  intro t ht
  rcases List.mem_append.mp ht with ht | ht
  · exact hfound.transfers t ht
  · obtain ⟨p, hp, rfl⟩ := List.mem_map.mp ht
    exact splitLargeApks_planned happly f.largeApks ctx.threads hfound.apks p
      ((List.perm_insertionSort _ _).mem_iff.mp hp)

end Planned

end BlockImageDiff
end AndroidBuild
