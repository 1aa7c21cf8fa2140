import AndroidBuild.BlockImageDiff.ComputePatches

/-!
# `WriteTransfers`

The commands of the transfer list.  In BBOTA v3+ the hash of the stashed blocks
is the name of the stash slot; `stashes` counts the references to every slot,
and a slot is freed when its count drops to zero.
-/

namespace AndroidBuild
namespace BlockImageDiff

open Loop RangeLib

variable {Block : Type}

/-- `<# blocks> <src ranges> <src locs> <stash refs...>`; `ranges` is `none` for `-`. -/
structure SourceArg where
  size : Int
  ranges : Option BlockSet
  locs : Option RangeSet
  refs : List (String × RangeSet)

/-- One line of the transfer list. -/
inductive Command
  | stash (hash : String) (ranges : BlockSet)
  | free (hash : String)
  | new (tgt : BlockSet)
  | zero (tgt : BlockSet)
  | erase (ranges : BlockSet)
  | move (tgtSha1 : String) (tgt : BlockSet) (src : SourceArg)
  | bsdiff (patchStart patchLen : Nat) (srcSha1 tgtSha1 : String) (tgt : BlockSet)
      (src : SourceArg)
  | imgdiff (patchStart patchLen : Nat) (srcSha1 tgtSha1 : String) (tgt : BlockSet)
      (src : SourceArg)

/-- The transfer list with the numbers of its header. -/
structure TransferList where
  version : Nat
  total : Int
  maxStashed : Int
  commands : List Command

/-- The local variables of `WriteTransfers` and `touched_src_ranges`. -/
structure Writer where
  out : List Command
  total : Int
  stashes : String → Nat
  stashedBlocks : Int
  maxStashed : Int
  touched : BlockSet

def Writer.init : Writer :=
  ⟨[], 0, fun _ => 0, 0, 0, .empty⟩

/-- The pieces of at most 1024 blocks that `WriteSplitTransfers` writes. -/
def splitPieces (target : BlockSet) : Except PyError (List BlockSet) := do
  let r ← whileLoop .exhausted (fun s : List BlockSet × BlockSet => s.2.nonempty)
    (fun s => .ok (s.1 ++ [s.2.first 1024], s.2.subtract (s.2.first 1024)))
    target.size.toNat ([], target)
  pure r.1

/-- `WriteSplitTransfers` with the assertion on its result. -/
def writeSplitTransfers (command : BlockSet → Command) (w : Writer) (target : BlockSet) :
    Except PyError Writer := do
  let pieces ← splitPieces target
  if (pieces.map BlockSet.size).sum = target.size then
    pure { w with out := w.out ++ pieces.map command, total := w.total + target.size }
  else .error .assertionError

/-- The variables of the loop over `xf.use_stash`. -/
structure StashRefs where
  unstashed : BlockSet
  mapped : List RangeSet
  refs : List (String × RangeSet)
  stashes : String → Nat
  freed : List String
  freeSize : Int

/-- Take the implicit stash of overlapping source and target blocks into account. -/
def Writer.implicitStash (w : Writer) (t : Transfer) : Writer :=
  if t.srcRanges.overlaps t.tgtRanges then
    { w with maxStashed := max w.maxStashed (w.stashedBlocks + t.srcRanges.size) }
  else w

/-- `src_str_buffer`. -/
def sourceArg (t : Transfer) (r : StashRefs) : Except PyError SourceArg :=
  let size := t.srcRanges.size
  let all := (BlockSet.blockRange 0 size.toNat).toRangeSet
  if r.unstashed.nonempty then
    if t.useStash.isEmpty then .ok ⟨size, some r.unstashed, none, r.refs⟩
    else
      match t.srcRanges.toRangeSet.mapWithin r.unstashed.toRangeSet with
      | none => .error .typeError
      | some locs => do
          assertPartition all (r.mapped ++ [locs])
          pure ⟨size, some r.unstashed, some locs, r.refs⟩
  else do
    assertPartition all r.mapped
    pure ⟨size, none, none, r.refs⟩

/-- The command for the style of a transfer. -/
def writeCommand (w : Writer) (t : Transfer) (arg : SourceArg) : Except PyError Writer :=
  match t.style with
  | .new =>
      if t.tgtRanges.nonempty then writeSplitTransfers .new w t.tgtRanges
      else .error .assertionError
  | .move =>
      if t.tgtRanges.nonempty && decide (t.srcRanges.size = t.tgtRanges.size) then
        if t.srcRanges.same t.tgtRanges then .ok w
        else
          let w := w.implicitStash t
          .ok { w with
            touched := w.touched.union t.srcRanges
            out := w.out ++ [.move t.tgtSha1 t.tgtRanges arg]
            total := w.total + t.tgtRanges.size }
      else .error .assertionError
  | .bsdiff | .imgdiff =>
      if t.tgtRanges.nonempty && t.srcRanges.nonempty then
        let w := w.implicitStash t
        let command := if t.style = .imgdiff then Command.imgdiff else Command.bsdiff
        .ok { w with
          touched := w.touched.union t.srcRanges
          out := w.out ++
            [command t.patchStart t.patchLen t.srcSha1 t.tgtSha1 t.tgtRanges arg]
          total := w.total + t.tgtRanges.size }
      else .error .assertionError
  | .zero =>
      if t.tgtRanges.nonempty then
        writeSplitTransfers .zero w (t.tgtRanges.subtract t.srcRanges)
      else .error .assertionError
  | .diff => .error .valueError

section Definitions

variable (rangeSha1 : BlockSet → String) (opts : Options)

/-- One entry of `xf.stash_before`. -/
def writeStash (w : Writer) (s : Stash) : Writer :=
  let sh := rangeSha1 s.2
  if 0 < w.stashes sh then
    { w with stashes := Function.update w.stashes sh (w.stashes sh + 1) }
  else
    { w with
      stashes := Function.update w.stashes sh 1
      stashedBlocks := w.stashedBlocks + s.2.size
      touched := w.touched.union s.2
      out := w.out ++ [.stash sh s.2] }

/-- One entry of `xf.use_stash`. -/
def writeUse (src : BlockSet) (r : StashRefs) (s : Stash) : Except PyError StashRefs :=
  let sh := rangeSha1 s.2
  match src.toRangeSet.mapWithin s.2.toRangeSet with
  | none => .error .typeError
  | some sr =>
      if 0 < r.stashes sh then
        let last := decide (r.stashes sh - 1 = 0)
        .ok {
          unstashed := r.unstashed.subtract s.2
          mapped := r.mapped ++ [sr]
          refs := r.refs ++ [(sh, sr)]
          stashes := Function.update r.stashes sh (r.stashes sh - 1)
          freed := if last then r.freed ++ [sh] else r.freed
          freeSize := if last then r.freeSize + sr.size else r.freeSize }
      else .error .assertionError

/-- Abort if more stash space is needed than allowed. -/
def checkStashLimit (w : Writer) : Except PyError Writer :=
  match opts.cacheSize with
  | none => .ok w
  | some cacheSize =>
      if (w.maxStashed * blocksize : ℚ) ≤ cacheSize * opts.stashThreshold then .ok w
      else .error .stashLimitExceeded

def writeTransfer (w : Writer) (t : Transfer) : Except PyError Writer := do
  let w := t.stashBefore.foldl (writeStash rangeSha1) w
  let w := { w with maxStashed := max w.maxStashed w.stashedBlocks }
  let r ← t.useStash.foldlM (writeUse rangeSha1 t.srcRanges)
    ⟨t.srcRanges, [], [], w.stashes, [], 0⟩
  let arg ← sourceArg t r
  let w ← writeCommand { w with stashes := r.stashes } t arg
  checkStashLimit opts { w with
    out := w.out ++ r.freed.map .free
    stashedBlocks := w.stashedBlocks - r.freeSize }

end Definitions

section Steps

variable {rangeSha1 : BlockSet → String} {opts : Options}

theorem checkStashLimit_ok
    {w w' : Writer} (h : checkStashLimit opts w = .ok w') :
    w' = w := by
  unfold checkStashLimit at h
  split at h
  · cases h
    rfl
  · split_ifs at h
    cases h
    rfl

/-- The steps of a transfer that is written. -/
theorem writeTransfer_ok
    {w w' : Writer} {t : Transfer} (h : writeTransfer rangeSha1 opts w t = .ok w') :
    ∃ w₁ r arg w₂, w₁ = t.stashBefore.foldl (writeStash rangeSha1) w ∧
      t.useStash.foldlM (writeUse rangeSha1 t.srcRanges)
        ⟨t.srcRanges, [], [], w₁.stashes, [], 0⟩ = .ok r ∧
      sourceArg t r = .ok arg ∧
      writeCommand { w₁ with
        maxStashed := max w₁.maxStashed w₁.stashedBlocks
        stashes := r.stashes } t arg = .ok w₂ ∧
      w' = { w₂ with
        out := w₂.out ++ r.freed.map .free
        stashedBlocks := w₂.stashedBlocks - r.freeSize } := by
  unfold writeTransfer at h
  obtain ⟨r, hr, h⟩ := bind_eq_ok.mp h
  obtain ⟨arg, harg, h⟩ := bind_eq_ok.mp h
  obtain ⟨w₂, hw₂, h⟩ := bind_eq_ok.mp h
  exact ⟨_, r, arg, w₂, rfl, hr, harg, hw₂, checkStashLimit_ok h⟩

end Steps

namespace Context

variable (ctx : Context Block)

/-- The blocks outside of the new image that nothing reads afterwards. -/
def newDontcare : BlockSet :=
  ((BlockSet.blockRange 0 ctx.tgt.totalBlocks).subtract ctx.tgt.extended).subtract
    ctx.tgt.careMap

/-- Zero out extended blocks as a workaround for bug 20881595. -/
def writeExtended (w : Writer) : Except PyError Writer :=
  if ctx.tgt.extended.nonempty then writeSplitTransfers .zero w ctx.tgt.extended else .ok w

def writeTransfers (st : State) : Except PyError TransferList := do
  let w ← st.transfers.foldlM
    (fun w x => writeTransfer ctx.srcSha1 ctx.opts w (st.xf x)) Writer.init
  let w ← ctx.writeExtended w
  let eraseFirst := ctx.newDontcare.subtract w.touched
  let eraseLast := ctx.newDontcare.subtract eraseFirst
  pure {
    version := ctx.version
    total := w.total
    maxStashed := w.maxStashed
    commands := (if eraseFirst.nonempty then [.erase eraseFirst] else []) ++ w.out ++
      (if eraseLast.nonempty then [.erase eraseLast] else []) }

end Context

end BlockImageDiff
end AndroidBuild
