import AndroidBuild.Lib.TextLines
import AndroidBuild.SparseImg.SparseImage

/-!
# `SparseImage.LoadFileBlockMap`

Each line of the block map names a file and lists its blocks.  The loop hands
every file the blocks that nobody has claimed before; the blocks that are left
over are read from the image and divided into zero and non-zero blocks.

The image is opened in binary mode, so that what is read is `bytes`, while
`reference` is a `str`.  Python compares the two as different.
-/

namespace AndroidBuild
namespace SparseImg

open RangeLib SparseImage Text

abbrev FileMap := OrderedDict String RangeSet

section Files

/-- The two variables of the loop over the lines. -/
structure Load where
  remaining : RangeSet
  out : FileMap

/-- The name and the ranges of a line, without the holes that are recorded as block 0. -/
def readLine (line : String) : Option (String × RangeSet) := do
  let (fn, rangesText) ← splitWord (rstripChars line.toList)
  let rawRanges ← RangeSet.parse rangesText
  let zero ← RangeSet.parse "0"
  let ranges ← rawRanges.subtract zero
  pure (fn,
    { ranges with
      monotonic := rawRanges.monotonic
      extra := { ranges.extra with textStr := some rangesText } })

/-- `out[fn] = ranges` with the two assertions, and what remains. -/
def storeFile (clobbered : RangeSet) (st : Load) (fn : String) (ranges : RangeSet) :
    Option Load := do
  let common ← ranges.intersect st.remaining
  if ranges.size ≠ common.size then none
  else if clobbered.overlaps ranges then none
  else
    let remaining ← st.remaining.subtract ranges
    pure { remaining := remaining, out := st.out.set fn ranges }

def claimFile (clobbered : RangeSet) (allowSharedBlocks : Bool) (st : Load)
    (file : String × RangeSet) : Option Load := do
  if allowSharedBlocks then
    let sharedBlocks ← file.2.subtract st.remaining
    if sharedBlocks.nonempty then
      let nonShared ← file.2.subtract sharedBlocks
      if nonShared.nonempty then
        storeFile clobbered st file.1
          { nonShared with
            extra := { nonShared.extra with usesSharedBlocks := some file.2.data } }
      else some st
    else storeFile clobbered st file.1 file.2
  else storeFile clobbered st file.1 file.2

def loadLine (clobbered : RangeSet) (allowSharedBlocks : Bool) (st : Load) (line : String) :
    Option Load := do
  let file ← readLine line
  claimFile clobbered allowSharedBlocks st file

end Files

section Leftovers

/-- The objects that are compared with `reference`. -/
inductive PyData where
  | none
  | bytes (b : Bytes)
  | str (s : List Char)
deriving DecidableEq

/-- `'\0' * self.blocksize`. -/
def reference (img : SparseImage) : List Char :=
  List.replicate img.blocksize (Char.ofNat 0)

/-- `data` for block `b`. -/
def blockData (img : SparseImage) (b : Int) : Option PyData := do
  let e ← entryAt img.offsetMap ((bisectRight img.offsetMap b : Int) - 1)
  match e.data with
  | .raw filepos => do
      let data ← readFile img.simgF (filepos + (b - e.chunkStart) * img.blocksize) img.blocksize
      pure (.bytes data)
  | .fill fillData =>
      if PyData.bytes fillData = .str ((reference img).take 4) then pure (.str (reference img))
      else pure .none

structure Leftovers where
  zeroBlocks : List Int := []
  nonzeroBlocks : List Int := []
  nonzeroGroups : List (List Int) := []

def maxBlocksPerGroup : Nat := 1024

def classifyBlock (img : SparseImage) (st : Leftovers) (b : Int) : Option Leftovers := do
  let data ← blockData img b
  if data = .str (reference img) then
    pure { st with zeroBlocks := st.zeroBlocks ++ [b, b + 1] }
  else
    let nonzero := st.nonzeroBlocks ++ [b, b + 1]
    if nonzero.length ≥ maxBlocksPerGroup then
      pure { st with nonzeroBlocks := [], nonzeroGroups := st.nonzeroGroups ++ [nonzero] }
    else pure { st with nonzeroBlocks := nonzero }

def classify (img : SparseImage) (remaining : RangeSet) : Option Leftovers := do
  let st ← remaining.blocks.foldlM (classifyBlock img) {}
  if st.nonzeroBlocks = [] then pure st
  else pure { st with nonzeroBlocks := [], nonzeroGroups := st.nonzeroGroups ++ [st.nonzeroBlocks] }

/-- `"__NONZERO-%d" % i`. -/
def nonzeroName (i : Nat) : String :=
  "__NONZERO-" ++ toString i

/-- `for i, blocks in enumerate(nonzero_groups)`, from index `i` on. -/
def storeGroups : Nat → FileMap → List (List Int) → Option FileMap
  | _, out, [] => some out
  | i, out, blocks :: groups => do
      let r ← RangeSet.ofData blocks
      storeGroups (i + 1) (out.set (nonzeroName i) r) groups

/-- `out["__ZERO"]`, if there are zero blocks. -/
def storeZero (zeroBlocks : List Int) (out : FileMap) : Option FileMap :=
  if zeroBlocks = [] then some out
  else (RangeSet.ofData zeroBlocks).map (out.set "__ZERO")

def storeLeftovers (clobbered : RangeSet) (st : Leftovers) (out : FileMap) : Option FileMap :=
  if st.zeroBlocks = [] ∧ st.nonzeroGroups = [] ∧ clobbered.nonempty = false then none
  else do
    let out ← storeZero st.zeroBlocks out
    let out ← storeGroups 0 out st.nonzeroGroups
    pure (if clobbered.nonempty then out.set "__COPY" clobbered else out)

end Leftovers

/-- `LoadFileBlockMap`, for the content of the block map file: the new `file_map`. -/
def loadFileBlockMap (img : SparseImage) (text : String) (clobbered : RangeSet)
    (allowSharedBlocks : Bool) : Option FileMap := do
  let st ← (fileLines text).foldlM (loadLine clobbered allowSharedBlocks)
    { remaining := img.careMap, out := .empty }
  let remaining ← st.remaining.subtract clobbered
  let leftovers ← classify img remaining
  storeLeftovers clobbered leftovers st.out

end SparseImg
end AndroidBuild
