import AndroidBuild.Lib.Bytes
import AndroidBuild.Lib.OrderedDict
import AndroidBuild.RangeLib.Format

/-!
# `sparse_img.SparseImage`

A sparse image file is a header and a sequence of chunks.  `__init__` walks
over the chunks once and keeps, for each chunk with data, its first block, its
length and either the position of its bytes in the file or the word it is
filled with; `_GetRangeData` finds the chunk of a block by bisection in that
list.  An exception is `none`.
-/

namespace AndroidBuild
namespace SparseImg

open RangeLib

abbrev Bytes := List UInt8

/-- `filepos` and `fill_data` of an entry of `offset_map`, one of which is `None`. -/
inductive ChunkData where
  | raw (filepos : Nat)
  | fill (fillData : Bytes)
deriving DecidableEq

/-- An entry of `offset_map`. -/
structure ChunkEntry where
  chunkStart : Nat
  chunkLen : Nat
  data : ChunkData
deriving DecidableEq

structure SparseImage where
  /-- The content of `simg_f`. -/
  simgF : Bytes
  blocksize : Nat
  totalBlocks : Nat
  totalChunks : Nat
  offsetMap : List ChunkEntry
  clobberedBlocks : RangeSet
  careMap : RangeSet
  extended : RangeSet

section Init

structure Header where
  magic : Nat
  majorVersion : Nat
  minorVersion : Nat
  fileHdrSz : Nat
  chunkHdrSz : Nat
  blkSz : Nat
  totalBlks : Nat
  totalChunks : Nat

/-- `struct.unpack("<I4H4I", header_bin)`; the last field, a checksum, is not used. -/
def unpackHeader (headerBin : Bytes) : Option Header :=
  if headerBin.length = 28 then
    some
      { magic := Bytes.toNat (Bytes.slice headerBin 0 4)
        majorVersion := Bytes.toNat (Bytes.slice headerBin 4 2)
        minorVersion := Bytes.toNat (Bytes.slice headerBin 6 2)
        fileHdrSz := Bytes.toNat (Bytes.slice headerBin 8 2)
        chunkHdrSz := Bytes.toNat (Bytes.slice headerBin 10 2)
        blkSz := Bytes.toNat (Bytes.slice headerBin 12 4)
        totalBlks := Bytes.toNat (Bytes.slice headerBin 16 4)
        totalChunks := Bytes.toNat (Bytes.slice headerBin 20 4) }
  else none

/-- The header checks of `__init__`. -/
def Header.check (h : Header) : Bool :=
  decide (h.magic = 0xED26FF3A) && decide (h.majorVersion = 1 ∧ h.minorVersion = 0) &&
    decide (h.fileHdrSz = 28) && decide (h.chunkHdrSz = 12)

structure ChunkHeader where
  chunkType : Nat
  chunkSz : Nat
  totalSz : Nat

/-- `struct.unpack("<2H2I", header_bin)`. -/
def unpackChunkHeader (headerBin : Bytes) : Option ChunkHeader :=
  if headerBin.length = 12 then
    some
      { chunkType := Bytes.toNat (Bytes.slice headerBin 0 2)
        chunkSz := Bytes.toNat (Bytes.slice headerBin 4 4)
        totalSz := Bytes.toNat (Bytes.slice headerBin 8 4) }
  else none

/-- The variables of the loop over the chunks, with the position in the file. -/
structure Scan where
  tell : Nat
  pos : Nat := 0
  careData : List Int := []
  offsetMap : List ChunkEntry := []

/-- A chunk with data: `care_data`, `offset_map` and `pos`. -/
def Scan.add (st : Scan) (chunkSz : Nat) (data : ChunkData) (tell : Nat) : Scan where
  tell := tell
  pos := st.pos + chunkSz
  careData := st.careData ++ [(st.pos : Int), ((st.pos + chunkSz : Nat) : Int)]
  offsetMap := st.offsetMap ++ [⟨st.pos, chunkSz, data⟩]

def scanChunk (file : Bytes) (blkSz : Nat) (st : Scan) : Option Scan := do
  let h ← unpackChunkHeader (Bytes.slice file st.tell 12)
  let tell := st.tell + 12
  let dataSz : Int := (h.totalSz : Int) - 12
  if h.chunkType = 0xCAC1 then
    if dataSz ≠ ((h.chunkSz * blkSz : Nat) : Int) then none
    else some (st.add h.chunkSz (.raw tell) (tell + h.chunkSz * blkSz))
  else if h.chunkType = 0xCAC2 then
    let fillData := Bytes.slice file tell 4
    some (st.add h.chunkSz (.fill fillData) (tell + fillData.length))
  else if h.chunkType = 0xCAC3 then
    if dataSz ≠ 0 then none
    else some { st with tell := tell, pos := st.pos + h.chunkSz }
  else none

def scanChunks (file : Bytes) (blkSz : Nat) : Nat → Scan → Option Scan
  | 0, st => some st
  | n + 1, st => do
      let st ← scanChunk file blkSz st
      scanChunks file blkSz n st

/-- `rangelib.RangeSet(data=clobbered_blocks)`, for a text or `None`. -/
def clobberedSet : Option String → Option RangeSet
  | none => some {}
  | some text => RangeSet.parse text

/-- `__init__` up to the file map. -/
def init (file : Bytes) (clobberedBlocks : Option String) : Option SparseImage := do
  let h ← unpackHeader (Bytes.slice file 0 28)
  if !h.check then none
  else
    let clobbered ← clobberedSet clobberedBlocks
    let st ← scanChunks file h.blkSz h.totalChunks { tell := 28 }
    let careMap ← RangeSet.ofData st.careData
    let extended ← careMap.extend 512
    let allBlocks ← RangeSet.ofData [0, h.totalBlks]
    let extended ← extended.intersect allBlocks
    let extended ← extended.subtract careMap
    pure
      { simgF := file
        blocksize := h.blkSz
        totalBlocks := h.totalBlks
        totalChunks := h.totalChunks
        offsetMap := st.offsetMap
        clobberedBlocks := clobbered
        careMap := careMap
        extended := extended }

end Init

namespace SparseImage

section Append

/-- `struct.pack` of one unsigned integer of `w` bytes. -/
def pack (w n : Nat) : Option Bytes :=
  if n < 256 ^ w then some (Bytes.ofNat w n) else none

/-- `AppendFillChunk`: the chunk goes to the end of the file, the two totals of the header
are written over. -/
def appendFillChunk (img : SparseImage) (data blocks : Nat) : Option SparseImage := do
  let chunkBlocks ← pack 4 blocks
  let fillData ← pack 4 data
  let file := img.simgF ++ (Bytes.ofNat 2 0xCAC2 ++ Bytes.ofNat 2 0 ++ chunkBlocks ++
    Bytes.ofNat 4 16 ++ fillData)
  let totalBlocks ← pack 4 (img.totalBlocks + blocks)
  let totalChunks ← pack 4 (img.totalChunks + 1)
  pure
    { img with
      simgF := file.take 16 ++ (totalBlocks ++ totalChunks) ++ file.drop 24
      totalBlocks := img.totalBlocks + blocks
      totalChunks := img.totalChunks + 1 }

end Append

section Read

/-- `bisect.bisect_right(self.offset_index, b)`. -/
def bisectRight (offsetMap : List ChunkEntry) (b : Int) : Nat :=
  (offsetMap.takeWhile (fun e => decide ((e.chunkStart : Int) ≤ b))).length

/-- `self.offset_map[idx]`; a negative index counts from the end. -/
def entryAt (offsetMap : List ChunkEntry) (idx : Int) : Option ChunkEntry :=
  if idx < 0 then
    if -idx ≤ offsetMap.length then offsetMap[(offsetMap.length + idx).toNat]? else none
  else offsetMap[idx.toNat]?

/-- `f.seek(p)` and `f.read(n)`; a negative `n` reads to the end. -/
def readFile (file : Bytes) (p n : Int) : Option Bytes :=
  if p < 0 then none
  else if n < 0 then some (file.drop p.toNat)
  else some (Bytes.slice file p.toNat n.toNat)

/-- `fill_data * n`. -/
def repeated (fillData : Bytes) (n : Int) : Bytes :=
  (List.replicate n.toNat fillData).flatten

/-- The piece yielded for `this_read` blocks from block `skip` of a chunk on. -/
def chunkPiece (img : SparseImage) (e : ChunkEntry) (skip thisRead : Int) : Option Bytes :=
  match e.data with
  | .raw filepos =>
      readFile img.simgF (filepos + skip * img.blocksize) (thisRead * img.blocksize)
  | .fill fillData => some (repeated fillData (thisRead * (img.blocksize / 4 : Nat)))

/-- The `while` loop over the chunks behind the first one. -/
def readFollowing (img : SparseImage) : List ChunkEntry → Int → Option (List Bytes)
  | entries, toRead =>
      if toRead ≤ 0 then some []
      else
        match entries with
        | [] => none
        | e :: rest => do
            let thisRead := min (e.chunkLen : Int) toRead
            let piece ← chunkPiece img e 0 thisRead
            let pieces ← readFollowing img rest (toRead - thisRead)
            pure (piece :: pieces)

def readRange (img : SparseImage) (r : Int × Int) : Option (List Bytes) := do
  let toRead := r.2 - r.1
  let idx : Int := (bisectRight img.offsetMap r.1 : Int) - 1
  let e ← entryAt img.offsetMap idx
  let remain := (e.chunkLen : Int) - (r.1 - e.chunkStart)
  let thisRead := min remain toRead
  let piece ← chunkPiece img e (r.1 - e.chunkStart) thisRead
  let pieces ← readFollowing img (img.offsetMap.drop (idx + 1).toNat) (toRead - thisRead)
  pure (piece :: pieces)

/-- `ReadRangeSet`, which collects what `_GetRangeData` yields. -/
def readRangeSet (img : SparseImage) (ranges : RangeSet) : Option (List Bytes) := do
  let pieces ← ranges.pairs.mapM (readRange img)
  pure pieces.flatten

end Read

end SparseImage

end SparseImg
end AndroidBuild
