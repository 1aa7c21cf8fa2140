import AndroidBuild.SparseImg.SparseImage

/-!
# Well-formed sparse images and what they expand to

A well-formed file is a header followed by chunks whose size fields are right.
It expands to a list of blocks, in which the blocks of a don't-care chunk have
no content.  The chunk loop of `__init__` keeps, for every chunk, where its
blocks are to be read.
-/

namespace AndroidBuild
namespace SparseImg

open RangeLib SparseImage

/-- A block of the expanded image; a block nobody cares about has no content. -/
abbrev Block := Option Bytes

section Files

inductive Body where
  | raw (data : Bytes)
  | fill (word : Bytes)
  | dontCare

structure Chunk where
  reserved : Nat
  chunkSz : Nat
  body : Body

namespace Chunk

def chunkType (c : Chunk) : Nat :=
  match c.body with
  | .raw _ => 0xCAC1
  | .fill _ => 0xCAC2
  | .dontCare => 0xCAC3

def payload (c : Chunk) : Bytes :=
  match c.body with
  | .raw data => data
  | .fill word => word
  | .dontCare => []

def headerFields (c : Chunk) : List (Nat × Nat) :=
  [(2, c.chunkType), (2, c.reserved), (4, c.chunkSz), (4, 12 + c.payload.length)]

def header (c : Chunk) : Bytes :=
  Bytes.fields c.headerFields

def encode (c : Chunk) : Bytes :=
  c.header ++ c.payload

def expand (blkSz : Nat) (c : Chunk) : List Block :=
  match c.body with
  | .raw data => (List.range c.chunkSz).map (fun k => some (Bytes.slice data (k * blkSz) blkSz))
  | .fill word => List.replicate c.chunkSz (some (repeated word (blkSz / 4 : Nat)))
  | .dontCare => List.replicate c.chunkSz none

structure WellFormed (blkSz : Nat) (c : Chunk) : Prop where
  reserved_lt : c.reserved < 256 ^ 2
  chunkSz_lt : c.chunkSz < 256 ^ 4
  totalSz_lt : 12 + c.payload.length < 256 ^ 4
  body_ok :
    match c.body with
    | .raw data => data.length = c.chunkSz * blkSz
    | .fill word => word.length = 4
    | .dontCare => True

end Chunk

/-- A well-formed sparse image file. -/
structure SparseFile where
  blkSz : Nat
  checksum : Nat
  chunks : List Chunk
  blkSz_lt : blkSz < 256 ^ 4
  blkSz_mod : blkSz % 4 = 0
  chunks_ok : ∀ c ∈ chunks, c.WellFormed blkSz
  totalChunks_lt : chunks.length < 256 ^ 4
  totalBlks_lt : (chunks.map Chunk.chunkSz).sum < 256 ^ 4

namespace SparseFile

def totalBlks (f : SparseFile) : Nat :=
  (f.chunks.map Chunk.chunkSz).sum

def headerFields (f : SparseFile) : List (Nat × Nat) :=
  [(4, 0xED26FF3A), (2, 1), (2, 0), (2, 28), (2, 12), (4, f.blkSz), (4, f.totalBlks),
    (4, f.chunks.length), (4, f.checksum)]

def header (f : SparseFile) : Bytes :=
  Bytes.fields f.headerFields

def encode (f : SparseFile) : Bytes :=
  f.header ++ f.chunks.flatMap Chunk.encode

def expansion (f : SparseFile) : List Block :=
  f.chunks.flatMap (Chunk.expand f.blkSz)

end SparseFile

def blockBytes (blocks : List Block) (i : Int) : Bytes :=
  (blocks[i.toNat]?.join).getD []

end Files

section Headers

@[simp] theorem length_header
    (c : Chunk) :
    c.header.length = 12 := by
  simp [Chunk.header, Chunk.headerFields]

@[simp] theorem length_fileHeader
    (f : SparseFile) :
    f.header.length = 28 := by
  simp [SparseFile.header, SparseFile.headerFields]

@[simp] theorem length_expand
    (blkSz : Nat) (c : Chunk) :
    (c.expand blkSz).length = c.chunkSz := by
  unfold Chunk.expand
  split <;> simp

theorem unpackChunkHeader_header
    {blkSz : Nat} {c : Chunk} (hc : c.WellFormed blkSz) :
    unpackChunkHeader c.header =
      some ⟨c.chunkType, c.chunkSz, 12 + c.payload.length⟩ := by
  have htype : c.chunkType < 256 ^ 2 := by
    unfold Chunk.chunkType
    split <;> decide
  rw [unpackChunkHeader, if_pos (length_header c), Chunk.header,
    Bytes.toNat_slice_fields c.headerFields 0 0 rfl htype rfl,
    Bytes.toNat_slice_fields c.headerFields 2 4 rfl hc.chunkSz_lt rfl,
    Bytes.toNat_slice_fields c.headerFields 3 8 rfl hc.totalSz_lt rfl]

theorem unpackHeader_header
    (f : SparseFile) :
    unpackHeader f.header =
      some ⟨0xED26FF3A, 1, 0, 28, 12, f.blkSz, f.totalBlks, f.chunks.length⟩ := by
  rw [unpackHeader, if_pos (length_fileHeader f), SparseFile.header,
    Bytes.toNat_slice_fields f.headerFields 0 0 rfl (by decide) rfl,
    Bytes.toNat_slice_fields f.headerFields 1 4 rfl (by decide) rfl,
    Bytes.toNat_slice_fields f.headerFields 2 6 rfl (by decide) rfl,
    Bytes.toNat_slice_fields f.headerFields 3 8 rfl (by decide) rfl,
    Bytes.toNat_slice_fields f.headerFields 4 10 rfl (by decide) rfl,
    Bytes.toNat_slice_fields f.headerFields 5 12 rfl f.blkSz_lt rfl,
    Bytes.toNat_slice_fields f.headerFields 6 16 rfl f.totalBlks_lt rfl,
    Bytes.toNat_slice_fields f.headerFields 7 20 rfl f.totalChunks_lt rfl]

end Headers

section Scanning

variable {file : Bytes} {blkSz : Nat}

/-- Block `k` of a chunk, as it is read from the file. -/
def entryBlock (file : Bytes) (blkSz : Nat) (e : ChunkEntry) (k : Nat) : Bytes :=
  match e.data with
  | .raw filepos => Bytes.slice file (filepos + k * blkSz) blkSz
  | .fill fillData => repeated fillData (blkSz / 4 : Nat)

/-- `offset_map` describes the blocks of the image that have content. -/
structure Covers (file : Bytes) (blkSz : Nat) (offsetMap : List ChunkEntry)
    (blocks : List Block) : Prop where
  sorted : offsetMap.Pairwise (fun a b => a.chunkStart + a.chunkLen ≤ b.chunkStart)
  data : ∀ e ∈ offsetMap, ∀ k, k < e.chunkLen →
    blocks[e.chunkStart + k]? = some (some (entryBlock file blkSz e k))
  complete : ∀ i bytes, blocks[i]? = some (some bytes) →
    ∃ e ∈ offsetMap, e.chunkStart ≤ i ∧ i < e.chunkStart + e.chunkLen

/-- The chunk loop after the chunks `done`. -/
structure Scanned (file : Bytes) (blkSz : Nat) (done : List Chunk) (st : Scan) : Prop where
  tell : st.tell = 28 + (done.flatMap Chunk.encode).length
  pos : st.pos = (done.flatMap (Chunk.expand blkSz)).length
  care : st.careData = st.offsetMap.flatMap
    (fun e => [(e.chunkStart : Int), ((e.chunkStart + e.chunkLen : Nat) : Int)])
  bound : ∀ e ∈ st.offsetMap, e.chunkStart + e.chunkLen ≤ st.pos
  covers : Covers file blkSz st.offsetMap (done.flatMap (Chunk.expand blkSz))

theorem scanned_nil :
    Scanned file blkSz [] { tell := 28 } where
  tell := rfl
  pos := rfl
  care := rfl
  bound := by simp
  covers := ⟨by simp, by simp, by simp⟩

theorem getElem?_append_some
    {α : Type} {l₁ l₂ : List α} {i : Nat} {x : α} (h : l₁[i]? = some x) :
    (l₁ ++ l₂)[i]? = some x := by
  rw [List.getElem?_append_left (List.getElem?_eq_some_iff.mp h).1, h]

/-- Blocks with content behind the image, described by one entry. -/
theorem Covers.add
    {offsetMap : List ChunkEntry} {blocks more : List Block}
    (h : Covers file blkSz offsetMap blocks)
    (hbound : ∀ e ∈ offsetMap, e.chunkStart + e.chunkLen ≤ blocks.length)
    {e : ChunkEntry} (hstart : e.chunkStart = blocks.length) (hlen : e.chunkLen = more.length)
    (hdata : ∀ k, k < e.chunkLen → more[k]? = some (some (entryBlock file blkSz e k))) :
    Covers file blkSz (offsetMap ++ [e]) (blocks ++ more) where
  sorted := by
    refine List.pairwise_append.mpr ⟨h.sorted, List.pairwise_singleton _ _, ?_⟩
    intro a ha b hb
    rw [List.mem_singleton.mp hb, hstart]
    exact hbound a ha
  data := by
    intro d hd k hk
    rcases List.mem_append.mp hd with hd | hd
    · exact getElem?_append_some (h.data d hd k hk)
    · rw [List.mem_singleton.mp hd] at hk ⊢
      rw [List.getElem?_append_right (by omega), hstart, Nat.add_sub_cancel_left]
      exact hdata k hk
  complete := by
    intro i bytes hi
    by_cases hlt : i < blocks.length
    · rw [List.getElem?_append_left hlt] at hi
      obtain ⟨d, hd, hrange⟩ := h.complete i bytes hi
      exact ⟨d, List.mem_append_left _ hd, hrange⟩
    · have hle := (List.getElem?_eq_some_iff.mp hi).1
      rw [List.length_append] at hle
      exact ⟨e, by simp, by omega, by omega⟩

theorem Covers.skip
    {offsetMap : List ChunkEntry} {blocks : List Block}
    (h : Covers file blkSz offsetMap blocks) (n : Nat) :
    Covers file blkSz offsetMap (blocks ++ List.replicate n none) where
  sorted := h.sorted
  data := by
    intro d hd k hk
    exact getElem?_append_some (h.data d hd k hk)
  complete := by
    intro i bytes hi
    by_cases hlt : i < blocks.length
    · rw [List.getElem?_append_left hlt] at hi
      exact h.complete i bytes hi
    · rw [List.getElem?_append_right (by omega)] at hi
      have hmem := List.mem_of_getElem? hi
      simp at hmem

theorem flatMap_snoc
    {α β : Type} (f : α → List β) (l : List α) (x : α) :
    (l ++ [x]).flatMap f = l.flatMap f ++ f x := by
  simp

theorem Scanned.add
    {done : List Chunk} {st : Scan} (hst : Scanned file blkSz done st) {c : Chunk}
    {data : ChunkData} {tell : Nat} (htell : tell = st.tell + c.encode.length)
    (hdata : ∀ k, k < c.chunkSz →
      (c.expand blkSz)[k]? = some (some (entryBlock file blkSz ⟨st.pos, c.chunkSz, data⟩ k))) :
    Scanned file blkSz (done ++ [c]) (st.add c.chunkSz data tell) where
  tell := by
    rw [flatMap_snoc, List.length_append, ← Nat.add_assoc, ← hst.tell]
    exact htell
  pos := by
    rw [flatMap_snoc, List.length_append, ← hst.pos, length_expand]
    rfl
  care := by simp [Scan.add, hst.care]
  bound := by
    intro e he
    rcases List.mem_append.mp he with he | he
    · exact le_trans (hst.bound e he) (Nat.le_add_right _ _)
    · rw [List.mem_singleton.mp he]
      exact le_refl _
  covers := by
    rw [flatMap_snoc]
    refine hst.covers.add ?_ hst.pos (length_expand blkSz c).symm hdata
    rw [← hst.pos]
    exact hst.bound

theorem Scanned.skip
    {done : List Chunk} {st : Scan} (hst : Scanned file blkSz done st) {c : Chunk}
    (hbody : c.body = .dontCare) :
    Scanned file blkSz (done ++ [c])
      { st with tell := st.tell + 12, pos := st.pos + c.chunkSz } where
  tell := by
    rw [flatMap_snoc, List.length_append, ← Nat.add_assoc, ← hst.tell]
    simp [Chunk.encode, Chunk.payload, hbody]
  pos := by
    rw [flatMap_snoc, List.length_append, ← hst.pos, length_expand]
  care := hst.care
  bound := by
    intro e he
    exact le_trans (hst.bound e he) (Nat.le_add_right _ _)
  covers := by
    have hexp : c.expand blkSz = List.replicate c.chunkSz none := by
      rw [Chunk.expand, hbody]
    rw [flatMap_snoc, hexp]
    exact hst.covers.skip c.chunkSz

theorem scanChunk_spec
    {done : List Chunk} {st : Scan} (hst : Scanned file blkSz done st)
    {c : Chunk} (hc : c.WellFormed blkSz) {before after : Bytes}
    (hfile : file = before ++ (c.encode ++ after)) (hbefore : before.length = st.tell) :
    ∃ st', scanChunk file blkSz st = some st' ∧ Scanned file blkSz (done ++ [c]) st' := by
  have hheader : Bytes.slice file st.tell 12 = c.header :=
    Bytes.slice_mid (by rw [hfile, Chunk.encode, List.append_assoc]) hbefore.symm (by simp)
  have hpayload : Bytes.slice file (st.tell + 12) c.payload.length = c.payload :=
    Bytes.slice_mid (a := before ++ c.header) (c := after)
      (by rw [hfile, Chunk.encode, List.append_assoc, List.append_assoc])
      (by simp [hbefore]) rfl
  have hlength : c.encode.length = 12 + c.payload.length := by simp [Chunk.encode]
  have hbody := hc.body_ok
  rw [scanChunk, hheader, unpackChunkHeader_header hc]
  cases hcase : c.body with
  | raw data =>
      rw [hcase] at hbody
      have hdata : c.payload = data := by rw [Chunk.payload, hcase]
      have htype : c.chunkType = 0xCAC1 := by rw [Chunk.chunkType, hcase]
      refine ⟨st.add c.chunkSz (.raw (st.tell + 12)) (st.tell + 12 + c.chunkSz * blkSz), ?_,
        hst.add ?_ ?_⟩
      · simp [htype, hdata, hbody]
      · rw [hlength, hdata, hbody]
        omega
      · intro k hk
        have hin : k * blkSz + blkSz ≤ c.payload.length := by
          rw [hdata, hbody, ← Nat.succ_mul]
          exact Nat.mul_le_mul_right _ hk
        have hslice := Bytes.slice_slice file (st.tell + 12) hin
        rw [hpayload, hdata] at hslice
        simp [Chunk.expand, hcase, entryBlock, hk, hslice]
  | fill word =>
      rw [hcase] at hbody
      have hdata : c.payload = word := by rw [Chunk.payload, hcase]
      have htype : c.chunkType = 0xCAC2 := by rw [Chunk.chunkType, hcase]
      rw [hdata, hbody] at hpayload
      refine ⟨st.add c.chunkSz (.fill word) (st.tell + 12 + 4), ?_, hst.add ?_ ?_⟩
      · simp [htype, hpayload, hbody]
      · rw [hlength, hdata, hbody]
      · intro k hk
        simp [Chunk.expand, hcase, entryBlock, hk]
  | dontCare =>
      have hdata : c.payload = [] := by rw [Chunk.payload, hcase]
      have htype : c.chunkType = 0xCAC3 := by rw [Chunk.chunkType, hcase]
      refine ⟨{ st with tell := st.tell + 12, pos := st.pos + c.chunkSz }, ?_, hst.skip hcase⟩
      simp [htype, hdata]

theorem scanChunks_spec
    {head : Bytes} (hhead : head.length = 28) {done chunks : List Chunk} {st : Scan}
    (hst : Scanned file blkSz done st) (hchunks : ∀ c ∈ chunks, c.WellFormed blkSz)
    (hfile : file = head ++ (done ++ chunks).flatMap Chunk.encode) :
    ∃ st', scanChunks file blkSz chunks.length st = some st' ∧
      Scanned file blkSz (done ++ chunks) st' := by
  induction chunks generalizing done st with
  | nil => exact ⟨st, rfl, by simpa using hst⟩
  | cons c chunks ih =>
      rw [List.forall_mem_cons] at hchunks
      have hsplit : file = (head ++ done.flatMap Chunk.encode) ++
          (c.encode ++ chunks.flatMap Chunk.encode) := by
        rw [hfile]
        simp
      obtain ⟨st₁, hrun₁, hst₁⟩ := scanChunk_spec hst hchunks.1 hsplit
        (by rw [List.length_append, hhead, hst.tell])
      obtain ⟨st₂, hrun₂, hst₂⟩ := ih hst₁ hchunks.2 (by simpa using hfile)
      refine ⟨st₂, ?_, by simpa using hst₂⟩
      rw [List.length_cons, scanChunks, hrun₁]
      exact hrun₂

end Scanning

end SparseImg
end AndroidBuild
