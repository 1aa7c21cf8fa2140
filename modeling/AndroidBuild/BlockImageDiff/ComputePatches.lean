import AndroidBuild.BlockImageDiff.Image
import AndroidBuild.BlockImageDiff.StashSize

/-!
# `ComputePatches`

Decides how every transfer is carried out, writes the data of the `new`
transfers to `.new.dat` and the patches of the `bsdiff` and `imgdiff` transfers
to `.patch.dat`.

`computePatches_spec` describes the result: the `new` data come in the order of
the transfers, and every patch is found at its `patch_start`.
-/

namespace AndroidBuild
namespace BlockImageDiff

open Loop RangeLib

variable {Block : Type}

/-- The attributes of a `BlockImageDiff` object that its methods only read. -/
structure Context (Block : Type) where
  src : Image Block
  tgt : Image Block
  tools : Tools Block
  opts : Options
  version : Nat
  threads : Nat
  disableImgdiff : Bool

/-- `str.lower()`, as far as it can produce the letters of a file extension:
besides the ASCII capitals this is the Kelvin sign. -/
def lowerChar (c : Char) : Char :=
  if 'A' ≤ c ∧ c ≤ 'Z' then Char.ofNat (c.toNat + 32)
  else if c = Char.ofNat 0x212A then 'k'
  else c

def endsWith (name suffix : List Char) : Bool :=
  suffix.isSuffixOf name

def fileTypeSupportedByImgdiff (filename : String) : Bool :=
  let name := filename.toList.map lowerChar
  [".apk", ".jar", ".zip"].any (fun s => endsWith name s.toList)

/-- `extra.get('uses_shared_blocks')` is a non-empty range set. -/
def usesSharedBlocks (s : BlockSet) : Bool :=
  match s.toRangeSet.extra.usesSharedBlocks with
  | none => false
  | some data => !data.isEmpty

/-- `self.transfers[index]`. -/
def State.at (st : State) (index : Nat) : Except PyError Nat :=
  match st.transfers[index]? with
  | some x => .ok x
  | none => .error .indexError

/-- The first loop of `ComputePatches`: the transfers, `.new.dat` and `diff_queue`. -/
structure PatchRun (Block : Type) where
  st : State
  newDat : List Block
  queue : List (Nat × Bool)

/-- One result of `ComputePatchesForInputList`. -/
structure PatchResult where
  xfIndex : Nat
  patchInfo : PatchInfo
  compressedSize : Option Nat

/-- The second loop: the transfers, `offset` and `.patch.dat`. -/
structure PatchFile where
  st : State
  offset : Nat
  patchDat : List UInt8

/-- Write one patch.  The log message divides by the size of the target. -/
def layPatch (f : PatchFile) (p : PatchResult) : Except PyError PatchFile := do
  let x ← f.st.at p.xfIndex
  let content := p.patchInfo.content
  let st := f.st.modify x
    (fun t => { t with patchLen := content.length, patchStart := f.offset })
  if (st.xf x).tgtRanges.size = 0 then .error .zeroDivisionError
  else pure ⟨st, f.offset + content.length, f.patchDat ++ content⟩

namespace Context

variable (ctx : Context Block)

def srcSha1 (s : BlockSet) : String :=
  ctx.src.rangeSha1 ctx.tools s

def tgtSha1 (s : BlockSet) : String :=
  ctx.tgt.rangeSha1 ctx.tools s

def canUseImgdiff (name : String) (tgtRanges srcRanges : BlockSet) : Bool :=
  !ctx.disableImgdiff && fileTypeSupportedByImgdiff name &&
    tgtRanges.toRangeSet.monotonic && srcRanges.toRangeSet.monotonic &&
    !usesSharedBlocks tgtRanges && !usesSharedBlocks srcRanges &&
    !tgtRanges.toRangeSet.extra.incomplete && !srcRanges.toRangeSet.extra.incomplete

/-- The patch for one entry of `diff_queue`: the one that the transfer has
already, or a new one. -/
def patchFor (t : Transfer) (imgdiff : Bool) : Except PyError PatchInfo :=
  match t.patchInfo with
  | some info => .ok info
  | none =>
      match ctx.tools.computePatch imgdiff (ctx.src.read t.srcRanges) (ctx.tgt.read t.tgtRanges) with
      | some content => .ok ⟨imgdiff, content⟩
      | none => .error .typeError

/-- The size of the compressed target, when it is asked for. -/
def compressedTarget (compress : Bool) (t : Transfer) : Except PyError (Option Nat) :=
  if compress then
    match ctx.tools.compressedSize (ctx.tgt.read t.tgtRanges) with
    | some size => .ok (some size)
    | none => .error .typeError
  else .ok none

/-- The worker threads store every result at its place in the queue.  A worker
that fails stops and leaves a `None`, which the caller cannot unpack. -/
def computePatchesForInputList (st : State) (queue : List (Nat × Bool)) (compress : Bool) :
    Except PyError (List PatchResult) :=
  queue.mapM (fun q => do
    let x ← st.at q.1
    let info ← ctx.patchFor (st.xf x) q.2
    let size ← ctx.compressedTarget compress (st.xf x)
    pure ⟨q.1, info, size⟩)

/-- Whether a patch is, or will be, made by `imgdiff`. -/
def patchStyle (t : Transfer) : Bool :=
  match t.patchInfo with
  | some info => info.imgdiff
  | none => ctx.canUseImgdiff t.tgtName t.tgtRanges t.srcRanges

/-- The body of the first loop, for the transfer `p.1` at position `p.2`. -/
def classify (r : PatchRun Block) (p : Nat × Nat) : Except PyError (PatchRun Block) :=
  let t := r.st.xf p.1
  match t.style with
  | .zero => .ok r
  | .new => .ok { r with newDat := r.newDat ++ ctx.tgt.read t.tgtRanges }
  | .diff =>
      if t.srcSha1 = t.tgtSha1 then
        .ok { r with
          st := r.st.modify p.1 (fun t => { t with style := .move, patchInfo := none }) }
      else
        let imgdiff := ctx.patchStyle t
        .ok { r with
          st := r.st.modify p.1
            (fun t => { t with style := if imgdiff then .imgdiff else .bsdiff })
          queue := r.queue ++ [(p.2, imgdiff)] }
  | _ => .error .assertionError

/-- The transfers with their final styles, `.new.dat` and `.patch.dat`. -/
def computePatches (st : State) : Except PyError (State × List Block × List UInt8) := do
  let r ← st.transfers.zipIdx.foldlM ctx.classify ⟨st, [], []⟩
  let patches ← ctx.computePatchesForInputList r.st r.queue false
  let f ← patches.foldlM layPatch ⟨r.st, 0, []⟩
  pure (f.st, r.newDat, f.patchDat)

end Context

section Classify

variable {ctx : Context Block}

/-- A transfer that needs a patch. -/
def NeedsPatch (t : Transfer) : Prop :=
  t.style = .diff ∧ t.srcSha1 ≠ t.tgtSha1

instance (t : Transfer) : Decidable (NeedsPatch t) :=
  inferInstanceAs (Decidable (t.style = .diff ∧ t.srcSha1 ≠ t.tgtSha1))

variable (ctx) in
def classified (t : Transfer) : Transfer :=
  if t.style = .diff then
    if t.srcSha1 = t.tgtSha1 then { t with style := .move, patchInfo := none }
    else { t with style := if ctx.patchStyle t then .imgdiff else .bsdiff }
  else t

variable (ctx) in
/-- What a transfer adds to `.new.dat`. -/
def newData (t : Transfer) : List Block :=
  if t.style = .new then ctx.tgt.read t.tgtRanges else []

variable (ctx) in
/-- What a transfer adds to `diff_queue`. -/
def queued (st : State) (p : Nat × Nat) : List (Nat × Bool) :=
  if NeedsPatch (st.xf p.1) then [(p.2, ctx.patchStyle (st.xf p.1))] else []

variable (ctx) in
/-- The first loop after the transfers of `done`. -/
structure Classified (st : State) (done : List (Nat × Nat)) (r : PatchRun Block) : Prop where
  transfers : r.st.transfers = st.transfers
  xf : ∀ x, r.st.xf x = if x ∈ done.map Prod.fst then classified ctx (st.xf x) else st.xf x
  newDat : r.newDat = done.flatMap (fun p => newData ctx (st.xf p.1))
  queue : r.queue = done.flatMap (queued ctx st)
  style : ∀ p ∈ done, (st.xf p.1).style = .zero ∨ (st.xf p.1).style = .new ∨
    (st.xf p.1).style = .diff

theorem classify_spec
    {st : State} {done : List (Nat × Nat)} {r r' : PatchRun Block} {p : Nat × Nat}
    (h : Classified ctx st done r) (hp : p.1 ∉ done.map Prod.fst)
    (hrun : ctx.classify r p = .ok r') :
    Classified ctx st (done ++ [p]) r' := by
  have hxf : r.st.xf p.1 = st.xf p.1 := by
    rw [h.xf, if_neg hp]
  have hxf' : ∀ (f : Transfer → Transfer) (x : Nat), f (st.xf p.1) = classified ctx (st.xf p.1) →
      (r.st.modify p.1 f).xf x =
        if x ∈ (done ++ [p]).map Prod.fst then classified ctx (st.xf x) else st.xf x := by
    intro f x hf
    have hmem : x ∈ (done ++ [p]).map Prod.fst ↔ x ∈ done.map Prod.fst ∨ x = p.1 := by
      rw [List.map_append, List.mem_append, List.map_singleton, List.mem_singleton]
    rw [State.modify_xf, hxf]
    by_cases hx : x = p.1
    · rw [if_pos hx, if_pos (hmem.mpr (Or.inr hx)), hf, hx]
    · rw [if_neg hx, h.xf]
      simp only [hmem, hx, or_false]
  have hsame : classified ctx (st.xf p.1) = st.xf p.1 → ∀ x, r.st.xf x =
      if x ∈ (done ++ [p]).map Prod.fst then classified ctx (st.xf x) else st.xf x := by
    intro hc x
    have hid : (r.st.modify p.1 id).xf x = r.st.xf x := by
      rw [State.modify_xf]
      split_ifs with hx
      · rw [hx]
        rfl
      · rfl
    rw [← hid]
    exact hxf' id x hc.symm
  have hstyle : ((st.xf p.1).style = .zero ∨ (st.xf p.1).style = .new ∨
      (st.xf p.1).style = .diff) → ∀ q ∈ done ++ [p], (st.xf q.1).style = .zero ∨
        (st.xf q.1).style = .new ∨ (st.xf q.1).style = .diff := by
    intro hs q hq
    rcases List.mem_append.mp hq with hq | hq
    · exact h.style q hq
    · rw [List.mem_singleton.mp hq]
      exact hs
  have hdat : r.newDat ++ newData ctx (st.xf p.1) =
      (done ++ [p]).flatMap (fun p => newData ctx (st.xf p.1)) := by
    rw [List.flatMap_append, h.newDat]
    simp
  have hqueue : r.queue ++ queued ctx st p = (done ++ [p]).flatMap (queued ctx st) := by
    rw [List.flatMap_append, h.queue]
    simp
  unfold Context.classify at hrun
  simp only [hxf] at hrun
  cases hs : (st.xf p.1).style with
  | zero =>
      simp only [hs] at hrun
      cases hrun
      refine ⟨h.transfers, hsame (by simp [classified, hs]), ?_, ?_, hstyle (Or.inl hs)⟩
      · simpa [newData, hs] using hdat
      · simpa [queued, NeedsPatch, hs] using hqueue
  | new =>
      simp only [hs] at hrun
      cases hrun
      refine ⟨h.transfers, hsame (by simp [classified, hs]), ?_, ?_, hstyle (Or.inr (Or.inl hs))⟩
      · simpa [newData, hs] using hdat
      · simpa [queued, NeedsPatch, hs] using hqueue
  | diff =>
      simp only [hs] at hrun
      by_cases hsha : (st.xf p.1).srcSha1 = (st.xf p.1).tgtSha1
      · rw [if_pos hsha] at hrun
        cases hrun
        refine ⟨h.transfers,
          fun x => hxf' (fun t => { t with style := .move, patchInfo := none }) x
            (by rw [classified, if_pos hs, if_pos hsha]), ?_, ?_, hstyle (Or.inr (Or.inr hs))⟩
        · simpa [newData, hs] using hdat
        · simpa [queued, NeedsPatch, hs, hsha] using hqueue
      · rw [if_neg hsha] at hrun
        cases hrun
        refine ⟨h.transfers,
          fun x => hxf' (fun t => { t with
            style := if ctx.patchStyle (st.xf p.1) then .imgdiff else .bsdiff }) x
            (by rw [classified, if_pos hs, if_neg hsha]), ?_, ?_, hstyle (Or.inr (Or.inr hs))⟩
        · simpa [newData, hs] using hdat
        · simpa [queued, NeedsPatch, hs, hsha] using hqueue
  | move => simp [hs] at hrun
  | bsdiff => simp [hs] at hrun
  | imgdiff => simp [hs] at hrun

/-- The result of the first loop. -/
theorem classify_all
    {st : State} (hts : st.transfers.Nodup) {r : PatchRun Block}
    (hrun : st.transfers.zipIdx.foldlM ctx.classify ⟨st, [], []⟩ = .ok r) :
    Classified ctx st st.transfers.zipIdx r := by
  refine forLoop_ok (fun done r => Classified ctx st done r) hrun ?_ ?_
  · exact ⟨rfl, by simp, rfl, rfl, by simp⟩
  · intro done p rest r r' hsplit hinv hstep
    refine classify_spec hinv ?_ hstep
    have hmap : st.transfers = done.map Prod.fst ++ p.1 :: rest.map Prod.fst := by
      rw [← List.zipIdx_map_fst (l := st.transfers) (i := 0), hsplit]
      simp
    rw [hmap, List.nodup_append] at hts
    intro hmem
    exact hts.2.2 p.1 hmem p.1 List.mem_cons_self rfl

end Classify

section Lay

/-- The patches `done` have been written to the file and the transfers. -/
structure Laid (st : State) (done : List PatchResult) (f : PatchFile) : Prop where
  transfers : f.st.transfers = st.transfers
  xf : ∀ x, ∃ start len, f.st.xf x = { st.xf x with patchStart := start, patchLen := len }
  offset : f.offset = f.patchDat.length
  found : ∀ p ∈ done, ∀ x, st.transfers[p.xfIndex]? = some x →
    (f.patchDat.drop (f.st.xf x).patchStart).take (f.st.xf x).patchLen = p.patchInfo.content ∧
      (f.st.xf x).patchStart + (f.st.xf x).patchLen ≤ f.patchDat.length

theorem layPatch_spec
    {st : State} (hts : st.transfers.Nodup) {done : List PatchResult} {f f' : PatchFile}
    {p : PatchResult} (h : Laid st done f) (hp : p.xfIndex ∉ done.map PatchResult.xfIndex)
    (hrun : layPatch f p = .ok f') :
    Laid st (done ++ [p]) f' := by
  unfold layPatch at hrun
  obtain ⟨x, hx, hrun⟩ := bind_eq_ok.mp hrun
  have hget : st.transfers[p.xfIndex]? = some x := by
    unfold State.at at hx
    rw [h.transfers] at hx
    cases hi : st.transfers[p.xfIndex]? with
    | none => simp [hi] at hx
    | some y =>
        rw [hi] at hx
        cases hx
        rfl
  simp only at hrun
  split_ifs at hrun
  cases hrun
  refine ⟨h.transfers, ?_, ?_, ?_⟩
  · intro y
    simp only [State.modify_xf]
    split_ifs with hy
    · subst hy
      obtain ⟨s, l, hsl⟩ := h.xf y
      exact ⟨f.offset, p.patchInfo.content.length, by rw [hsl]⟩
    · exact h.xf y
  · simp [h.offset]
  · intro q hq y hy
    rcases List.mem_append.mp hq with hq | hq
    · have hne : y ≠ x := by
        rintro rfl
        have hlt : q.xfIndex < st.transfers.length := by
          exact (List.getElem?_eq_some_iff.mp hy).1
        have := (List.getElem?_inj hlt hts).mp (hy.trans hget.symm)
        exact hp (this ▸ List.mem_map_of_mem hq)
      obtain ⟨hfound, hle⟩ := h.found q hq y hy
      simp only [State.modify_xf_of_ne _ _ hne, List.length_append]
      refine ⟨?_, by omega⟩
      rw [← hfound, List.drop_append_of_le_length (by omega), List.take_append_of_le_length]
      rw [List.length_drop]
      omega
    · rw [List.mem_singleton.mp hq] at hy ⊢
      rw [hget] at hy
      cases hy
      simp only [State.modify_xf_self, List.length_append]
      refine ⟨?_, by rw [h.offset]⟩
      rw [h.offset, List.drop_left, List.take_length]

theorem layPatch_all
    (st : State) (hts : st.transfers.Nodup) {patches : List PatchResult}
    (hpatches : (patches.map PatchResult.xfIndex).Nodup) {f : PatchFile}
    (hrun : patches.foldlM layPatch ⟨st, 0, []⟩ = .ok f) :
    Laid st patches f := by
  refine forLoop_ok (fun done f => Laid st done f) hrun ?_ ?_
  · exact ⟨rfl, fun x => ⟨_, _, rfl⟩, rfl, by simp⟩
  · intro done p rest f f' hsplit hinv hstep
    refine layPatch_spec hts hinv ?_ hstep
    rw [hsplit, List.map_append, List.map_cons, List.nodup_append] at hpatches
    intro hmem
    exact hpatches.2.2 p.xfIndex hmem p.xfIndex List.mem_cons_self rfl

end Lay

section Result

variable {ctx : Context Block}

theorem mem_queue
    {st : State} {i : Nat} {imgdiff : Bool} :
    (i, imgdiff) ∈ st.transfers.zipIdx.flatMap (queued ctx st) ↔
      ∃ x, st.transfers[i]? = some x ∧ NeedsPatch (st.xf x) ∧
        imgdiff = ctx.patchStyle (st.xf x) := by
  rw [List.mem_flatMap]
  constructor
  · rintro ⟨⟨x, j⟩, hmem, hq⟩
    unfold queued at hq
    split_ifs at hq with hneeds
    · simp only [List.mem_singleton, Prod.mk.injEq] at hq
      obtain ⟨rfl, rfl⟩ := hq
      exact ⟨x, List.mem_zipIdx_iff_getElem?.mp hmem, hneeds, rfl⟩
    · cases hq
  · rintro ⟨x, hget, hneeds, rfl⟩
    refine ⟨(x, i), List.mem_zipIdx_iff_getElem?.mpr hget, ?_⟩
    simp [queued, hneeds]

theorem queue_nodup
    (st : State) :
    ((st.transfers.zipIdx.flatMap (queued ctx st)).map Prod.fst).Nodup := by
  have hsub : ((st.transfers.zipIdx.flatMap (queued ctx st)).map Prod.fst).Sublist
      (st.transfers.zipIdx.map Prod.snd) := by
    generalize st.transfers.zipIdx = ps
    induction ps with
    | nil => exact List.Sublist.refl _
    | cons p ps ih =>
        rw [List.flatMap_cons, List.map_append, List.map_cons]
        unfold queued at ih ⊢
        split_ifs
        · exact ih.cons_cons p.2
        · exact ih.cons p.2
  refine hsub.nodup ?_
  rw [List.zipIdx_map_snd]
  exact List.nodup_range'

/-- The patch depends on what the first loop leaves alone. -/
theorem patchFor_classified
    {t : Transfer} (h : NeedsPatch t) (imgdiff : Bool) :
    ctx.patchFor (classified ctx t) imgdiff = ctx.patchFor t imgdiff := by
  rw [classified, if_pos h.1, if_neg h.2]
  rfl

/-- The patches come in the order of the queue. -/
theorem computePatchesForInputList_spec
    {st : State} {queue : List (Nat × Bool)} {compress : Bool} {patches : List PatchResult}
    (h : ctx.computePatchesForInputList st queue compress = .ok patches) :
    patches.map PatchResult.xfIndex = queue.map Prod.fst ∧
      ∀ q ∈ queue, ∃ x info size, st.at q.1 = .ok x ∧
        ctx.patchFor (st.xf x) q.2 = .ok info ∧ ⟨q.1, info, size⟩ ∈ patches := by
  have hforall := mapM_eq_ok.mp h
  clear h
  induction hforall with
  | nil => exact ⟨rfl, by simp⟩
  | cons hab _ ih =>
      obtain ⟨x, hx, hab⟩ := bind_eq_ok.mp hab
      obtain ⟨info, hinfo, hab⟩ := bind_eq_ok.mp hab
      obtain ⟨size, _, hab⟩ := bind_eq_ok.mp hab
      cases hab
      refine ⟨by rw [List.map_cons, List.map_cons, ih.1], ?_⟩
      intro q hq
      rcases List.mem_cons.mp hq with rfl | hq
      · exact ⟨x, info, size, hx, hinfo, List.mem_cons_self⟩
      · obtain ⟨y, info', size', hy, hinfo', hmem⟩ := ih.2 q hq
        exact ⟨y, info', size', hy, hinfo', List.mem_cons_of_mem _ hmem⟩

theorem computePatches_spec
    {st st' : State} (hts : st.transfers.Nodup) {newDat : List Block} {patchDat : List UInt8}
    (hrun : ctx.computePatches st = .ok (st', newDat, patchDat)) :
    st'.transfers = st.transfers ∧
      newDat = st.transfers.flatMap (fun x => newData ctx (st.xf x)) ∧
      ∀ x ∈ st.transfers,
        ((st.xf x).style = .zero ∨ (st.xf x).style = .new ∨ (st.xf x).style = .diff) ∧
        ∃ start len, st'.xf x =
            { classified ctx (st.xf x) with patchStart := start, patchLen := len } ∧
          (NeedsPatch (st.xf x) → ∃ info,
            ctx.patchFor (st.xf x) (ctx.patchStyle (st.xf x)) = .ok info ∧
              (patchDat.drop start).take len = info.content) := by
  unfold Context.computePatches at hrun
  obtain ⟨r, hr, hrun⟩ := bind_eq_ok.mp hrun
  obtain ⟨patches, hpatches, hrun⟩ := bind_eq_ok.mp hrun
  obtain ⟨f, hf, hrun⟩ := bind_eq_ok.mp hrun
  cases hrun
  have hcl := classify_all hts hr
  obtain ⟨hfst, hall⟩ := computePatchesForInputList_spec hpatches
  have hlaid := layPatch_all r.st (by rw [hcl.transfers]; exact hts)
    (by rw [hfst, hcl.queue]; exact queue_nodup st) hf
  refine ⟨hlaid.transfers.trans hcl.transfers, ?_, ?_⟩
  · rw [hcl.newDat, ← List.zipIdx_map_fst (l := st.transfers) (i := 0), List.flatMap_map,
      List.zipIdx_map_fst]
  · intro x hx
    obtain ⟨i, hi⟩ := List.mem_iff_getElem?.mp hx
    have hzip : (x, i) ∈ st.transfers.zipIdx := List.mem_zipIdx_iff_getElem?.mpr hi
    have hxf : r.st.xf x = classified ctx (st.xf x) := by
      rw [hcl.xf, if_pos (List.mem_map.mpr ⟨(x, i), hzip, rfl⟩)]
    obtain ⟨start, len, hsl⟩ := hlaid.xf x
    refine ⟨hcl.style (x, i) hzip, start, len, by rw [hsl, hxf], ?_⟩
    intro hneeds
    have hq : (i, ctx.patchStyle (st.xf x)) ∈ r.queue := by
      rw [hcl.queue]
      exact mem_queue.mpr ⟨x, hi, hneeds, rfl⟩
    obtain ⟨y, info, _, hat, hinfo, hp⟩ := hall _ hq
    have hat' : r.st.at i = .ok x := by
      unfold State.at
      rw [hcl.transfers, hi]
    rw [hat'] at hat
    cases hat
    rw [hxf, patchFor_classified hneeds] at hinfo
    refine ⟨info, hinfo, ?_⟩
    have hfound := (hlaid.found _ hp x (by rw [hcl.transfers]; exact hi)).1
    rw [hsl] at hfound
    exact hfound

end Result

section Swap

/-- The programs of a device with blocks of one bit: the hash spells the blocks
out and a patch is its target. -/
def bitTools : Tools Bool where
  sha1 := fun data => String.ofList (data.map (fun b => if b then '1' else '0'))
  computePatch := fun _ _ tgt => some (tgt.map (fun b => if b then 1 else 0))
  imgdiffSplit := fun _ _ _ => none
  compressedSize := fun data => some data.length
  percent := fun a b => a * 100 / b

def swapContext : Context Bool where
  src := {
    totalBlocks := 4
    careMap := .blockRange 0 3
    extended := .empty
    fileMap := ⟨[("a", .blockRange 0 1), ("b", .blockRange 1 2), ("__ZERO", .blockRange 2 3)],
      by decide⟩
    content := fun i => decide (i = 0)
    extended_disjoint := fun i hi => absurd hi (BlockSet.not_mem_empty i) }
  tgt := {
    totalBlocks := 6
    careMap := .blockRange 0 4
    extended := .blockRange 4 5
    fileMap := ⟨[("b", .blockRange 0 1), ("a", .blockRange 1 2), ("__ZERO", .blockRange 2 3),
      ("c", .blockRange 3 4)], by decide⟩
    content := fun i => decide (i ≠ 2)
    extended_disjoint := by
      intro i hi hc
      rw [BlockSet.mem_blockRange] at hi hc
      omega }
  tools := bitTools
  opts := ⟨some 65536, 1⟩
  version := 4
  threads := 1
  disableImgdiff := false

theorem bitTools_sha1_injective
    {a b : List Bool} (h : bitTools.sha1 a = bitTools.sha1 b) :
    a = b := by
  have hmap : a.map (fun b => if b then '1' else '0') = b.map (fun b => if b then '1' else '0') :=
    String.ofList_injective h
  refine List.map_injective_iff.mpr ?_ hmap
  decide

end Swap

end BlockImageDiff
end AndroidBuild
