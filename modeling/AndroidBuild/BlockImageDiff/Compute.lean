import AndroidBuild.BlockImageDiff.FindTransfers
import AndroidBuild.BlockImageDiff.Install
import AndroidBuild.BlockImageDiff.StashRevision

/-!
# `Compute`

All stages of `BlockImageDiff`, from two images to the transfer list with its
data files.  `compute_installs` says what they are for: when `Compute` completes,
executing the transfer list on a device that holds the source image leaves the
target image.
-/

namespace AndroidBuild
namespace BlockImageDiff

open Loop RangeLib SharedSlots

variable {Block : Type}

/-- A transfer that may be converted to `new`. -/
structure TransferSizeScore where
  xf : Nat
  usedStashBlocks : Int
  score : ℚ

/-- The three files that `Compute` writes. -/
structure Output (Block : Type) where
  newDat : List Block
  patchDat : List UInt8
  transferList : TransferList

/-- The transfer objects of a list, `Transfer.id` being the position. -/
def State.ofList (ts : List Transfer) : State where
  xf := fun i => ts.getD i
    { tgtName := "", srcName := none, tgtRanges := .empty, srcRanges := .empty
      tgtSha1 := "", srcSha1 := "", style := .new }
  transfers := List.range ts.length

/-- Convert the candidates in turn, until enough stash blocks are removed. -/
def convertCandidates (violated : ℚ) :
    List TransferSizeScore → Int → State → Except PyError State
  | [], _, st => .ok st
  | c :: cs, removed, st => do
      let t ← (st.xf c.xf).convertToNew
      let st := st.modify c.xf (fun _ => t)
      let removed := removed + c.usedStashBlocks
      if violated ≤ removed then pure st else convertCandidates violated cs removed st

namespace Context

variable (ctx : Context Block)

def init : Except PyError Unit :=
  if ctx.version = 3 ∨ ctx.version = 4 then do
    ctx.src.assertFileMap
    ctx.tgt.assertFileMap
  else .error .assertionError

/-- `diff_queue` of `SelectAndConvertDiffTransfersToNew`. -/
def selectQueue (st : State) : List (Nat × Bool) :=
  st.transfers.filterMap (fun x =>
    let t := st.xf x
    if t.style = .diff ∧ t.srcSha1 ≠ t.tgtSha1 then
      some (t.order, ctx.canUseImgdiff t.tgtName t.tgtRanges t.srcRanges)
    else none)

/-- `if not xf.patch_info: xf.patch_info = patch_info`. -/
def keepPatch (info : PatchInfo) (t : Transfer) : Except PyError (Transfer × PatchInfo) :=
  match t.patchInfo with
  | some old => .ok (t, old)
  | none =>
      if t.style = .diff then .ok ({ t with patchInfo := some info }, info)
      else .error .assertionError

def scoreTransfer (x : Nat) (t : Transfer) (patchSize compressedSize : Nat) :
    List TransferSizeScore :=
  let used := (t.useStash.map (fun s => s.2.size)).sum
  if compressedSize ≤ patchSize then [⟨x, used, -1⟩]
  else if 0 < used then
    [⟨x, used, ctx.tools.percent (compressedSize - patchSize) used.toNat⟩]
  else []

/-- One result of `ComputePatchesForInputList`. -/
def addCandidate (s : State × List TransferSizeScore) (p : PatchResult) :
    Except PyError (State × List TransferSizeScore) := do
  let x ← s.1.at p.xfIndex
  let (t, info) ← keepPatch p.patchInfo (s.1.xf x)
  match p.compressedSize with
  | none => .error .typeError
  | some 0 => .error .zeroDivisionError
  | some size =>
      pure (s.1.modify x (fun _ => t), s.2 ++ ctx.scoreTransfer x t info.content.length size)

def selectAndConvertDiffTransfersToNew (violated : ℚ) (st : State) : Except PyError State := do
  let result ← ctx.computePatchesForInputList st (ctx.selectQueue st) true
  let (st, candidates) ← result.foldlM ctx.addCandidate (st, [])
  convertCandidates violated (candidates.insertionSort (fun a b => a.score ≤ b.score)) 0 st

/-- Choose transfers for conversion when the stash is far above the limit, and
regenerate the sequence as the graph has changed. -/
def mitigateStash (stashLimit : ℚ) (maxStashed : Int) (st : State) : Except PyError State :=
  if stashLimit + 1024 < maxStashed then do
    let st ← ctx.selectAndConvertDiffTransfersToNew (maxStashed - stashLimit) st
    findSequenceForTransfers st
  else .ok st

/-- Ensure the runtime stash size is under the limit. -/
def limitStash (st : State) : Except PyError State :=
  match ctx.opts.cacheSize with
  | none => .ok st
  | some cacheSize => do
      let (st, _, maxStashed) ← reviseStashSize ctx.srcSha1 ctx.opts true st
      let st ← ctx.mitigateStash (cacheSize * ctx.opts.stashThreshold / blocksize) maxStashed st
      let (st, _, _) ← reviseStashSize ctx.srcSha1 ctx.opts false st
      pure st

/-- The check of `AssertSha1Good` for one transfer. -/
def checkSha1 (st : State) (_ : Unit) (x : Nat) : Except PyError Unit :=
  let t := st.xf x
  if t.tgtSha1 = ctx.tgtSha1 t.tgtRanges ∧
      (t.style = .diff → t.srcSha1 = ctx.srcSha1 t.srcRanges) then .ok ()
  else .error .assertionError

def assertSha1Good (st : State) : Except PyError Unit :=
  st.transfers.foldlM (ctx.checkSha1 st) ()

def compute [DecidableEq Block] : Except PyError (Output Block) := do
  ctx.init
  let ts ← ctx.findTransfers
  let st ← findSequenceForTransfers (State.ofList ts)
  let st ← ctx.limitStash st
  assertSequenceGood ctx.tgt.totalBlocks ctx.tgt.careMap st
  ctx.assertSha1Good st
  let (st, newDat, patchDat) ← ctx.computePatches st
  let list ← ctx.writeTransfers st
  pure ⟨newDat, patchDat, list⟩

end Context

section Stages

variable {ctx : Context Block}
variable {applyPatch : Bool → List UInt8 → List Block → Option (List Block)} {zeroBlock : Block}

variable (ctx applyPatch zeroBlock) in
/-- The transfers of a list are planned. -/
structure AllPlanned (st : State) : Prop where
  nodup : st.transfers.Nodup
  planned : ∀ x ∈ st.transfers, Planned ctx applyPatch zeroBlock (st.xf x)

variable (ctx applyPatch zeroBlock) in
/-- A list after `FindSequenceForTransfers`. -/
structure Sequenced (st : State) : Prop extends AllPlanned ctx applyPatch zeroBlock st where
  pairing : StashPairing st.xf st.transfers
  shape : StashShape st.xf st.transfers

variable (ctx applyPatch zeroBlock) in
/-- A list whose stashes the device can make. -/
structure Stashable (st : State) : Prop extends AllPlanned ctx applyPatch zeroBlock st where
  stashes : ∀ x ∈ st.transfers, ∀ s ∈ (st.xf x).stashBefore, ∀ i, i ∈ s.2 →
    i ∈ (st.xf x).tgtRanges ∧ i ∈ ctx.src.careMap
  uses : ∀ x ∈ st.transfers, ∀ s ∈ (st.xf x).useStash, ∀ i, i ∈ s.2 → i ∈ (st.xf x).srcRanges

theorem planned_of_plan
    {t t' : Transfer} (h : t'.plan = t.plan) (ht : Planned ctx applyPatch zeroBlock t) :
    Planned ctx applyPatch zeroBlock t' := by
  have hsrc := srcRanges_of_plan h
  have htgt := tgtRanges_of_plan h
  have hstyle : t'.style = t.style := by
    have : t'.plan.style = t.plan.style := by rw [h]
    exact this
  have hinfo : t'.patchInfo = t.patchInfo := by
    have : t'.plan.patchInfo = t.plan.patchInfo := by rw [h]
    exact this
  refine ⟨?_, ?_, ?_⟩
  · rw [hsrc, htgt]
    exact ht.care
  · rw [hsrc, htgt, hstyle]
    exact ht.zero
  · rw [hsrc, htgt, hinfo]
    exact ht.patch

theorem planned_asNew
    {t : Transfer} (ht : Planned ctx applyPatch zeroBlock t) :
    Planned ctx applyPatch zeroBlock t.asNew where
  care := ⟨ht.care.tgt, fun i hi => absurd hi (BlockSet.not_mem_empty i)⟩
  zero := fun h => by cases h
  patch := fun _ h => by cases h

theorem allPlanned_ofList
    {ts : List Transfer} (h : ∀ t ∈ ts, Planned ctx applyPatch zeroBlock t) :
    AllPlanned ctx applyPatch zeroBlock (State.ofList ts) := by
  refine ⟨List.nodup_range, ?_⟩
  intro x hx
  have hlt : x < ts.length := List.mem_range.mp hx
  have hget : (State.ofList ts).xf x = ts[x] := by
    unfold State.ofList
    simp only [List.getD_eq_getElem?_getD, List.getElem?_eq_getElem hlt, Option.getD_some]
  rw [hget]
  exact h _ (List.getElem_mem hlt)

theorem findSequenceForTransfers_sequenced
    {st st' : State} (h : AllPlanned ctx applyPatch zeroBlock st)
    (hrun : findSequenceForTransfers st = .ok st') :
    Sequenced ctx applyPatch zeroBlock st' := by
  obtain ⟨st₁, hrun₁, hperm, hpair, _, hshape, hplan, _⟩ := findSequenceForTransfers_spec h.nodup
  rw [hrun] at hrun₁
  cases hrun₁
  refine ⟨⟨hperm.nodup_iff.mpr h.nodup, ?_⟩, hpair, hshape⟩
  intro x hx
  exact planned_of_plan (hplan x) (h.planned x (hperm.mem_iff.mp hx))

theorem Sequenced.stashable
    {st : State} (h : Sequenced ctx applyPatch zeroBlock st) :
    Stashable ctx applyPatch zeroBlock st := by
  refine ⟨h.toAllPlanned, ?_, h.shape.within⟩
  intro u hu s hs i hi
  obtain ⟨x, hx, hsx, _⟩ := h.pairing.used u hu s hs
  exact ⟨h.shape.overwritten u hu s hs i hi,
    (h.planned x hx).care.src i (h.shape.within x hx s hsx i hi)⟩

theorem reviseStashSize_ignored
    {rangeSha1 : BlockSet → String} {opts : Options} {st st' : State} {n m : Int}
    (hrun : reviseStashSize rangeSha1 opts true st = .ok (st', n, m)) :
    st' = st := by
  unfold reviseStashSize maxAllowedBlocks at hrun
  obtain ⟨_, ⟨⟩, hrun⟩ := bind_eq_ok.mp hrun
  obtain ⟨r, hr, hrun⟩ := bind_eq_ok.mp hrun
  cases hrun
  exact reviseLoop_ignored hr

theorem reviseStashSize_stashable
    {st st' : State} {n m : Int} (h : Sequenced ctx applyPatch zeroBlock st)
    (hrun : reviseStashSize ctx.srcSha1 ctx.opts false st = .ok (st', n, m)) :
    Stashable ctx applyPatch zeroBlock st' := by
  unfold reviseStashSize at hrun
  obtain ⟨limit, _, hrun⟩ := bind_eq_ok.mp hrun
  obtain ⟨r, hr, hrun⟩ := bind_eq_ok.mp hrun
  cases hrun
  obtain ⟨C, E, hinv⟩ := reviseLoop_inv h.nodup h.pairing hr
  have hag := hinv.agrees
  refine ⟨⟨?_, ?_⟩, ?_, ?_⟩
  · rw [hag.transfers]
    exact h.nodup
  · intro x hx
    rw [hag.transfers] at hx
    have hplanned := h.planned x hx
    rw [hag.xf x hx]
    by_cases hxC : x ∈ C
    · have hnew : (reducedBy st C (idsUsedBy st C)).xf x = Transfer.asNew { st.xf x with
          stashBefore := (st.xf x).stashBefore.filter
            (fun s => !decide (idsUsedBy st C s.1)) } := by
        simp [reducedBy, hxC]
      rw [hnew]
      exact planned_asNew ⟨hplanned.care, hplanned.zero, hplanned.patch⟩
    · rw [reducedBy_of_notMem hxC]
      exact ⟨hplanned.care, hplanned.zero, hplanned.patch⟩
  · intro x hx s hs i hi
    rw [hag.transfers] at hx
    rw [mem_stashBefore_of_agrees hag hx] at hs
    rw [tgtRanges_of_agrees hag hx]
    exact h.stashable.stashes x hx s hs.1 i hi
  · intro x hx s hs i hi
    rw [hag.transfers] at hx
    rw [mem_useStash_of_agrees hag hx] at hs
    rw [hag.xf x hx, reducedBy_of_notMem hs.2]
    exact h.shape.within x hx s hs.1 i hi

theorem mem_of_at
    {st : State} {index x : Nat} (h : st.at index = .ok x) :
    x ∈ st.transfers := by
  unfold State.at at h
  split at h
  · rename_i y hy
    cases h
    exact List.mem_of_getElem? hy
  · cases h

theorem patchFor_applies
    (happly : PatchesApply ctx.tools applyPatch) {t : Transfer}
    (ht : Planned ctx applyPatch zeroBlock t) {imgdiff : Bool} {info : PatchInfo}
    (hrun : ctx.patchFor t imgdiff = .ok info) :
    applyPatch info.imgdiff info.content (ctx.src.read t.srcRanges) =
      some (ctx.tgt.read t.tgtRanges) := by
  unfold Context.patchFor at hrun
  split at hrun
  · rename_i old hold
    cases hrun
    exact ht.patch _ hold
  · split at hrun
    · rename_i content hcontent
      cases hrun
      exact happly.computed _ _ _ _ hcontent
    · cases hrun

/-- A patch that `ComputePatchesForInputList` returns fits its transfer. -/
theorem computePatchesForInputList_applies
    (happly : PatchesApply ctx.tools applyPatch) {st : State} {queue : List (Nat × Bool)}
    {compress : Bool} {patches : List PatchResult}
    (hplanned : ∀ x ∈ st.transfers, Planned ctx applyPatch zeroBlock (st.xf x))
    (hrun : ctx.computePatchesForInputList st queue compress = .ok patches) :
    ∀ p ∈ patches, ∀ x, st.at p.xfIndex = .ok x →
      applyPatch p.patchInfo.imgdiff p.patchInfo.content (ctx.src.read (st.xf x).srcRanges) =
        some (ctx.tgt.read (st.xf x).tgtRanges) := by
  have hall := mapM_eq_ok.mp hrun
  clear hrun
  induction hall with
  | nil => simp
  | @cons q p queue patches hab _ ih =>
      rw [List.forall_mem_cons]
      refine ⟨?_, ih⟩
      intro x hx
      obtain ⟨y, hy, hab⟩ := bind_eq_ok.mp hab
      obtain ⟨info, hinfo, hab⟩ := bind_eq_ok.mp hab
      obtain ⟨size, _, hab⟩ := bind_eq_ok.mp hab
      cases hab
      simp only at hx ⊢
      rw [hy] at hx
      cases hx
      exact patchFor_applies happly (hplanned x (mem_of_at hy)) hinfo

variable (ctx applyPatch zeroBlock) in
/-- The transfers of `st` while candidates are collected. -/
structure Collecting (st₀ : State) (st : State) : Prop extends
    AllPlanned ctx applyPatch zeroBlock st where
  transfers : st.transfers = st₀.transfers
  ranges : ∀ x, (st.xf x).srcRanges = (st₀.xf x).srcRanges ∧
    (st.xf x).tgtRanges = (st₀.xf x).tgtRanges

theorem keepPatch_planned
    {info info' : PatchInfo} {t t' : Transfer} (ht : Planned ctx applyPatch zeroBlock t)
    (hinfo : applyPatch info.imgdiff info.content (ctx.src.read t.srcRanges) =
      some (ctx.tgt.read t.tgtRanges))
    (hrun : Context.keepPatch info t = .ok (t', info')) :
    Planned ctx applyPatch zeroBlock t' ∧ t'.srcRanges = t.srcRanges ∧
      t'.tgtRanges = t.tgtRanges := by
  unfold Context.keepPatch at hrun
  split at hrun
  · cases hrun
    exact ⟨ht, rfl, rfl⟩
  · split_ifs at hrun with hdiff
    cases hrun
    refine ⟨⟨ht.care, ?_, ?_⟩, rfl, rfl⟩
    · intro hzero
      exact absurd (hdiff.symm.trans hzero) (by simp)
    · rintro _ ⟨⟩
      exact hinfo

theorem addCandidate_collecting
    {st₀ : State} {s s' : State × List TransferSizeScore} {p : PatchResult}
    (hp : ∀ x, st₀.at p.xfIndex = .ok x → applyPatch p.patchInfo.imgdiff p.patchInfo.content
      (ctx.src.read (st₀.xf x).srcRanges) = some (ctx.tgt.read (st₀.xf x).tgtRanges))
    (h : Collecting ctx applyPatch zeroBlock st₀ s.1)
    (hrun : ctx.addCandidate s p = .ok s') :
    Collecting ctx applyPatch zeroBlock st₀ s'.1 := by
  unfold Context.addCandidate at hrun
  obtain ⟨x, hx, hrun⟩ := bind_eq_ok.mp hrun
  obtain ⟨⟨t, info⟩, ht, hrun⟩ := bind_eq_ok.mp hrun
  have hxmem := mem_of_at hx
  have hx₀ : st₀.at p.xfIndex = .ok x := by
    unfold State.at at hx ⊢
    rw [← h.transfers]
    exact hx
  obtain ⟨hplanned, hsrc, htgt⟩ := keepPatch_planned (h.planned x hxmem)
    (by rw [(h.ranges x).1, (h.ranges x).2]; exact hp x hx₀) ht
  have hs' : s'.1 = s.1.modify x (fun _ => t) := by
    simp only at hrun
    split at hrun
    · cases hrun
    · cases hrun
    · cases hrun
      rfl
  rw [hs']
  refine ⟨⟨h.nodup, ?_⟩, h.transfers, ?_⟩
  · intro y hy
    rw [State.modify_xf]
    split_ifs
    · exact hplanned
    · exact h.planned y hy
  · intro y
    rw [State.modify_xf]
    split_ifs with hyx
    · rw [hyx, hsrc, htgt]
      exact h.ranges x
    · exact h.ranges y

theorem convertCandidates_planned
    {violated : ℚ} (cs : List TransferSizeScore) {removed : Int} {st st' : State}
    (h : AllPlanned ctx applyPatch zeroBlock st)
    (hrun : convertCandidates violated cs removed st = .ok st') :
    AllPlanned ctx applyPatch zeroBlock st' := by
  induction cs generalizing removed st with
  | nil =>
      cases hrun
      exact h
  | cons c cs ih =>
      unfold convertCandidates at hrun
      obtain ⟨t, ht, hrun⟩ := bind_eq_ok.mp hrun
      have hnext : AllPlanned ctx applyPatch zeroBlock (st.modify c.xf (fun _ => t)) := by
        refine ⟨h.nodup, ?_⟩
        intro y hy
        rw [State.modify_xf]
        split_ifs with hyc
        · unfold Transfer.convertToNew at ht
          split_ifs at ht
          cases ht
          exact planned_asNew (h.planned c.xf (hyc ▸ hy))
        · exact h.planned y hy
      simp only at hrun
      split_ifs at hrun
      · cases hrun
        exact hnext
      · exact ih hnext hrun

theorem selectAndConvertDiffTransfersToNew_planned
    (happly : PatchesApply ctx.tools applyPatch) {violated : ℚ} {st st' : State}
    (h : AllPlanned ctx applyPatch zeroBlock st)
    (hrun : ctx.selectAndConvertDiffTransfersToNew violated st = .ok st') :
    AllPlanned ctx applyPatch zeroBlock st' := by
  unfold Context.selectAndConvertDiffTransfersToNew at hrun
  obtain ⟨result, hresult, hrun⟩ := bind_eq_ok.mp hrun
  obtain ⟨⟨st₁, candidates⟩, hst₁, hrun⟩ := bind_eq_ok.mp hrun
  have hp := computePatchesForInputList_applies happly h.planned hresult
  have hcollect := forLoop_preserves
    (fun s => Collecting ctx applyPatch zeroBlock st s.1)
    hst₁ ⟨h, rfl, fun _ => ⟨rfl, rfl⟩⟩
    (fun p s s' hmem hs hstep => addCandidate_collecting (hp p hmem) hs hstep)
  exact convertCandidates_planned _ hcollect.toAllPlanned hrun

/-- The sequence that is written keeps what `FindTransfers` planned. -/
theorem limitStash_stashable
    (happly : PatchesApply ctx.tools applyPatch) {st st' : State}
    (h : Sequenced ctx applyPatch zeroBlock st) (hrun : ctx.limitStash st = .ok st') :
    Stashable ctx applyPatch zeroBlock st' := by
  unfold Context.limitStash at hrun
  split at hrun
  · cases hrun
    exact h.stashable
  · obtain ⟨⟨st₁, _, maxStashed⟩, hst₁, hrun⟩ := bind_eq_ok.mp hrun
    obtain ⟨st₂, hst₂, hrun⟩ := bind_eq_ok.mp hrun
    obtain ⟨⟨st₃, _, _⟩, hst₃, hrun⟩ := bind_eq_ok.mp hrun
    cases hrun
    rw [reviseStashSize_ignored hst₁] at hst₂
    refine reviseStashSize_stashable ?_ hst₃
    unfold Context.mitigateStash at hst₂
    split_ifs at hst₂
    · obtain ⟨st₄, hst₄, hst₂⟩ := bind_eq_ok.mp hst₂
      exact findSequenceForTransfers_sequenced
        (selectAndConvertDiffTransfersToNew_planned happly h.toAllPlanned hst₄) hst₂
    · cases hst₂
      exact h

theorem checkSha1_all
    {st : State} (hrun : ctx.assertSha1Good st = .ok ()) :
    ∀ x ∈ st.transfers, (st.xf x).tgtSha1 = ctx.tgtSha1 (st.xf x).tgtRanges ∧
      ((st.xf x).style = .diff → (st.xf x).srcSha1 = ctx.srcSha1 (st.xf x).srcRanges) := by
  refine forLoop_ok (fun done _ => ∀ x ∈ done,
    (st.xf x).tgtSha1 = ctx.tgtSha1 (st.xf x).tgtRanges ∧
      ((st.xf x).style = .diff → (st.xf x).srcSha1 = ctx.srcSha1 (st.xf x).srcRanges))
    hrun (by simp) ?_
  intro done x rest _ _ _ hdone hstep y hy
  rcases List.mem_append.mp hy with hy | hy
  · exact hdone y hy
  · rw [List.mem_singleton.mp hy]
    unfold Context.checkSha1 at hstep
    simp only at hstep
    split_ifs at hstep with hcheck
    exact hcheck

end Stages

section Result

variable {ctx : Context Block} {u : Updater Block}

/-- A transfer after `ComputePatches`, as the device sees it. -/
theorem installable_of_classified
    (hfree : CollisionFree ctx) (happly : PatchesApply ctx.tools u.applyPatch) {t t' : Transfer}
    {start len : Nat} (hplanned : Planned ctx u.applyPatch u.zeroBlock t)
    (hstashes : ∀ s ∈ t.stashBefore, ∀ i, i ∈ s.2 → i ∈ t.tgtRanges ∧ i ∈ ctx.src.careMap)
    (huses : ∀ s ∈ t.useStash, ∀ i, i ∈ s.2 → i ∈ t.srcRanges)
    (htgtSha1 : t.tgtSha1 = ctx.tgtSha1 t.tgtRanges)
    (hsrcSha1 : t.style = .diff → t.srcSha1 = ctx.srcSha1 t.srcRanges)
    (hstyle : t.style = .zero ∨ t.style = .new ∨ t.style = .diff)
    (ht' : t' = { classified ctx t with patchStart := start, patchLen := len })
    (hpatch : NeedsPatch t → ∃ info, ctx.patchFor t (ctx.patchStyle t) = .ok info ∧
      (u.patchDat.drop start).take len = info.content) :
    Installable ctx u t' := by
  subst ht'
  unfold classified
  by_cases hdiff : t.style = .diff
  · rw [if_pos hdiff]
    by_cases hsha : t.srcSha1 = t.tgtSha1
    · rw [if_pos hsha]
      refine ⟨hplanned.care.tgt, hplanned.care.src, hstashes, huses, htgtSha1, by simp, ?_,
        by simp⟩
      intro _
      apply hfree.srcTgt _ _ hplanned.care.src hplanned.care.tgt
      rw [← hsrcSha1 hdiff, ← htgtSha1]
      exact hsha
    · rw [if_neg hsha]
      obtain ⟨info, hinfo, hcontent⟩ := hpatch ⟨hdiff, hsha⟩
      have himgdiff : info.imgdiff = ctx.patchStyle t := by
        unfold Context.patchFor at hinfo
        split at hinfo
        · rename_i old hold
          cases hinfo
          unfold Context.patchStyle
          rw [hold]
        · split at hinfo
          · cases hinfo
            rfl
          · cases hinfo
      have happlies := patchFor_applies happly hplanned hinfo
      rw [himgdiff, ← hcontent] at happlies
      refine ⟨hplanned.care.tgt, hplanned.care.src, hstashes, huses, htgtSha1, ?_, ?_, ?_⟩
      · intro h
        cases hp : ctx.patchStyle t <;> simp [hp] at h
      · intro h
        cases hp : ctx.patchStyle t <;> simp [hp] at h
      · intro _
        refine ⟨hsrcSha1 hdiff, ?_⟩
        cases hp : ctx.patchStyle t with
        | true =>
            rw [hp] at happlies
            exact happlies
        | false =>
            rw [hp] at happlies
            exact happlies
  · rw [if_neg hdiff]
    refine ⟨hplanned.care.tgt, hplanned.care.src, hstashes, huses, htgtSha1, hplanned.zero, ?_, ?_⟩
    · intro h
      rcases hstyle with hs | hs | hs <;> simp [hs] at h
    · intro h
      rcases hstyle with hs | hs | hs <;> simp [hs] at h

theorem classified_ranges
    (ctx : Context Block) (t : Transfer) (start len : Nat) :
    ({ classified ctx t with patchStart := start, patchLen := len } : Transfer).unstashed =
        t.unstashed ∧
      ({ classified ctx t with patchStart := start, patchLen := len } : Transfer).tgtRanges =
        t.tgtRanges := by
  unfold classified
  split_ifs
  · exact ⟨rfl, rfl⟩
  · exact ⟨rfl, rfl⟩
  · exact ⟨rfl, rfl⟩
  · exact ⟨rfl, rfl⟩

theorem newData_classified
    (ctx : Context Block) (t : Transfer) (start len : Nat) :
    newData ctx { classified ctx t with patchStart := start, patchLen := len } =
      newData ctx t := by
  unfold classified newData
  by_cases hdiff : t.style = .diff
  · rw [if_pos hdiff]
    by_cases hsha : t.srcSha1 = t.tgtSha1
    · simp [hsha, hdiff]
    · cases hp : ctx.patchStyle t <;> simp [hsha, hdiff]
  · rw [if_neg hdiff]

/-- When `Compute` completes, executing the transfer list on a device that holds
the source image leaves the target image in the care map of the target, and
zeros in its extended blocks. -/
theorem compute_installs
    [DecidableEq Block] (ctx : Context Block) (u : Updater Block)
    (hsha : u.sha1 = ctx.tools.sha1) (hfree : CollisionFree ctx)
    (happly : PatchesApply ctx.tools u.applyPatch) (hzero : ZeroEntries ctx u.zeroBlock)
    {out : Output Block} (hrun : ctx.compute = .ok out) (hpatch : u.patchDat = out.patchDat)
    (d : Device Block) (hsrc : ∀ i, i ∈ ctx.src.careMap → d.blocks i = ctx.src.content i)
    (hnew : d.newDat = out.newDat) :
    ∃ d', u.run d out.transferList.commands = some d' ∧
      (∀ i, i ∈ ctx.tgt.careMap → d'.blocks i = ctx.tgt.content i) ∧
      ∀ i, i ∈ ctx.tgt.extended → d'.blocks i = u.zeroBlock := by
  unfold Context.compute at hrun
  obtain ⟨_, hinit, hrun⟩ := bind_eq_ok.mp hrun
  obtain ⟨ts, hts, hrun⟩ := bind_eq_ok.mp hrun
  obtain ⟨st₀, hst₀, hrun⟩ := bind_eq_ok.mp hrun
  obtain ⟨st₁, hst₁, hrun⟩ := bind_eq_ok.mp hrun
  obtain ⟨_, hgood, hrun⟩ := bind_eq_ok.mp hrun
  obtain ⟨_, hsha1, hrun⟩ := bind_eq_ok.mp hrun
  obtain ⟨⟨st₂, newDat, patchDat⟩, hst₂, hrun⟩ := bind_eq_ok.mp hrun
  obtain ⟨list, hlist, hrun⟩ := bind_eq_ok.mp hrun
  cases hrun
  have hmaps : ctx.src.assertFileMap = .ok () ∧ ctx.tgt.assertFileMap = .ok () := by
    unfold Context.init at hinit
    split_ifs at hinit
    obtain ⟨⟨⟩, h₁, h₂⟩ := bind_eq_ok.mp hinit
    exact ⟨h₁, h₂⟩
  have hplanned := findTransfers_planned hmaps.1 hmaps.2 hzero happly hts
  have hstashable := limitStash_stashable happly
    (findSequenceForTransfers_sequenced (allPlanned_ofList hplanned) hst₀) hst₁
  obtain ⟨htransfers, hdat, hxf⟩ := computePatches_spec hstashable.nodup hst₂
  have hready : ∀ x ∈ st₂.transfers, Installable ctx u (st₂.xf x) := by
    intro x hx
    rw [htransfers] at hx
    obtain ⟨hstyle, start, len, hx', hneeds⟩ := hxf x hx
    obtain ⟨htgtSha1, hsrcSha1⟩ := checkSha1_all hsha1 x hx
    refine installable_of_classified hfree happly (hstashable.planned x hx)
      (hstashable.stashes x hx) (hstashable.uses x hx) htgtSha1 hsrcSha1 hstyle hx' ?_
    rw [hpatch]
    exact hneeds
  have hgood₂ : SequenceGood ctx.tgt.totalBlocks ctx.tgt.careMap st₂.xf st₂.transfers := by
    rw [htransfers]
    refine (assertSequenceGood_iff.mp hgood).congr ?_
    intro x hx
    obtain ⟨_, start, len, hx', _⟩ := hxf x hx
    rw [hx']
    exact classified_ranges ctx (st₁.xf x) start len
  refine writeTransfers_installs hfree hsha hready hgood₂ hlist hsrc ?_
  rw [hnew, htransfers, hdat]
  refine List.flatMap_congr ?_
  intro x hx
  obtain ⟨_, start, len, hx', _⟩ := hxf x hx
  rw [hx', newData_classified]

end Result

section Swap

/-- The matching device programs; erased blocks hold ones. -/
def bitUpdater (patchDat : List UInt8) : Updater Bool where
  sha1 := bitTools.sha1
  applyPatch := fun _ content _ => some (content.map (fun b => b == 1))
  patchDat := patchDat
  zeroBlock := false
  erased := fun _ _ => true

theorem bitTools_patchesApply (patchDat : List UInt8) :
    PatchesApply bitTools (bitUpdater patchDat).applyPatch := by
  refine ⟨?_, ?_⟩
  · rintro _ _ tgt _ ⟨⟩
    simp only [bitUpdater, List.map_map, Option.some.injEq]
    refine (List.map_congr_left ?_).trans (List.map_id tgt)
    intro b _
    cases b <;> rfl
  · intro _ _ _ _ h
    cases h

theorem swapContext_zeroEntries : ZeroEntries swapContext false := by
  refine ⟨?_, ?_⟩
  · intro s hs i hi
    simp only [swapContext, List.mem_cons, Prod.mk.injEq, String.reduceEq, false_and, true_and,
      List.not_mem_nil, or_false, false_or] at hs
    subst hs
    rw [BlockSet.mem_blockRange] at hi
    have : i = 2 := by omega
    simp [swapContext, this]
  · intro s hs i hi
    simp only [swapContext, List.mem_cons, Prod.mk.injEq, String.reduceEq, false_and, true_and,
      List.not_mem_nil, or_false, false_or] at hs
    subst hs
    rw [BlockSet.mem_blockRange] at hi
    have : i ≠ 0 := by omega
    simp [swapContext, this]

theorem compute_installs_swap :
    ∃ out, swapContext.compute = .ok out ∧
      ∃ d', (bitUpdater out.patchDat).run
          ⟨swapContext.src.content, fun _ => none, out.newDat, 0⟩
          out.transferList.commands = some d' ∧
        (∀ i, i ∈ swapContext.tgt.careMap → d'.blocks i = swapContext.tgt.content i) ∧
        ∀ i, i ∈ swapContext.tgt.extended → d'.blocks i = false := by
  obtain ⟨out, hout⟩ := exists_eq_ok (r := swapContext.compute) (by decide +kernel)
  refine ⟨out, hout, compute_installs swapContext (bitUpdater out.patchDat) rfl ?_
    (bitTools_patchesApply _) swapContext_zeroEntries hout rfl _ (fun _ _ => rfl) rfl⟩
  exact ⟨fun _ _ _ _ h => bitTools_sha1_injective h, fun _ _ _ _ h => bitTools_sha1_injective h⟩

end Swap

end BlockImageDiff
end AndroidBuild
