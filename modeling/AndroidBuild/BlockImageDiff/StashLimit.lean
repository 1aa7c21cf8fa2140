import AndroidBuild.BlockImageDiff.StashRevision
import AndroidBuild.BlockImageDiff.WriteTransfers

/-!
# The stash limit holds after `ReviseStashSize`

`WriteTransfers` counts the stash in use again, on the revised list.  Before
every command its count is that of the live stashes (`StashesWritten`), which
the revision has shown to fit (`Fits`).
-/

namespace AndroidBuild
namespace BlockImageDiff

open Loop RangeLib SharedSlots

variable {Block : Type}

section Counting

variable {rangeSha1 : BlockSet → String}

def Writer.slots (w : Writer) : Slots String :=
  ⟨w.stashes, w.stashedBlocks⟩

theorem writeStash_slots
    (w : Writer) (s : Stash) :
    (writeStash rangeSha1 w s).slots = w.slots.acquire (rangeSha1 s.2) s.2.size := by
  unfold writeStash Writer.slots Slots.acquire
  simp only
  split_ifs <;> rfl

theorem writeStash_maxStashed
    (w : Writer) (s : Stash) :
    (writeStash rangeSha1 w s).maxStashed = w.maxStashed := by
  unfold writeStash
  simp only
  split_ifs <;> rfl

/-- A use of a stash is a release of its slot.  The range of a stash keeps its size
when it is mapped into the source. -/
theorem writeUse_slots
    {src : BlockSet} {r r' : StashRefs} {s : Stash} (stashed : Int)
    (hsrc : ∀ i, i ∈ s.2 → i ∈ src) (h : writeUse rangeSha1 src r s = .ok r') :
    (⟨r'.stashes, stashed - r'.freeSize⟩ : Slots String) =
      Slots.release ⟨r.stashes, stashed - r.freeSize⟩ (rangeSha1 s.2) s.2.size := by
  obtain ⟨sr, hsr, hcanon, hblocks⟩ :=
    RangeSet.mapWithin_spec src.canonical s.2.canonical hsrc
  have hsize : sr.size = s.2.size := by
    rw [RangeSet.size_eq_length hcanon, hblocks, List.length_map, BlockSet.size_eq_length]
    rfl
  unfold writeUse at h
  simp only [hsr] at h
  unfold Slots.release
  by_cases hpos : 0 < r.stashes (rangeSha1 s.2)
  · rw [if_pos hpos] at h
    cases h
    by_cases hlast : r.stashes (rangeSha1 s.2) - 1 = 0
    · simp only [hlast, decide_true, if_true, hsize, Slots.mk.injEq, true_and]
      omega
    · simp [hlast]
  · rw [if_neg hpos] at h
    cases h

variable (hsame : SameSize rangeSha1)

include hsame

theorem writeStash_all
    (ss : List Stash) (hss : ss.Nodup) {w : Writer} {S : Finset Stash}
    (h : Holds (stashHash rangeSha1) stashBlocks S w.slots) (hS : ∀ s ∈ ss, s ∉ S) :
    Holds (stashHash rangeSha1) stashBlocks (S ∪ ss.toFinset)
        (ss.foldl (writeStash rangeSha1) w).slots ∧
      (ss.foldl (writeStash rangeSha1) w).maxStashed = w.maxStashed := by
  induction ss generalizing w S with
  | nil => exact ⟨by simpa using h, rfl⟩
  | cons s ss ih =>
      rw [List.nodup_cons] at hss
      have hs := hS s List.mem_cons_self
      have h₁ : Holds (stashHash rangeSha1) stashBlocks (insert s S)
          (writeStash rangeSha1 w s).slots := by
        rw [writeStash_slots]
        exact h.acquire hsame.stash hs
      obtain ⟨h₂, h₃⟩ := ih hss.2 h₁ (by
        intro a ha hmem
        rcases Finset.mem_insert.mp hmem with rfl | hmem
        · exact hss.1 ha
        · exact hS a (List.mem_cons_of_mem _ ha) hmem)
      have hset : insert s S ∪ ss.toFinset = S ∪ (s :: ss).toFinset := by
        rw [List.toFinset_cons, Finset.insert_union, Finset.union_insert]
      rw [List.foldl_cons, ← hset]
      exact ⟨h₂, by rw [h₃, writeStash_maxStashed]⟩

theorem writeUse_all
    {src : BlockSet} (ss : List Stash) (hss : ss.Nodup)
    (hsrc : ∀ s ∈ ss, ∀ i, i ∈ s.2 → i ∈ src) (stashed : Int)
    {r r' : StashRefs} {S : Finset Stash}
    (h : Holds (stashHash rangeSha1) stashBlocks S ⟨r.stashes, stashed - r.freeSize⟩)
    (hS : ∀ s ∈ ss, s ∈ S)
    (hrun : ss.foldlM (writeUse rangeSha1 src) r = .ok r') :
    Holds (stashHash rangeSha1) stashBlocks (S \ ss.toFinset)
      ⟨r'.stashes, stashed - r'.freeSize⟩ := by
  induction ss generalizing r S with
  | nil =>
      cases hrun
      simpa using h
  | cons s ss ih =>
      rw [List.nodup_cons] at hss
      obtain ⟨r₁, h₁, hrest⟩ := foldlM_cons_ok hrun
      have hset : S.erase s \ ss.toFinset = S \ (s :: ss).toFinset := by
        ext a
        simp only [Finset.mem_sdiff, Finset.mem_erase, List.toFinset_cons, Finset.mem_insert]
        tauto
      rw [← hset]
      refine ih hss.2 (fun a ha => hsrc a (List.mem_cons_of_mem _ ha)) ?_ ?_ hrest
      · rw [writeUse_slots stashed (hsrc s List.mem_cons_self) h₁]
        exact h.release hsame.stash (hS s List.mem_cons_self)
      · intro a ha
        rw [Finset.mem_erase]
        refine ⟨?_, hS a (List.mem_cons_of_mem _ ha)⟩
        rintro rfl
        exact hss.1 ha

end Counting

section Command

theorem writeSplitTransfers_slots
    {command : BlockSet → Command} {w w' : Writer} {target : BlockSet}
    (h : writeSplitTransfers command w target = .ok w') :
    w'.slots = w.slots ∧ w'.maxStashed = w.maxStashed := by
  unfold writeSplitTransfers at h
  obtain ⟨pieces, _, h⟩ := bind_eq_ok.mp h
  split_ifs at h
  cases h
  exact ⟨rfl, rfl⟩

theorem implicitStash_slots
    (w : Writer) (t : Transfer) :
    (w.implicitStash t).slots = w.slots ∧
      ((w.implicitStash t).maxStashed = w.maxStashed ∨
        (t.srcRanges.overlaps t.tgtRanges = true ∧ (w.implicitStash t).maxStashed =
          max w.maxStashed (w.stashedBlocks + t.srcRanges.size))) := by
  unfold Writer.implicitStash
  split_ifs with h
  · exact ⟨rfl, Or.inr ⟨h, rfl⟩⟩
  · exact ⟨rfl, Or.inl rfl⟩

/-- The commands leave the accounting alone, except for the implicit stash of
overlapping blocks. -/
theorem writeCommand_slots
    {w w' : Writer} {t : Transfer} {arg : SourceArg} (h : writeCommand w t arg = .ok w') :
    w'.slots = w.slots ∧
      (w'.maxStashed = w.maxStashed ∨
        ((t.style = .move ∨ t.style = .bsdiff ∨ t.style = .imgdiff) ∧
          t.srcRanges.overlaps t.tgtRanges = true ∧
          w'.maxStashed = max w.maxStashed (w.stashedBlocks + t.srcRanges.size))) := by
  have himp := implicitStash_slots w t
  unfold writeCommand at h
  cases hs : t.style with
  | new =>
      simp only [hs] at h
      split_ifs at h
      obtain ⟨h₁, h₂⟩ := writeSplitTransfers_slots h
      exact ⟨h₁, Or.inl h₂⟩
  | zero =>
      simp only [hs] at h
      split_ifs at h
      obtain ⟨h₁, h₂⟩ := writeSplitTransfers_slots h
      exact ⟨h₁, Or.inl h₂⟩
  | diff => simp [hs] at h
  | move =>
      simp only [hs] at h
      split_ifs at h
      · cases h
        exact ⟨rfl, Or.inl rfl⟩
      · cases h
        refine ⟨himp.1, himp.2.imp_right fun h => ⟨Or.inl rfl, h⟩⟩
  | bsdiff =>
      simp only [hs] at h
      by_cases hne : (t.tgtRanges.nonempty && t.srcRanges.nonempty) = true
      · rw [if_pos hne] at h
        cases h
        exact ⟨himp.1, himp.2.imp_right fun h => ⟨Or.inr (Or.inl rfl), h⟩⟩
      · rw [if_neg hne] at h
        cases h
  | imgdiff =>
      simp only [hs] at h
      by_cases hne : (t.tgtRanges.nonempty && t.srcRanges.nonempty) = true
      · rw [if_pos hne] at h
        cases h
        exact ⟨himp.1, himp.2.imp_right fun h => ⟨Or.inr (Or.inr rfl), h⟩⟩
      · rw [if_neg hne] at h
        cases h

/-- The exceptions of a command are not that of the stash limit. -/
theorem writeSplitTransfers_avoids
    (command : BlockSet → Command) (w : Writer) (target : BlockSet) :
    Avoids PyError.stashLimitExceeded (writeSplitTransfers command w target) := by
  unfold writeSplitTransfers
  refine Avoids.bind ?_ ?_
  · unfold splitPieces
    refine Avoids.bind ?_ (fun _ _ => avoids_ok)
    generalize target.size.toNat = fuel
    generalize (([] : List BlockSet), target) = s
    induction fuel generalizing s with
    | zero =>
        unfold whileLoop
        split_ifs
        · exact avoids_error (by simp)
        · exact avoids_ok
    | succ fuel ih =>
        unfold whileLoop
        split_ifs
        · exact ih _
        · exact avoids_ok
  · intro pieces _
    split_ifs
    · exact avoids_ok
    · exact avoids_error (by simp)

theorem assertPartition_avoids
    (total : RangeSet) (seq : List RangeSet) :
    Avoids PyError.stashLimitExceeded (assertPartition total seq) := by
  unfold assertPartition
  refine Avoids.bind (forLoop_avoids (fun _ _ => True) _ _ trivial ?_) ?_
  · intro _ i _ r _ _
    refine ⟨?_, fun _ _ => trivial⟩
    unfold addPart
    split_ifs
    · exact avoids_error (by simp)
    · split
      · exact avoids_error (by simp)
      · exact avoids_ok
  · intro soFar _
    split_ifs
    · exact avoids_ok
    · exact avoids_error (by simp)

theorem sourceArg_avoids
    (t : Transfer) (r : StashRefs) :
    Avoids PyError.stashLimitExceeded (sourceArg t r) := by
  unfold sourceArg
  simp only
  split_ifs
  · exact avoids_ok
  · split
    · exact avoids_error (by simp)
    · exact Avoids.bind (assertPartition_avoids _ _) (fun _ _ => avoids_ok)
  · exact Avoids.bind (assertPartition_avoids _ _) (fun _ _ => avoids_ok)

theorem writeUse_avoids
    {rangeSha1 : BlockSet → String} (src : BlockSet) (r : StashRefs) (s : Stash) :
    Avoids PyError.stashLimitExceeded (writeUse rangeSha1 src r s) := by
  unfold writeUse
  simp only
  split
  · exact avoids_error (by simp)
  · split_ifs
    · exact avoids_ok
    · exact avoids_ok
    · exact avoids_error (by simp)

theorem writeCommand_avoids
    (w : Writer) (t : Transfer) (arg : SourceArg) :
    Avoids PyError.stashLimitExceeded (writeCommand w t arg) := by
  unfold writeCommand
  split
  · split_ifs
    · exact writeSplitTransfers_avoids _ _ _
    · exact avoids_error (by simp)
  · split_ifs
    · exact avoids_ok
    · exact avoids_ok
    · exact avoids_error (by simp)
  · simp only
    split_ifs <;> first | exact avoids_ok | exact avoids_error (by simp)
  · simp only
    split_ifs <;> first | exact avoids_ok | exact avoids_error (by simp)
  · split_ifs
    · exact writeSplitTransfers_avoids _ _ _
    · exact avoids_error (by simp)
  · exact avoids_error (by simp)

end Command

section Live

/-- The stashes in use between the commands of `done` and the next one. -/
def liveAfter (st₀ : State) (C : Finset Nat) (done : List Nat) : Finset Stash :=
  ((done.flatMap (fun y => (st₀.xf y).stashBefore)).filter (fun s =>
    decide (¬ idsUsedBy st₀ C s.1 ∧ ∀ z ∈ done, s ∉ (st₀.xf z).useStash))).toFinset

theorem mem_liveAfter
    {st₀ : State} {C : Finset Nat} {done : List Nat} {s : Stash} :
    s ∈ liveAfter st₀ C done ↔ (∃ y ∈ done, s ∈ (st₀.xf y).stashBefore) ∧
      ¬ idsUsedBy st₀ C s.1 ∧ ∀ z ∈ done, s ∉ (st₀.xf z).useStash := by
  unfold liveAfter
  rw [List.mem_toFinset, List.mem_filter, List.mem_flatMap, decide_eq_true_iff]

variable {st₀ st : State} {C : Finset Nat} (hts : st₀.transfers.Nodup)
  (hpair : StashPairing st₀.xf st₀.transfers)
  (hag : Agrees st₀ C (idsUsedBy st₀ C) st)
  {done rest : List Nat} {x : Nat} (hsplit : st₀.transfers = done ++ x :: rest)

include hts hpair hsplit

/-- A stash defined by `x` is used by a later command only. -/
theorem unused_before
    {s : Stash} (hs : s ∈ (st₀.xf x).stashBefore) :
    ∀ z ∈ done, s ∉ (st₀.xf z).useStash := by
  have hx : x ∈ st₀.transfers := by
    rw [hsplit]
    simp
  intro z hz hsz
  have hzts : z ∈ st₀.transfers := by
    rw [hsplit]
    exact List.mem_append_left _ hz
  obtain ⟨v, hv, hsv, hprec⟩ := hpair.defined z hzts s hsz
  have hxv := (hpair.def_unique hx hv hs hsv rfl).1
  subst hxv
  obtain ⟨pre, post, rfl⟩ := List.append_of_mem hz
  rw [hsplit, List.append_assoc, List.cons_append] at hprec hts
  have := (precedes_split hts).mp hprec
  rw [List.nodup_append] at hts
  exact hts.2.2 x this x (by simp) rfl

include hag

/-- The stash commands of `x` lead from `liveAfter` to `liveAt`. -/
theorem liveAfter_union :
    liveAfter st₀ C done ∪ (st.xf x).stashBefore.toFinset = liveAt st₀ C done x := by
  have hx : x ∈ st₀.transfers := by
    rw [hsplit]
    simp
  ext s
  rw [Finset.mem_union, mem_liveAfter, mem_liveAt, List.mem_toFinset,
    mem_stashBefore_of_agrees hag hx]
  constructor
  · rintro (⟨⟨y, hy, hs⟩, hn, hun⟩ | ⟨hs, hn⟩)
    · exact ⟨⟨y, List.mem_append_left _ hy, hs⟩, hn, hun⟩
    · exact ⟨⟨x, by simp, hs⟩, hn, unused_before hts hpair hsplit hs⟩
  · rintro ⟨⟨y, hy, hs⟩, hn, hun⟩
    rcases List.mem_append.mp hy with hy | hy
    · exact Or.inl ⟨⟨y, hy, hs⟩, hn, hun⟩
    · rw [List.mem_singleton.mp hy] at hs
      exact Or.inr ⟨hs, hn⟩

omit hpair hts in
/-- The uses of `x` lead from `liveAt` to `liveAfter`. -/
theorem liveAt_sdiff :
    liveAt st₀ C done x \ (st.xf x).useStash.toFinset = liveAfter st₀ C (done ++ [x]) := by
  have hx : x ∈ st₀.transfers := by
    rw [hsplit]
    simp
  ext s
  rw [Finset.mem_sdiff, mem_liveAfter, mem_liveAt, List.mem_toFinset,
    mem_useStash_of_agrees hag hx]
  constructor
  · rintro ⟨⟨hdef, hn, hun⟩, hnot⟩
    refine ⟨hdef, hn, ?_⟩
    intro z hz
    rcases List.mem_append.mp hz with hz | hz
    · exact hun z hz
    · rw [List.mem_singleton.mp hz]
      intro hsx
      refine hnot ⟨hsx, fun hxC => hn ⟨x, hxC, s, hsx, rfl⟩⟩
  · rintro ⟨hdef, hn, hun⟩
    exact ⟨⟨hdef, hn, fun z hz => hun z (List.mem_append_left _ hz)⟩,
      fun h => hun x (by simp) h.1⟩

end Live

section Limit

variable {rangeSha1 : BlockSet → String} {opts : Options}

/-- The writer after the commands of `done`: it counts the live stashes and has
needed at most `k` blocks. -/
structure StashesWritten (rangeSha1 : BlockSet → String) (k : ℚ) (st₀ : State)
    (C : Finset Nat) (done : List Nat) (w : Writer) : Prop where
  holds : Holds (stashHash rangeSha1) stashBlocks (liveAfter st₀ C done) w.slots
  bound : (w.maxStashed : ℚ) ≤ k

/-- The transfer that `WriteTransfers` sees for a transfer of the revised list. -/
structure Patched (t t' : Transfer) : Prop where
  tgtRanges : t'.tgtRanges = t.tgtRanges
  srcRanges : t'.srcRanges = t.srcRanges
  stashBefore : t'.stashBefore = t.stashBefore
  useStash : t'.useStash = t.useStash
  style : t'.style = .move ∨ t'.style = .bsdiff ∨ t'.style = .imgdiff → t.style = .diff

/-- Writing one transfer keeps the count, and the limit is not exceeded. -/
theorem writeTransfer_stashes
    (hsame : SameSize rangeSha1) {k : ℚ} (hk : ∀ c, opts.cacheSize = some c →
      c * opts.stashThreshold = k * blocksize)
    {st₀ st : State} {C : Finset Nat} (hts : st₀.transfers.Nodup)
    (hpair : StashPairing st₀.xf st₀.transfers)
    (hwithin : ∀ x ∈ st₀.transfers, ∀ s ∈ (st₀.xf x).useStash, ∀ i, i ∈ s.2 →
      i ∈ (st₀.xf x).srcRanges)
    (hC : ∀ c ∈ C, c ∈ st₀.transfers) (hag : Agrees st₀ C (idsUsedBy st₀ C) st)
    {done rest : List Nat} {x : Nat} (hsplit : st₀.transfers = done ++ x :: rest)
    (hfits : Fits rangeSha1 st₀ C k done x) {t : Transfer} (ht : Patched (st.xf x) t)
    {w : Writer} (hw : StashesWritten rangeSha1 k st₀ C done w) :
    Avoids PyError.stashLimitExceeded (writeTransfer rangeSha1 opts w t) ∧
      ∀ w', writeTransfer rangeSha1 opts w t = .ok w' →
        StashesWritten rangeSha1 k st₀ C (done ++ [x]) w' := by
  have hx : x ∈ st₀.transfers := by
    rw [hsplit]
    simp
  have hpair' := stashPairing_of_agrees hpair hC hag
  have hxst : x ∈ st.transfers := hag.transfers ▸ hx
  have hnodupD : t.stashBefore.Nodup := by
    rw [ht.stashBefore]
    exact List.Nodup.of_map _ ((List.nodup_flatMap.mp hpair'.definedOnce).1 x hxst)
  have hnodupU : t.useStash.Nodup := by
    rw [ht.useStash]
    exact List.Nodup.of_map _ ((List.nodup_flatMap.mp hpair'.usedOnce).1 x hxst)
  have hxdone : x ∉ done := by
    rw [hsplit, List.nodup_append] at hts
    intro hmem
    exact hts.2.2 x hmem x List.mem_cons_self rfl
  -- the stash commands
  obtain ⟨hholds₁, hmax₁⟩ := writeStash_all hsame t.stashBefore hnodupD hw.holds (by
    intro s hs hmem
    rw [ht.stashBefore, mem_stashBefore_of_agrees hag hx] at hs
    obtain ⟨⟨y, hy, hsy⟩, _⟩ := mem_liveAfter.mp hmem
    have hyts : y ∈ st₀.transfers := by
      rw [hsplit]
      exact List.mem_append_left _ hy
    have := (hpair.def_unique hx hyts hs.1 hsy rfl).1
    exact hxdone (this ▸ hy))
  rw [ht.stashBefore, liveAfter_union hts hpair hag hsplit, ← ht.stashBefore] at hholds₁
  unfold writeTransfer
  simp only
  set w₁ := t.stashBefore.foldl (writeStash rangeSha1) w with hw₁
  have hbound₁ : ((max w₁.maxStashed w₁.stashedBlocks : Int) : ℚ) ≤ k := by
    have hused : w₁.stashedBlocks = _ := hholds₁.used
    rw [hmax₁, hused]
    push_cast
    exact max_le hw.bound hfits.explicit
  have hbound₂ : (t.style = .move ∨ t.style = .bsdiff ∨ t.style = .imgdiff) →
      t.srcRanges.overlaps t.tgtRanges = true →
      ((w₁.stashedBlocks + t.srcRanges.size : Int) : ℚ) ≤ k := by
    intro hstyle hover
    have hdiff := ht.style hstyle
    have hxC : x ∉ C := by
      intro hmem
      rw [hag.xf x hx, reducedBy_style_of_mem hmem] at hdiff
      cases hdiff
    rw [ht.srcRanges, ht.tgtRanges] at hover
    rw [ht.srcRanges]
    rw [hag.xf x hx, reducedBy_of_notMem hxC] at hdiff hover ⊢
    have hused : w₁.stashedBlocks = _ := hholds₁.used
    rw [hused]
    push_cast
    exact hfits.implicit hxC hdiff hover
  have hcommand : ∀ stashes arg w₂, writeCommand
      { w₁ with stashes := stashes, maxStashed := max w₁.maxStashed w₁.stashedBlocks } t arg =
        .ok w₂ → (w₂.maxStashed : ℚ) ≤ k := by
    intro stashes arg w₂ hw₂
    obtain ⟨_, hmax⟩ := writeCommand_slots hw₂
    rcases hmax with hmax | ⟨hstyle, hover, hmax⟩
    · rw [hmax]
      exact hbound₁
    · rw [hmax, Int.cast_max]
      exact max_le hbound₁ (hbound₂ hstyle hover)
  have huse : ∀ s ∈ t.useStash, s ∈ liveAt st₀ C done x ∧ ∀ i, i ∈ s.2 → i ∈ t.srcRanges := by
    intro s hs
    rw [ht.useStash, mem_useStash_of_agrees hag hx] at hs
    obtain ⟨hs, hxC⟩ := hs
    constructor
    · obtain ⟨u, hu, hsu, hprec⟩ := hpair.defined x hx s hs
      rw [mem_liveAt]
      refine ⟨⟨u, ?_, hsu⟩, not_idsUsedBy hpair hC hx hxC hs, ?_⟩
      · rw [hsplit] at hprec hts
        exact List.mem_append_left _ ((precedes_split hts).mp hprec)
      · intro z hz hsz
        have hzts : z ∈ st₀.transfers := by
          rw [hsplit]
          exact List.mem_append_left _ hz
        have := (hpair.use_unique hx hzts hs hsz rfl).1
        exact hxdone (this ▸ hz)
    · rw [ht.srcRanges, hag.xf x hx, reducedBy_of_notMem hxC]
      exact hwithin x hx s hs
  constructor
  · refine Avoids.bind (forLoop_avoids (fun _ _ => True) _ _ trivial
      (fun _ s _ r _ _ => ⟨writeUse_avoids _ r s, fun _ _ => trivial⟩)) ?_
    intro r hr
    refine Avoids.bind (sourceArg_avoids t r) ?_
    intro arg _
    refine Avoids.bind (writeCommand_avoids _ t arg) ?_
    intro w₂ hw₂
    have hle := hcommand r.stashes arg w₂ hw₂
    unfold checkStashLimit
    split
    · exact avoids_ok
    · rename_i c hc
      have hcheck : (w₂.maxStashed * blocksize : ℚ) ≤ c * opts.stashThreshold := by
        rw [hk c hc]
        exact mul_le_mul_of_nonneg_right hle (by positivity)
      rw [if_pos hcheck]
      exact avoids_ok
  · intro w' hrun
    obtain ⟨_, r, arg, w₂, rfl, hr, _, hw₂, rfl⟩ := writeTransfer_ok hrun
    rw [← hw₁] at hr hw₂
    obtain ⟨hslots, _⟩ := writeCommand_slots hw₂
    have hholds₂ := writeUse_all hsame t.useStash hnodupU (fun s hs => (huse s hs).2)
      w₁.stashedBlocks (S := liveAt st₀ C done x) (by simpa [Writer.slots] using hholds₁)
      (fun s hs => (huse s hs).1) hr
    rw [ht.useStash, liveAt_sdiff hag hsplit] at hholds₂
    refine ⟨?_, ?_⟩
    · have hs : w₂.stashes = r.stashes := congrArg Slots.count hslots
      have hb : w₂.stashedBlocks = w₁.stashedBlocks := congrArg Slots.used hslots
      unfold Writer.slots
      simp only [hs, hb]
      exact hholds₂
    · exact hcommand r.stashes arg w₂ hw₂

theorem patched_of_classified
    {ctx : Context Block} {t t' : Transfer} {start len : Nat}
    (hstyle : t.style = .zero ∨ t.style = .new ∨ t.style = .diff)
    (h : t' = { classified ctx t with patchStart := start, patchLen := len }) :
    Patched t t' := by
  subst h
  unfold classified
  by_cases hd : t.style = .diff
  · rw [if_pos hd]
    split_ifs
    · exact ⟨rfl, rfl, rfl, rfl, fun _ => hd⟩
    · exact ⟨rfl, rfl, rfl, rfl, fun _ => hd⟩
    · exact ⟨rfl, rfl, rfl, rfl, fun _ => hd⟩
  · rw [if_neg hd]
    refine ⟨rfl, rfl, rfl, rfl, ?_⟩
    rcases hstyle with hs | hs | hs <;> simp [hs]

end Limit

/-- After `ReviseStashSize` the accounting of `WriteTransfers` stays within the
limit: before and after every command, and so its assertion cannot fail. -/
theorem writeTransfers_within_limit
    (ctx : Context Block) (st : State) (cacheSize : Nat)
    (hcache : ctx.opts.cacheSize = some cacheSize)
    (hlimit : 0 < cacheSize * ctx.opts.stashThreshold)
    (hsha : ∀ a b : BlockSet, ctx.srcSha1 a = ctx.srcSha1 b → ctx.src.read a = ctx.src.read b)
    (hts : st.transfers.Nodup)
    (hpair : StashPairing st.xf st.transfers)
    (hwithin : ∀ x ∈ st.transfers, ∀ s ∈ (st.xf x).useStash, ∀ i, i ∈ s.2 →
      i ∈ (st.xf x).srcRanges)
    {st₁ st₂ : State} {newBlocks maxStashed : Int} {newDat : List Block}
    {patchDat : List UInt8}
    (hrevise : reviseStashSize ctx.srcSha1 ctx.opts false st = .ok (st₁, newBlocks, maxStashed))
    (hpatches : ctx.computePatches st₁ = .ok (st₂, newDat, patchDat)) :
    (∀ pre post w, st₂.transfers = pre ++ post →
      pre.foldlM (fun w x => writeTransfer ctx.srcSha1 ctx.opts w (st₂.xf x)) Writer.init = .ok w →
        (w.maxStashed * blocksize : ℚ) ≤ cacheSize * ctx.opts.stashThreshold) ∧
      ctx.writeTransfers st₂ ≠ .error .stashLimitExceeded := by
  have hsame : SameSize ctx.srcSha1 := by
    intro a b hab
    rw [← length_read ctx.src a, ← length_read ctx.src b, hsha a b hab]
  set k : ℚ := cacheSize * ctx.opts.stashThreshold / blocksize with hk
  have hbs : (0 : ℚ) < blocksize := by
    unfold blocksize
    norm_num
  have hkpos : 0 < k := div_pos hlimit hbs
  have hkmul : k * blocksize = cacheSize * ctx.opts.stashThreshold := by
    rw [hk, div_mul_cancel₀ _ (ne_of_gt hbs)]
  -- the revision
  unfold reviseStashSize maxAllowedBlocks at hrevise
  simp only [hcache, Bool.false_eq_true, if_false] at hrevise
  obtain ⟨_, ⟨⟩, hrevise⟩ := bind_eq_ok.mp hrevise
  obtain ⟨r, hr, hrevise⟩ := bind_eq_ok.mp hrevise
  cases hrevise
  obtain ⟨C, E, hinv⟩ := reviseLoop_inv hts hpair hr
  obtain ⟨htrans, _, hpatched⟩ := computePatches_spec
    (by rw [hinv.agrees.transfers]; exact hts) hpatches
  have hloop : ∀ done x rest w, st₂.transfers = done ++ x :: rest →
      StashesWritten ctx.srcSha1 k st C done w →
      Avoids PyError.stashLimitExceeded (writeTransfer ctx.srcSha1 ctx.opts w (st₂.xf x)) ∧
        ∀ w', writeTransfer ctx.srcSha1 ctx.opts w (st₂.xf x) = .ok w' →
          StashesWritten ctx.srcSha1 k st C (done ++ [x]) w' := by
    intro done x rest w hsplit hw
    rw [htrans, hinv.agrees.transfers] at hsplit
    have hx : x ∈ r.st.transfers := by
      rw [hinv.agrees.transfers, hsplit]
      simp
    obtain ⟨hstyle, start, len, hxf, _⟩ := hpatched x hx
    refine writeTransfer_stashes hsame ?_ hts hpair hwithin hinv.converted hinv.agrees hsplit
      (hinv.fits hsame k rfl hkpos done x rest hsplit) (patched_of_classified hstyle hxf) hw
    intro c hc
    rw [hcache] at hc
    cases hc
    exact hkmul.symm
  have hinit : StashesWritten ctx.srcSha1 k st C [] Writer.init := by
    refine ⟨?_, by simpa [Writer.init] using le_of_lt hkpos⟩
    exact holds_init _ _
  refine ⟨?_, ?_⟩
  · intro pre post w hpre hrun
    have := forLoop_ok (fun done w => StashesWritten ctx.srcSha1 k st C done w) hrun hinit
      (by
        intro done x rest w w' hsplit hw hstep
        exact (hloop done x (rest ++ post) w (by rw [hpre, hsplit]; simp) hw).2 w' hstep)
    rw [← hkmul]
    exact mul_le_mul_of_nonneg_right this.bound (le_of_lt hbs)
  · show Avoids PyError.stashLimitExceeded (ctx.writeTransfers st₂)
    unfold Context.writeTransfers
    refine Avoids.bind (forLoop_avoids
      (fun done w => StashesWritten ctx.srcSha1 k st C done w) _ _ hinit ?_) ?_
    · intro done x rest w hsplit hw
      exact hloop done x rest w hsplit hw
    · intro w _
      refine Avoids.bind ?_ (fun _ _ => avoids_ok)
      unfold Context.writeExtended
      split_ifs
      · exact writeSplitTransfers_avoids _ _ _
      · exact avoids_ok

/-- The two files of `swapContext` that change places, in sequence. -/
def swapSequence : State where
  xf := fun x =>
    if x = 0 then
      { tgtName := "b", srcName := some "b", tgtSha1 := "1", srcSha1 := "0", style := .diff
        tgtRanges := .blockRange 0 1, srcRanges := .blockRange 1 2
        stashBefore := [(0, .blockRange 0 1)] }
    else
      { tgtName := "a", srcName := some "a", tgtSha1 := "1", srcSha1 := "1", style := .diff
        tgtRanges := .blockRange 1 2, srcRanges := .blockRange 0 1
        useStash := [(0, .blockRange 0 1)] }
  transfers := [0, 1]

theorem writeTransfers_within_limit_swap :
    ∃ st₁ newBlocks maxStashed st₂ newDat patchDat,
      reviseStashSize swapContext.srcSha1 swapContext.opts false swapSequence =
        .ok (st₁, newBlocks, maxStashed) ∧
      swapContext.computePatches st₁ = .ok (st₂, newDat, patchDat) ∧
      (∀ pre post w, st₂.transfers = pre ++ post →
        pre.foldlM (fun w x => writeTransfer swapContext.srcSha1 swapContext.opts w (st₂.xf x))
          Writer.init = .ok w →
          (w.maxStashed * blocksize : ℚ) ≤ (65536 : Nat) * swapContext.opts.stashThreshold) ∧
      swapContext.writeTransfers st₂ ≠ .error .stashLimitExceeded := by
  have hboth : (do
      let r ← reviseStashSize swapContext.srcSha1 swapContext.opts false swapSequence
      let p ← swapContext.computePatches r.1
      pure (r, p)).isOk = true := by
    decide +kernel
  obtain ⟨⟨⟨st₁, n, m⟩, ⟨st₂, newDat, patchDat⟩⟩, hrun⟩ := exists_eq_ok hboth
  obtain ⟨_, hrevise, hrun⟩ := bind_eq_ok.mp hrun
  obtain ⟨_, hpatches, hrun⟩ := bind_eq_ok.mp hrun
  cases hrun
  refine ⟨st₁, n, m, st₂, newDat, patchDat, hrevise, hpatches,
    writeTransfers_within_limit swapContext swapSequence 65536 rfl (by norm_num [swapContext])
      (fun a b h => bitTools_sha1_injective h) (by decide) ?_ ?_ hrevise hpatches⟩
  · exact ⟨by decide, by decide, by decide, by decide⟩
  · intro x _ s hs i hi
    simp only [swapSequence] at hs ⊢
    split_ifs at hs ⊢
    · cases hs
    · rw [List.mem_singleton.mp hs] at hi
      exact hi

end BlockImageDiff
end AndroidBuild
