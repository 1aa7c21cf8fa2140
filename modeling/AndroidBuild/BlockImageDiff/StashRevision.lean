import AndroidBuild.BlockImageDiff.StashEstimate

/-!
# `ReviseStashSize` keeps the sequence good

The list after the revision still satisfies `AssertSequenceGood`, writes the
same blocks and pairs its stashes.  This needs that no command uses two stashes
of the same definer, as `FindSequenceForTransfers` guarantees; otherwise the
command is converted twice and the assertion in `ConvertToNew` fails.
-/

namespace AndroidBuild
namespace BlockImageDiff

open Loop RangeLib SharedSlots

section Reduced

variable {st₀ st : State} {C : Finset Nat}

theorem mem_stashBefore_of_agrees
    (h : Agrees st₀ C (idsUsedBy st₀ C) st) {x : Nat} (hx : x ∈ st₀.transfers) {s : Stash} :
    s ∈ (st.xf x).stashBefore ↔ s ∈ (st₀.xf x).stashBefore ∧ ¬ idsUsedBy st₀ C s.1 := by
  rw [h.xf x hx, reducedBy_stashBefore, List.mem_filter]
  simp

theorem mem_useStash_of_agrees
    (h : Agrees st₀ C (idsUsedBy st₀ C) st) {x : Nat} (hx : x ∈ st₀.transfers) {s : Stash} :
    s ∈ (st.xf x).useStash ↔ s ∈ (st₀.xf x).useStash ∧ x ∉ C := by
  rw [h.xf x hx, reducedBy_useStash]
  split_ifs with hxC <;> simp [hxC]

theorem nodup_flatMap_sublist
    {ts : List Nat} {f g : Nat → List Nat} (hsub : ∀ x ∈ ts, (g x).Sublist (f x))
    (h : (ts.flatMap f).Nodup) :
    (ts.flatMap g).Nodup := by
  rw [List.nodup_flatMap] at h ⊢
  refine ⟨fun x hx => (hsub x hx).nodup (h.1 x hx), ?_⟩
  refine List.Pairwise.imp_of_mem ?_ h.2
  intro x y hx hy hd i hi hi'
  exact hd ((hsub x hx).subset hi) ((hsub y hy).subset hi')

theorem stashPairing_of_agrees
    (hpair : StashPairing st₀.xf st₀.transfers) (hC : ∀ c ∈ C, c ∈ st₀.transfers)
    (h : Agrees st₀ C (idsUsedBy st₀ C) st) :
    StashPairing st.xf st.transfers := by
  rw [h.transfers]
  refine ⟨?_, ?_, ?_, ?_⟩
  · refine nodup_flatMap_sublist ?_ hpair.definedOnce
    intro x hx
    rw [h.xf x hx, reducedBy_stashBefore]
    exact List.filter_sublist.map _
  · refine nodup_flatMap_sublist ?_ hpair.usedOnce
    intro x hx
    rw [h.xf x hx, reducedBy_useStash]
    split_ifs
    · exact List.nil_sublist _
    · exact List.Sublist.refl _
  · intro u hu s hs
    obtain ⟨hsu, hn⟩ := (mem_stashBefore_of_agrees h hu).mp hs
    obtain ⟨x, hx, hsx, hprec⟩ := hpair.used u hu s hsu
    refine ⟨x, hx, (mem_useStash_of_agrees h hx).mpr ⟨hsx, ?_⟩, hprec⟩
    intro hxC
    exact hn ⟨x, hxC, s, hsx, rfl⟩
  · intro x hx s hs
    obtain ⟨hsx, hxC⟩ := (mem_useStash_of_agrees h hx).mp hs
    obtain ⟨u, hu, hsu, hprec⟩ := hpair.defined x hx s hsx
    exact ⟨u, hu, (mem_stashBefore_of_agrees h hu).mpr
      ⟨hsu, not_idsUsedBy hpair hC hx hxC hsx⟩, hprec⟩

theorem mem_unstashed_of_agrees
    (h : Agrees st₀ C (idsUsedBy st₀ C) st) {x : Nat} (hx : x ∈ st₀.transfers) {i : Int}
    (hi : i ∈ (st.xf x).unstashed) :
    i ∈ (st₀.xf x).unstashed := by
  rw [h.xf x hx] at hi
  by_cases hxC : x ∈ C
  · simp [reducedBy, hxC, Transfer.asNew] at hi
  · rw [reducedBy_of_notMem hxC] at hi
    exact hi

theorem tgtRanges_of_agrees
    (h : Agrees st₀ C (idsUsedBy st₀ C) st) {x : Nat} (hx : x ∈ st₀.transfers) :
    (st.xf x).tgtRanges = (st₀.xf x).tgtRanges := by
  rw [h.xf x hx, reducedBy_tgtRanges]

theorem sequenceGood_of_agrees
    {total : Nat} {careMap : BlockSet}
    (hgood : SequenceGood total careMap st₀.xf st₀.transfers)
    (h : Agrees st₀ C (idsUsedBy st₀ C) st) :
    SequenceGood total careMap st.xf st.transfers := by
  rw [h.transfers]
  refine ⟨?_, ?_, ?_, ?_⟩
  · refine List.Pairwise.imp_of_mem ?_ hgood.reads
    intro y x hy hx hr i hi
    rw [tgtRanges_of_agrees h hy]
    exact hr i (mem_unstashed_of_agrees h hx hi)
  · refine List.Pairwise.imp_of_mem ?_ hgood.writes
    intro y x hy hx hw i hi
    rw [tgtRanges_of_agrees h hx] at hi
    rw [tgtRanges_of_agrees h hy]
    exact hw i hi
  · intro x hx i hi
    rw [tgtRanges_of_agrees h hx] at hi
    exact hgood.bounded x hx i hi
  · intro i hi
    obtain ⟨x, hx, hix⟩ := hgood.covered i hi
    refine ⟨x, hx, ?_⟩
    rw [tgtRanges_of_agrees h hx]
    exact hix

end Reduced

section Ignore

variable {rangeSha1 : BlockSet → String} {m : StashMap}

theorem explicit_ignored
    (ss : List Stash) {e e' : Explicit}
    (h : ss.foldlM (explicitStash rangeSha1 none m) e = .ok e') :
    e'.replaced = e.replaced := by
  refine forLoop_preserves (fun f => f.replaced = e.replaced) h rfl ?_
  intro s f f' _ hf hstep
  simp only [explicitStash, exceeds, Bool.false_eq_true, if_false] at hstep
  cases hstep
  exact hf

/-- Without a limit no command is replaced. -/
theorem reviseCmd_ignored
    {r r' : Revise} {x : Nat} (h : reviseCmd rangeSha1 none m r x = .ok r') :
    r'.st = r.st := by
  unfold reviseCmd at h
  obtain ⟨e, he, h⟩ := bind_eq_ok.mp h
  obtain ⟨e₁, hi, h⟩ := bind_eq_ok.mp h
  obtain ⟨⟨st₁, n₁⟩, hrep, h⟩ := bind_eq_ok.mp h
  obtain ⟨slots, _, h⟩ := bind_eq_ok.mp h
  have hnil : e₁.replaced = [] := by
    obtain ⟨_, hcases⟩ := implicitStash_cases hi
    rcases hcases with ⟨heq, _⟩ | ⟨_, _, hex⟩
    · rw [heq, explicit_ignored _ he]
    · cases hex
  rw [hnil] at hrep
  cases hrep
  cases h
  rfl

theorem reviseLoop_ignored
    {st : State} {r : Revise} (h : reviseLoop rangeSha1 none st = .ok r) :
    r.st = st := by
  unfold reviseLoop at h
  obtain ⟨m, _, h⟩ := bind_eq_ok.mp h
  refine forLoop_preserves (fun r => r.st = st) h rfl ?_
  intro x r r' _ hr hstep
  rw [reviseCmd_ignored hstep]
  exact hr

end Ignore

/-- On a good and paired sequence in which no command uses two stashes of one
definer, the revision raises nothing and the result is good and paired again. -/
theorem reviseStashSize_keeps_sequence
    (rangeSha1 : BlockSet → String) (opts : Options) (ignoreStashLimit : Bool)
    (total : Nat) (careMap : BlockSet) (st : State)
    (hcache : ignoreStashLimit = true ∨ opts.cacheSize ≠ none)
    (hts : st.transfers.Nodup)
    (hgood : assertSequenceGood total careMap st = .ok ())
    (hpair : StashPairing st.xf st.transfers)
    (hrev : Revisable st) :
    ∃ st' newBlocks maxStashed,
      reviseStashSize rangeSha1 opts ignoreStashLimit st = .ok (st', newBlocks, maxStashed) ∧
      assertSequenceGood total careMap st' = .ok () ∧
      st'.transfers = st.transfers ∧
      (∀ x ∈ st.transfers, (st'.xf x).tgtRanges = (st.xf x).tgtRanges) ∧
      StashPairing st'.xf st'.transfers ∧
      (ignoreStashLimit = true → st' = st) := by
  obtain ⟨limit, hlimit, hnone⟩ : ∃ limit, maxAllowedBlocks opts ignoreStashLimit = .ok limit ∧
      (ignoreStashLimit = true → limit = none) := by
    unfold maxAllowedBlocks
    cases ignoreStashLimit with
    | true => exact ⟨none, rfl, fun _ => rfl⟩
    | false =>
        obtain ⟨c, hc⟩ := Option.ne_none_iff_exists'.mp (hcache.resolve_left (by simp))
        exact ⟨_, by rw [hc]; rfl, by simp⟩
  obtain ⟨r, hrun⟩ := reviseLoop_total rangeSha1 limit hts hpair hrev
  obtain ⟨C, E, hinv⟩ := reviseLoop_inv hts hpair hrun
  refine ⟨r.st, r.newBlocks, r.maxStashed, ?_, ?_, hinv.agrees.transfers, ?_, ?_, ?_⟩
  · unfold reviseStashSize
    rw [hlimit]
    simp only [bind, Except.bind, hrun]
    rfl
  · exact assertSequenceGood_iff.mpr
      (sequenceGood_of_agrees (assertSequenceGood_iff.mp hgood) hinv.agrees)
  · intro x hx
    exact tgtRanges_of_agrees hinv.agrees hx
  · exact stashPairing_of_agrees hpair hinv.converted hinv.agrees
  · intro hig
    rw [hnone hig] at hrun
    exact reviseLoop_ignored hrun

/-- Two commands: the first writes the blocks 0 and 1 and defines the stashes that
the second uses. -/
def stashingState (style : Style) (src : BlockSet) (stashes : List Stash) : State where
  xf := fun x =>
    if x = 0 then
      { tgtName := "a", srcName := some "a", tgtSha1 := "", srcSha1 := "", style := .diff
        tgtRanges := .blockRange 0 2, srcRanges := .blockRange 10 12, stashBefore := stashes }
    else
      { tgtName := "b", srcName := some "b", tgtSha1 := "", srcSha1 := "", style := style
        tgtRanges := .blockRange 4 6, srcRanges := src, useStash := stashes }
  transfers := [0, 1]

theorem stashingState_pairing
    (style : Style) (src : BlockSet) (stashes : List Stash) (h : (stashes.map Prod.fst).Nodup) :
    StashPairing (stashingState style src stashes).xf
      (stashingState style src stashes).transfers := by
  refine ⟨?_, ?_, ?_, ?_⟩
  · simpa [definedIds, stashingState] using h
  · simpa [usedIds, stashingState] using h
  · intro u hu s hs
    have hu0 : u = 0 := by
      by_contra hne
      simp [stashingState, hne] at hs
    subst hu0
    refine ⟨1, by simp [stashingState], by simpa [stashingState] using hs, ?_⟩
    exact (by decide : Precedes [0, 1] 0 1)
  · intro x hx s hs
    have hx1 : x = 1 := by
      rcases (by simpa [stashingState] using hx : x = 0 ∨ x = 1) with rfl | rfl
      · simp [stashingState] at hs
      · rfl
    subst hx1
    refine ⟨0, by simp [stashingState], by simpa [stashingState] using hs, ?_⟩
    exact (by decide : Precedes [0, 1] 0 1)

theorem reviseStashSize_keeps_sequence_one_stash :
    ∃ st' newBlocks maxStashed,
      reviseStashSize (fun _ => "h") ⟨some 4096, 1⟩ false
        (stashingState .diff (.blockRange 0 2) [(0, .blockRange 0 2)]) =
          .ok (st', newBlocks, maxStashed) ∧
      assertSequenceGood 6 (.blockRange 4 6) st' = .ok () ∧
      st'.transfers = [0, 1] ∧
      (∀ x ∈ [0, 1], (st'.xf x).tgtRanges =
        ((stashingState .diff (.blockRange 0 2) [(0, .blockRange 0 2)]).xf x).tgtRanges) ∧
      StashPairing st'.xf st'.transfers ∧
      (false = true → st' = stashingState .diff (.blockRange 0 2) [(0, .blockRange 0 2)]) :=
  reviseStashSize_keeps_sequence (fun _ => "h") ⟨some 4096, 1⟩ false 6 (.blockRange 4 6)
    (stashingState .diff (.blockRange 0 2) [(0, .blockRange 0 2)]) (Or.inr (by simp))
    (by decide) (by rfl) (stashingState_pairing _ _ _ (by simp)) (by
      refine ⟨?_, ?_, ?_⟩
      · intro x hx _
        rcases (by simpa [stashingState] using hx : x = 0 ∨ x = 1) with rfl | rfl <;> decide
      · intro x hx hstyle
        rcases (by simpa [stashingState] using hx : x = 0 ∨ x = 1) with rfl | rfl <;>
          simp [stashingState] at hstyle
      · intro u _ x _ s s' hs hs' hsx hsx'
        have h : ∀ a, a ∈ ((stashingState .diff (.blockRange 0 2)
            [(0, .blockRange 0 2)]).xf x).useStash → a = (0, .blockRange 0 2) := by
          intro a ha
          simp only [stashingState] at ha
          split_ifs at ha
          · cases ha
          · simpa using ha
        rw [h s hsx, h s' hsx'])

/-- A good and paired sequence on which the revision fails an assertion. -/
def RevisionRaises (st : State) : Prop :=
  st.transfers.Nodup ∧ assertSequenceGood 6 (.blockRange 4 6) st = .ok () ∧
    StashPairing st.xf st.transfers ∧
    reviseStashSize (fun _ => "h") ⟨some 2048, 1⟩ false st = .error .assertionError

/-- A command that uses two stashes of one definer is converted twice when neither
fits, a `new` that uses a stash cannot be converted, and a `diff` needs source
blocks. -/
theorem reviseStashSize_raises :
    RevisionRaises (stashingState .diff (.blockRange 0 2)
        [(0, .blockRange 0 1), (1, .blockRange 1 2)]) ∧
      RevisionRaises (stashingState .new (.blockRange 0 2) [(0, .blockRange 0 2)]) ∧
      RevisionRaises (stashingState .diff .empty []) := by
  refine ⟨?_, ?_, ?_⟩
  · exact ⟨by decide, by rfl, stashingState_pairing _ _ _ (by simp),
      eq_error_of_raises (by decide +kernel)⟩
  · exact ⟨by decide, by rfl, stashingState_pairing _ _ _ (by simp),
      eq_error_of_raises (by decide +kernel)⟩
  · exact ⟨by decide, by rfl, stashingState_pairing _ _ _ (by simp),
      eq_error_of_raises (by decide +kernel)⟩

end BlockImageDiff
end AndroidBuild
