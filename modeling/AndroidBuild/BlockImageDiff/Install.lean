import AndroidBuild.BlockImageDiff.Device

/-!
# Installing a transfer list

`WriteTransfers` and the device run side by side.  After the commands for the
transfers `done`, the targets of `done` hold the new image, the blocks of the
old image that have been neither written nor erased are intact, every stash
slot with a positive count holds its blocks, and the rest of `.new.dat` belongs
to the transfers to come (`Synced`).
-/

namespace AndroidBuild
namespace BlockImageDiff

open Loop RangeLib RangeLib.RangeSet

variable {Block : Type}

section Source

variable {d : Device Block} {content : Int → Block} {L : List Int}

theorem place_ranks
    (content : Int → Block) (hL : L.Pairwise (· < ·)) (buffer : Int → Option Block) {S : BlockSet}
    (hS : ∀ i, i ∈ S → i ∈ L) :
    ∃ buffer', place buffer (S.blocks.map (rank L)) ((S.blocks.map content).map some) =
        some buffer' ∧
      ∀ i ∈ L, buffer' (rank L i) = if i ∈ S then some (content i) else buffer (rank L i) := by
  refine ⟨_, if_pos (by simp), ?_⟩
  intro i hi
  rw [List.map_map]
  exact overwrite_map_map buffer (rank L) (some ∘ content) S.blocks i
    (fun j hj h => rank_inj hL (hS j hj) hi h)

theorem mapM_eq_some_map
    {f : Int → Option Block} (h : ∀ i ∈ L, f i = some (content i)) :
    L.mapM f = some (L.map content) := by
  induction L with
  | nil => rfl
  | cons i L ih =>
      rw [List.forall_mem_cons] at h
      rw [List.mapM_cons, h.1, ih h.2]
      rfl

/-- A reference to the slot that holds the blocks of the stash `s`. -/
def RefersTo (rangeSha1 : BlockSet → String) (L : List Int) (s : Stash)
    (ref : String × RangeSet) : Prop :=
  ref.1 = rangeSha1 s.2 ∧ ref.2.blocks = s.2.blocks.map (rank L)

/-- Loading the stash slots of a command. -/
theorem loadStash_all
    {rangeSha1 : BlockSet → String} (hL : L.Pairwise (· < ·))
    {ss : List Stash} {refs : List (String × RangeSet)}
    (hrefs : List.Forall₂ (RefersTo rangeSha1 L) ss refs)
    (hsub : ∀ s ∈ ss, ∀ i, i ∈ s.2 → i ∈ L)
    (hheld : ∀ s ∈ ss, d.stashes (rangeSha1 s.2) = some (s.2.blocks.map content))
    (buffer : Int → Option Block) :
    ∃ buffer', refs.foldlM d.loadStash buffer = some buffer' ∧
      ∀ i ∈ L, buffer (rank L i) = some (content i) ∨ (∃ s ∈ ss, i ∈ s.2) →
        buffer' (rank L i) = some (content i) := by
  induction hrefs generalizing buffer with
  | nil =>
      refine ⟨buffer, rfl, ?_⟩
      rintro i _ (h | ⟨s, hs, _⟩)
      · exact h
      · cases hs
  | @cons s ref ss refs href _ ih =>
      rw [List.forall_mem_cons] at hsub hheld
      obtain ⟨buffer₁, hplace, hbuffer₁⟩ :=
        place_ranks content hL buffer (S := s.2) hsub.1
      obtain ⟨buffer', hrun, hbuffer'⟩ := ih hsub.2 hheld.2 buffer₁
      refine ⟨buffer', ?_, ?_⟩
      · have hload : d.loadStash buffer ref = some buffer₁ := by
          unfold Device.loadStash
          rw [href.1, hheld.1, href.2]
          exact hplace
        rw [List.foldlM_cons, hload]
        exact hrun
      · intro i hi hcov
        apply hbuffer' i hi
        rw [hbuffer₁ i hi]
        by_cases his : i ∈ s.2
        · exact Or.inl (if_pos his)
        · rw [if_neg his]
          rcases hcov with h | ⟨s', hs', his'⟩
          · exact Or.inl h
          · rcases List.mem_cons.mp hs' with rfl | hs'
            · exact absurd his' his
            · exact Or.inr ⟨s', hs', his'⟩

/-- A source argument for the blocks `L`: the blocks `unstashed` are read from
the device, the others come from the stashes `ss`. -/
structure Describes (rangeSha1 : BlockSet → String) (L : List Int) (unstashed : BlockSet)
    (ss : List Stash) (arg : SourceArg) : Prop where
  size : arg.size = L.length
  ranges : (arg.ranges.getD .empty).blocks = unstashed.blocks
  locs : (arg.locs.map RangeSet.blocks).getD (intRange 0 unstashed.blocks.length) =
    unstashed.blocks.map (rank L)
  refs : List.Forall₂ (RefersTo rangeSha1 L) ss arg.refs

/-- The source that the device puts together. -/
theorem loadSource_eq
    {rangeSha1 : BlockSet → String} (hL : L.Pairwise (· < ·)) {unstashed : BlockSet}
    {ss : List Stash} {arg : SourceArg} (harg : Describes rangeSha1 L unstashed ss arg)
    (hunstashed : ∀ i, i ∈ unstashed ↔ i ∈ L ∧ ∀ s ∈ ss, i ∉ s.2)
    (hsub : ∀ s ∈ ss, ∀ i, i ∈ s.2 → i ∈ L)
    (hheld : ∀ s ∈ ss, d.stashes (rangeSha1 s.2) = some (s.2.blocks.map content))
    (hread : ∀ i, i ∈ unstashed → d.blocks i = content i) :
    d.loadSource arg = some (L.map content) := by
  have hdata : unstashed.blocks.map d.blocks = unstashed.blocks.map content :=
    List.map_congr_left hread
  obtain ⟨buffer₁, hplace, hbuffer₁⟩ := place_ranks content hL (fun _ => none)
    (S := unstashed) (fun i hi => ((hunstashed i).mp hi).1)
  obtain ⟨buffer, hrun, hbuffer⟩ := loadStash_all hL harg.refs hsub hheld buffer₁
  unfold Device.loadSource
  simp only [harg.ranges, hdata, List.length_map, harg.locs, harg.size, ← map_rank hL, hplace,
    hrun, Option.bind_eq_bind, Option.bind_some, List.mapM_map]
  refine mapM_eq_some_map ?_
  intro i hi
  apply hbuffer i hi
  rw [hbuffer₁ i hi]
  by_cases hiu : i ∈ unstashed
  · exact Or.inl (if_pos hiu)
  · refine Or.inr ?_
    by_contra hnone
    exact hiu ((hunstashed i).mpr ⟨hi, fun s hs his => hnone ⟨s, hs, his⟩⟩)

end Source

section Arguments

variable {rangeSha1 : BlockSet → String}

/-- The loop over `xf.use_stash` after the entries `done`. -/
structure UsesWritten (rangeSha1 : BlockSet → String) (src : BlockSet) (stashes : String → Nat)
    (done : List Stash) (r : StashRefs) : Prop where
  unstashed : r.unstashed = done.foldl (fun x s => x.subtract s.2) src
  refs : List.Forall₂ (RefersTo rangeSha1 src.blocks) done r.refs
  held : ∀ s ∈ done, 0 < stashes (rangeSha1 s.2)
  le : ∀ sh, r.stashes sh ≤ stashes sh
  freed : ∀ sh ∈ r.freed, r.stashes sh = 0

theorem writeUse_written
    {src : BlockSet} {stashes : String → Nat} {done : List Stash} {r r' : StashRefs} {s : Stash}
    (hsub : ∀ i, i ∈ s.2 → i ∈ src) (h : UsesWritten rangeSha1 src stashes done r)
    (hrun : writeUse rangeSha1 src r s = .ok r') :
    UsesWritten rangeSha1 src stashes (done ++ [s]) r' := by
  obtain ⟨sr, hsr, _, hblocks⟩ := mapWithin_spec src.canonical s.2.canonical hsub
  unfold writeUse at hrun
  simp only [hsr] at hrun
  by_cases hpos : 0 < r.stashes (rangeSha1 s.2)
  swap
  · rw [if_neg hpos] at hrun
    cases hrun
  rw [if_pos hpos] at hrun
  cases hrun
  have hle : ∀ sh, Function.update r.stashes (rangeSha1 s.2)
      (r.stashes (rangeSha1 s.2) - 1) sh ≤ r.stashes sh := by
    intro sh
    rw [Function.update_apply]
    split_ifs with hsh
    · rw [hsh]
      omega
    · exact le_refl _
  refine ⟨?_, ?_, ?_, ?_, ?_⟩
  · rw [List.foldl_append, ← h.unstashed]
    rfl
  · refine List.rel_append h.refs ?_
    exact List.Forall₂.cons ⟨rfl, hblocks⟩ List.Forall₂.nil
  · intro s' hs'
    rcases List.mem_append.mp hs' with hs' | hs'
    · exact h.held s' hs'
    · rw [List.mem_singleton.mp hs']
      exact lt_of_lt_of_le hpos (h.le _)
  · intro sh
    exact (hle sh).trans (h.le sh)
  · intro sh hsh
    have hold : sh ∈ r.freed → Function.update r.stashes (rangeSha1 s.2)
        (r.stashes (rangeSha1 s.2) - 1) sh = 0 := by
      intro hmem
      have := hle sh
      have := h.freed sh hmem
      omega
    simp only [decide_eq_true_eq] at hsh
    split_ifs at hsh with hlast
    · rcases List.mem_append.mp hsh with hsh | hsh
      · exact hold hsh
      · rw [List.mem_singleton.mp hsh]
        simp only [Function.update_self]
        exact hlast
    · exact hold hsh

theorem writeUse_all_written
    {src : BlockSet} {stashes : String → Nat} {ss : List Stash} {r : StashRefs}
    (hsub : ∀ s ∈ ss, ∀ i, i ∈ s.2 → i ∈ src)
    (hrun : ss.foldlM (writeUse rangeSha1 src) ⟨src, [], [], stashes, [], 0⟩ = .ok r) :
    UsesWritten rangeSha1 src stashes ss r := by
  refine forLoop_ok (fun done r => UsesWritten rangeSha1 src stashes done r) hrun ?_ ?_
  · exact ⟨rfl, List.Forall₂.nil, by simp, fun _ => le_refl _, by simp⟩
  · intro done s rest r r' hsplit hinv hstep
    exact writeUse_written (hsub s (by simp [hsplit])) hinv hstep

theorem blocks_eq_nil
    {s : BlockSet} (h : s.nonempty = false) :
    s.blocks = [] := by
  rw [List.eq_nil_iff_forall_not_mem]
  exact BlockSet.nonempty_eq_false_iff.mp h

theorem sourceArg_describes
    {t : Transfer} {stashes : String → Nat} {r : StashRefs} {arg : SourceArg}
    (h : UsesWritten rangeSha1 t.srcRanges stashes t.useStash r)
    (hrun : sourceArg t r = .ok arg) :
    Describes rangeSha1 t.srcRanges.blocks t.unstashed t.useStash arg := by
  have hun : r.unstashed = t.unstashed := h.unstashed
  have hsize := t.srcRanges.size_eq_length
  unfold sourceArg at hrun
  simp only [hun] at hrun
  split_ifs at hrun with hne huse
  · cases hrun
    refine ⟨hsize, rfl, ?_, h.refs⟩
    have hsrc : t.unstashed = t.srcRanges := by
      unfold Transfer.unstashed
      rw [List.isEmpty_iff.mp huse]
      rfl
    rw [hsrc, map_rank t.srcRanges.blocks_strict]
    rfl
  · obtain ⟨locs, hlocs, _, hblocks⟩ := mapWithin_spec t.srcRanges.canonical
      t.unstashed.canonical (fun i hi => (mem_unstashed.mp hi).1)
    simp only [hlocs] at hrun
    obtain ⟨_, _, hrun⟩ := bind_eq_ok.mp hrun
    cases hrun
    exact ⟨hsize, rfl, hblocks, h.refs⟩
  · obtain ⟨_, _, hrun⟩ := bind_eq_ok.mp hrun
    cases hrun
    have hnil := blocks_eq_nil (by simpa using hne)
    refine ⟨hsize, ?_, ?_, h.refs⟩
    · rw [hnil]
      rfl
    · rw [hnil]
      rfl

end Arguments

section Split

/-- The pieces of a split command, in order, are the blocks of its target. -/
theorem splitPieces_blocks
    {target : BlockSet} {pieces : List BlockSet} (hrun : splitPieces target = .ok pieces) :
    pieces.flatMap BlockSet.blocks = target.blocks := by
  unfold splitPieces at hrun
  obtain ⟨r, hr, hrun⟩ := bind_eq_ok.mp hrun
  cases hrun
  have hinv := whileLoop_ok
    (fun s : List BlockSet × BlockSet =>
      s.1.flatMap BlockSet.blocks ++ s.2.blocks = target.blocks)
    (by
      intro s s' hs _ hstep
      cases hstep
      simp only [List.flatMap_append, List.flatMap_singleton]
      rw [BlockSet.blocks_subtract_first, BlockSet.blocks_first, List.append_assoc,
        List.take_append_drop, hs])
    hr (by simp)
  rw [← hinv.1, blocks_eq_nil hinv.2, List.append_nil]

theorem writeSplitTransfers_pieces
    {command : BlockSet → Command} {w w' : Writer} {target : BlockSet}
    (hrun : writeSplitTransfers command w target = .ok w') :
    ∃ pieces : List BlockSet, pieces.flatMap BlockSet.blocks = target.blocks ∧
      w' = { w with out := w.out ++ pieces.map command, total := w.total + target.size } := by
  unfold writeSplitTransfers at hrun
  obtain ⟨pieces, hpieces, hrun⟩ := bind_eq_ok.mp hrun
  split_ifs at hrun
  cases hrun
  exact ⟨pieces, splitPieces_blocks hpieces, rfl⟩

/-- The blocks `is` have been overwritten by the content `c`. -/
structure Wrote (c : Int → Block) (is : List Int) (d d' : Device Block) : Prop where
  blocks : ∀ i, d'.blocks i = if i ∈ is then c i else d.blocks i
  stashes : d'.stashes = d.stashes

/-- The pieces of a split command, one after the other. -/
theorem run_pieces
    {u : Updater Block} {command : BlockSet → Command} {c : Int → Block}
    (dat : List BlockSet → List Block)
    (hstep : ∀ p ps (d : Device Block), d.newDat = dat (p :: ps) →
      ∃ d', u.perform d (command p) = some d' ∧ Wrote c p.blocks d d' ∧ d'.newDat = dat ps)
    (ps : List BlockSet) (d : Device Block) (hdat : d.newDat = dat ps) :
    ∃ d', u.run d (ps.map command) = some d' ∧ Wrote c (ps.flatMap BlockSet.blocks) d d' ∧
      d'.newDat = dat [] := by
  induction ps generalizing d with
  | nil => exact ⟨d, rfl, ⟨by simp, rfl⟩, hdat⟩
  | cons p ps ih =>
      obtain ⟨d₁, hperform, hwrote₁, hdat₁⟩ := hstep p ps d hdat
      obtain ⟨d₂, hrun, hwrote₂, hdat₂⟩ := ih { d₁ with executed := d.executed + 1 } hdat₁
      refine ⟨d₂, ?_, ⟨?_, hwrote₂.stashes.trans hwrote₁.stashes⟩, hdat₂⟩
      · exact (run_append (run_singleton hperform) (ps.map command)).trans hrun
      · intro i
        rw [hwrote₂.blocks, List.flatMap_cons]
        simp only [hwrote₁.blocks, List.mem_append]
        by_cases h₁ : i ∈ p.blocks
        · simp [h₁]
        · simp [h₁]

theorem run_new
    (u : Updater Block) (c : Int → Block) (rest : List Block) (ps : List BlockSet)
    (d : Device Block) (hdat : d.newDat = (ps.flatMap BlockSet.blocks).map c ++ rest) :
    ∃ d', u.run d (ps.map .new) = some d' ∧ Wrote c (ps.flatMap BlockSet.blocks) d d' ∧
      d'.newDat = rest := by
  refine run_pieces (fun ps => (ps.flatMap BlockSet.blocks).map c ++ rest) ?_ ps d hdat
  intro p ps d hdat
  have hsplit : d.newDat = p.blocks.map c ++ ((ps.flatMap BlockSet.blocks).map c ++ rest) := by
    rw [hdat, List.flatMap_cons, List.map_append, List.append_assoc]
  have htake : d.newDat.take p.blocks.length = p.blocks.map c := by
    rw [hsplit, List.take_left' (by simp)]
  have hdrop : d.newDat.drop p.blocks.length =
      (ps.flatMap BlockSet.blocks).map c ++ rest := by
    rw [hsplit, List.drop_left' (by simp)]
  simp only [Updater.perform, htake, hdrop, write_map]
  exact ⟨_, rfl, ⟨fun _ => rfl, rfl⟩, rfl⟩

theorem run_zero
    (u : Updater Block) (ps : List BlockSet) (d : Device Block) :
    ∃ d', u.run d (ps.map .zero) = some d' ∧
      Wrote (fun _ => u.zeroBlock) (ps.flatMap BlockSet.blocks) d d' ∧ d'.newDat = d.newDat := by
  refine run_pieces (fun _ => d.newDat) ?_ ps d rfl
  intro p _ d' hdat
  simp only [Updater.perform, write_map]
  exact ⟨_, rfl, ⟨fun _ => rfl, rfl⟩, hdat⟩

end Split

section Commands

variable {ctx : Context Block} {u : Updater Block}

/-- What the device needs to know about a transfer. -/
structure Installable (ctx : Context Block) (u : Updater Block) (t : Transfer) : Prop where
  tgtCare : ∀ i, i ∈ t.tgtRanges → i ∈ ctx.tgt.careMap
  srcCare : ∀ i, i ∈ t.srcRanges → i ∈ ctx.src.careMap
  stashes : ∀ s ∈ t.stashBefore, ∀ i, i ∈ s.2 → i ∈ t.tgtRanges ∧ i ∈ ctx.src.careMap
  uses : ∀ s ∈ t.useStash, ∀ i, i ∈ s.2 → i ∈ t.srcRanges
  tgtSha1 : t.tgtSha1 = ctx.tgtSha1 t.tgtRanges
  zero : t.style = .zero → (∀ i, i ∈ t.tgtRanges → ctx.tgt.content i = u.zeroBlock) ∧
    ∀ i, i ∈ t.srcRanges → ctx.src.content i = u.zeroBlock
  move : t.style = .move → ctx.src.read t.srcRanges = ctx.tgt.read t.tgtRanges
  patch : t.style = .bsdiff ∨ t.style = .imgdiff → t.srcSha1 = ctx.srcSha1 t.srcRanges ∧
    u.applyPatch (decide (t.style = .imgdiff)) ((u.patchDat.drop t.patchStart).take t.patchLen)
      (ctx.src.read t.srcRanges) = some (ctx.tgt.read t.tgtRanges)

/-- The commands written between `w` and `w'` install the target of `t` on `d`
and leave `rest` of the new data. -/
def Installs (ctx : Context Block) (u : Updater Block) (t : Transfer) (w w' : Writer)
    (d : Device Block) (rest : List Block) : Prop :=
  ∃ cmds d', w'.out = w.out ++ cmds ∧ u.run d cmds = some d' ∧
    Wrote ctx.tgt.content t.tgtRanges.blocks d d' ∧ d'.newDat = rest

/-- The fields of the writer that a command leaves alone or extends. -/
structure WriterFrame (w w' : Writer) : Prop where
  stashes : w'.stashes = w.stashes
  touched : ∀ i, i ∈ w.touched → i ∈ w'.touched

@[simp] theorem implicitStash_stashes (w : Writer) (t : Transfer) :
    (w.implicitStash t).stashes = w.stashes := by
  unfold Writer.implicitStash
  split_ifs <;> rfl

@[simp] theorem implicitStash_touched (w : Writer) (t : Transfer) :
    (w.implicitStash t).touched = w.touched := by
  unfold Writer.implicitStash
  split_ifs <;> rfl

@[simp] theorem implicitStash_out (w : Writer) (t : Transfer) :
    (w.implicitStash t).out = w.out := by
  unfold Writer.implicitStash
  split_ifs <;> rfl

theorem installs_new
    (ctx : Context Block) (u : Updater Block) {t : Transfer} {w w' : Writer} {arg : SourceArg} (hstyle : t.style = .new)
    (hrun : writeCommand w t arg = .ok w') :
    WriterFrame w w' ∧ ∀ (d : Device Block) rest,
      d.newDat = newData ctx t ++ rest → Installs ctx u t w w' d rest := by
  unfold writeCommand at hrun
  simp only [hstyle] at hrun
  split_ifs at hrun
  obtain ⟨pieces, hpieces, rfl⟩ := writeSplitTransfers_pieces hrun
  refine ⟨⟨rfl, fun _ h => h⟩, ?_⟩
  intro d rest hdat
  rw [newData, if_pos hstyle, Image.read, ← hpieces] at hdat
  obtain ⟨d', hd', hwrote, hrest⟩ := run_new u ctx.tgt.content rest pieces d hdat
  rw [hpieces] at hwrote
  exact ⟨_, d', rfl, hd', hwrote, hrest⟩

theorem installs_zero
    {t : Transfer} {w w' : Writer} {arg : SourceArg} (hready : Installable ctx u t)
    (hstyle : t.style = .zero) (hrun : writeCommand w t arg = .ok w') :
    WriterFrame w w' ∧ ∀ d : Device Block,
      (∀ i, i ∈ t.tgtRanges → i ∈ ctx.src.careMap → d.blocks i = ctx.src.content i) →
        Installs ctx u t w w' d d.newDat := by
  unfold writeCommand at hrun
  simp only [hstyle] at hrun
  split_ifs at hrun
  obtain ⟨pieces, hpieces, rfl⟩ := writeSplitTransfers_pieces hrun
  refine ⟨⟨rfl, fun _ h => h⟩, ?_⟩
  intro d hintact
  obtain ⟨d', hd', hwrote, hrest⟩ := run_zero u pieces d
  refine ⟨_, d', rfl, hd', ⟨?_, hwrote.stashes⟩, hrest⟩
  intro i
  rw [hwrote.blocks, hpieces]
  simp only [BlockSet.mem_blocks_iff, BlockSet.mem_subtract]
  obtain ⟨htgt, hsrc⟩ := hready.zero hstyle
  by_cases ht : i ∈ t.tgtRanges
  · rw [if_pos ht, htgt i ht]
    by_cases hs : i ∈ t.srcRanges
    · -- a block that is zero already
      rw [if_neg (fun h => h.2 hs), hintact i ht (hready.srcCare i hs), hsrc i hs]
    · rw [if_pos ⟨ht, hs⟩]
  · rw [if_neg ht, if_neg (fun h => ht h.1)]

theorem wrote_read
    (ctx : Context Block) (d : Device Block) (t : Transfer) :
    ∃ d', d.write t.tgtRanges (ctx.tgt.read t.tgtRanges) = some d' ∧
      Wrote ctx.tgt.content t.tgtRanges.blocks d d' ∧ d'.newDat = d.newDat := by
  refine ⟨_, write_map d t.tgtRanges ctx.tgt.content, ⟨fun i => rfl, rfl⟩, rfl⟩

theorem installs_move
    {t : Transfer} {w w' : Writer} {arg : SourceArg} (hready : Installable ctx u t)
    (hsha : u.sha1 = ctx.tools.sha1) (hstyle : t.style = .move)
    (hrun : writeCommand w t arg = .ok w') :
    WriterFrame w w' ∧ ∀ d : Device Block,
      (∀ i, i ∈ t.tgtRanges → i ∈ ctx.src.careMap → d.blocks i = ctx.src.content i) →
      ((∀ i, i ∈ t.srcRanges → i ∈ w'.touched) →
        d.loadSource arg = some (ctx.src.read t.srcRanges)) →
        Installs ctx u t w w' d d.newDat := by
  have hread := hready.move hstyle
  unfold writeCommand at hrun
  simp only [hstyle] at hrun
  split_ifs at hrun with _ hsame
  · -- source and target are the same blocks: no command
    cases hrun
    refine ⟨⟨rfl, fun _ h => h⟩, ?_⟩
    intro d hintact _
    refine ⟨[], d, by simp, rfl, ⟨?_, rfl⟩, rfl⟩
    intro i
    have hblocks := BlockSet.blocks_eq_of_same hsame
    unfold Image.read at hread
    rw [hblocks] at hread
    split_ifs with hi
    · have hisrc : i ∈ t.srcRanges := by
        rw [← BlockSet.mem_blocks_iff, hblocks]
        exact hi
      rw [hintact i hi (hready.srcCare i hisrc)]
      exact List.map_inj_left.mp hread i hi
    · rfl
  · cases hrun
    refine ⟨⟨?_, ?_⟩, ?_⟩
    · exact implicitStash_stashes w t
    · intro i hi
      simp [hi]
    · intro d _ hload
      have hsource := hload (fun i hi => BlockSet.mem_union.mpr (Or.inr hi))
      obtain ⟨d', hd', hwrote, hdat⟩ := wrote_read ctx d t
      have hperform : u.perform d (.move t.tgtSha1 t.tgtRanges arg) = some d' := by
        simp only [Updater.perform, hsource, hread, Updater.verify, hsha, hready.tgtSha1,
          Context.tgtSha1, Image.rangeSha1, if_true, Option.bind_eq_bind, Option.bind_some]
        exact hd'
      refine ⟨[.move t.tgtSha1 t.tgtRanges arg], _, ?_, run_singleton hperform,
        ⟨hwrote.blocks, hwrote.stashes⟩, hdat⟩
      simp

theorem installs_patch
    {t : Transfer} {w w' : Writer} {arg : SourceArg} (hready : Installable ctx u t)
    (hsha : u.sha1 = ctx.tools.sha1) (hstyle : t.style = .bsdiff ∨ t.style = .imgdiff)
    (hrun : writeCommand w t arg = .ok w') :
    WriterFrame w w' ∧ ∀ d : Device Block,
      ((∀ i, i ∈ t.srcRanges → i ∈ w'.touched) →
        d.loadSource arg = some (ctx.src.read t.srcRanges)) →
        Installs ctx u t w w' d d.newDat := by
  obtain ⟨hsrcSha1, happly⟩ := hready.patch hstyle
  have hcommand : writeCommand w t arg =
      if t.tgtRanges.nonempty && t.srcRanges.nonempty then
        let command := if t.style = .imgdiff then Command.imgdiff else Command.bsdiff
        .ok { w.implicitStash t with
          touched := (w.implicitStash t).touched.union t.srcRanges
          out := (w.implicitStash t).out ++
            [command t.patchStart t.patchLen t.srcSha1 t.tgtSha1 t.tgtRanges arg]
          total := (w.implicitStash t).total + t.tgtRanges.size }
      else .error .assertionError := by
    unfold writeCommand
    rcases hstyle with h | h <;> simp only [h]
  rw [hcommand] at hrun
  by_cases hne : (t.tgtRanges.nonempty && t.srcRanges.nonempty) = true
  swap
  · rw [if_neg hne] at hrun
    cases hrun
  rw [if_pos hne] at hrun
  cases hrun
  refine ⟨⟨?_, ?_⟩, ?_⟩
  · exact implicitStash_stashes w t
  · intro i hi
    simp [hi]
  · intro d hload
    have hsource := hload (fun i hi => BlockSet.mem_union.mpr (Or.inr hi))
    obtain ⟨d', hd', hwrote, hdat⟩ := wrote_read ctx d t
    have hpatch : u.patch (decide (t.style = .imgdiff)) t.patchStart t.patchLen t.srcSha1
        t.tgtSha1 t.tgtRanges arg d = some d' := by
      simp only [Updater.patch, hsource, happly, Updater.verify, hsha, hsrcSha1, hready.tgtSha1,
        Context.tgtSha1, Context.srcSha1, Image.rangeSha1, if_true, Option.bind_eq_bind,
        Option.bind_some]
      exact hd'
    have hperform : u.perform d ((if t.style = .imgdiff then Command.imgdiff else Command.bsdiff)
        t.patchStart t.patchLen t.srcSha1 t.tgtSha1 t.tgtRanges arg) = some d' := by
      rcases hstyle with h | h
      · rw [h] at hpatch ⊢
        exact hpatch
      · rw [h] at hpatch ⊢
        exact hpatch
    refine ⟨[_], _, ?_, run_singleton hperform, ⟨hwrote.blocks, hwrote.stashes⟩, hdat⟩
    simp

/-- The command of a transfer installs its target. -/
theorem writeCommand_installs
    {t : Transfer} {w w' : Writer} {arg : SourceArg} (hready : Installable ctx u t)
    (hsha : u.sha1 = ctx.tools.sha1) (hrun : writeCommand w t arg = .ok w') :
    WriterFrame w w' ∧ ∀ (d : Device Block) rest,
      d.newDat = newData ctx t ++ rest →
      (∀ i, i ∈ t.tgtRanges → i ∈ ctx.src.careMap → d.blocks i = ctx.src.content i) →
      ((∀ i, i ∈ t.srcRanges → i ∈ w'.touched) →
        d.loadSource arg = some (ctx.src.read t.srcRanges)) →
        Installs ctx u t w w' d rest := by
  have hdat : t.style ≠ .new → newData ctx t = [] := fun h => if_neg h
  cases hs : t.style with
  | new =>
      obtain ⟨hframe, hinst⟩ := installs_new ctx u hs hrun
      exact ⟨hframe, fun d rest hnew _ _ => hinst d rest hnew⟩
  | zero =>
      obtain ⟨hframe, hinst⟩ := installs_zero hready hs hrun
      refine ⟨hframe, fun d rest hnew hintact _ => ?_⟩
      rw [hdat (by simp [hs]), List.nil_append] at hnew
      rw [← hnew]
      exact hinst d hintact
  | move =>
      obtain ⟨hframe, hinst⟩ := installs_move hready hsha hs hrun
      refine ⟨hframe, fun d rest hnew hintact hload => ?_⟩
      rw [hdat (by simp [hs]), List.nil_append] at hnew
      rw [← hnew]
      exact hinst d hintact hload
  | bsdiff =>
      obtain ⟨hframe, hinst⟩ := installs_patch hready hsha (Or.inl hs) hrun
      refine ⟨hframe, fun d rest hnew _ hload => ?_⟩
      rw [hdat (by simp [hs]), List.nil_append] at hnew
      rw [← hnew]
      exact hinst d hload
  | imgdiff =>
      obtain ⟨hframe, hinst⟩ := installs_patch hready hsha (Or.inr hs) hrun
      refine ⟨hframe, fun d rest hnew _ hload => ?_⟩
      rw [hdat (by simp [hs]), List.nil_append] at hnew
      rw [← hnew]
      exact hinst d hload
  | diff =>
      unfold writeCommand at hrun
      simp only [hs] at hrun
      cases hrun

end Commands

section Stashes

variable {ctx : Context Block} {u : Updater Block}

/-- The image cares about all blocks of a set. -/
def Image.Cares (img : Image Block) (s : BlockSet) : Prop :=
  ∀ i, i ∈ s → i ∈ img.careMap

/-- Equal hashes mean equal blocks, on the two images. -/
structure CollisionFree (ctx : Context Block) : Prop where
  srcSrc : ∀ a b, ctx.src.Cares a → ctx.src.Cares b → ctx.srcSha1 a = ctx.srcSha1 b →
    ctx.src.read a = ctx.src.read b
  srcTgt : ∀ a b, ctx.src.Cares a → ctx.tgt.Cares b → ctx.srcSha1 a = ctx.tgtSha1 b →
    ctx.src.read a = ctx.tgt.read b

/-- Every slot with a positive count holds its blocks. -/
def HoldsStashes (ctx : Context Block) (stashes : String → Nat) (d : Device Block) : Prop :=
  ∀ s, ctx.src.Cares s → 0 < stashes (ctx.srcSha1 s) →
    d.stashes (ctx.srcSha1 s) = some (ctx.src.read s)

/-- The device has changed in its stash slots only. -/
structure StashFrame (d d' : Device Block) : Prop where
  blocks : d'.blocks = d.blocks
  newDat : d'.newDat = d.newDat

theorem writeStash_touched
    (rangeSha1 : BlockSet → String) (ss : List Stash) (w : Writer) :
    ∀ i, i ∈ w.touched → i ∈ (ss.foldl (writeStash rangeSha1) w).touched := by
  induction ss generalizing w with
  | nil =>
      intro i hi
      exact hi
  | cons s ss ih =>
      intro i hi
      rw [List.foldl_cons]
      apply ih
      unfold writeStash
      simp only
      split_ifs
      · exact hi
      · exact BlockSet.mem_union.mpr (Or.inl hi)

/-- The `stash` commands before a transfer. -/
theorem run_stashes
    (hfree : CollisionFree ctx) (hsha : u.sha1 = ctx.tools.sha1) (ss : List Stash) (w : Writer)
    (d : Device Block) (hheld : HoldsStashes ctx w.stashes d)
    (hcares : ∀ s ∈ ss, ctx.src.Cares s.2)
    (hread : ∀ s ∈ ss, ∀ i, i ∈ s.2 → i ∈ (ss.foldl (writeStash ctx.srcSha1) w).touched →
      d.blocks i = ctx.src.content i) :
    ∃ cmds d', (ss.foldl (writeStash ctx.srcSha1) w).out = w.out ++ cmds ∧
      u.run d cmds = some d' ∧ StashFrame d d' ∧
        HoldsStashes ctx (ss.foldl (writeStash ctx.srcSha1) w).stashes d' := by
  induction ss generalizing w d with
  | nil => exact ⟨[], d, by simp, rfl, ⟨rfl, rfl⟩, hheld⟩
  | cons s ss ih =>
      rw [List.foldl_cons] at hread ⊢
      rw [List.forall_mem_cons] at hread hcares
      by_cases hpos : 0 < w.stashes (ctx.srcSha1 s.2)
      · have hw₁ : writeStash ctx.srcSha1 w s = { w with
            stashes := Function.update w.stashes (ctx.srcSha1 s.2)
              (w.stashes (ctx.srcSha1 s.2) + 1) } := by
          exact if_pos hpos
        have hheld₁ : HoldsStashes ctx (writeStash ctx.srcSha1 w s).stashes d := by
          intro s' hcare hs'
          rw [hw₁] at hs'
          simp only [Function.update_apply] at hs'
          split_ifs at hs' with heq
          · rw [← heq] at hpos
            exact hheld s' hcare hpos
          · exact hheld s' hcare hs'
        obtain ⟨cmds, d', hout, hrun, hframe, hheld'⟩ := ih _ d hheld₁ hcares.2 hread.2
        refine ⟨cmds, d', ?_, hrun, hframe, hheld'⟩
        rw [hout, hw₁]
      · have hw₁ : writeStash ctx.srcSha1 w s = { w with
            stashes := Function.update w.stashes (ctx.srcSha1 s.2) 1
            stashedBlocks := w.stashedBlocks + s.2.size
            touched := w.touched.union s.2
            out := w.out ++ [.stash (ctx.srcSha1 s.2) s.2] } := by
          exact if_neg hpos
        have hdata : d.read s.2 = ctx.src.read s.2 := by
          refine List.map_congr_left (fun i hi => hread.1 i hi ?_)
          apply writeStash_touched
          rw [hw₁]
          exact BlockSet.mem_union.mpr (Or.inr hi)
        have hperform : u.perform d (.stash (ctx.srcSha1 s.2) s.2) = some { d with
            stashes := Function.update d.stashes (ctx.srcSha1 s.2) (some (ctx.src.read s.2)) } := by
          simp only [Updater.perform, Updater.verify, hdata, hsha, Context.srcSha1,
            Image.rangeSha1, if_true, Option.bind_eq_bind, Option.bind_some]
        have hheld₁ : HoldsStashes ctx (writeStash ctx.srcSha1 w s).stashes { d with
            stashes := Function.update d.stashes (ctx.srcSha1 s.2) (some (ctx.src.read s.2))
            executed := d.executed + 1 } := by
          intro s' hcare hs'
          rw [hw₁] at hs'
          simp only [Function.update_apply] at hs' ⊢
          by_cases heq : ctx.srcSha1 s' = ctx.srcSha1 s.2
          · rw [if_pos heq, hfree.srcSrc _ _ hcare hcares.1 heq]
          · rw [if_neg heq] at hs' ⊢
            exact hheld s' hcare hs'
        obtain ⟨cmds, d', hout, hrun, hframe, hheld'⟩ := ih _ _ hheld₁ hcares.2 hread.2
        refine ⟨.stash (ctx.srcSha1 s.2) s.2 :: cmds, d', ?_, ?_,
          ⟨hframe.blocks, hframe.newDat⟩, hheld'⟩
        · rw [hout, hw₁]
          simp
        · exact (run_append (run_singleton hperform) cmds).trans hrun

theorem run_frees
    (u : Updater Block) (freed : List String) (d : Device Block) :
    ∃ d', u.run d (freed.map .free) = some d' ∧ StashFrame d d' ∧
      ∀ sh, sh ∉ freed → d'.stashes sh = d.stashes sh := by
  induction freed generalizing d with
  | nil => exact ⟨d, rfl, ⟨rfl, rfl⟩, fun _ _ => rfl⟩
  | cons f freed ih =>
      have hperform : u.perform d (.free f) =
          some { d with stashes := Function.update d.stashes f none } := by
        rfl
      obtain ⟨d', hrun, hframe, hkeep⟩ := ih { d with
        stashes := Function.update d.stashes f none
        executed := d.executed + 1 }
      refine ⟨d', ?_, ⟨hframe.blocks, hframe.newDat⟩, ?_⟩
      · exact (run_append (run_singleton hperform) (freed.map .free)).trans hrun
      · intro sh hsh
        rw [List.mem_cons, not_or] at hsh
        rw [hkeep sh hsh.2]
        exact Function.update_of_ne hsh.1 _ _

end Stashes

section Transfers

variable {ctx : Context Block} {u : Updater Block}

/-- The device after the commands for the transfers `done`; `E` has been erased
in the beginning. -/
structure Synced (ctx : Context Block) (E : BlockSet) (xf : Nat → Transfer)
    (done rest : List Nat) (w : Writer) (d : Device Block) : Prop where
  written : ∀ x ∈ done, ∀ i, i ∈ (xf x).tgtRanges → d.blocks i = ctx.tgt.content i
  intact : ∀ i, i ∈ ctx.src.careMap → i ∉ E → (∀ x ∈ done, i ∉ (xf x).tgtRanges) →
    d.blocks i = ctx.src.content i
  held : HoldsStashes ctx w.stashes d
  newDat : d.newDat = rest.flatMap (fun x => newData ctx (xf x))

theorem writeTransfer_touched
    {w w' : Writer} {t : Transfer} (hready : Installable ctx u t)
    (hsha : u.sha1 = ctx.tools.sha1) (hrun : writeTransfer ctx.srcSha1 ctx.opts w t = .ok w') :
    ∀ i, i ∈ w.touched → i ∈ w'.touched := by
  obtain ⟨w₁, r, arg, w₂, rfl, _, _, hw₂, rfl⟩ := writeTransfer_ok hrun
  intro i hi
  exact (writeCommand_installs hready hsha hw₂).1.touched i (writeStash_touched _ _ w i hi)

/-- One transfer on the writer and on the device. -/
theorem writeTransfer_synced
    (hfree : CollisionFree ctx) (hsha : u.sha1 = ctx.tools.sha1) {E : BlockSet}
    {xf : Nat → Transfer} {done rest : List Nat} {x : Nat} {w w' : Writer} {d : Device Block}
    (hready : Installable ctx u (xf x))
    (hcare : ∀ i, i ∈ E → i ∉ ctx.tgt.careMap)
    (hreads : ∀ y ∈ done, ∀ i, i ∈ (xf x).unstashed → i ∉ (xf y).tgtRanges)
    (hwrites : ∀ y ∈ done, ∀ i, i ∈ (xf x).tgtRanges → i ∉ (xf y).tgtRanges)
    (hrun : writeTransfer ctx.srcSha1 ctx.opts w (xf x) = .ok w')
    (htouched : ∀ i, i ∈ w'.touched → i ∉ E)
    (h : Synced ctx E xf done (x :: rest) w d) :
    ∃ cmds d', w'.out = w.out ++ cmds ∧ u.run d cmds = some d' ∧
      Synced ctx E xf (done ++ [x]) rest w' d' := by
  obtain ⟨w₁, r, arg, w₂, hw₁, hr, harg, hw₂, rfl⟩ := writeTransfer_ok hrun
  obtain ⟨hwframe, hinst⟩ := writeCommand_installs hready hsha hw₂
  have htouched₁ : ∀ i, i ∈ w₁.touched → i ∉ E := fun i hi => htouched i (hwframe.touched i hi)
  have htgt : ∀ i, i ∈ (xf x).tgtRanges → i ∈ ctx.src.careMap →
      d.blocks i = ctx.src.content i := by
    intro i hi hsrc
    exact h.intact i hsrc (fun hE => hcare i hE (hready.tgtCare i hi))
      (fun y hy => hwrites y hy i hi)
  -- the stash commands
  obtain ⟨cmds₁, d₁, hout₁, hrun₁, hframe₁, hheld₁⟩ := run_stashes hfree hsha
    (xf x).stashBefore w d h.held (fun s hs i hi => (hready.stashes s hs i hi).2) (by
      intro s hs i hi _
      exact htgt i (hready.stashes s hs i hi).1 (hready.stashes s hs i hi).2)
  rw [← hw₁] at hout₁ hheld₁
  have huses := writeUse_all_written hready.uses hr
  -- the command itself
  have hload : (∀ i, i ∈ (xf x).srcRanges → i ∈ w₂.touched) →
      d₁.loadSource arg = some (ctx.src.read (xf x).srcRanges) := by
    intro htouched₂
    refine loadSource_eq (xf x).srcRanges.blocks_strict (sourceArg_describes huses harg)
      (fun i => mem_unstashed) hready.uses (fun s hs => hheld₁ s.2
        (fun i hi => hready.srcCare i (hready.uses s hs i hi)) (huses.held s hs)) ?_
    intro i hi
    have hisrc := (mem_unstashed.mp hi).1
    rw [hframe₁.blocks]
    exact h.intact i (hready.srcCare i hisrc) (htouched i (htouched₂ i hisrc))
      (fun y hy => hreads y hy i hi)
  obtain ⟨cmds₂, d₂, hout₂, hrun₂, hwrote, hdat₂⟩ := hinst d₁
    (rest.flatMap (fun x => newData ctx (xf x)))
    (by rw [hframe₁.newDat, h.newDat, List.flatMap_cons])
    (by rw [hframe₁.blocks]; exact htgt) hload
  -- the free commands
  obtain ⟨d₃, hrun₃, hframe₃, hkeep⟩ := run_frees u r.freed d₂
  have hblocks : ∀ i, d₃.blocks i =
      if i ∈ (xf x).tgtRanges then ctx.tgt.content i else d.blocks i := by
    intro i
    rw [hframe₃.blocks, hwrote.blocks, hframe₁.blocks]
    rfl
  refine ⟨cmds₁ ++ (cmds₂ ++ r.freed.map .free), d₃, ?_, ?_, ?_⟩
  · simp only [hout₂, hout₁, List.append_assoc]
  · rw [run_append hrun₁, run_append hrun₂]
    exact hrun₃
  · refine ⟨?_, ?_, ?_, hframe₃.newDat.trans hdat₂⟩
    · intro y hy i hi
      rw [hblocks]
      rcases List.mem_append.mp hy with hy | hy
      · rw [if_neg (fun hix => hwrites y hy i hix hi)]
        exact h.written y hy i hi
      · rw [List.mem_singleton.mp hy] at hi
        rw [if_pos hi]
    · intro i hi hE hnot
      rw [hblocks, if_neg (hnot x (by simp))]
      exact h.intact i hi hE (fun y hy => hnot y (List.mem_append_left _ hy))
    · intro s hcares hs
      have hcount : 0 < r.stashes (ctx.srcSha1 s) := by
        rw [← show w₂.stashes = r.stashes from hwframe.stashes]
        exact hs
      have hnot : ctx.srcSha1 s ∉ r.freed := by
        intro hmem
        have := huses.freed _ hmem
        omega
      rw [hkeep _ hnot, hwrote.stashes]
      exact hheld₁ s hcares (lt_of_lt_of_le hcount (huses.le _))

theorem writeTransfer_all_touched
    (hsha : u.sha1 = ctx.tools.sha1) {xf : Nat → Transfer} {ts : List Nat} {w w' : Writer}
    (hready : ∀ x ∈ ts, Installable ctx u (xf x))
    (hrun : ts.foldlM (fun w x => writeTransfer ctx.srcSha1 ctx.opts w (xf x)) w = .ok w') :
    ∀ i, i ∈ w.touched → i ∈ w'.touched := by
  refine forLoop_preserves (fun r : Writer => ∀ i, i ∈ w.touched → i ∈ r.touched) hrun
    (fun _ h => h) ?_
  intro x r r' hx hr hstep i hi
  exact writeTransfer_touched (hready x hx) hsha hstep i (hr i hi)

theorem writeTransfer_all_synced
    (hfree : CollisionFree ctx) (hsha : u.sha1 = ctx.tools.sha1) {E : BlockSet}
    {xf : Nat → Transfer} {total : Nat} {ts : List Nat}
    (hready : ∀ x ∈ ts, Installable ctx u (xf x))
    (hgood : SequenceGood total ctx.tgt.careMap xf ts)
    (hcare : ∀ i, i ∈ E → i ∉ ctx.tgt.careMap)
    {w w' : Writer} {d : Device Block}
    (hrun : ts.foldlM (fun w x => writeTransfer ctx.srcSha1 ctx.opts w (xf x)) w = .ok w')
    (htouched : ∀ i, i ∈ w'.touched → i ∉ E) (h : Synced ctx E xf [] ts w d) :
    ∃ cmds d', w'.out = w.out ++ cmds ∧ u.run d cmds = some d' ∧
      Synced ctx E xf ts [] w' d' := by
  suffices H : ∀ (rest done : List Nat) (w : Writer) (d : Device Block), ts = done ++ rest →
      rest.foldlM (fun w x => writeTransfer ctx.srcSha1 ctx.opts w (xf x)) w = .ok w' →
      Synced ctx E xf done rest w d →
      ∃ cmds d', w'.out = w.out ++ cmds ∧ u.run d cmds = some d' ∧
        Synced ctx E xf ts [] w' d' from
    H ts [] w d rfl hrun h
  intro rest
  induction rest with
  | nil =>
      intro done w d hts hrest hsync
      cases hrest
      rw [List.append_nil] at hts
      subst hts
      exact ⟨[], d, by simp, rfl, hsync⟩
  | cons x rest ih =>
      intro done w d hts hrest hsync
      obtain ⟨w₁, hstep, htail⟩ := foldlM_cons_ok hrest
      have hreads := hgood.reads
      have hwrites := hgood.writes
      rw [hts, List.pairwise_append] at hreads hwrites
      have htail_touched := writeTransfer_all_touched hsha
        (fun y hy => hready y (by simp [hts, hy])) htail
      obtain ⟨cmds₁, d₁, hout₁, hrun₁, hsync₁⟩ := writeTransfer_synced hfree hsha
        (hready x (by simp [hts])) hcare
        (fun y hy => hreads.2.2 y hy x List.mem_cons_self)
        (fun y hy => hwrites.2.2 y hy x List.mem_cons_self)
        hstep (fun i hi => htouched i (htail_touched i hi)) hsync
      obtain ⟨cmds₂, d₂, hout₂, hrun₂, hsync₂⟩ :=
        ih (done ++ [x]) w₁ d₁ (by simp [hts]) htail hsync₁
      refine ⟨cmds₁ ++ cmds₂, d₂, ?_, ?_, hsync₂⟩
      · rw [hout₂, hout₁, List.append_assoc]
      · rw [run_append hrun₁]
        exact hrun₂

end Transfers

section Run

variable {ctx : Context Block} {u : Updater Block}

theorem mem_newDontcare
    {i : Int} :
    i ∈ ctx.newDontcare ↔ (0 ≤ i ∧ i < ctx.tgt.totalBlocks) ∧ i ∉ ctx.tgt.extended ∧
      i ∉ ctx.tgt.careMap := by
  unfold Context.newDontcare
  simp only [BlockSet.mem_subtract, BlockSet.mem_blockRange, Nat.cast_zero, and_assoc]

theorem run_erase
    (u : Updater Block) (s : BlockSet) (d : Device Block) :
    ∃ d', u.run d (if s.nonempty then [.erase s] else []) = some d' ∧
      (∀ i, i ∉ s → d'.blocks i = d.blocks i) ∧ d'.newDat = d.newDat := by
  split_ifs
  · have hperform : u.perform d (.erase s) = some { d with
        blocks := fun i => if i ∈ s then u.erased d.executed i else d.blocks i } := by
      exact write_map d s (u.erased d.executed)
    refine ⟨_, run_singleton hperform, ?_, rfl⟩
    intro i hi
    exact if_neg hi
  · exact ⟨d, rfl, fun _ _ => rfl, rfl⟩

theorem writeExtended_zeroes
    {w w' : Writer} (hrun : ctx.writeExtended w = .ok w') :
    w'.touched = w.touched ∧ ∀ d : Device Block, ∃ cmds d', w'.out = w.out ++ cmds ∧
      u.run d cmds = some d' ∧
        ∀ i, d'.blocks i = if i ∈ ctx.tgt.extended then u.zeroBlock else d.blocks i := by
  unfold Context.writeExtended at hrun
  split_ifs at hrun with hne
  · obtain ⟨pieces, hpieces, rfl⟩ := writeSplitTransfers_pieces hrun
    refine ⟨rfl, fun d => ?_⟩
    obtain ⟨d', hd', hwrote, _⟩ := run_zero u pieces d
    refine ⟨_, d', rfl, hd', fun i => ?_⟩
    rw [hwrote.blocks, hpieces]
    rfl
  · cases hrun
    refine ⟨rfl, fun d => ⟨[], d, by simp, rfl, fun i => ?_⟩⟩
    rw [if_neg (BlockSet.nonempty_eq_false_iff.mp (by simpa using hne) i)]

theorem writeTransfers_installs
    (hfree : CollisionFree ctx) (hsha : u.sha1 = ctx.tools.sha1) {st : State} {total : Nat}
    (hready : ∀ x ∈ st.transfers, Installable ctx u (st.xf x))
    (hgood : SequenceGood total ctx.tgt.careMap st.xf st.transfers)
    {list : TransferList} (hrun : ctx.writeTransfers st = .ok list) {d : Device Block}
    (hsrc : ∀ i, i ∈ ctx.src.careMap → d.blocks i = ctx.src.content i)
    (hnew : d.newDat = st.transfers.flatMap (fun x => newData ctx (st.xf x))) :
    ∃ d', u.run d list.commands = some d' ∧
      (∀ i, i ∈ ctx.tgt.careMap → d'.blocks i = ctx.tgt.content i) ∧
      ∀ i, i ∈ ctx.tgt.extended → d'.blocks i = u.zeroBlock := by
  unfold Context.writeTransfers at hrun
  obtain ⟨w, hw, hrun⟩ := bind_eq_ok.mp hrun
  obtain ⟨w', hw', hrun⟩ := bind_eq_ok.mp hrun
  cases hrun
  obtain ⟨htouched, hzero⟩ := writeExtended_zeroes (u := u) hw'
  set E := ctx.newDontcare.subtract w'.touched with hE
  have hEmem : ∀ i, i ∈ E → i ∈ ctx.newDontcare ∧ i ∉ w'.touched := fun i hi =>
    BlockSet.mem_subtract.mp hi
  obtain ⟨d₀, hrun₀, hkeep₀, hdat₀⟩ := run_erase u E d
  have hsync₀ : Synced ctx E st.xf [] st.transfers Writer.init d₀ := by
    refine ⟨by simp, ?_, ?_, by rw [hdat₀, hnew]⟩
    · intro i hi hiE _
      rw [hkeep₀ i hiE, hsrc i hi]
    · intro s _ hs
      exact absurd hs (lt_irrefl 0)
  obtain ⟨cmds₁, d₁, hout₁, hrun₁, hsync₁⟩ := writeTransfer_all_synced hfree hsha hready hgood
    (fun i hi => (mem_newDontcare.mp (hEmem i hi).1).2.2) hw
    (fun i hi hiE => (hEmem i hiE).2 (by rw [htouched]; exact hi)) hsync₀
  obtain ⟨cmds₂, d₂, hout₂, hrun₂, hblocks₂⟩ := hzero d₁
  obtain ⟨d₃, hrun₃, hkeep₃, _⟩ := run_erase u (ctx.newDontcare.subtract E) d₂
  have hkept : ∀ i, i ∈ ctx.tgt.careMap ∨ i ∈ ctx.tgt.extended →
      i ∉ ctx.newDontcare.subtract E := by
    intro i hi hmem
    obtain ⟨_, hext, hcare⟩ := mem_newDontcare.mp (BlockSet.mem_subtract.mp hmem).1
    rcases hi with hi | hi
    · exact hcare hi
    · exact hext hi
  refine ⟨d₃, ?_, ?_, ?_⟩
  · have hout : w'.out = cmds₁ ++ cmds₂ := by
      rw [hout₂, hout₁]
      rfl
    rw [hout, List.append_assoc, run_append hrun₀, List.append_assoc, run_append hrun₁,
      run_append hrun₂]
    exact hrun₃
  · intro i hi
    obtain ⟨x, hx, hix⟩ := hgood.covered i hi
    rw [hkeep₃ i (hkept i (Or.inl hi)), hblocks₂,
      if_neg (fun hext => ctx.tgt.extended_disjoint i hext hi)]
    exact hsync₁.written x hx i hix
  · intro i hi
    rw [hkeep₃ i (hkept i (Or.inr hi)), hblocks₂, if_pos hi]

end Run

end BlockImageDiff
end AndroidBuild
