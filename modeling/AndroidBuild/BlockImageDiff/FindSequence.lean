import AndroidBuild.BlockImageDiff.ImproveSequence

/-!
# `FindSequenceForTransfers`

The four passes together.  `findSequenceForTransfers_spec` says that they end
without an exception for any transfers, however their source and target ranges
overlap, in a sequence in which

* every stash is defined once, used once, and defined before it is used;
* a transfer reads no block that an earlier one has written, except from a
  stash.
-/

namespace AndroidBuild
namespace BlockImageDiff

open Loop RangeLib

/-- Clear the existing dependency between transfers.  There are no transfer
objects besides those of `self.transfers`. -/
def clearDependencies (st : State) : State :=
  { st with xf := fun x => (st.xf x).base }

def findSequenceForTransfers (st : State) : Except PyError State := do
  let st := generateDigraph (clearDependencies st)
  let st ← findVertexSequence st
  let st ← reverseBackwardEdges st
  improveVertexSequence st

def definedIds (xf : Nat → Transfer) (ts : List Nat) : List Nat :=
  ts.flatMap (fun x => (xf x).stashBefore.map Prod.fst)

def usedIds (xf : Nat → Transfer) (ts : List Nat) : List Nat :=
  ts.flatMap (fun x => (xf x).useStash.map Prod.fst)

/-- Stash definitions and uses correspond one to one, and a stash is defined
strictly before it is used. -/
structure StashPairing (xf : Nat → Transfer) (ts : List Nat) : Prop where
  definedOnce : (definedIds xf ts).Nodup
  usedOnce : (usedIds xf ts).Nodup
  used : ∀ u ∈ ts, ∀ s ∈ (xf u).stashBefore,
    ∃ x ∈ ts, s ∈ (xf x).useStash ∧ Precedes ts u x
  defined : ∀ x ∈ ts, ∀ s ∈ (xf x).useStash,
    ∃ u ∈ ts, s ∈ (xf u).stashBefore ∧ Precedes ts u x

/-- A source block that a transfer does not take from a stash is written by no
earlier transfer. -/
def ReadsUnwritten (xf : Nat → Transfer) (ts : List Nat) : Prop :=
  ∀ x ∈ ts, ∀ y ∈ ts, Precedes ts y x → ∀ i, i ∈ (xf x).srcRanges →
    (∀ s ∈ (xf x).useStash, i ∉ s.2) → i ∉ (xf y).tgtRanges

/-- Every stash is part of the source of the transfer that uses it and of the
target of the one that defines it, and of one definer a transfer uses at most one
stash. -/
structure StashShape (xf : Nat → Transfer) (ts : List Nat) : Prop where
  within : ∀ x ∈ ts, ∀ s ∈ (xf x).useStash, ∀ i, i ∈ s.2 → i ∈ (xf x).srcRanges
  overwritten : ∀ u ∈ ts, ∀ s ∈ (xf u).stashBefore, ∀ i, i ∈ s.2 → i ∈ (xf u).tgtRanges
  single : ∀ u ∈ ts, ∀ x ∈ ts, ∀ s s',
    s ∈ (xf u).stashBefore → s' ∈ (xf u).stashBefore →
    s ∈ (xf x).useStash → s' ∈ (xf x).useStash → s = s'

/-- A transfer without what the sequencing computes. -/
def Transfer.plan (t : Transfer) : Transfer :=
  { t.base with order := 0 }

section Frame

theorem plan_of_base
    {s t : Transfer} (h : s.base = t.base) :
    s.plan = t.plan := by
  unfold Transfer.plan
  rw [h]

theorem srcRanges_of_plan
    {s t : Transfer} (h : s.plan = t.plan) :
    s.srcRanges = t.srcRanges := by
  have : s.plan.srcRanges = t.plan.srcRanges := by rw [h]
  exact this

theorem tgtRanges_of_plan
    {s t : Transfer} (h : s.plan = t.plan) :
    s.tgtRanges = t.tgtRanges := by
  have : s.plan.tgtRanges = t.plan.tgtRanges := by rw [h]
  exact this

theorem setOrder_plan
    (st : State) (l : List Nat) (x : Nat) :
    ((st.setOrder l).xf x).plan = (st.xf x).plan := by
  unfold State.setOrder
  simp only
  split_ifs
  · rfl
  · rfl

theorem setOrder_core
    (st : State) (l : List Nat) (x : Nat) :
    ((st.setOrder l).xf x).goesBefore = (st.xf x).goesBefore ∧
      ((st.setOrder l).xf x).goesAfter = (st.xf x).goesAfter ∧
      ((st.setOrder l).xf x).stashBefore = (st.xf x).stashBefore ∧
      ((st.setOrder l).xf x).useStash = (st.xf x).useStash ∧
      ((st.setOrder l).xf x).srcRanges = (st.xf x).srcRanges ∧
      ((st.setOrder l).xf x).tgtRanges = (st.xf x).tgtRanges := by
  unfold State.setOrder
  simp only
  split_ifs
  · exact ⟨rfl, rfl, rfl, rfl, rfl, rfl⟩
  · exact ⟨rfl, rfl, rfl, rfl, rfl, rfl⟩

theorem setOrder_order
    (st : State) {l : List Nat} {x : Nat} (hx : x ∈ l) :
    ((st.setOrder l).xf x).order = l.idxOf x := by
  unfold State.setOrder
  simp [hx]

end Frame

section Passes

/-- The result of `GenerateDigraph` is a digraph in the sense of `FindVertexSequence`. -/
theorem isDigraph_of_edges
    {st st₀ : State} (h : EdgesAre st.xf (MustPrecede st₀))
    (hts : st.transfers = st₀.transfers) :
    IsDigraph st := by
  have hweighted : ∀ e : Edges, (∀ k v, e.get? k = some v → v ≠ none) → weighted e = true := by
    intro e he
    unfold weighted OrderedDict.values
    rw [List.all_eq_true]
    intro v hv
    obtain ⟨⟨k, w⟩, hmem, rfl⟩ := List.mem_map.mp hv
    have hget : e.get? k = some w := e.get?_of_mem hmem
    exact Option.isSome_iff_ne_none.mpr (he k w hget)
  refine ⟨?_, ?_, ?_⟩
  · intro d x y hx hy
    rw [hts] at hx ⊢
    cases d with
    | outgoing =>
        have := (h.before x y).mp hy
        exact ⟨this.2.1, (h.after x y).mpr this⟩
    | incoming =>
        have := (h.after y x).mp hy
        exact ⟨this.1, (h.before y x).mpr this⟩
  · intro d x _ hx
    cases d with
    | outgoing => exact ((h.before x x).mp hx).2.2.1 rfl
    | incoming => exact ((h.after x x).mp hx).2.2.1 rfl
  · intro d x _
    cases d with
    | outgoing => exact hweighted _ (fun k v => h.beforeWeight x k v)
    | incoming => exact hweighted _ (fun k v => h.afterWeight k x v)

theorem ordered_setOrder
    {st st₀ : State} (hcore : ∀ j, (st.xf j).core = (st₀.xf j).core)
    {l : List Nat} (hl : l.Perm st₀.transfers) :
    Ordered (MustPrecede st₀) (st.setOrder l) := by
  refine ⟨?_, ?_, ?_, ?_⟩
  · rintro x y ⟨hx, hy, _⟩
    exact ⟨hl.mem_iff.mpr hx, hl.mem_iff.mpr hy⟩
  · rintro x ⟨_, _, hne, _⟩
    exact hne rfl
  · rintro x y ⟨_, _, _, i, hi, hi'⟩
    refine ⟨i, ?_, ?_⟩
    · rw [(setOrder_core st l x).2.2.2.2.1, srcRanges_of_core (hcore x)]
      exact hi
    · rw [(setOrder_core st l y).2.2.2.2.2, tgtRanges_of_core (hcore y)]
      exact hi'
  · intro x y hx hy h
    have hx : x ∈ l := hx
    have hy : y ∈ l := hy
    rw [setOrder_order st hx, setOrder_order st hy] at h
    exact (List.idxOf_inj hx).mp h

/-- The four passes, with the reversed edges `P` as a witness for the stashes. -/
theorem findSequenceForTransfers_passes
    {st : State} (hts : st.transfers.Nodup) :
    ∃ st₁ st₂ P l, findSequenceForTransfers st = .ok (st₂.setOrder l) ∧
      l.Perm st.transfers ∧ l.Perm st₁.transfers ∧
      (∀ x, (st₁.xf x).plan = (st.xf x).plan) ∧
      Ordered (MustPrecede st) st₁ ∧ Reversed (MustPrecede st) st₁ st₂ P ∧
      (∀ x y, Turned (MustPrecede st) P x y → Precedes l x y) := by
  set st₀ := clearDependencies st with hst₀
  have hmust : MustPrecede st₀ = MustPrecede st := rfl
  obtain ⟨hedges, htrans, hcore⟩ := generateDigraph_spec st₀
    (fun j => ⟨rfl, rfl⟩)
  set dg := generateDigraph st₀ with hdg
  have hnodup : dg.transfers.Nodup := by
    rw [htrans]
    exact hts
  obtain ⟨l₁, hrun₁, hperm₁⟩ := findVertexSequence_spec
    (isDigraph_of_edges hedges htrans) hnodup
  rw [htrans] at hperm₁
  set st₁ := dg.setOrder l₁ with hst₁
  have hord : Ordered (MustPrecede st) st₁ := ordered_setOrder hcore hperm₁
  have hstash : ∀ x, (st₁.xf x).stashBefore = [] ∧ (st₁.xf x).useStash = [] := by
    intro x
    have h := setOrder_core dg l₁ x
    rw [h.2.2.1, h.2.2.2.1]
    constructor
    · exact congrArg Transfer.stashBefore (hcore x)
    · exact congrArg Transfer.useStash (hcore x)
  obtain ⟨st₂, P, hrun₂, hrev, hall⟩ := reverseBackwardEdges_spec hord
    (fun x y => by rw [(setOrder_core dg l₁ x).1]; exact hedges.before x y)
    (fun x y => by rw [(setOrder_core dg l₁ y).2.1]; exact hedges.after x y) hstash
  have hacyclic : Acyclic (Turned (MustPrecede st) P) st₂ := by
    refine ⟨?_, hrev.before, hrev.after, ?_⟩
    · intro x y hxy
      rw [hrev.transfers]
      exact (hxy.forward hord hrev hall).1
    · intro x y hxy
      rw [order_of_base (hrev.base x), order_of_base (hrev.base y)]
      exact (hxy.forward hord hrev hall).2
  obtain ⟨l, hrun₃, hperm, hrespects⟩ := improveVertexSequence_spec hacyclic (by
    rw [hrev.transfers]
    exact hperm₁.nodup_iff.mpr hts)
  rw [hrev.transfers] at hperm
  refine ⟨st₁, st₂, P, l, ?_, hperm.trans hperm₁, hperm, ?_, hord, hrev, hrespects⟩
  · unfold findSequenceForTransfers
    simp only [← hst₀, ← hdg, bind, Except.bind, hrun₁, hrun₂]
    exact hrun₃
  · intro x
    rw [hst₁, setOrder_plan]
    have : (dg.xf x).base = (st₀.xf x).base := by
      rw [← base_core, hcore, base_core]
    exact plan_of_base this

end Passes

section Stashes

variable {E : Nat → Nat → Prop} {st₁ st₂ : State} {P : List (Nat × Nat)} {l : List Nat}

theorem nodup_flatMap_ids
    {f : Nat → List Nat} (hl : l.Nodup) (hf : ∀ x ∈ l, (f x).Nodup)
    (hdisj : ∀ x y i, i ∈ f x → i ∈ f y → x = y) :
    (l.flatMap f).Nodup := by
  rw [List.nodup_flatMap]
  refine ⟨hf, hl.imp ?_⟩
  intro x y hxy i hx hy
  exact hxy (hdisj x y i hx hy)

theorem stashPairing_of_reversed
    (hord : Ordered E st₁) (hrev : Reversed E st₁ st₂ P)
    (hl : l.Perm st₁.transfers) (hnodup : l.Nodup)
    (hrespects : ∀ x y, Turned E P x y → Precedes l x y) :
    StashPairing (st₂.setOrder l).xf l := by
  have hdef : ∀ u, ((st₂.setOrder l).xf u).stashBefore = definedBy st₁.xf P u := by
    intro u
    rw [(setOrder_core st₂ l u).2.2.1, hrev.defined]
  have huse : ∀ x, ((st₂.setOrder l).xf x).useStash = usedBy st₁.xf P x := by
    intro x
    rw [(setOrder_core st₂ l x).2.2.2.1, hrev.used]
  have hedge : ∀ i x u : Nat, P[i]? = some (x, u) → x ∈ l ∧ u ∈ l ∧ Precedes l u x := by
    intro i x u hi
    have hP := List.mem_of_getElem? hi
    obtain ⟨hx, hu⟩ := hord.mem x u (hrev.back x u hP).1
    exact ⟨hl.mem_iff.mpr hx, hl.mem_iff.mpr hu, hrespects u x (Or.inr hP)⟩
  refine ⟨?_, ?_, ?_, ?_⟩
  · refine nodup_flatMap_ids hnodup ?_ ?_
    · intro u _
      rw [hdef]
      exact nodup_ids st₁.xf P _
    · intro u v i hu hv
      rw [hdef, List.mem_map] at hu hv
      obtain ⟨⟨i, r⟩, hu, rfl⟩ := hu
      obtain ⟨⟨j, r'⟩, hv, rfl⟩ := hv
      obtain ⟨x, hx, _⟩ := mem_definedBy.mp hu
      obtain ⟨y, hy, _⟩ := mem_definedBy.mp hv
      rw [hx] at hy
      cases hy
      rfl
  · refine nodup_flatMap_ids hnodup ?_ ?_
    · intro x _
      rw [huse]
      exact nodup_ids st₁.xf P _
    · intro x y i hx hy
      rw [huse, List.mem_map] at hx hy
      obtain ⟨⟨i, r⟩, hx, rfl⟩ := hx
      obtain ⟨⟨j, r'⟩, hy, rfl⟩ := hy
      obtain ⟨u, hu, _⟩ := mem_usedBy.mp hx
      obtain ⟨v, hv, _⟩ := mem_usedBy.mp hy
      rw [hu] at hv
      cases hv
      rfl
  · rintro u _ ⟨i, r⟩ hs
    rw [hdef] at hs
    obtain ⟨x, hx, hr⟩ := mem_definedBy.mp hs
    obtain ⟨hxl, _, hprec⟩ := hedge i x u hx
    refine ⟨x, hxl, ?_, hprec⟩
    rw [huse]
    exact mem_usedBy.mpr ⟨u, hx, hr⟩
  · rintro x _ ⟨i, r⟩ hs
    rw [huse] at hs
    obtain ⟨u, hu, hr⟩ := mem_usedBy.mp hs
    obtain ⟨_, hul, hprec⟩ := hedge i x u hu
    refine ⟨u, hul, ?_, hprec⟩
    rw [hdef]
    exact mem_definedBy.mpr ⟨x, hu, hr⟩

theorem stashShape_of_reversed
    (hrev : Reversed E st₁ st₂ P) (l : List Nat) :
    StashShape (st₂.setOrder l).xf l := by
  constructor
  · rintro x _ ⟨i, r⟩ hs j hj
    rw [(setOrder_core st₂ l x).2.2.2.1, hrev.used] at hs
    obtain ⟨u, _, rfl⟩ := mem_usedBy.mp hs
    rw [(setOrder_core st₂ l x).2.2.2.2.1, srcRanges_of_base (hrev.base x)]
    exact (BlockSet.mem_intersect.mp hj).1
  · rintro u _ ⟨i, r⟩ hs j hj
    rw [(setOrder_core st₂ l u).2.2.1, hrev.defined] at hs
    obtain ⟨x, _, rfl⟩ := mem_definedBy.mp hs
    rw [(setOrder_core st₂ l u).2.2.2.2.2, tgtRanges_of_base (hrev.base u)]
    exact (BlockSet.mem_intersect.mp hj).2
  · rintro u _ x _ ⟨i, r⟩ ⟨j, r'⟩ hs hs' hsx hsx'
    rw [(setOrder_core st₂ l u).2.2.1, hrev.defined] at hs hs'
    rw [(setOrder_core st₂ l x).2.2.2.1, hrev.used] at hsx hsx'
    obtain ⟨y, hy, rfl⟩ := mem_definedBy.mp hs
    obtain ⟨y', hy', rfl⟩ := mem_definedBy.mp hs'
    obtain ⟨v, hv, _⟩ := mem_usedBy.mp hsx
    obtain ⟨v', hv', _⟩ := mem_usedBy.mp hsx'
    rw [hy] at hv
    rw [hy'] at hv'
    cases hv
    cases hv'
    have hij : i = j := by
      obtain ⟨hi, hi'⟩ := List.getElem?_eq_some_iff.mp hy
      obtain ⟨hj, hj'⟩ := List.getElem?_eq_some_iff.mp hy'
      exact (List.Nodup.getElem_inj_iff hrev.nodup).mp (hi'.trans hj'.symm)
    rw [hij]

/-- An earlier writer of a block that `x` reads has stashed it. -/
theorem readsUnwritten_of_reversed
    {st : State} (hplan : ∀ x, (st₁.xf x).plan = (st.xf x).plan)
    (hrev : Reversed (MustPrecede st) st₁ st₂ P) (hl : l.Perm st.transfers)
    (hrespects : ∀ x y, Turned (MustPrecede st) P x y → Precedes l x y) :
    ReadsUnwritten (st₂.setOrder l).xf l := by
  have hsrc : ∀ x, ((st₂.setOrder l).xf x).srcRanges = (st₁.xf x).srcRanges := by
    intro x
    rw [(setOrder_core st₂ l x).2.2.2.2.1, srcRanges_of_base (hrev.base x)]
  have htgt : ∀ x, ((st₂.setOrder l).xf x).tgtRanges = (st₁.xf x).tgtRanges := by
    intro x
    rw [(setOrder_core st₂ l x).2.2.2.2.2, tgtRanges_of_base (hrev.base x)]
  intro x hx y hy hyx i hi hstash hw
  rw [hsrc] at hi
  rw [htgt] at hw
  have hne : y ≠ x := by
    rintro rfl
    exact absurd hyx (Nat.lt_irrefl _)
  have hmust : MustPrecede st x y :=
    ⟨hl.mem_iff.mp hx, hl.mem_iff.mp hy, hne, i, srcRanges_of_plan (hplan x) ▸ hi,
      tgtRanges_of_plan (hplan y) ▸ hw⟩
  by_cases hP : (x, y) ∈ P
  · obtain ⟨n, hn⟩ := List.mem_iff_getElem?.mp hP
    refine hstash (n, (st₁.xf x).srcRanges.intersect (st₁.xf y).tgtRanges) ?_ ?_
    · rw [(setOrder_core st₂ l x).2.2.2.1, hrev.used]
      exact mem_usedBy.mpr ⟨y, hn, rfl⟩
    · exact BlockSet.mem_intersect.mpr ⟨hi, hw⟩
  · have hxy : Precedes l x y := hrespects x y (Or.inl ⟨hmust, hP⟩)
    unfold Precedes at hxy hyx
    omega

end Stashes

theorem findSequenceForTransfers_spec
    {st : State} (hts : st.transfers.Nodup) :
    ∃ st', findSequenceForTransfers st = .ok st' ∧
      st'.transfers.Perm st.transfers ∧
      StashPairing st'.xf st'.transfers ∧
      ReadsUnwritten st'.xf st'.transfers ∧
      StashShape st'.xf st'.transfers ∧
      (∀ x, (st'.xf x).plan = (st.xf x).plan) ∧
      (∀ x ∈ st'.transfers, (st'.xf x).order = st'.transfers.idxOf x) := by
  obtain ⟨st₁, st₂, P, l, hrun, hl, hl₁, hplan, hord, hrev, hrespects⟩ :=
    findSequenceForTransfers_passes hts
  have hnodup : l.Nodup := hl.nodup_iff.mpr hts
  refine ⟨_, hrun, hl, stashPairing_of_reversed hord hrev hl₁ hnodup hrespects,
    readsUnwritten_of_reversed hplan hrev hl hrespects, stashShape_of_reversed hrev l, ?_, ?_⟩
  · intro x
    rw [setOrder_plan, plan_of_base (hrev.base x), hplan]
  · intro x hx
    exact setOrder_order st₂ hx

/-- For any transfers, whatever their ranges, the four passes raise nothing,
permute the transfers, pair the stashes in order and keep reads before writes. -/
theorem findSequenceForTransfers_sequences
    (st : State) (hts : st.transfers.Nodup) :
    ∃ st', findSequenceForTransfers st = .ok st' ∧
      st'.transfers.Perm st.transfers ∧
      StashPairing st'.xf st'.transfers ∧
      ReadsUnwritten st'.xf st'.transfers ∧
      ∀ x, (st'.xf x).srcRanges = (st.xf x).srcRanges ∧
        (st'.xf x).tgtRanges = (st.xf x).tgtRanges := by
  obtain ⟨st', hrun, hperm, hpair, hreads, _, hplan, _⟩ := findSequenceForTransfers_spec hts
  exact ⟨st', hrun, hperm, hpair, hreads,
    fun x => ⟨srcRanges_of_plan (hplan x), tgtRanges_of_plan (hplan x)⟩⟩

/-- Two transfers that read each other's target. -/
def swapState : State where
  xf := fun x =>
    { tgtName := "f", srcName := some "f", tgtSha1 := "", srcSha1 := "", style := .diff
      tgtRanges := if x = 0 then BlockSet.blockRange 0 2 else BlockSet.blockRange 2 4
      srcRanges := if x = 0 then BlockSet.blockRange 2 4 else BlockSet.blockRange 0 2 }
  transfers := [0, 1]

theorem findSequenceForTransfers_sequences_swap :
    ∃ st', findSequenceForTransfers swapState = .ok st' ∧
      st'.transfers.Perm [0, 1] ∧
      StashPairing st'.xf st'.transfers ∧
      ReadsUnwritten st'.xf st'.transfers ∧
      ∀ x, (st'.xf x).srcRanges = (swapState.xf x).srcRanges ∧
        (st'.xf x).tgtRanges = (swapState.xf x).tgtRanges :=
  findSequenceForTransfers_sequences swapState (by decide)

end BlockImageDiff
end AndroidBuild
