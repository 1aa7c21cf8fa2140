import AndroidBuild.BlockImageDiff.HeapItems

/-!
# `FindVertexSequence` from point to point

The states that the procedure passes through: at the heads of its loops over the
graph, over the sinks and the sources, over the items of the heap, and over the
edges of a vertex that is taken out.  At all of them every vertex of the graph
has one live item in the heap, which shows its balance, and the edges are the
same from both sides.
-/

namespace AndroidBuild
namespace BlockImageDiff
namespace Work

open Loop

section Points

variable (st : State)

/-- The heads of `while G`: the state, the sinks and the sources. -/
inductive AtRound : Work × List Nat × List Nat → Prop where
  | start {q : Work} : startWork st = .ok q →
      AtRound (q, q.g.filter (fun u => (q.edges .outgoing u).keys.isEmpty),
        q.g.filter (fun u => (q.edges .incoming u).keys.isEmpty))
  | next {s s' : Work × List Nat × List Nat} : AtRound s → s.1.g ≠ [] → round s = .ok s' →
      AtRound s'

/-- The heads of `while sinks` and of `while sources`. -/
inductive AtSweep : Dir → Work × List Nat → Prop where
  | sinks {s : Work × List Nat × List Nat} : AtRound st s → s.1.g ≠ [] →
      AtSweep .outgoing (s.1, s.2.1)
  | sources {s : Work × List Nat × List Nat} {r : Work × List Nat} : AtRound st s → s.1.g ≠ [] →
      removeEnds .outgoing (2 * s.1.g.length + 1) s.1 s.2.1 = .ok r →
      AtSweep .incoming (r.1, s.2.2)
  | next {d : Dir} {s s' : Work × List Nat} : AtSweep d s → s.2 ≠ [] →
      s.2.foldlM (removeEnd d) (s.1, []) = .ok s' → AtSweep d s'

/-- The heads of `for u in sinks` and of `for u in sources`, with what is still to come. -/
def AtEnd (d : Dir) (todo : List Nat) (s : Work × List Nat) : Prop :=
  ∃ q done, AtSweep st d (q, done ++ todo) ∧ done.foldlM (removeEnd d) (q, []) = .ok s

/-- The heads of `while True`: there are no sinks and no sources left. -/
def AtPop (q : Work) : Prop :=
  ∃ (s : Work × List Nat × List Nat) (r r' : Work × List Nat), AtRound st s ∧ s.1.g ≠ [] ∧
    removeEnds .outgoing (2 * s.1.g.length + 1) s.1 s.2.1 = .ok r ∧
    removeEnds .incoming (2 * r.1.g.length + 1) r.1 s.2.2 = .ok r' ∧
    r'.1.g ≠ [] ∧ Pops r'.1 q

/-- The heads of the loops that detach the edges of direction `d` to the vertex `u`, which was
just taken out, with the neighbours that are still to come. -/
inductive AtEdge : Nat → Dir → List Nat → Work × List Nat → Prop where
  | ofEnd {d : Dir} {u : Nat} {todo done rest : List Nat} {s s' : Work × List Nat} :
      AtEnd st d (u :: todo) s → u ∈ s.1.g → (s.1.edges d.flip u).keys = done ++ rest →
      done.foldlM (detach d u) (place d s.1 u, s.2) = .ok s' → AtEdge u d rest s'
  | ofBest {q : Work} {u : Nat} {heap : Array HeapItem} {done rest : List Nat}
      {s' : Work × List Nat} :
      AtPop st q → Chooses q u heap → (q.edges .outgoing u).keys = done ++ rest →
      done.foldlM (detach .incoming u) (place .incoming { q with heap := heap } u, []) = .ok s' →
      AtEdge u .incoming rest s'
  | ofBestAgain {q : Work} {u : Nat} {heap : Array HeapItem} {done rest : List Nat}
      {s s' : Work × List Nat} :
      AtPop st q → Chooses q u heap →
      (q.edges .outgoing u).keys.foldlM (detach .incoming u)
        (place .incoming { q with heap := heap } u, []) = .ok s →
      (s.1.edges .incoming u).keys = done ++ rest →
      done.foldlM (detach .outgoing u) (s.1, []) = .ok s' → AtEdge u .outgoing rest s'

/-- The heads of the loops at which no vertex is just being taken out. -/
inductive AtHead : Work → Prop where
  | round {s : Work × List Nat × List Nat} : AtRound st s → AtHead s.1
  | sweep {d : Dir} {s : Work × List Nat} : AtSweep st d s → AtHead s.1
  | ends {d : Dir} {todo : List Nat} {s : Work × List Nat} : AtEnd st d todo s → AtHead s.1
  | pop {q : Work} : AtPop st q → AtHead q

end Points

section Start

/-- The weights of the edges are the same from both sides. -/
def MirroredWeights (st : State) : Prop :=
  ∀ d, ∀ x ∈ st.transfers, ∀ y ∈ st.transfers,
    ((st.xf x).edges d).get? y = ((st.xf y).edges d.flip).get? x

theorem get?_weights
    (e : Edges) (k : Nat) :
    (weights e).get? k = (e.get? k).map (Option.getD · 0) :=
  OrderedDict.get?_mapValues e (Option.getD · 0) k

/-- The items before `heapify`. -/
theorem mem_startHeap
    {ts : List Nat} {score : Nat → Int} {t : HeapItem} :
    t ∈ (Heapq.heapify HeapItem.lt
        (ts.map fun x => (⟨ts.idxOf x, -score x⟩ : HeapItem)).toArray).toList ↔
      ∃ x ∈ ts, ⟨ts.idxOf x, -score x⟩ = t := by
  rw [(Heapq.heapify_perm _).mem_iff]
  exact List.mem_map

theorem scored_startWork
    {st : State} {q : Work} (h : IsDigraph st) (hts : st.transfers.Nodup)
    (hmirror : MirroredWeights st) (hq : startWork st = .ok q) :
    Scored st.transfers q := by
  unfold startWork at hq
  split_ifs at hq with hweighted
  cases hq
  refine ⟨⟨List.Subset.refl _, Heapq.heapify_isHeap _, ?_, ?_, ?_, ?_, ?_, ?_⟩,
    ⟨List.Subset.refl _, hts, ?_, fun _ _ => rfl, ?_⟩⟩
  · rw [((Heapq.heapify_perm _).map HeapItem.ref).nodup_iff, List.map_map]
    exact hts.map_on fun x hx y hy heq => (List.idxOf_inj hx).mp heq
  · intro t ht
    obtain ⟨x, hx, rfl⟩ := mem_startHeap.mp ht
    exact List.idxOf_lt_length_of_mem hx
  · exact fun x hx => ⟨List.idxOf_lt_length_of_mem hx, List.getElem?_idxOf hx⟩
  · intro r x hitem
    obtain ⟨hr, rfl⟩ := List.getElem?_eq_some_iff.mp hitem
    exact hts.idxOf_getElem r hr
  · intro t ht x hitem
    obtain ⟨y, hy, rfl⟩ := mem_startHeap.mp ht
    have hsame : some y = some x := (List.getElem?_idxOf hy).symm.trans hitem
    rw [Option.some.inj hsame]
  · exact fun x hx => ⟨_, mem_startHeap.mpr ⟨x, hx, rfl⟩, rfl⟩
  · intro d x hx y hy
    rw [keys_weights] at hy
    exact (h.edge d x y hx hy).1
  · intro d x hx y hy
    simp only [get?_weights]
    rw [hmirror d x hx y hy]

end Start

section Invariants

variable {st : State}

theorem AtRound.scored
    {s : Work × List Nat × List Nat} (hs : AtRound st s) (h : IsDigraph st)
    (hts : st.transfers.Nodup) (hmirror : MirroredWeights st) :
    Scored st.transfers s.1 := by
  induction hs with
  | start hq => exact scored_startWork h hts hmirror hq
  | next _ _ hrun ih => exact ih.round hrun

theorem AtRound.inv
    {s : Work × List Nat × List Nat} (hs : AtRound st s) (h : IsDigraph st)
    (hts : st.transfers.Nodup) :
    Inv st.transfers s.1 ∧ Ends .outgoing s.2.1 s.1 ∧ Ends .incoming s.2.2 s.1 := by
  induction hs with
  | start hq =>
      obtain ⟨q, hq', hinv, _⟩ := startWork_spec h
      rw [hq', Except.ok.injEq] at hq
      subst hq
      exact ⟨hinv, fun x hx _ => List.isEmpty_iff.mp (List.mem_filter.mp hx).2,
        fun x hx _ => List.isEmpty_iff.mp (List.mem_filter.mp hx).2⟩
  | next _ hne hrun ih =>
      obtain ⟨hinv, hsinks, hsources⟩ := ih
      obtain ⟨q', sinks', sources', hrun', hinv', hsinks', hsources', _⟩ :=
        round_spec hinv hts hne _ _ hsinks hsources
      cases hrun'.symm.trans hrun
      exact ⟨hinv', hsinks', hsources'⟩

/-- What holds between two removals. -/
structure Settled (ts : List Nat) (q : Work) : Prop where
  scored : Scored ts q
  inv : Inv ts q

theorem AtRound.settled
    {s : Work × List Nat × List Nat} (hs : AtRound st s) (h : IsDigraph st)
    (hts : st.transfers.Nodup) (hmirror : MirroredWeights st) :
    Settled st.transfers s.1 :=
  ⟨hs.scored h hts hmirror, (hs.inv h hts).1⟩

theorem Settled.removeEnds
    {ts : List Nat} {q : Work} (h : Settled ts q) (hts : ts.Nodup) {d : Dir} {ends : List Nat}
    (hends : Ends d ends q) {r : Work × List Nat}
    (hrun : removeEnds d (2 * q.g.length + 1) q ends = .ok r) :
    Settled ts r.1 ∧ Shrinks q r.1 := by
  obtain ⟨q', hrun', hinv, hs⟩ := removeEnds_spec h.inv hts d ends hends
  cases hrun'.symm.trans hrun
  exact ⟨⟨h.scored.removeEnds hrun, hinv⟩, hs⟩

theorem Settled.foldl_removeEnd
    {ts : List Nat} {q : Work} (h : Settled ts q) (hts : ts.Nodup) {d : Dir} {l : List Nat}
    (hl : Ends d l q) {s : Work × List Nat}
    (hrun : l.foldlM (Work.removeEnd d) (q, []) = .ok s) :
    Settled ts s.1 ∧ Shrinks q s.1 ∧ Ends d s.2 s.1 := by
  obtain ⟨q', found, hrun', hinv, hs, hends, _⟩ :=
    removeEnd_all hts d l h.inv [] hl fun x hx => absurd hx List.not_mem_nil
  cases hrun'.symm.trans hrun
  exact ⟨⟨Scored.foldl_removeEnd (s := (q, [])) h.scored hrun, hinv⟩, hs, hends⟩

theorem AtSweep.settled
    {d : Dir} {s : Work × List Nat} (hs : AtSweep st d s) (h : IsDigraph st)
    (hts : st.transfers.Nodup) (hmirror : MirroredWeights st) :
    Settled st.transfers s.1 ∧ Ends d s.2 s.1 := by
  induction hs with
  | sinks hround _ => exact ⟨hround.settled h hts hmirror, (hround.inv h hts).2.1⟩
  | sources hround _ hrun =>
      obtain ⟨_, hsinks, hsources⟩ := hround.inv h hts
      obtain ⟨hsettled, hshrinks⟩ := (hround.settled h hts hmirror).removeEnds hts hsinks hrun
      exact ⟨hsettled, hsources.shrinks hshrinks⟩
  | next _ _ hrun ih =>
      obtain ⟨hsettled, _, hends⟩ := ih.1.foldl_removeEnd hts ih.2 hrun
      exact ⟨hsettled, hends⟩

theorem AtEnd.settled
    {d : Dir} {todo : List Nat} {s : Work × List Nat} (hs : AtEnd st d todo s)
    (h : IsDigraph st) (hts : st.transfers.Nodup) (hmirror : MirroredWeights st) :
    Settled st.transfers s.1 ∧ Ends d todo s.1 := by
  obtain ⟨q, done, hsweep, hrun⟩ := hs
  obtain ⟨hsettled, hends⟩ := hsweep.settled h hts hmirror
  have hdone : Ends d done q := fun x hx => hends x (List.mem_append_left _ hx)
  have htodo : Ends d todo q := fun x hx => hends x (List.mem_append_right _ hx)
  obtain ⟨hsettled', hshrinks, _⟩ := hsettled.foldl_removeEnd hts hdone hrun
  exact ⟨hsettled', htodo.shrinks hshrinks⟩

theorem Pops.inv
    {ts : List Nat} {q q' : Work} (hpops : Pops q q') (h : Inv ts q) :
    Inv ts q' ∧ q'.g = q.g := by
  induction hpops with
  | refl q => exact ⟨h, rfl⟩
  | drop hpop hdead _ ih =>
      exact ih ⟨h.perm, h.live.drop hpop fun x hx => ⟨hx, hdead x hx⟩, h.edge, h.irrefl⟩

theorem AtPop.settled
    {q : Work} (hq : AtPop st q) (h : IsDigraph st) (hts : st.transfers.Nodup)
    (hmirror : MirroredWeights st) :
    Settled st.transfers q ∧ q.g ≠ [] := by
  obtain ⟨s, r, r', hround, _, hsinks, hsources, hne, hpops⟩ := hq
  obtain ⟨_, hs, hs'⟩ := hround.inv h hts
  obtain ⟨hr, hshrinks⟩ := (hround.settled h hts hmirror).removeEnds hts hs hsinks
  obtain ⟨hr', _⟩ := hr.removeEnds hts (hs'.shrinks hshrinks) hsources
  obtain ⟨hinv, hg⟩ := hpops.inv hr'.inv
  exact ⟨⟨hpops.scored hr'.scored, hinv⟩, hg ▸ hne⟩

theorem AtHead.settled
    {q : Work} (hq : AtHead st q) (h : IsDigraph st) (hts : st.transfers.Nodup)
    (hmirror : MirroredWeights st) :
    Settled st.transfers q := by
  cases hq with
  | round hs => exact hs.settled h hts hmirror
  | sweep hs => exact (hs.settled h hts hmirror).1
  | ends hs => exact (hs.settled h hts hmirror).1
  | pop hq => exact (hq.settled h hts hmirror).1

end Invariants

section Edges

variable {st : State} {ts : List Nat} {u : Nat} {D : Dir → List Nat} {q : Work}

/-- The first of the neighbours of `u` in one direction are detached. -/
theorem detach_front
    (d : Dir) (done : List Nat) {rest : List Nat} {D : Dir → List Nat} {q : Work}
    (h : Detaching ts u D q) (hD : D d = done ++ rest) (found : List Nat) :
    ∃ q' found', done.foldlM (detach d u) (q, found) = .ok (q', found') ∧
      Detaching ts u (Function.update D d rest) q' ∧ (∀ c, q'.edges c u = q.edges c u) := by
  induction done generalizing D q found with
  | nil =>
      rw [List.nil_append] at hD
      refine ⟨q, found, rfl, ?_, fun _ => rfl⟩
      rw [← hD, Function.update_eq_self]
      exact h
  | cons iu done ih =>
      obtain ⟨q₁, f₁, h₁, hdet₁, _, _, he₁, _⟩ := detach_spec h d hD found
      obtain ⟨q₂, f₂, h₂, hdet₂, he₂⟩ := ih hdet₁ (Function.update_self ..) f₁
      rw [Function.update_idem] at hdet₂
      refine ⟨q₂, f₂, ?_, hdet₂, fun c => (he₂ c).trans (he₁ c)⟩
      rw [List.foldlM_cons, h₁]
      exact h₂

theorem Items.toLive
    (h : Items ts q) :
    q.Live :=
  fun x hx => ⟨(h.own x (h.vertices hx)).1, (h.own x (h.vertices hx)).2, h.live x hx⟩

/-- The best vertex is taken out; it may have lost its own heap item. -/
theorem Settled.choose
    (h : Settled ts q) (hts : ts.Nodup) {heap : Array HeapItem} (hch : Chooses q u heap) :
    Scored ts (place .incoming { q with heap := heap } u) ∧
      Detaching ts u (fun c => (q.edges c.flip u).keys)
        (place .incoming { q with heap := heap } u) := by
  obtain ⟨hu, t, hpop, hitem⟩ := hch
  have hscored := h.scored.choose hpop hitem
  have hold := detaching_place h.inv hts .incoming hu
  exact ⟨hscored, hold.perm, hscored.items.toLive, hold.edge, hold.irrefl, hold.pending,
    hold.nodup, hold.removed⟩

/-- While the edges to a vertex are detached, the neighbours that are still to come are those
that still have an edge to it. -/
theorem AtEdge.detaching
    {d : Dir} {rest : List Nat} {s : Work × List Nat} (hs : AtEdge st u d rest s)
    (h : IsDigraph st) (hts : st.transfers.Nodup) (hmirror : MirroredWeights st) :
    Scored st.transfers s.1 ∧
      ∃ D : Dir → List Nat, Detaching st.transfers u D s.1 ∧ D d = rest := by
  cases hs with
  | @ofEnd _ _ _ done _ s₀ _ hend hu hkeys hrun =>
      have hsettled := (hend.settled h hts hmirror).1
      obtain ⟨q', found, hrun', hdet, _⟩ :=
        detach_front d done (detaching_place hsettled.inv hts d hu) hkeys s₀.2
      cases hrun'.symm.trans hrun
      have hsub : done ⊆ st.transfers := List.Subset.trans (List.subset_append_left done rest)
        (hkeys ▸ hsettled.scored.sums.within _ u (hsettled.scored.sums.vertices hu))
      exact ⟨((hsettled.scored.place d u).foldl_detach (s := (_, _))
        (hsettled.scored.sums.not_mem_place d u) hsub hrun).1, _, hdet, Function.update_self ..⟩
  | @ofBest q _ heap done _ _ hpop hch hkeys hrun =>
      have hsettled := (hpop.settled h hts hmirror).1
      obtain ⟨hscored, hdet⟩ := hsettled.choose hts hch
      obtain ⟨q', found, hrun', hdet', _⟩ := detach_front .incoming done hdet hkeys []
      cases hrun'.symm.trans hrun
      have hsub : done ⊆ st.transfers := List.Subset.trans (List.subset_append_left done rest)
        (hkeys ▸ hsettled.scored.sums.within _ u (hsettled.scored.sums.vertices hch.1))
      exact ⟨(hscored.foldl_detach (s := (_, _)) hdet.removed hsub hrun).1, _, hdet',
        Function.update_self ..⟩
  | @ofBestAgain q _ heap done _ s₀ _ hpop hch hfirst hkeys hrun =>
      have hsettled := (hpop.settled h hts hmirror).1
      obtain ⟨hscored, hdet⟩ := hsettled.choose hts hch
      obtain ⟨q₁, found₁, hfirst', hdet₁, _, _, he₁, _⟩ := detach_all .incoming _ hdet rfl []
      cases hfirst'.symm.trans hfirst
      have hscored₁ := (hscored.foldl_detach (s := (_, _)) hdet.removed
        (hsettled.scored.sums.within _ u (hsettled.scored.sums.vertices hch.1)) hfirst).1
      have hD : Function.update (fun c : Dir => (q.edges c.flip u).keys) .incoming [] .outgoing =
          done ++ rest := by
        rw [Function.update_of_ne (by decide), ← hkeys, he₁]
        rfl
      obtain ⟨q', found, hrun', hdet', _⟩ := detach_front .outgoing done hdet₁ hD []
      cases hrun'.symm.trans hrun
      have hsub : done ⊆ st.transfers := List.Subset.trans (List.subset_append_left done rest)
        (hkeys ▸ hscored₁.sums.within _ u (hsettled.scored.sums.vertices hch.1))
      exact ⟨(hscored₁.foldl_detach (s := (q₁, [])) hdet₁.removed hsub hrun).1, _, hdet',
        Function.update_self ..⟩

end Edges

section Results

/-- The graph and the heap agree: every vertex has one live item that shows its balance, and its
edges go to vertices of the graph and are the same from both sides. -/
structure Consistent (q : Work) : Prop where
  liveItems : ∀ x ∈ q.g, q.liveItems x = [⟨q.heapItem x, -q.balance x⟩]
  within : ∀ d, ∀ x ∈ q.g, (q.edges d x).keys ⊆ q.g
  mirrored : ∀ d, ∀ x ∈ q.g, ∀ y ∈ q.g, (q.edges d x).get? y = (q.edges d.flip y).get? x

/-- The same while the edges to the vertex `u` are taken away. -/
structure ConsistentBut (u : Nat) (q : Work) : Prop where
  removed : u ∉ q.g
  liveItems : ∀ x ∈ q.g, q.liveItems x = [⟨q.heapItem x, -q.balance x⟩]
  within : ∀ d, ∀ x ∈ q.g, (q.edges d x).keys ⊆ u :: q.g
  mirrored : ∀ d, ∀ x ∈ q.g, ∀ y ∈ q.g, (q.edges d x).get? y = (q.edges d.flip y).get? x

variable {st : State}

theorem Settled.consistent
    {ts : List Nat} {q : Work} (h : Settled ts q) :
    Consistent q where
  liveItems := fun _ hx => h.scored.liveItems_eq hx
  within := fun d x hx y hy => (h.inv.edge d x y hx hy).1
  mirrored := h.scored.sums.mirrored

theorem AtEdge.consistentBut
    {u : Nat} {d : Dir} {rest : List Nat} {s : Work × List Nat} (hs : AtEdge st u d rest s)
    (h : IsDigraph st) (hts : st.transfers.Nodup) (hmirror : MirroredWeights st) :
    ConsistentBut u s.1 ∧ ∀ iu ∈ rest, ∃ w, (s.1.edges d iu).get? u = some w := by
  obtain ⟨hscored, D, hdet, rfl⟩ := hs.detaching h hts hmirror
  refine ⟨⟨hdet.removed, fun _ hx => hscored.liveItems_eq hx, fun d x hx y hy => ?_,
    hscored.sums.mirrored⟩, fun iu hiu => OrderedDict.mem_keys_iff.mp (hdet.pending d iu hiu).2⟩
  rcases hdet.edge d x y hx hy with hyg | hyu
  · exact List.mem_cons_of_mem _ hyg.1
  · rw [hyu.1]
    exact List.mem_cons_self

theorem AtPop.heappop_isSome
    {q : Work} (hq : AtPop st q) (h : IsDigraph st) (hts : st.transfers.Nodup)
    (hmirror : MirroredWeights st) :
    ∃ r, Heapq.heappop HeapItem.lt q.heap = some r := by
  obtain ⟨hsettled, hne⟩ := hq.settled h hts hmirror
  obtain ⟨x, hx⟩ := List.exists_mem_of_ne_nil _ hne
  obtain ⟨t, ht, _⟩ := hsettled.scored.items.live x hx
  exact Heapq.heappop_isSome HeapItem.lt (List.ne_nil_of_mem ht)

theorem AtPop.balance_le
    {q : Work} (hq : AtPop st q) (h : IsDigraph st) (hts : st.transfers.Nodup)
    (hmirror : MirroredWeights st) {u : Nat} {heap : Array HeapItem} (hch : Chooses q u heap) :
    ∀ x ∈ q.g, q.balance x ≤ q.balance u := by
  intro x hx
  obtain ⟨hu, t, hpop, hitem⟩ := hch
  have hscored := (hq.settled h hts hmirror).1.scored
  have hle := hscored.items.score_le hpop hitem hx
  rw [hscored.sums.score x (hscored.sums.vertices hx),
    hscored.sums.score u (hscored.sums.vertices hu)] at hle
  exact hle

/-- The procedure ends at the head of `while G`, and the new sequence is what it has collected
there. -/
theorem findVertexSequence_atHead
    (h : IsDigraph st) (hts : st.transfers.Nodup) :
    ∃ q, AtHead st q ∧ q.g = [] ∧ findVertexSequence st = .ok (st.setOrder (q.s1 ++ q.s2)) ∧
      (q.s1 ++ q.s2).Perm st.transfers := by
  obtain ⟨l, hrun, _⟩ := findVertexSequence_spec h hts
  have hsteps := hrun
  unfold findVertexSequence at hsteps
  obtain ⟨q₀, hstart, hsteps⟩ := bind_eq_ok.mp hsteps
  obtain ⟨s, hloop, hend⟩ := bind_eq_ok.mp hsteps
  obtain ⟨hround, hempty⟩ := whileLoop_ok (AtRound st)
    (fun s s' hs hcond hbody => .next hs (by simpa using hcond) hbody) hloop (.start hstart)
  have hg : s.1.g = [] := by simpa using hempty
  have hperm := (hround.inv h hts).1.perm
  rw [hg, List.append_nil] at hperm
  refine ⟨s.1, .round hround, hg, ?_, hperm⟩
  rw [hrun]
  exact congrArg Except.ok (Except.ok.inj hend).symm

end Results

end Work

/-- Throughout `FindVertexSequence` the graph and the heap agree, no pop fails, the vertex that is
chosen has the greatest balance, and the new sequence has every transfer exactly once. -/
theorem findVertexSequence_throughout
    {st : State} (h : IsDigraph st) (hts : st.transfers.Nodup)
    (hmirror : Work.MirroredWeights st) :
    (∀ q, Work.AtHead st q → q.Consistent) ∧
      (∀ u d rest s, Work.AtEdge st u d rest s → s.1.ConsistentBut u ∧
        ∀ iu ∈ rest, ∃ w, (s.1.edges d iu).get? u = some w) ∧
      (∀ q, Work.AtPop st q → ∃ r, Heapq.heappop HeapItem.lt q.heap = some r) ∧
      (∀ q u heap, Work.AtPop st q → q.Chooses u heap → ∀ x ∈ q.g, q.balance x ≤ q.balance u) ∧
      ∃ q, Work.AtHead st q ∧ q.g = [] ∧
        findVertexSequence st = .ok (st.setOrder (q.s1 ++ q.s2)) ∧
        (q.s1 ++ q.s2).Perm st.transfers := by
  refine ⟨fun q hq => (hq.settled h hts hmirror).consistent,
    fun u d rest s hs => hs.consistentBut h hts hmirror,
    fun q hq => hq.heappop_isSome h hts hmirror, ?_, Work.findVertexSequence_atHead h hts⟩
  exact fun q u heap hq hch => hq.balance_le h hts hmirror hch

section Sample

/-- The edges of a graph with a cycle of two vertices and an edge of weight zero. -/
def sampleEdges : Dir → Nat → Edges
  | .outgoing, 0 => ⟨[(1, some 5), (2, some 0)], by decide⟩
  | .outgoing, 1 => ⟨[(0, some 3)], by decide⟩
  | .incoming, 0 => ⟨[(1, some 3)], by decide⟩
  | .incoming, 1 => ⟨[(0, some 5)], by decide⟩
  | .incoming, 2 => ⟨[(0, some 0)], by decide⟩
  | _, _ => .empty

def sampleDigraph : State where
  xf := fun x =>
    { tgtName := "t", srcName := none, tgtRanges := .empty, srcRanges := .empty
      tgtSha1 := "", srcSha1 := "", style := .new
      goesBefore := sampleEdges .outgoing x, goesAfter := sampleEdges .incoming x }
  transfers := [0, 1, 2]

theorem edges_sampleDigraph
    (d : Dir) (x : Nat) :
    (sampleDigraph.xf x).edges d = sampleEdges d x := by
  cases d <;> rfl

theorem isDigraph_sample :
    IsDigraph sampleDigraph := by
  have hedge : ∀ d, ∀ x ∈ [0, 1, 2], ∀ y ∈ (sampleEdges d x).keys,
      y ∈ [0, 1, 2] ∧ x ∈ (sampleEdges d.flip y).keys := by
    intro d
    cases d <;> decide
  have hirrefl : ∀ d, ∀ x ∈ [0, 1, 2], x ∉ (sampleEdges d x).keys := by
    intro d
    cases d <;> decide
  have hweighted : ∀ d, ∀ x ∈ [0, 1, 2], weighted (sampleEdges d x) = true := by
    intro d
    cases d <;> decide
  refine ⟨fun d x y hx hy => ?_, fun d x hx => ?_, fun d x hx => ?_⟩
  · simp only [edges_sampleDigraph] at hy ⊢
    exact hedge d x hx y hy
  · rw [edges_sampleDigraph]
    exact hirrefl d x hx
  · rw [edges_sampleDigraph]
    exact hweighted d x hx

theorem mirroredWeights_sample :
    Work.MirroredWeights sampleDigraph := by
  have hmirror : ∀ d, ∀ x ∈ [0, 1, 2], ∀ y ∈ [0, 1, 2],
      (sampleEdges d x).get? y = (sampleEdges d.flip y).get? x := by
    intro d
    cases d <;> decide
  intro d x hx y hy
  rw [edges_sampleDigraph, edges_sampleDigraph]
  exact hmirror d x hx y hy

theorem findVertexSequence_throughout_sample :
    (∀ q, Work.AtHead sampleDigraph q → q.Consistent) ∧
      ∃ q, Work.AtHead sampleDigraph q ∧ q.g = [] ∧
        findVertexSequence sampleDigraph = .ok (sampleDigraph.setOrder (q.s1 ++ q.s2)) ∧
        (q.s1 ++ q.s2).Perm [0, 1, 2] := by
  have h := findVertexSequence_throughout isDigraph_sample (by decide) mirroredWeights_sample
  exact ⟨h.1, h.2.2.2.2⟩

end Sample

end BlockImageDiff
end AndroidBuild
