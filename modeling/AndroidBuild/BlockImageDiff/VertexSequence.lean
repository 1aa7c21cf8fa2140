import AndroidBuild.BlockImageDiff.Digraph
import AndroidBuild.Lib.Heapq

/-!
# `FindVertexSequence`

The heuristic for the feedback arc set problem that chooses the first order of
the transfers: sinks go to the right end, sources to the left end, and when
neither is left the vertex with the best score goes to the left end.

The loops for sinks and for sources are mirror images.  They are written once,
for a direction `d`: a sink is a vertex without `outgoing` edges, a source one
without `incoming` edges.

The main result is `findVertexSequence_spec`: on a symmetric weighted digraph
the procedure ends without an exception and `self.transfers` is a permutation
of what it was.
-/

namespace AndroidBuild
namespace BlockImageDiff

open Loop

/-- The two edge sets of a vertex. -/
inductive Dir
  | outgoing
  | incoming
deriving DecidableEq

namespace Dir

def flip : Dir → Dir
  | outgoing => incoming
  | incoming => outgoing

@[simp] theorem flip_flip (d : Dir) :
    d.flip.flip = d := by
  cases d <;> rfl

theorem eq_or_eq_flip (d e : Dir) :
    e = d ∨ e = d.flip := by
  cases d <;> cases e <;> simp [flip]

theorem flip_ne (d : Dir) :
    d.flip ≠ d := by
  cases d <;> simp [flip]

/-- The sign of a removed weight in `adjust_score`. -/
def sign : Dir → Int
  | outgoing => -1
  | incoming => 1

end Dir

/-- A `HeapItem` object: its identity and its score. -/
structure HeapItem where
  ref : Nat
  score : Int

def HeapItem.lt (a b : HeapItem) : Bool :=
  decide (a.score < b.score)

/-- The attributes `incoming`, `outgoing`, `score`, `heap_item` of the vertices,
the `item` of the heap items, and the local variables. -/
structure Work where
  edges : Dir → Nat → OrderedDict Nat Int
  score : Nat → Int
  heapItem : Nat → Nat
  item : Nat → Option Nat
  fresh : Nat
  heap : Array HeapItem
  g : List Nat
  s1 : List Nat
  s2 : List Nat

namespace Work

def adjustScore (q : Work) (iu : Nat) (delta : Int) : Work :=
  { q with
    score := Function.update q.score iu (q.score iu + delta)
    -- `iu.heap_item.clear()`, then a new `HeapItem(iu)`
    item := Function.update (Function.update q.item (q.heapItem iu) none) q.fresh (some iu)
    heapItem := Function.update q.heapItem iu q.fresh
    fresh := q.fresh + 1
    heap := Heapq.heappush HeapItem.lt q.heap ⟨q.fresh, -(q.score iu + delta)⟩ }

/-- `iu.outgoing.pop(u)` or `iu.incoming.pop(u)`. -/
def popEdge (q : Work) (d : Dir) (iu u : Nat) : Except PyError (Int × Work) :=
  match (q.edges d iu).get? u with
  | none => .error .keyError
  | some w =>
      .ok (w, { q with
        edges := Function.update q.edges d
          (Function.update (q.edges d) iu ((q.edges d iu).erase u)) })

/-- The body of the loops that detach the neighbour `iu` from `u`; vertices left
without edges are added to `found`. -/
def detach (d : Dir) (u : Nat) (s : Work × List Nat) (iu : Nat) :
    Except PyError (Work × List Nat) :=
  match s.1.popEdge d iu u with
  | .error e => .error e
  | .ok (w, q) =>
      let q := q.adjustScore iu (d.sign * w)
      .ok (q, if (q.edges d iu).keys.isEmpty then insertKey s.2 iu else s.2)

/-- Put `u` at the right end of the sequence (a sink) or at the left end. -/
def place (d : Dir) (q : Work) (u : Nat) : Work :=
  match d with
  | .outgoing => { q with s2 := u :: q.s2, g := q.g.erase u }
  | .incoming => { q with s1 := q.s1 ++ [u], g := q.g.erase u }

/-- One round of `for u in sinks` (or `sources`). -/
def removeEnd (d : Dir) (s : Work × List Nat) (u : Nat) : Except PyError (Work × List Nat) :=
  if u ∈ s.1.g then
    (s.1.edges d.flip u).keys.foldlM (detach d u) (place d s.1 u, s.2)
  else .ok s

/-- `while sinks` (or `while sources`). -/
def removeEnds (d : Dir) (fuel : Nat) (q : Work) (ends : List Nat) :
    Except PyError (Work × List Nat) :=
  whileLoop .exhausted (fun s => !s.2.isEmpty)
    (fun s => s.2.foldlM (removeEnd d) (s.1, [])) fuel (q, ends)

/-- The `while True` loop that pops the best vertex. -/
def popBest : Nat → Work → Except PyError (Nat × Work)
  | 0, _ => .error .exhausted
  | fuel + 1, q =>
      match Heapq.heappop HeapItem.lt q.heap with
      | none => .error .indexError
      | some (h, heap) =>
          match q.item h.ref with
          | none => popBest fuel { q with heap := heap }
          | some u =>
              if u ∈ q.g then .ok (u, { q with heap := heap })
              else popBest fuel { q with heap := heap }

def removeBest (q : Work) : Except PyError (Work × List Nat × List Nat) := do
  let (u, q) ← popBest (q.heap.size + 1) q
  let (q, sources) ← (q.edges .outgoing u).keys.foldlM (detach .incoming u)
    (place .incoming q u, [])
  let (q, sinks) ← (q.edges .incoming u).keys.foldlM (detach .outgoing u) (q, [])
  pure (q, sinks, sources)

/-- The body of `while G`. -/
def round (s : Work × List Nat × List Nat) : Except PyError (Work × List Nat × List Nat) := do
  let (q, sinks) ← removeEnds .outgoing (2 * s.1.g.length + 1) s.1 s.2.1
  let (q, sources) ← removeEnds .incoming (2 * q.g.length + 1) q s.2.2
  if q.g.isEmpty then pure (q, sinks, sources)
  else q.removeBest

end Work

section Copies

/-- `xf.outgoing = xf.goes_before.copy()` and `xf.incoming = xf.goes_after.copy()`. -/
def Transfer.edges (t : Transfer) : Dir → Edges
  | .outgoing => t.goesBefore
  | .incoming => t.goesAfter

def weights (e : Edges) : OrderedDict Nat Int where
  entries := e.entries.map (fun p => (p.1, p.2.getD 0))
  nodup := by
    rw [List.map_map]
    exact e.nodup

/-- `sum` raises a `TypeError` on a weight that is `None`. -/
def weighted (e : Edges) : Bool :=
  e.values.all Option.isSome

end Copies

/-- The local state before `while G`.  The heap items are numbered as they are
created. -/
def startWork (st : State) : Except PyError Work :=
  if st.transfers.all (fun x => weighted ((st.xf x).edges .outgoing) &&
      weighted ((st.xf x).edges .incoming)) then
    let edges := fun d x => weights ((st.xf x).edges d)
    let score := fun x => (edges .outgoing x).values.sum - (edges .incoming x).values.sum
    .ok {
      edges := edges
      score := score
      heapItem := fun x => st.transfers.idxOf x
      item := fun r => st.transfers[r]?
      fresh := st.transfers.length
      heap := Heapq.heapify HeapItem.lt
        (st.transfers.map (fun x => ⟨st.transfers.idxOf x, -score x⟩)).toArray
      g := st.transfers
      s1 := []
      s2 := [] }
  else .error .typeError

/-- `x.order = i` for every transfer `x` at position `i` of the new sequence. -/
def State.setOrder (st : State) (l : List Nat) : State where
  xf := fun x => if x ∈ l then { st.xf x with order := l.idxOf x } else st.xf x
  transfers := l

def findVertexSequence (st : State) : Except PyError State := do
  let q ← startWork st
  let sinks := q.g.filter (fun u => (q.edges .outgoing u).keys.isEmpty)
  let sources := q.g.filter (fun u => (q.edges .incoming u).keys.isEmpty)
  let (q, _) ← whileLoop .exhausted (fun s => !s.1.g.isEmpty) Work.round
    (q.g.length + 1) (q, sinks, sources)
  pure (st.setOrder (q.s1 ++ q.s2))

namespace Work

section Invariant

/-- A vertex of the remaining graph has an item of its own in the heap. -/
def Live (q : Work) : Prop :=
  ∀ x ∈ q.g, q.heapItem x < q.fresh ∧ q.item (q.heapItem x) = some x ∧
    ∃ h ∈ q.heap.toList, h.ref = q.heapItem x

/-- The graph on `q.g` is symmetric, except that the vertices of `D d` still
have an edge of direction `d` to the vertex `u`, which was just taken out. -/
structure Detaching (ts : List Nat) (u : Nat) (D : Dir → List Nat) (q : Work) : Prop where
  perm : (q.s1 ++ q.g ++ q.s2).Perm ts
  live : q.Live
  edge : ∀ d x y, x ∈ q.g → y ∈ (q.edges d x).keys →
    (y ∈ q.g ∧ x ∈ (q.edges d.flip y).keys) ∨ (y = u ∧ x ∈ D d)
  irrefl : ∀ d x, x ∈ q.g → x ∉ (q.edges d x).keys
  pending : ∀ d x, x ∈ D d → x ∈ q.g ∧ u ∈ (q.edges d x).keys
  nodup : ∀ d, (D d).Nodup
  removed : u ∉ q.g

/-- The loop invariant of `while G`. -/
structure Inv (ts : List Nat) (q : Work) : Prop where
  perm : (q.s1 ++ q.g ++ q.s2).Perm ts
  live : q.Live
  edge : ∀ d x y, x ∈ q.g → y ∈ (q.edges d x).keys →
    y ∈ q.g ∧ x ∈ (q.edges d.flip y).keys
  irrefl : ∀ d x, x ∈ q.g → x ∉ (q.edges d x).keys

/-- Vertices and edges are only ever removed. -/
structure Shrinks (q q' : Work) : Prop where
  vertices : q'.g.Sublist q.g
  edges : ∀ d x, (q'.edges d x).keys ⊆ (q.edges d x).keys

theorem Shrinks.refl (q : Work) :
    Shrinks q q :=
  ⟨List.Sublist.refl _, fun _ _ => List.Subset.refl _⟩

theorem Shrinks.trans
    {q₁ q₂ q₃ : Work} (h : Shrinks q₁ q₂) (h' : Shrinks q₂ q₃) :
    Shrinks q₁ q₃ :=
  ⟨h'.vertices.trans h.vertices, fun d x => List.Subset.trans (h'.edges d x) (h.edges d x)⟩

/-- The listed vertices that remain are sinks (or sources). -/
def Ends (d : Dir) (l : List Nat) (q : Work) : Prop :=
  ∀ x ∈ l, x ∈ q.g → (q.edges d x).keys = []

theorem Ends.shrinks
    {d : Dir} {l : List Nat} {q q' : Work} (h : Ends d l q) (hs : Shrinks q q') :
    Ends d l q' := by
  intro x hx hg
  have hnil := h x hx (hs.vertices.subset hg)
  exact List.subset_nil.mp (hnil ▸ hs.edges d x)

end Invariant

section Detach

theorem popEdge_of_mem
    {q : Work} {d : Dir} {iu u : Nat} (h : u ∈ (q.edges d iu).keys) :
    ∃ w, q.popEdge d iu u = .ok (w, { q with
      edges := Function.update q.edges d
        (Function.update (q.edges d) iu ((q.edges d iu).erase u)) }) := by
  obtain ⟨w, hw⟩ := OrderedDict.mem_keys_iff.mp h
  exact ⟨w, by simp [popEdge, hw]⟩

theorem mem_updated_edges
    {e : Dir → Nat → OrderedDict Nat Int} {d c : Dir} {iu u x y : Nat} :
    y ∈ (Function.update e d (Function.update (e d) iu ((e d iu).erase u)) c x).keys ↔
      y ∈ (e c x).keys ∧ ¬ (c = d ∧ x = iu ∧ y = u) := by
  by_cases hc : c = d
  · subst hc
    by_cases hx : x = iu
    · subst hx
      simp [and_comm]
    · simp [hx]
  · simp [hc]

/-- Replacing the heap item of one vertex keeps all vertices in the heap. -/
theorem Live.adjustScore
    {q : Work} (h : q.Live) (iu : Nat) (delta : Int) (hiu : iu ∈ q.g) :
    (q.adjustScore iu delta).Live := by
  have hheap : ∀ t : HeapItem, t ∈ (q.adjustScore iu delta).heap.toList ↔
      t = ⟨q.fresh, -(q.score iu + delta)⟩ ∨ t ∈ q.heap.toList := by
    intro t
    have := (Heapq.heappush_perm HeapItem.lt q.heap
      ⟨q.fresh, -(q.score iu + delta)⟩).mem_iff (a := t)
    rw [List.mem_cons] at this
    exact this
  have hself := h iu hiu
  intro x hx
  by_cases hxu : x = iu
  · subst hxu
    have hitem : (q.adjustScore x delta).heapItem x = q.fresh := by
      simp [Work.adjustScore]
    rw [hitem]
    refine ⟨Nat.lt_succ_self _, by simp [Work.adjustScore], ?_⟩
    exact ⟨⟨q.fresh, -(q.score x + delta)⟩, (hheap _).mpr (Or.inl rfl), rfl⟩
  · obtain ⟨hlt, hitem, t, ht, href⟩ := h x hx
    have hsame : (q.adjustScore iu delta).heapItem x = q.heapItem x := by
      simp [Work.adjustScore, hxu]
    have hne : q.heapItem x ≠ q.heapItem iu := by
      intro heq
      rw [heq, hself.2.1] at hitem
      exact hxu (Option.some.inj hitem).symm
    rw [hsame]
    refine ⟨Nat.lt_succ_of_lt hlt, ?_, t, (hheap t).mpr (Or.inr ht), href⟩
    have hfresh : q.heapItem x ≠ q.fresh := by omega
    simp [Work.adjustScore, hfresh, hne, hitem]

variable {ts : List Nat} {u : Nat} {D : Dir → List Nat} {q : Work}

theorem detach_spec
    (h : Detaching ts u D q) (d : Dir) {iu : Nat} {rest : List Nat}
    (hD : D d = iu :: rest) (found : List Nat) :
    ∃ q' found', detach d u (q, found) iu = .ok (q', found') ∧
      Detaching ts u (Function.update D d rest) q' ∧ Shrinks q q' ∧
      q'.g = q.g ∧ (∀ c, q'.edges c u = q.edges c u) ∧
      (Ends d found q → Ends d found' q') := by
  obtain ⟨hg, hu⟩ := h.pending d iu (by rw [hD]; exact List.mem_cons_self)
  obtain ⟨w, hw⟩ := popEdge_of_mem hu
  have hiu : iu ∉ rest := by
    have := h.nodup d
    rw [hD, List.nodup_cons] at this
    exact this.1
  have huiu : u ≠ iu := by
    rintro rfl
    exact h.removed hg
  set q₁ : Work := { q with
      edges := Function.update q.edges d
        (Function.update (q.edges d) iu ((q.edges d iu).erase u)) } with hq₁
  set q' := q₁.adjustScore iu (d.sign * w) with hq'
  have hedges : ∀ c x y, y ∈ (q'.edges c x).keys ↔
      y ∈ (q.edges c x).keys ∧ ¬ (c = d ∧ x = iu ∧ y = u) :=
    fun c x y => mem_updated_edges
  have hshrinks : Shrinks q q' :=
    ⟨List.Sublist.refl _, fun c x y hy => ((hedges c x y).mp hy).1⟩
  refine ⟨q', _, by rw [detach, hw], ⟨?_, ?_, ?_, ?_, ?_, ?_, ?_⟩, hshrinks, rfl, ?_, ?_⟩
  · exact h.perm
  · exact Live.adjustScore (q := q₁) h.live iu _ hg
  · intro c x y hx hy
    rw [hedges] at hy
    rcases h.edge c x y hx hy.1 with ⟨hyg, hxy⟩ | ⟨rfl, hxD⟩
    · refine Or.inl ⟨hyg, ?_⟩
      rw [hedges]
      refine ⟨hxy, ?_⟩
      rintro ⟨_, _, rfl⟩
      exact h.removed hx
    · refine Or.inr ⟨rfl, ?_⟩
      by_cases hc : c = d
      · subst hc
        rw [hD, List.mem_cons] at hxD
        rw [Function.update_self]
        rcases hxD with rfl | hxD
        · exact absurd ⟨rfl, rfl, rfl⟩ hy.2
        · exact hxD
      · rw [Function.update_of_ne hc]
        exact hxD
  · intro c x hx hxx
    exact h.irrefl c x hx ((hedges c x x).mp hxx).1
  · intro c x hx
    by_cases hc : c = d
    · subst hc
      rw [Function.update_self] at hx
      obtain ⟨hxg, hux⟩ := h.pending c x (by rw [hD]; exact List.mem_cons_of_mem _ hx)
      refine ⟨hxg, (hedges c x u).mpr ⟨hux, ?_⟩⟩
      rintro ⟨_, rfl, _⟩
      exact hiu hx
    · rw [Function.update_of_ne hc] at hx
      obtain ⟨hxg, hux⟩ := h.pending c x hx
      exact ⟨hxg, (hedges c x u).mpr ⟨hux, fun hcd => hc hcd.1⟩⟩
  · intro c
    by_cases hc : c = d
    · subst hc
      have := h.nodup c
      rw [hD, List.nodup_cons] at this
      simpa using this.2
    · rw [Function.update_of_ne hc]
      exact h.nodup c
  · exact h.removed
  · intro c
    by_cases hc : c = d
    · subst hc
      simp [hq', hq₁, Work.adjustScore, huiu]
    · simp [hq', hq₁, Work.adjustScore, hc]
  · intro hends
    have hends' := hends.shrinks hshrinks
    simp only
    split_ifs with hempty
    · intro x hx hxg
      rw [mem_insertKey] at hx
      rcases hx with hx | rfl
      · exact hends' x hx hxg
      · exact List.isEmpty_iff.mp hempty
    · exact hends'

theorem detach_all
    (d : Dir) (l : List Nat) {D : Dir → List Nat} {q : Work}
    (h : Detaching ts u D q) (hD : D d = l) (found : List Nat) :
    ∃ q' found', l.foldlM (detach d u) (q, found) = .ok (q', found') ∧
      Detaching ts u (Function.update D d []) q' ∧ Shrinks q q' ∧
      q'.g = q.g ∧ (∀ c, q'.edges c u = q.edges c u) ∧
      (Ends d found q → Ends d found' q') := by
  induction l generalizing D q found with
  | nil =>
      refine ⟨q, found, rfl, ?_, Shrinks.refl q, rfl, fun _ => rfl, id⟩
      rw [← hD, Function.update_eq_self]
      exact h
  | cons iu rest ih =>
      obtain ⟨q₁, f₁, h₁, hdet, hs₁, hg₁, he₁, hends₁⟩ := detach_spec h d hD found
      obtain ⟨q₂, f₂, h₂, hdet₂, hs₂, hg₂, he₂, hends₂⟩ :=
        ih hdet (Function.update_self d rest D) f₁
      refine ⟨q₂, f₂, ?_, ?_, hs₁.trans hs₂, hg₂.trans hg₁,
        fun c => (he₂ c).trans (he₁ c), fun hf => hends₂ (hends₁ hf)⟩
      · rw [List.foldlM_cons, h₁]
        exact h₂
      · rw [Function.update_idem] at hdet₂
        exact hdet₂

end Detach

section Remove

variable {ts : List Nat} {q : Work}

theorem Inv.of_detaching
    {u : Nat} {D : Dir → List Nat} (h : Detaching ts u D q) (hD : ∀ d, D d = []) :
    Inv ts q where
  perm := h.perm
  live := h.live
  edge := by
    intro d x y hx hy
    rcases h.edge d x y hx hy with hxy | ⟨_, hxD⟩
    · exact hxy
    · rw [hD] at hxD
      cases hxD
  irrefl := h.irrefl

theorem Inv.g_nodup
    (h : Inv ts q) (hts : ts.Nodup) :
    q.g.Nodup := by
  have := h.perm.nodup_iff.mpr hts
  rw [List.append_assoc, List.nodup_append] at this
  exact (List.nodup_append.mp this.2.1).1

theorem place_perm
    (d : Dir) {u : Nat} (hu : u ∈ q.g) :
    ((place d q u).s1 ++ (place d q u).g ++ (place d q u).s2).Perm
      (q.s1 ++ q.g ++ q.s2) := by
  have hperm : q.g.Perm (u :: q.g.erase u) := List.perm_cons_erase hu
  rw [List.append_assoc q.s1]
  cases d with
  | outgoing =>
      simp only [place, List.append_assoc]
      refine List.Perm.append_left _ ?_
      refine List.perm_middle.trans ?_
      exact (hperm.append_right q.s2).symm
  | incoming =>
      simp only [place, List.append_assoc, List.cons_append, List.nil_append]
      refine List.Perm.append_left _ ?_
      exact (hperm.append_right q.s2).symm

@[simp] theorem place_g (d : Dir) (u : Nat) :
    (place d q u).g = q.g.erase u := by
  cases d <;> rfl

@[simp] theorem place_edges (d : Dir) (u : Nat) :
    (place d q u).edges = q.edges := by
  cases d <;> rfl

theorem place_shrinks (d : Dir) (u : Nat) :
    Shrinks q (place d q u) :=
  ⟨by rw [place_g]; exact List.erase_sublist,
    fun c x => by rw [place_edges]; exact List.Subset.refl _⟩

/-- Taking `u` out leaves its neighbours to be detached. -/
theorem detaching_place
    (h : Inv ts q) (hts : ts.Nodup) (d : Dir) {u : Nat} (hu : u ∈ q.g) :
    Detaching ts u (fun c => (q.edges c.flip u).keys) (place d q u) := by
  have hnodup := h.g_nodup hts
  have hmem : ∀ x, x ∈ q.g.erase u ↔ x ≠ u ∧ x ∈ q.g := fun x => hnodup.mem_erase_iff
  refine ⟨(place_perm d hu).trans h.perm, ?_, ?_, ?_, ?_, ?_, ?_⟩
  · intro x hx
    rw [place_g, hmem] at hx
    have := h.live x hx.2
    cases d <;> exact this
  · intro c x y hx hy
    rw [place_g, hmem] at hx
    rw [place_edges] at hy ⊢
    obtain ⟨hyg, hxy⟩ := h.edge c x y hx.2 hy
    by_cases hyu : y = u
    · subst hyu
      exact Or.inr ⟨rfl, hxy⟩
    · refine Or.inl ⟨?_, hxy⟩
      rw [place_g, hmem]
      exact ⟨hyu, hyg⟩
  · intro c x hx
    rw [place_g, hmem] at hx
    rw [place_edges]
    exact h.irrefl c x hx.2
  · intro c x hx
    obtain ⟨hxg, hux⟩ := h.edge c.flip u x hu hx
    rw [Dir.flip_flip] at hux
    rw [place_g, hmem, place_edges]
    refine ⟨⟨?_, hxg⟩, hux⟩
    rintro rfl
    exact h.irrefl _ _ hu hx
  · intro c
    exact (q.edges c.flip u).keys_nodup
  · rw [place_g, hmem]
    simp

theorem removeEnd_spec
    (h : Inv ts q) (hts : ts.Nodup) (d : Dir) (u : Nat) (found : List Nat)
    (hu : Ends d [u] q) :
    ∃ q' found', removeEnd d (q, found) u = .ok (q', found') ∧
      Inv ts q' ∧ Shrinks q q' ∧ (Ends d found q → Ends d found' q') ∧
      (found' = found ∨ q'.g.length < q.g.length) := by
  unfold removeEnd
  by_cases hg : u ∈ q.g
  · simp only [hg, if_true]
    have hdet := detaching_place h hts d hg
    obtain ⟨q', found', hrun, hdet', hs, hg', _, hends⟩ :=
      detach_all d _ hdet rfl found
    refine ⟨q', found', hrun, Inv.of_detaching hdet' ?_, (place_shrinks d u).trans hs, ?_, ?_⟩
    · intro c
      rcases Dir.eq_or_eq_flip d c with rfl | rfl
      · simp
      · rw [Function.update_of_ne (Dir.flip_ne d), Dir.flip_flip]
        exact hu u (by simp) hg
    · intro hf
      exact hends (hf.shrinks (place_shrinks d u))
    · right
      rw [hg', place_g, List.length_erase_of_mem hg]
      have := List.length_pos_of_mem hg
      omega
  · simp only [hg, if_false]
    exact ⟨q, found, rfl, h, Shrinks.refl q, id, Or.inl rfl⟩

theorem removeEnd_all
    (hts : ts.Nodup) (d : Dir) (l : List Nat) {q : Work} (h : Inv ts q) (found : List Nat)
    (hl : Ends d l q) (hf : Ends d found q) :
    ∃ q' found', l.foldlM (removeEnd d) (q, found) = .ok (q', found') ∧
      Inv ts q' ∧ Shrinks q q' ∧ Ends d found' q' ∧
      (found' = found ∨ q'.g.length < q.g.length) := by
  induction l generalizing q found with
  | nil => exact ⟨q, found, rfl, h, Shrinks.refl q, hf, Or.inl rfl⟩
  | cons u l ih =>
      obtain ⟨q₁, f₁, h₁, hinv₁, hs₁, hends₁, hlt₁⟩ := removeEnd_spec h hts d u found
        (fun x hx => hl x (by rw [List.mem_singleton.mp hx]; exact List.mem_cons_self))
      have hl' : Ends d l q := fun x hx => hl x (List.mem_cons_of_mem _ hx)
      obtain ⟨q₂, f₂, h₂, hinv₂, hs₂, hends₂, hlt₂⟩ :=
        ih hinv₁ f₁ (hl'.shrinks hs₁) (hends₁ hf)
      refine ⟨q₂, f₂, ?_, hinv₂, hs₁.trans hs₂, hends₂, ?_⟩
      · rw [List.foldlM_cons, h₁]
        exact h₂
      · have hle := hs₂.vertices.length_le
        rcases hlt₂ with rfl | hlt₂
        · rcases hlt₁ with rfl | hlt₁
          · exact Or.inl rfl
          · exact Or.inr (by omega)
        · have := hs₁.vertices.length_le
          exact Or.inr (by omega)

/-- The loop over sinks (or sources) ends with none left.  Every round removes a
vertex or finds no new ones. -/
theorem removeEnds_spec
    (h : Inv ts q) (hts : ts.Nodup) (d : Dir) (ends : List Nat)
    (hends : Ends d ends q) :
    ∃ q', removeEnds d (2 * q.g.length + 1) q ends = .ok (q', []) ∧
      Inv ts q' ∧ Shrinks q q' := by
  obtain ⟨⟨q', l⟩, hrun, ⟨hinv, hs, _⟩, hnil⟩ := whileLoop_total
    PyError.exhausted (fun s : Work × List Nat => !s.2.isEmpty)
    (fun s => s.2.foldlM (removeEnd d) (s.1, []))
    (fun s => Inv ts s.1 ∧ Shrinks q s.1 ∧ Ends d s.2 s.1)
    (fun s => 2 * s.1.g.length + if s.2.isEmpty then 0 else 1)
    (by
      rintro ⟨q₁, l₁⟩ ⟨hinv₁, hs₁, hends₁⟩ hcond
      have hne : l₁.isEmpty = false := by simpa using hcond
      obtain ⟨q₂, l₂, h₂, hinv₂, hs₂, hends₂, hlt⟩ :=
        removeEnd_all hts d l₁ hinv₁ [] hends₁ (by intro x hx; cases hx)
      refine ⟨(q₂, l₂), h₂, ⟨hinv₂, hs₁.trans hs₂, hends₂⟩, ?_⟩
      have hle : q₂.g.length ≤ q₁.g.length := hs₂.vertices.length_le
      have hlt : l₂ = [] ∨ q₂.g.length < q₁.g.length := hlt
      simp only [hne, Bool.false_eq_true, if_false]
      rcases hlt with rfl | hlt
      · simp only [List.isEmpty_nil, if_true]
        omega
      · split_ifs <;> omega)
    (2 * q.g.length + 1) (q, ends) (by simp only; split_ifs <;> omega)
    ⟨h, Shrinks.refl q, hends⟩
  have : l = [] := by simpa using hnil
  subst this
  exact ⟨q', hrun, hinv, hs⟩

end Remove

section Best

variable {ts : List Nat} {q : Work}

theorem Live.drop
    (h : q.Live) {t : HeapItem} {heap : Array HeapItem}
    (hpop : Heapq.heappop HeapItem.lt q.heap = some (t, heap)) {g : List Nat}
    (hg : ∀ x ∈ g, x ∈ q.g ∧ q.item t.ref ≠ some x) :
    Live { q with heap := heap, g := g } := by
  intro x hx
  obtain ⟨hxg, hne⟩ := hg x hx
  obtain ⟨hlt, hitem, t', ht', href⟩ := h x hxg
  refine ⟨hlt, hitem, t', ?_, href⟩
  rw [← (Heapq.heappop_perm hpop).mem_iff, List.mem_cons] at ht'
  rcases ht' with rfl | ht'
  · exact absurd (href ▸ hitem) hne
  · exact ht'

/-- The search for the best vertex succeeds: some remaining vertex has an item
in the heap. -/
theorem popBest_spec
    (fuel : Nat) {q : Work} (h : q.Live) (hne : q.g ≠ []) (hfuel : q.heap.size < fuel) :
    ∃ u heap, popBest fuel q = .ok (u, { q with heap := heap }) ∧ u ∈ q.g ∧
      Live { q with heap := heap, g := q.g.filter (fun x => !decide (x = u)) } := by
  induction fuel generalizing q with
  | zero => omega
  | succ fuel ih =>
      obtain ⟨x, hx⟩ := List.exists_mem_of_ne_nil _ hne
      obtain ⟨_, _, t', ht', _⟩ := h x hx
      obtain ⟨⟨t, heap⟩, hpop⟩ := Heapq.heappop_isSome HeapItem.lt
        (List.ne_nil_of_mem ht')
      have hsize : heap.size + 1 = q.heap.size := by
        have := (Heapq.heappop_perm hpop).length_eq
        simpa using this
      have hskip : (∀ x ∈ q.g, q.item t.ref ≠ some x) →
          ∃ u heap', popBest fuel { q with heap := heap } =
              .ok (u, { q with heap := heap' }) ∧ u ∈ q.g ∧
            Live { q with
              heap := heap', g := q.g.filter (fun x => !decide (x = u)) } := by
        intro hdead
        have hlive := h.drop hpop (g := q.g) (fun y hy => ⟨hy, hdead y hy⟩)
        exact ih (q := { q with heap := heap }) hlive hne (by simp only; omega)
      rw [popBest, hpop]
      simp only
      split
      next hitem =>
        exact hskip (fun y _ => by rw [hitem]; simp)
      next u hitem =>
        split_ifs with hu
        · refine ⟨u, heap, rfl, hu, h.drop hpop ?_⟩
          intro y hy
          rw [List.mem_filter] at hy
          refine ⟨hy.1, ?_⟩
          rw [hitem]
          intro hyu
          simp [Option.some.inj hyu] at hy
        · refine hskip (fun y hy => ?_)
          rw [hitem]
          rintro ⟨⟩
          exact hu hy

theorem removeBest_spec
    (h : Inv ts q) (hts : ts.Nodup) (hne : q.g ≠ []) :
    ∃ q' sinks sources, q.removeBest = .ok (q', sinks, sources) ∧ Inv ts q' ∧
      Ends .outgoing sinks q' ∧ Ends .incoming sources q' ∧
      q'.g.length < q.g.length := by
  obtain ⟨u, heap, hpop, hu, hlive⟩ :=
    popBest_spec (q.heap.size + 1) h.live hne (Nat.lt_succ_self _)
  set q₀ : Work := { q with heap := heap } with hq₀
  have hnodup := h.g_nodup hts
  -- `u` itself may have lost its heap item
  have hdet : Detaching ts u (fun c => (q.edges c.flip u).keys) (place .incoming q₀ u) := by
    have hold := detaching_place h hts .incoming hu
    refine ⟨hold.perm, ?_, hold.edge, hold.irrefl, hold.pending, hold.nodup, hold.removed⟩
    intro x hx
    have hx' : x ∈ q.g.erase u := hx
    rw [hnodup.mem_erase_iff] at hx'
    exact hlive x (by simp [hx'])
  obtain ⟨q₁, sources, h₁, hdet₁, hs₁, hg₁, he₁, hends₁⟩ :=
    detach_all .incoming _ hdet rfl []
  obtain ⟨q₂, sinks, h₂, hdet₂, hs₂, hg₂, _, hends₂⟩ :=
    detach_all .outgoing ((q.edges .incoming u).keys) hdet₁ rfl []
  have hnil : ∀ (d : Dir) (r : Work), Ends d [] r := fun d r x hx => by cases hx
  refine ⟨q₂, sinks, sources, ?_, Inv.of_detaching hdet₂ ?_, hends₂ (hnil _ _),
    (hends₁ (hnil _ _)).shrinks hs₂, ?_⟩
  · have he : (q₁.edges .incoming u).keys = (q.edges .incoming u).keys := by
      rw [he₁, place_edges]
    have h₁' : (q₀.edges .outgoing u).keys.foldlM (detach .incoming u)
        (place .incoming q₀ u, []) = .ok (q₁, sources) := h₁
    unfold removeBest
    rw [hpop]
    simp only [bind, Except.bind, h₁', he, h₂]
    rfl
  · intro c
    cases c with
    | outgoing => simp
    | incoming => simp [Function.update_of_ne]
  · rw [hg₂, hg₁, place_g, List.length_erase_of_mem hu]
    have := List.length_pos_of_mem hu
    omega

/-- The body of `while G` removes at least one vertex. -/
theorem round_spec
    (h : Inv ts q) (hts : ts.Nodup) (hne : q.g ≠ []) (sinks sources : List Nat)
    (hsinks : Ends .outgoing sinks q) (hsources : Ends .incoming sources q) :
    ∃ q' sinks' sources', round (q, sinks, sources) = .ok (q', sinks', sources') ∧
      Inv ts q' ∧ Ends .outgoing sinks' q' ∧ Ends .incoming sources' q' ∧
      q'.g.length < q.g.length := by
  obtain ⟨q₁, h₁, hinv₁, hs₁⟩ := removeEnds_spec h hts .outgoing sinks hsinks
  obtain ⟨q₂, h₂, hinv₂, hs₂⟩ :=
    removeEnds_spec hinv₁ hts .incoming sources (hsources.shrinks hs₁)
  have hle := (hs₁.trans hs₂).vertices.length_le
  have hpos := List.length_pos_of_ne_nil hne
  have hnil : ∀ (d : Dir) (r : Work), Ends d [] r := fun d r x hx => by cases hx
  unfold round
  simp only [bind, Except.bind, h₁, h₂]
  by_cases hg : q₂.g = []
  · refine ⟨q₂, [], [], by simp [hg, pure, Except.pure], hinv₂, hnil _ _, hnil _ _, ?_⟩
    simp only [hg, List.length_nil]
    exact hpos
  · obtain ⟨q₃, sinks', sources', h₃, hinv₃, he₁, he₂, hlt⟩ := removeBest_spec hinv₂ hts hg
    refine ⟨q₃, sinks', sources', ?_, hinv₃, he₁, he₂, by omega⟩
    have : q₂.g.isEmpty = false := by simpa using hg
    simp only [this, Bool.false_eq_true, if_false]
    exact h₃

end Best

end Work

section Start

theorem keys_weights (e : Edges) :
    (weights e).keys = e.keys := by
  unfold weights OrderedDict.keys
  rw [List.map_map]
  rfl

/-- A digraph on `st.transfers`: symmetric, without loops, all edges weighted. -/
structure IsDigraph (st : State) : Prop where
  edge : ∀ d x y, x ∈ st.transfers → y ∈ ((st.xf x).edges d).keys →
    y ∈ st.transfers ∧ x ∈ ((st.xf y).edges d.flip).keys
  irrefl : ∀ d x, x ∈ st.transfers → x ∉ ((st.xf x).edges d).keys
  weighted : ∀ d x, x ∈ st.transfers → weighted ((st.xf x).edges d) = true

theorem startWork_spec
    {st : State} (h : IsDigraph st) :
    ∃ q, startWork st = .ok q ∧ q.Inv st.transfers ∧ q.g = st.transfers := by
  have hw : st.transfers.all (fun x => weighted ((st.xf x).edges .outgoing) &&
      weighted ((st.xf x).edges .incoming)) = true := by
    rw [List.all_eq_true]
    intro x hx
    simp [h.weighted _ x hx]
  unfold startWork
  rw [if_pos hw]
  refine ⟨_, rfl, ⟨?_, ?_, ?_, ?_⟩, rfl⟩
  · simp
  · intro x hx
    refine ⟨List.idxOf_lt_length_iff.mpr hx, List.getElem?_idxOf hx, ?_⟩
    exact ⟨_, (Heapq.heapify_perm _).mem_iff.mpr (List.mem_map.mpr ⟨x, hx, rfl⟩), rfl⟩
  · intro d x y hx hy
    simp only [keys_weights] at hy ⊢
    exact h.edge d x y hx hy
  · intro d x hx
    simp only [keys_weights]
    exact h.irrefl d x hx

end Start

/-- `FindVertexSequence` ends without an exception, and the new sequence is a
permutation of the old one. -/
theorem findVertexSequence_spec
    {st : State} (h : IsDigraph st) (hts : st.transfers.Nodup) :
    ∃ l, findVertexSequence st = .ok (st.setOrder l) ∧ l.Perm st.transfers := by
  obtain ⟨q, hq, hinv, hg⟩ := startWork_spec h
  have hends : ∀ d, q.Ends d (q.g.filter (fun u => (q.edges d u).keys.isEmpty)) := by
    intro d x hx _
    rw [List.mem_filter] at hx
    exact List.isEmpty_iff.mp hx.2
  obtain ⟨⟨q', rest⟩, hrun, hinv', hnil⟩ := whileLoop_total
    PyError.exhausted (fun s : Work × List Nat × List Nat => !s.1.g.isEmpty) Work.round
    (fun s => s.1.Inv st.transfers ∧ s.1.Ends .outgoing s.2.1 ∧ s.1.Ends .incoming s.2.2)
    (fun s => s.1.g.length)
    (by
      rintro ⟨q₁, sinks, sources⟩ ⟨hinv₁, hsinks, hsources⟩ hcond
      have hne : q₁.g ≠ [] := by simpa using hcond
      obtain ⟨q₂, sinks', sources', h₂, hinv₂, he₁, he₂, hlt⟩ :=
        Work.round_spec hinv₁ hts hne sinks sources hsinks hsources
      exact ⟨(q₂, sinks', sources'), h₂, ⟨hinv₂, he₁, he₂⟩, hlt⟩)
    (q.g.length + 1) (q, _, _) (Nat.le_succ _)
    ⟨hinv, hends .outgoing, hends .incoming⟩
  have hempty : q'.g = [] := by simpa using hnil
  refine ⟨q'.s1 ++ q'.s2, ?_, ?_⟩
  · unfold findVertexSequence
    simp only [bind, Except.bind, hq, hrun]
    rfl
  · have := hinv'.1.perm
    simpa [hempty] using this

end BlockImageDiff
end AndroidBuild
