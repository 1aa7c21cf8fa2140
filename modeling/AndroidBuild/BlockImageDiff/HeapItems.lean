import AndroidBuild.BlockImageDiff.VertexSequence
import AndroidBuild.Lib.HeapOrder

/-!
# The heap of `FindVertexSequence`

The scores of the vertices change by lazy deletion: the heap item of a vertex is
cleared and a new one is pushed.  What holds of the heap items does not depend on
the edges, and what holds of the scores does not depend on the heap.
-/

namespace AndroidBuild
namespace BlockImageDiff
namespace Work

open Loop

section Definitions

/-- The weights of the outgoing edges that remain, less those of the incoming ones. -/
def balance (q : Work) (x : Nat) : Int :=
  (q.edges .outgoing x).values.sum - (q.edges .incoming x).values.sum

/-- The items of the heap that have not been cleared and belong to the vertex. -/
def liveItems (q : Work) (x : Nat) : List HeapItem :=
  q.heap.toList.filter fun h => q.item h.ref = some x

/-- Every vertex owns the item it points to, and the items in the heap show the scores of their
vertices. -/
structure Items (ts : List Nat) (q : Work) : Prop where
  vertices : q.g ⊆ ts
  heap : Heapq.IsHeap HeapItem.score q.heap
  refs : (q.heap.toList.map HeapItem.ref).Nodup
  bound : ∀ h ∈ q.heap.toList, h.ref < q.fresh
  own : ∀ x ∈ ts, q.heapItem x < q.fresh ∧ q.item (q.heapItem x) = some x
  item : ∀ r x, q.item r = some x → q.heapItem x = r
  scored : ∀ h ∈ q.heap.toList, ∀ x, q.item h.ref = some x → h.score = -q.score x
  live : ∀ x ∈ q.g, ∃ h ∈ q.heap.toList, h.ref = q.heapItem x

/-- The scores are those of the edges that remain, which are the same from both sides. -/
structure Sums (ts : List Nat) (q : Work) : Prop where
  vertices : q.g ⊆ ts
  nodup : q.g.Nodup
  within : ∀ d, ∀ x ∈ ts, (q.edges d x).keys ⊆ ts
  score : ∀ x ∈ ts, q.score x = q.balance x
  mirrored : ∀ d, ∀ x ∈ q.g, ∀ y ∈ q.g, (q.edges d x).get? y = (q.edges d.flip y).get? x

end Definitions

section Items

variable {ts : List Nat} {q : Work}

/-- A vertex of the graph has one item in the heap, and it shows its score. -/
theorem Items.liveItems_eq
    (h : Items ts q) {x : Nat} (hx : x ∈ q.g) :
    q.liveItems x = [⟨q.heapItem x, -q.score x⟩] := by
  obtain ⟨t, ht, href⟩ := h.live x hx
  have hitem : q.item t.ref = some x := by
    rw [href]
    exact (h.own x (h.vertices hx)).2
  have ht' : t = ⟨q.heapItem x, -q.score x⟩ := by
    obtain ⟨ref, score⟩ := t
    rw [HeapItem.mk.injEq]
    exact ⟨href, h.scored _ ht x hitem⟩
  rw [← ht']
  have hunique : ∀ t' ∈ q.liveItems x, t' = t := by
    intro t' ht''
    obtain ⟨hmem, hlive⟩ := List.mem_filter.mp ht''
    have hsame : t'.ref = t.ref := by
      rw [← h.item _ _ (of_decide_eq_true hlive), href]
    exact List.inj_on_of_nodup_map h.refs hmem ht hsame
  have hnodup : (q.liveItems x).Nodup := h.refs.of_map.filter _
  have hmem : t ∈ q.liveItems x := List.mem_filter.mpr ⟨ht, decide_eq_true hitem⟩
  exact List.perm_singleton.mp
    ((List.perm_ext_iff_of_nodup hnodup (List.nodup_singleton t)).mpr fun t' => by
      rw [List.mem_singleton]
      exact ⟨hunique t', fun heq => heq ▸ hmem⟩)

theorem mem_heap_adjustScore
    {iu : Nat} {delta : Int} {t : HeapItem} :
    t ∈ (q.adjustScore iu delta).heap.toList ↔
      t = ⟨q.fresh, -(q.score iu + delta)⟩ ∨ t ∈ q.heap.toList := by
  have hperm := (Heapq.heappush_perm HeapItem.lt q.heap ⟨q.fresh, -(q.score iu + delta)⟩).mem_iff
    (a := t)
  rw [List.mem_cons] at hperm
  exact hperm

/-- A cleared item is replaced by a new one with the new score. -/
theorem Items.adjustScore
    (h : Items ts q) {iu : Nat} (hiu : iu ∈ ts) (delta : Int) :
    Items ts (q.adjustScore iu delta) := by
  have hown := h.own iu hiu
  -- what is behind an old item afterwards
  have hold (r x : Nat) (hr : r ≠ q.fresh)
      (hitem : (q.adjustScore iu delta).item r = some x) : q.item r = some x ∧ x ≠ iu := by
    have hitem' : Function.update q.item (q.heapItem iu) none r = some x := by
      have := hitem
      simp only [Work.adjustScore] at this
      rw [Function.update_of_ne hr] at this
      exact this
    by_cases hcleared : r = q.heapItem iu
    · rw [hcleared, Function.update_self] at hitem'
      cases hitem'
    · rw [Function.update_of_ne hcleared] at hitem'
      refine ⟨hitem', ?_⟩
      rintro rfl
      exact hcleared (h.item r x hitem').symm
  have hnew : (q.adjustScore iu delta).item q.fresh = some iu := by
    simp [Work.adjustScore]
  have hother (x : Nat) (hx : x ≠ iu) :
      (q.adjustScore iu delta).heapItem x = q.heapItem x ∧
        (q.adjustScore iu delta).score x = q.score x := by
    simp [Work.adjustScore, hx]
  have hself : (q.adjustScore iu delta).heapItem iu = q.fresh ∧
      (q.adjustScore iu delta).score iu = q.score iu + delta := by
    simp [Work.adjustScore]
  have hkeep (x : Nat) (hx : x ∈ ts) (hne : x ≠ iu) :
      (q.adjustScore iu delta).item (q.heapItem x) = some x := by
    obtain ⟨hlt, hitem⟩ := h.own x hx
    have hfresh : q.heapItem x ≠ q.fresh := by omega
    have hcleared : q.heapItem x ≠ q.heapItem iu := by
      intro heq
      rw [heq, hown.2] at hitem
      exact hne (Option.some.inj hitem).symm
    simp [Work.adjustScore, hfresh, hcleared, hitem]
  constructor
  · exact h.vertices
  · exact Heapq.heappush_isHeap h.heap _
  · have hperm := (Heapq.heappush_perm HeapItem.lt q.heap
      ⟨q.fresh, -(q.score iu + delta)⟩).map HeapItem.ref
    refine hperm.nodup_iff.mpr (List.nodup_cons.mpr ⟨?_, h.refs⟩)
    intro hmem
    obtain ⟨t, ht, href⟩ := List.mem_map.mp hmem
    have hlt := h.bound t ht
    rw [href] at hlt
    exact absurd hlt (lt_irrefl _)
  · intro t ht
    rcases mem_heap_adjustScore.mp ht with rfl | ht
    · exact Nat.lt_succ_self _
    · exact Nat.lt_succ_of_lt (h.bound t ht)
  · intro x hx
    by_cases hne : x = iu
    · rw [hne, hself.1]
      exact ⟨Nat.lt_succ_self _, hnew⟩
    · rw [(hother x hne).1]
      exact ⟨Nat.lt_succ_of_lt (h.own x hx).1, hkeep x hx hne⟩
  · intro r x hitem
    by_cases hr : r = q.fresh
    · rw [hr, hnew] at hitem
      rw [hr, ← Option.some.inj hitem]
      exact hself.1
    · obtain ⟨hitem', hne⟩ := hold r x hr hitem
      rw [(hother x hne).1]
      exact h.item r x hitem'
  · intro t ht x hitem
    rcases mem_heap_adjustScore.mp ht with rfl | ht
    · rw [hnew] at hitem
      rw [← Option.some.inj hitem, hself.2]
    · have hlt := h.bound t ht
      obtain ⟨hitem', hne⟩ := hold t.ref x (by omega) hitem
      rw [(hother x hne).2]
      exact h.scored t ht x hitem'
  · intro x hx
    by_cases hne : x = iu
    · exact ⟨_, mem_heap_adjustScore.mpr (Or.inl rfl), by rw [hne, hself.1]⟩
    · obtain ⟨t, ht, href⟩ := h.live x hx
      exact ⟨t, mem_heap_adjustScore.mpr (Or.inr ht), by rw [(hother x hne).1, href]⟩

theorem Items.edges
    (h : Items ts q) (edges : Dir → Nat → OrderedDict Nat Int) :
    Items ts { q with edges := edges } :=
  ⟨h.vertices, h.heap, h.refs, h.bound, h.own, h.item, h.scored, h.live⟩

theorem Items.place
    (h : Items ts q) (d : Dir) (u : Nat) :
    Items ts (place d q u) := by
  have hsub : q.g.erase u ⊆ q.g := List.erase_subset
  cases d with
  | outgoing =>
      exact ⟨List.Subset.trans hsub h.vertices, h.heap, h.refs, h.bound, h.own, h.item, h.scored,
        fun x hx => h.live x (hsub hx)⟩
  | incoming =>
      exact ⟨List.Subset.trans hsub h.vertices, h.heap, h.refs, h.bound, h.own, h.item, h.scored,
        fun x hx => h.live x (hsub hx)⟩

/-- An item is popped; the vertices that remain are not its own. -/
theorem Items.pop
    (h : Items ts q) {t : HeapItem} {heap : Array HeapItem}
    (hpop : Heapq.heappop HeapItem.lt q.heap = some (t, heap)) {g : List Nat} (hsub : g ⊆ q.g)
    (hdead : ∀ x ∈ g, q.item t.ref ≠ some x) :
    Items ts { q with heap := heap, g := g } := by
  have hperm := Heapq.heappop_perm hpop
  have hmem : ∀ t' ∈ heap.toList, t' ∈ q.heap.toList :=
    fun t' ht' => hperm.mem_iff.mp (List.mem_cons_of_mem _ ht')
  refine ⟨List.Subset.trans hsub h.vertices, (Heapq.heappop_isHeap h.heap hpop).1, ?_,
    fun t' ht' => h.bound t' (hmem t' ht'), h.own, h.item,
    fun t' ht' => h.scored t' (hmem t' ht'), fun x hx => ?_⟩
  · have hnodup := (hperm.map HeapItem.ref).nodup_iff.mpr h.refs
    rw [List.map_cons, List.nodup_cons] at hnodup
    exact hnodup.2
  · obtain ⟨t', ht', href⟩ := h.live x (hsub hx)
    refine ⟨t', ?_, href⟩
    rw [← hperm.mem_iff, List.mem_cons] at ht'
    rcases ht' with rfl | ht'
    · have hown := (h.own x (h.vertices (hsub hx))).2
      rw [← href] at hown
      exact absurd hown (hdead x hx)
    · exact ht'

theorem Items.score_le
    (h : Items ts q) {t : HeapItem} {heap : Array HeapItem}
    (hpop : Heapq.heappop HeapItem.lt q.heap = some (t, heap)) {u : Nat}
    (hu : q.item t.ref = some u) {x : Nat} (hx : x ∈ q.g) :
    q.score x ≤ q.score u := by
  obtain ⟨t', ht', href⟩ := h.live x hx
  have hle := (Heapq.heappop_isHeap h.heap hpop).2 t' ht'
  have hitem : q.item t'.ref = some x := by
    rw [href]
    exact (h.own x (h.vertices hx)).2
  have ht : t ∈ q.heap.toList := (Heapq.heappop_perm hpop).mem_iff.mp List.mem_cons_self
  rw [h.scored t ht u hu, h.scored t' ht' x hitem] at hle
  exact neg_le_neg_iff.mp hle

end Items

section Sums

variable {ts : List Nat} {q : Work}

theorem sum_values_erase
    {e : OrderedDict Nat Int} {u : Nat} {w : Int} (h : e.get? u = some w) :
    (e.erase u).values.sum + w = e.values.sum := by
  obtain ⟨entries, hnodup⟩ := e
  unfold OrderedDict.get? at h
  unfold OrderedDict.erase OrderedDict.values
  simp only at h ⊢
  induction entries with
  | nil => cases h
  | cons e l ih =>
      obtain ⟨k, v⟩ := e
      rw [List.map_cons, List.nodup_cons] at hnodup
      rw [List.lookup_cons] at h
      by_cases hk : u = k
      · subst hk
        simp only [beq_self_eq_true, Option.some.injEq] at h
        have hrest : l.filter (fun e => !decide (e.1 = u)) = l := by
          rw [List.filter_eq_self]
          intro e he
          have hne : e.1 ≠ u := fun heq => hnodup.1 (List.mem_map.mpr ⟨e, he, heq⟩)
          simpa using hne
        rw [List.filter_cons_of_neg (by simp), hrest, List.map_cons, List.sum_cons, h]
        exact add_comm _ _
      · rw [beq_false_of_ne hk] at h
        rw [List.filter_cons_of_pos (by simpa using Ne.symm hk), List.map_cons, List.sum_cons,
          List.map_cons, List.sum_cons, add_assoc, ih hnodup.2 h]

/-- The edge from `iu` to `u` is taken away and the score of `iu` adjusted. -/
theorem Sums.detach
    (h : Sums ts q) (d : Dir) {iu u : Nat} {w : Int} (hu : u ∉ q.g)
    (hw : (q.edges d iu).get? u = some w) :
    Sums ts (({ q with
      edges := Function.update q.edges d
        (Function.update (q.edges d) iu ((q.edges d iu).erase u)) } : Work).adjustScore iu
          (d.sign * w)) := by
  set q' := ({ q with
      edges := Function.update q.edges d
        (Function.update (q.edges d) iu ((q.edges d iu).erase u)) } : Work).adjustScore iu
          (d.sign * w) with hq'
  have hedge : q'.edges d iu = (q.edges d iu).erase u := by
    simp [hq', Work.adjustScore]
  have hother (c : Dir) (x : Nat) (hne : ¬ (c = d ∧ x = iu)) : q'.edges c x = q.edges c x := by
    by_cases hc : c = d
    · subst hc
      have hx : x ≠ iu := fun hx => hne ⟨rfl, hx⟩
      simp [hq', Work.adjustScore, hx]
    · simp [hq', Work.adjustScore, hc]
  have hscore (x : Nat) : q'.score x = if x = iu then q.score iu + d.sign * w else q.score x := by
    simp only [hq', Work.adjustScore, Function.update_apply]
  refine ⟨h.vertices, h.nodup, fun c x hx => ?_, fun x hx => ?_, fun c x hx y hy => ?_⟩
  · by_cases hne : c = d ∧ x = iu
    · rw [hne.1, hne.2, hedge]
      intro y hy
      rw [OrderedDict.mem_keys_erase] at hy
      exact h.within d iu (hne.2 ▸ hx) hy.2
    · rw [hother c x hne]
      exact h.within c x hx
  · rw [hscore]
    by_cases hx' : x = iu
    · rw [if_pos hx', hx', h.score iu (hx' ▸ hx)]
      have hsum := sum_values_erase hw
      cases d with
      | outgoing =>
          rw [balance, balance, hedge, hother .incoming iu (by simp), ← hsum]
          simp only [Dir.sign]
          ring
      | incoming =>
          rw [balance, balance, hedge, hother .outgoing iu (by simp), ← hsum]
          simp only [Dir.sign]
          ring
    · rw [if_neg hx', h.score x hx, balance, balance, hother _ x (fun hne => hx' hne.2),
        hother _ x (fun hne => hx' hne.2)]
  · -- the vertex that was taken out is no vertex of the graph
    have hsame (c : Dir) (x y : Nat) (hy : y ∈ q.g) :
        (q'.edges c x).get? y = (q.edges c x).get? y := by
      have hyu : y ≠ u := ne_of_mem_of_not_mem hy hu
      by_cases hne : c = d ∧ x = iu
      · rw [hne.1, hne.2, hedge, OrderedDict.get?_erase _ hyu]
      · rw [hother c x hne]
    rw [hsame c x y hy, hsame c.flip y x hx]
    exact h.mirrored c x hx y hy

theorem Sums.place
    (h : Sums ts q) (d : Dir) (u : Nat) :
    Sums ts (place d q u) := by
  have hsub : q.g.erase u ⊆ q.g := List.erase_subset
  have hnodup : (q.g.erase u).Nodup := h.nodup.erase u
  cases d with
  | outgoing =>
      exact ⟨List.Subset.trans hsub h.vertices, hnodup, h.within, h.score,
        fun d x hx y hy => h.mirrored d x (hsub hx) y (hsub hy)⟩
  | incoming =>
      exact ⟨List.Subset.trans hsub h.vertices, hnodup, h.within, h.score,
        fun d x hx y hy => h.mirrored d x (hsub hx) y (hsub hy)⟩

theorem Sums.heap
    (h : Sums ts q) (heap : Array HeapItem) :
    Sums ts { q with heap := heap } :=
  ⟨h.vertices, h.nodup, h.within, h.score, h.mirrored⟩

end Sums

section Runs

variable {ts : List Nat}

/-- The heap items and the scores together. -/
structure Scored (ts : List Nat) (q : Work) : Prop where
  items : Items ts q
  sums : Sums ts q

/-- Every vertex of the graph has one live item in the heap, which shows its balance. -/
theorem Scored.liveItems_eq
    {q : Work} (h : Scored ts q) {x : Nat} (hx : x ∈ q.g) :
    q.liveItems x = [⟨q.heapItem x, -q.balance x⟩] := by
  rw [h.items.liveItems_eq hx, h.sums.score x (h.sums.vertices hx)]

theorem Scored.detach
    {s s' : Work × List Nat} {d : Dir} {u iu : Nat} (h : Scored ts s.1) (hu : u ∉ s.1.g)
    (hiu : iu ∈ ts) (hrun : detach d u s iu = .ok s') :
    Scored ts s'.1 ∧ s'.1.g = s.1.g := by
  unfold Work.detach popEdge at hrun
  cases hw : (s.1.edges d iu).get? u with
  | none =>
      rw [hw] at hrun
      cases hrun
  | some w =>
      rw [hw] at hrun
      cases hrun
      exact ⟨⟨(h.items.edges _).adjustScore hiu _, h.sums.detach d hu hw⟩, rfl⟩

theorem Scored.foldl_detach
    {s s' : Work × List Nat} {d : Dir} {u : Nat} {l : List Nat} (h : Scored ts s.1)
    (hu : u ∉ s.1.g) (hl : l ⊆ ts) (hrun : l.foldlM (Work.detach d u) s = .ok s') :
    Scored ts s'.1 ∧ s'.1.g = s.1.g := by
  refine forLoop_preserves (fun r => Scored ts r.1 ∧ r.1.g = s.1.g) hrun ⟨h, rfl⟩ ?_
  rintro iu r r' hiu ⟨hr, hg⟩ hstep
  obtain ⟨hr', hg'⟩ := hr.detach (hg ▸ hu) (hl hiu) hstep
  exact ⟨hr', hg'.trans hg⟩

theorem Scored.place
    {q : Work} (h : Scored ts q) (d : Dir) (u : Nat) :
    Scored ts (place d q u) :=
  ⟨h.items.place d u, h.sums.place d u⟩

theorem Sums.not_mem_place
    {q : Work} (h : Sums ts q) (d : Dir) (u : Nat) :
    u ∉ (Work.place d q u).g := by
  rw [place_g, h.nodup.mem_erase_iff]
  exact fun hu => hu.1 rfl

theorem Scored.removeEnd
    {s s' : Work × List Nat} {d : Dir} {u : Nat} (h : Scored ts s.1)
    (hrun : removeEnd d s u = .ok s') :
    Scored ts s'.1 := by
  unfold Work.removeEnd at hrun
  by_cases hu : u ∈ s.1.g
  · rw [if_pos hu] at hrun
    exact ((h.place d u).foldl_detach (h.sums.not_mem_place d u)
      (h.sums.within _ u (h.sums.vertices hu)) hrun).1
  · rw [if_neg hu] at hrun
    cases hrun
    exact h

theorem Scored.foldl_removeEnd
    {s s' : Work × List Nat} {d : Dir} {l : List Nat} (h : Scored ts s.1)
    (hrun : l.foldlM (Work.removeEnd d) s = .ok s') :
    Scored ts s'.1 :=
  forLoop_preserves (fun r => Scored ts r.1) hrun h fun _ _ _ _ hr hstep => hr.removeEnd hstep

theorem Scored.removeEnds
    {q : Work} {s' : Work × List Nat} {d : Dir} {fuel : Nat} {ends : List Nat} (h : Scored ts q)
    (hrun : removeEnds d fuel q ends = .ok s') :
    Scored ts s'.1 := by
  unfold Work.removeEnds at hrun
  refine (whileLoop_ok (fun s => Scored ts s.1) ?_ hrun h).1
  intro s s' hs _ hstep
  exact Scored.foldl_removeEnd (s := (s.1, [])) hs hstep

theorem Scored.drop
    {q : Work} (h : Scored ts q) {t : HeapItem} {heap : Array HeapItem}
    (hpop : Heapq.heappop HeapItem.lt q.heap = some (t, heap))
    (hdead : ∀ x ∈ q.g, q.item t.ref ≠ some x) :
    Scored ts { q with heap := heap } :=
  ⟨h.items.pop hpop (List.Subset.refl q.g) hdead, h.sums.heap heap⟩

theorem Scored.choose
    {q : Work} (h : Scored ts q) {t : HeapItem} {heap : Array HeapItem} {u : Nat}
    (hpop : Heapq.heappop HeapItem.lt q.heap = some (t, heap)) (hu : q.item t.ref = some u) :
    Scored ts (Work.place .incoming { q with heap := heap } u) := by
  refine ⟨?_, (h.sums.heap heap).place .incoming u⟩
  have hitems := h.items.pop hpop (g := q.g.erase u) List.erase_subset fun x hx heq => ?_
  · exact ⟨hitems.vertices, hitems.heap, hitems.refs, hitems.bound, hitems.own, hitems.item,
      hitems.scored, hitems.live⟩
  · rw [hu] at heq
    rw [h.sums.nodup.mem_erase_iff] at hx
    exact hx.1 (Option.some.inj heq).symm

/-- Items that belong to no vertex of the graph are popped. -/
inductive Pops : Work → Work → Prop where
  | refl (q : Work) : Pops q q
  | drop {q q' : Work} {t : HeapItem} {heap : Array HeapItem} :
      Heapq.heappop HeapItem.lt q.heap = some (t, heap) → (∀ x ∈ q.g, q.item t.ref ≠ some x) →
        Pops { q with heap := heap } q' → Pops q q'

/-- The next item belongs to the vertex `u` of the graph. -/
def Chooses (q : Work) (u : Nat) (heap : Array HeapItem) : Prop :=
  u ∈ q.g ∧ ∃ t, Heapq.heappop HeapItem.lt q.heap = some (t, heap) ∧ q.item t.ref = some u

theorem Pops.scored
    {q q' : Work} (hpops : Pops q q') (h : Scored ts q) :
    Scored ts q' := by
  induction hpops with
  | refl q => exact h
  | drop hpop hdead _ ih => exact ih (h.drop hpop hdead)

/-- The loop that looks for the best vertex pops items until one belongs to the graph. -/
theorem popBest_ok
    {fuel : Nat} {q q' : Work} {u : Nat} (hrun : popBest fuel q = .ok (u, q')) :
    ∃ q₁ heap, Pops q q₁ ∧ Chooses q₁ u heap ∧ q' = { q₁ with heap := heap } := by
  induction fuel generalizing q with
  | zero => cases hrun
  | succ fuel ih =>
      rw [popBest] at hrun
      cases hpop : Heapq.heappop HeapItem.lt q.heap with
      | none =>
          rw [hpop] at hrun
          cases hrun
      | some r =>
          obtain ⟨t, heap⟩ := r
          rw [hpop] at hrun
          simp only at hrun
          cases hitem : q.item t.ref with
          | none =>
              rw [hitem] at hrun
              obtain ⟨q₁, heap', hpops, hrest⟩ := ih hrun
              exact ⟨q₁, heap', .drop hpop (by simp [hitem]) hpops, hrest⟩
          | some v =>
              rw [hitem] at hrun
              simp only at hrun
              by_cases hv : v ∈ q.g
              · rw [if_pos hv] at hrun
                cases hrun
                exact ⟨q, heap, .refl q, ⟨hv, t, hpop, hitem⟩, rfl⟩
              · rw [if_neg hv] at hrun
                obtain ⟨q₁, heap', hpops, hrest⟩ := ih hrun
                refine ⟨q₁, heap', .drop hpop (fun x hx heq => ?_) hpops, hrest⟩
                rw [hitem] at heq
                exact hv (Option.some.inj heq ▸ hx)

theorem Scored.removeBest
    {q : Work} {s : Work × List Nat × List Nat} (h : Scored ts q)
    (hrun : removeBest q = .ok s) :
    Scored ts s.1 := by
  unfold Work.removeBest at hrun
  obtain ⟨⟨u, q'⟩, hpop, hrun⟩ := bind_eq_ok.mp hrun
  obtain ⟨⟨q₁, sources⟩, hfirst, hrun⟩ := bind_eq_ok.mp hrun
  obtain ⟨⟨q₂, sinks⟩, hsecond, hrun⟩ := bind_eq_ok.mp hrun
  cases hrun
  obtain ⟨q₀, heap, hpops, ⟨hu, t, htop, hitem⟩, rfl⟩ := popBest_ok hpop
  have h₀ := hpops.scored h
  have hplaced := h₀.choose htop hitem
  have hut := h₀.sums.vertices hu
  have hout := (h₀.sums.heap heap).not_mem_place .incoming u
  obtain ⟨h₁, hg₁⟩ := hplaced.foldl_detach (s := (_, [])) hout (h₀.sums.within _ u hut) hfirst
  exact (h₁.foldl_detach (s := (_, [])) (hg₁ ▸ hout) (h₁.sums.within _ u hut) hsecond).1

theorem Scored.round
    {s s' : Work × List Nat × List Nat} (h : Scored ts s.1) (hrun : round s = .ok s') :
    Scored ts s'.1 := by
  unfold Work.round at hrun
  obtain ⟨⟨q₁, sinks⟩, hsinks, hrun⟩ := bind_eq_ok.mp hrun
  obtain ⟨⟨q₂, sources⟩, hsources, hrun⟩ := bind_eq_ok.mp hrun
  have h₂ := (h.removeEnds hsinks).removeEnds hsources
  simp only at hrun
  by_cases hempty : q₂.g.isEmpty = true
  · rw [if_pos hempty] at hrun
    cases hrun
    exact h₂
  · rw [if_neg hempty] at hrun
    exact h₂.removeBest hrun

end Runs

end Work
end BlockImageDiff
end AndroidBuild
