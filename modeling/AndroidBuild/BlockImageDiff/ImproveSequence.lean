import AndroidBuild.BlockImageDiff.BackwardEdges

/-!
# `ImproveVertexSequence`

A topological sort of the digraph that `ReverseBackwardEdges` made acyclic.
Among the vertices without a remaining predecessor it takes the one that leaves
the least amount of stashed data.

`improveVertexSequence_spec`: on a digraph whose edges increase some order the
sort ends with a permutation of the transfers that respects every edge.
-/

namespace AndroidBuild
namespace BlockImageDiff

open Loop

/-- An entry `(u.NetStashChange(), u.order, u)` of the heap `S`. -/
structure Ready where
  net : Int
  order : Nat
  vertex : Nat

/-- Comparison of tuples.  The orders of two transfers differ, so that the
transfers themselves are never compared. -/
def Ready.lt (a b : Ready) : Bool :=
  decide (a.net < b.net ∨ (a.net = b.net ∧ a.order < b.order))

def Ready.ofTransfer (st : State) (u : Nat) : Ready :=
  ⟨(st.xf u).netStashChange, (st.xf u).order, u⟩

/-- The attribute `incoming` of the vertices and the local variables `S` and `L`. -/
structure Kahn where
  incoming : Nat → Edges
  s : Array Ready
  l : List Nat

/-- `del u.incoming[xf]`, and `u` is a source when nothing is left. -/
def release (st : State) (x : Nat) (k : Kahn) (u : Nat) : Except PyError Kahn :=
  if x ∈ (k.incoming u).keys then
    let incoming := Function.update k.incoming u ((k.incoming u).erase x)
    if (incoming u).keys.isEmpty then
      .ok { k with
        incoming := incoming
        s := Heapq.heappush Ready.lt k.s (Ready.ofTransfer st u) }
    else .ok { k with incoming := incoming }
  else .error .keyError

/-- The body of `while S`. -/
def improveRound (st : State) (k : Kahn) : Except PyError Kahn :=
  match Heapq.heappop Ready.lt k.s with
  | none => .error .indexError
  | some (e, s) =>
      (st.xf e.vertex).goesBefore.keys.foldlM (release st e.vertex)
        { k with s := s, l := k.l ++ [e.vertex] }

def improveStart (st : State) : Kahn where
  incoming := fun x => (st.xf x).goesAfter
  s := Heapq.heapify Ready.lt
    ((st.transfers.filter (fun u => (st.xf u).goesAfter.keys.isEmpty)).map
      (Ready.ofTransfer st)).toArray
  l := []

def improveVertexSequence (st : State) : Except PyError State := do
  let k ← whileLoop .exhausted (fun k => !k.s.isEmpty) (improveRound st)
    st.transfers.length (improveStart st)
  if k.l.length = st.transfers.length then pure (st.setOrder k.l)
  else .error .assertionError

def Kahn.ready (k : Kahn) : List Nat :=
  k.s.toList.map Ready.vertex

/-- A digraph on `st.transfers` whose edges increase the order. -/
structure Acyclic (F : Nat → Nat → Prop) (st : State) : Prop where
  mem : ∀ x y, F x y → x ∈ st.transfers ∧ y ∈ st.transfers
  before : ∀ x y, y ∈ (st.xf x).goesBefore.keys ↔ F x y
  after : ∀ x y, x ∈ (st.xf y).goesAfter.keys ↔ F x y
  forward : ∀ x y, F x y → (st.xf x).order < (st.xf y).order

/-- The sort after `x` was taken and before the vertices of `rest` know it. -/
structure Releasing (F : Nat → Nat → Prop) (st : State) (x : Nat) (rest : List Nat)
    (k : Kahn) : Prop where
  nodup : (k.l ++ k.ready).Nodup
  incoming : ∀ w y, w ∈ (k.incoming y).keys ↔ F w y ∧ (w ∉ k.l ∨ (w = x ∧ y ∈ rest))
  ready : ∀ y, y ∈ k.l ++ k.ready ↔ y ∈ st.transfers ∧ (k.incoming y).keys = []
  respects : ∀ w y, F w y → y ∈ k.l → Precedes k.l w y

/-- The loop invariant of `while S`. -/
structure Sorting (F : Nat → Nat → Prop) (st : State) (k : Kahn) : Prop where
  nodup : (k.l ++ k.ready).Nodup
  incoming : ∀ w y, w ∈ (k.incoming y).keys ↔ F w y ∧ w ∉ k.l
  ready : ∀ y, y ∈ k.l ++ k.ready ↔ y ∈ st.transfers ∧ (k.incoming y).keys = []
  respects : ∀ w y, F w y → y ∈ k.l → Precedes k.l w y

section Precedes

theorem Precedes.mem
    {l : List Nat} {x y : Nat} (h : Precedes l x y) :
    x ∈ l := by
  unfold Precedes at h
  have := List.idxOf_le_length (a := y) (l := l)
  exact List.idxOf_lt_length_iff.mp (by omega)

theorem precedes_append_singleton
    {l : List Nat} {x y z : Nat} (hx : x ∈ l) :
    Precedes (l ++ [z]) x y ↔ Precedes l x y ∨ y ∉ l := by
  unfold Precedes
  have hlt := List.idxOf_lt_length_iff.mpr hx
  rw [List.idxOf_append_of_mem hx]
  by_cases hy : y ∈ l
  · rw [List.idxOf_append_of_mem hy]
    simp [hy]
  · rw [List.idxOf_append_of_notMem hy]
    simp only [hy, not_false_eq_true, or_true, iff_true]
    omega

end Precedes

variable {F : Nat → Nat → Prop} {st : State} (hF : Acyclic F st)

include hF

/-- One successor of `x` loses its edge. -/
theorem release_spec
    {x u : Nat} {rest : List Nat} {k : Kahn}
    (h : Releasing F st x (u :: rest) k) (hx : x ∈ k.l) (hu : u ∉ rest) (hxu : F x u) :
    ∃ k', release st x k u = .ok k' ∧ Releasing F st x rest k' ∧ k'.l = k.l := by
  have hmem : x ∈ (k.incoming u).keys :=
    (h.incoming x u).mpr ⟨hxu, Or.inr ⟨rfl, List.mem_cons_self⟩⟩
  set incoming := Function.update k.incoming u ((k.incoming u).erase x) with hinc
  have hinc' : ∀ w y, w ∈ (incoming y).keys ↔ F w y ∧ (w ∉ k.l ∨ (w = x ∧ y ∈ rest)) := by
    intro w y
    by_cases hy : y = u
    · subst hy
      simp only [hinc, Function.update_self, OrderedDict.mem_keys_erase, h.incoming]
      constructor
      · rintro ⟨hwx, hFw, hw | hw⟩
        · exact ⟨hFw, Or.inl hw⟩
        · exact absurd hw.1 hwx
      · rintro ⟨hFw, hw | hw⟩
        · refine ⟨?_, hFw, Or.inl hw⟩
          rintro rfl
          exact hw hx
        · exact absurd hw.2 hu
    · simp only [hinc, Function.update_of_ne hy, h.incoming, List.mem_cons, hy, false_or]
  have hnot : u ∉ k.l ++ k.ready := by
    rw [h.ready]
    rintro ⟨_, hnil⟩
    rw [hnil] at hmem
    cases hmem
  have hother : ∀ y, y ≠ u → (incoming y).keys = (k.incoming y).keys := by
    intro y hy
    simp [hinc, Function.update_of_ne hy]
  unfold release
  rw [if_pos hmem]
  simp only [← hinc]
  split_ifs with hempty
  · refine ⟨_, rfl, ⟨?_, hinc', ?_, h.respects⟩, rfl⟩
    · have hperm : (k.l ++ (Heapq.heappush Ready.lt k.s (Ready.ofTransfer st u)).toList.map
          Ready.vertex).Perm (u :: (k.l ++ k.ready)) := by
        refine (List.Perm.append_left _
          ((Heapq.heappush_perm _ k.s (Ready.ofTransfer st u)).map Ready.vertex)).trans ?_
        exact List.perm_middle
      exact hperm.nodup_iff.mpr (List.nodup_cons.mpr ⟨hnot, h.nodup⟩)
    · intro y
      have hmem' : y ∈ k.l ++ (Heapq.heappush Ready.lt k.s (Ready.ofTransfer st u)).toList.map
          Ready.vertex ↔ y = u ∨ y ∈ k.l ++ k.ready := by
        rw [List.mem_append, ((Heapq.heappush_perm _ k.s
          (Ready.ofTransfer st u)).map Ready.vertex).mem_iff, List.map_cons, List.mem_cons,
          List.mem_append]
        unfold Kahn.ready Ready.ofTransfer
        tauto
      refine hmem'.trans ?_
      by_cases hy : y = u
      · subst hy
        simp only [true_or, true_iff]
        exact ⟨(hF.mem x y hxu).2, List.isEmpty_iff.mp hempty⟩
      · simp only [hy, false_or]
        rw [h.ready, hother y hy]
  · refine ⟨_, rfl, ⟨h.nodup, hinc', ?_, h.respects⟩, rfl⟩
    intro y
    refine (h.ready y).trans ?_
    by_cases hy : y = u
    · subst hy
      constructor
      · rintro ⟨_, hnil⟩
        rw [hnil] at hmem
        cases hmem
      · rintro ⟨_, hnil⟩
        exact absurd (by rw [hnil]; rfl) hempty
    · simp only [hother y hy]

theorem release_all
    {x : Nat} (rest : List Nat) {k : Kahn}
    (h : Releasing F st x rest k) (hx : x ∈ k.l) (hnodup : rest.Nodup)
    (hrest : ∀ u ∈ rest, F x u) :
    ∃ k', rest.foldlM (release st x) k = .ok k' ∧ Releasing F st x [] k' ∧ k'.l = k.l := by
  induction rest generalizing k with
  | nil => exact ⟨k, rfl, h, rfl⟩
  | cons u rest ih =>
      rw [List.nodup_cons] at hnodup
      obtain ⟨k₁, h₁, hrel, hl⟩ := release_spec hF h hx hnodup.1
        (hrest u List.mem_cons_self)
      obtain ⟨k₂, h₂, hrel₂, hl₂⟩ := ih hrel (hl ▸ hx) hnodup.2
        (fun v hv => hrest v (List.mem_cons_of_mem _ hv))
      refine ⟨k₂, ?_, hrel₂, hl₂.trans hl⟩
      rw [List.foldlM_cons, h₁]
      exact h₂

/-- The body of `while S` moves one vertex from `S` to `L`. -/
theorem improveRound_spec
    {k : Kahn} (h : Sorting F st k) (hne : k.s.toList ≠ []) :
    ∃ k', improveRound st k = .ok k' ∧ Sorting F st k' ∧ k'.l.length = k.l.length + 1 := by
  obtain ⟨⟨e, s⟩, hpop⟩ := Heapq.heappop_isSome Ready.lt hne
  have hperm := (Heapq.heappop_perm hpop).map Ready.vertex
  rw [List.map_cons] at hperm
  set x := e.vertex with hx
  set k₀ : Kahn := { k with s := s, l := k.l ++ [x] } with hk₀
  have hperm' : (k₀.l ++ k₀.ready).Perm (k.l ++ k.ready) := by
    simp only [hk₀, Kahn.ready, List.append_assoc]
    exact List.Perm.append_left _ hperm
  have hnodup := hperm'.nodup_iff.mpr h.nodup
  have hxl : x ∉ k.l := by
    have := (List.nodup_append.mp hnodup).1
    rw [List.nodup_append] at this
    intro hmem
    exact this.2.2 x hmem x (by simp) rfl
  have hxready : x ∈ k.l ++ k.ready :=
    List.mem_append_right _ (hperm.mem_iff.mp List.mem_cons_self)
  have hrel : Releasing F st x (st.xf x).goesBefore.keys k₀ := by
    refine ⟨hnodup, ?_, ?_, ?_⟩
    · intro w y
      show w ∈ (k.incoming y).keys ↔ _
      rw [h.incoming, hF.before]
      simp only [hk₀, List.mem_append, List.mem_singleton, not_or]
      constructor
      · rintro ⟨hwy, hw⟩
        refine ⟨hwy, ?_⟩
        by_cases hwx : w = x
        · subst hwx
          exact Or.inr ⟨rfl, hwy⟩
        · exact Or.inl ⟨hw, hwx⟩
      · rintro ⟨hwy, ⟨hw, _⟩ | ⟨rfl, _⟩⟩
        · exact ⟨hwy, hw⟩
        · exact ⟨hwy, hxl⟩
    · intro y
      rw [hperm'.mem_iff]
      exact h.ready y
    · intro w y hwy hy
      have hwl : w ∈ k.l := by
        rcases List.mem_append.mp hy with hy | hy
        · exact (h.respects w y hwy hy).mem
        · rw [List.mem_singleton.mp hy] at hwy
          have hnil := ((h.ready x).mp hxready).2
          by_contra hw
          have := (h.incoming w x).mpr ⟨hwy, hw⟩
          rw [hnil] at this
          cases this
      refine (precedes_append_singleton hwl).mpr ?_
      rcases List.mem_append.mp hy with hy | hy
      · exact Or.inl (h.respects w y hwy hy)
      · rw [List.mem_singleton.mp hy]
        exact Or.inr hxl
  obtain ⟨k', hrun, hrel', hl⟩ := release_all hF _ hrel (by simp [hk₀])
    (st.xf x).goesBefore.keys_nodup (fun u hu => (hF.before x u).mp hu)
  refine ⟨k', ?_, ⟨hrel'.nodup, ?_, hrel'.ready, hrel'.respects⟩, ?_⟩
  · unfold improveRound
    rw [hpop]
    exact hrun
  · intro w y
    rw [hrel'.incoming]
    simp
  · rw [hl]
    simp [hk₀]

theorem improveStart_sorting
    (hts : st.transfers.Nodup) :
    Sorting F st (improveStart st) := by
  have hperm : (improveStart st).ready.Perm
      (st.transfers.filter (fun u => (st.xf u).goesAfter.keys.isEmpty)) := by
    refine ((Heapq.heapify_perm _).map Ready.vertex).trans ?_
    rw [List.toList_toArray, List.map_map]
    exact List.Perm.of_eq (List.map_id _)
  refine ⟨?_, ?_, ?_, ?_⟩
  · exact hperm.nodup_iff.mpr (hts.filter _)
  · intro w y
    show w ∈ (st.xf y).goesAfter.keys ↔ _
    rw [hF.after]
    simp [improveStart]
  · intro y
    show y ∈ [] ++ (improveStart st).ready ↔ _
    rw [List.nil_append, hperm.mem_iff, List.mem_filter, List.isEmpty_iff]
    rfl
  · intro w y _ hy
    cases hy

/-- When no source is left, every vertex has been taken. -/
theorem Sorting.complete
    {k : Kahn} (h : Sorting F st k) (hempty : k.s.toList = []) :
    ∀ y ∈ st.transfers, y ∈ k.l := by
  have hready : k.ready = [] := by simp [Kahn.ready, hempty]
  have aux : ∀ (n y : Nat), (st.xf y).order = n → y ∈ st.transfers → y ∈ k.l := by
    intro n
    induction n using Nat.strong_induction_on with
    | _ n ih =>
        intro y hn hy
        have hnil : (k.incoming y).keys = [] := by
          rw [List.eq_nil_iff_forall_not_mem]
          intro w hw
          obtain ⟨hwy, hwl⟩ := (h.incoming w y).mp hw
          have hlt := hF.forward w y hwy
          exact hwl (ih _ (by omega) w rfl (hF.mem w y hwy).1)
        have := (h.ready y).mpr ⟨hy, hnil⟩
        rw [hready, List.append_nil] at this
        exact this
  exact fun y hy => aux _ y rfl hy

/-- `ImproveVertexSequence` ends without an exception in a permutation of the
transfers that respects all edges. -/
theorem improveVertexSequence_spec
    (hts : st.transfers.Nodup) :
    ∃ l, improveVertexSequence st = .ok (st.setOrder l) ∧ l.Perm st.transfers ∧
      ∀ x y, F x y → Precedes l x y := by
  obtain ⟨k, hrun, hsort, hdone⟩ := whileLoop_total
    PyError.exhausted (fun k : Kahn => !k.s.isEmpty) (improveRound st) (Sorting F st)
    (fun k => st.transfers.length - k.l.length)
    (by
      intro k h hcond
      have hne : k.s.toList ≠ [] := by simpa using hcond
      obtain ⟨k', hrun, hsort, hlen⟩ := improveRound_spec hF h hne
      refine ⟨k', hrun, hsort, ?_⟩
      have hsub : k'.l.length ≤ st.transfers.length := by
        refine ((List.nodup_append.mp hsort.nodup).1.subperm ?_).length_le
        intro y hy
        exact ((hsort.ready y).mp (List.mem_append_left _ hy)).1
      omega)
    st.transfers.length (improveStart st) (by simp [improveStart])
    (improveStart_sorting hF hts)
  have hempty : k.s.toList = [] := by simpa using hdone
  have hperm : k.l.Perm st.transfers := by
    rw [List.perm_ext_iff_of_nodup (List.nodup_append.mp hsort.nodup).1 hts]
    intro y
    constructor
    · intro hy
      exact ((hsort.ready y).mp (List.mem_append_left _ hy)).1
    · exact hsort.complete hF hempty y
  refine ⟨k.l, ?_, hperm, ?_⟩
  · unfold improveVertexSequence
    simp only [bind, Except.bind, hrun, hperm.length_eq, if_true]
    rfl
  · intro x y hxy
    exact hsort.respects x y hxy (hperm.mem_iff.mpr (hF.mem x y hxy).2)

end BlockImageDiff
end AndroidBuild
