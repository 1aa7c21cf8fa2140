import AndroidBuild.BlockImageDiff.VertexSequence

/-!
# `ReverseBackwardEdges`

Every edge that points backwards in the sequence is reversed, and the blocks it
protects are stashed: the transfer that writes them saves them first, and the
transfer that wanted to read them uses the stash.

The invariant of the pass is `Reversed E st₀ st P`: the list `P` of the edges
reversed so far, in the order of their stash ids, determines the edges and the
stashes of every transfer.
-/

namespace AndroidBuild
namespace BlockImageDiff

open Loop RangeLib

/-- The part of the body that moves the edge: `del xf.goes_before[u]` and so on. -/
def reverseLink (st : State) (x u : Nat) : Except PyError State :=
  if u ∈ (st.xf x).goesBefore.keys then
    let st := st.modify x (fun t => { t with goesBefore := t.goesBefore.erase u })
    if x ∈ (st.xf u).goesAfter.keys then
      let st := st.modify u (fun t => { t with goesAfter := t.goesAfter.erase x })
      let st := st.modify x (fun t => { t with goesAfter := t.goesAfter.set u none })
      .ok (st.modify u (fun t => { t with goesBefore := t.goesBefore.set x none }))
    else .error .keyError
  else .error .keyError

/-- The body of the inner loop; the second component is `stash_raw_id`. -/
def reverseEdge (x : Nat) (s : State × Nat) (u : Nat) : Except PyError (State × Nat) :=
  if (s.1.xf x).order < (s.1.xf u).order then .ok s
  else
    let overlap := (s.1.xf x).srcRanges.intersect (s.1.xf u).tgtRanges
    if overlap.nonempty then
      let st := s.1.modify u
        (fun t => { t with stashBefore := t.stashBefore ++ [(s.2, overlap)] })
      let st := st.modify x (fun t => { t with useStash := t.useStash ++ [(s.2, overlap)] })
      match reverseLink st x u with
      | .error e => .error e
      | .ok st => .ok (st, s.2 + 1)
    else .error .assertionError

def reverseBackwardEdges (st : State) : Except PyError State := do
  let (st, _) ← st.transfers.foldlM
    (fun s x => (s.1.xf x).goesBefore.keys.foldlM (reverseEdge x) s) (st, 0)
  pure st

section Invariant

def Transfer.base (t : Transfer) : Transfer :=
  { t with goesBefore := .empty, goesAfter := .empty, stashBefore := [], useStash := [] }

def stashOf (xf : Nat → Transfer) (e : (Nat × Nat) × Nat) : Stash :=
  (e.2, (xf e.1.1).srcRanges.intersect (xf e.1.2).tgtRanges)

/-- The stashes that the writer `u` defines. -/
def definedBy (xf : Nat → Transfer) (P : List (Nat × Nat)) (u : Nat) : List Stash :=
  (P.zipIdx.filter (fun e => decide (e.1.2 = u))).map (stashOf xf)

/-- The stashes that the reader `x` uses. -/
def usedBy (xf : Nat → Transfer) (P : List (Nat × Nat)) (x : Nat) : List Stash :=
  (P.zipIdx.filter (fun e => decide (e.1.1 = x))).map (stashOf xf)

/-- The edges after those of `P` have been reversed. -/
def Turned (E : Nat → Nat → Prop) (P : List (Nat × Nat)) (x y : Nat) : Prop :=
  (E x y ∧ (x, y) ∉ P) ∨ (y, x) ∈ P

structure Reversed (E : Nat → Nat → Prop) (st₀ st : State) (P : List (Nat × Nat)) : Prop where
  nodup : P.Nodup
  back : ∀ x u, (x, u) ∈ P → E x u ∧ ¬ (st₀.xf x).order < (st₀.xf u).order
  before : ∀ x y, y ∈ (st.xf x).goesBefore.keys ↔ Turned E P x y
  after : ∀ x y, x ∈ (st.xf y).goesAfter.keys ↔ Turned E P x y
  defined : ∀ u, (st.xf u).stashBefore = definedBy st₀.xf P u
  used : ∀ x, (st.xf x).useStash = usedBy st₀.xf P x
  base : ∀ j, (st.xf j).base = (st₀.xf j).base
  transfers : st.transfers = st₀.transfers

theorem definedBy_append
    (xf : Nat → Transfer) (P : List (Nat × Nat)) (x u j : Nat) :
    definedBy xf (P ++ [(x, u)]) j =
      definedBy xf P j ++ if u = j then [stashOf xf ((x, u), P.length)] else [] := by
  unfold definedBy
  rw [List.zipIdx_append, List.filter_append, List.map_append]
  congr 1
  by_cases h : u = j <;> simp [h]

theorem usedBy_append
    (xf : Nat → Transfer) (P : List (Nat × Nat)) (x u j : Nat) :
    usedBy xf (P ++ [(x, u)]) j =
      usedBy xf P j ++ if x = j then [stashOf xf ((x, u), P.length)] else [] := by
  unfold usedBy
  rw [List.zipIdx_append, List.filter_append, List.map_append]
  congr 1
  by_cases h : x = j <;> simp [h]

end Invariant

section Step

variable {x u : Nat} {st st' : State}

/-- Attributes after `reverseLink`. -/
theorem reverseLink_spec
    (st : State) (hxu : x ≠ u)
    (hb : u ∈ (st.xf x).goesBefore.keys) (ha : x ∈ (st.xf u).goesAfter.keys) :
    ∃ st', reverseLink st x u = .ok st' ∧ st'.transfers = st.transfers ∧
      (∀ j, (st'.xf j).core = (st.xf j).core) ∧
      (∀ j k, k ∈ (st'.xf j).goesBefore.keys ↔
        (k ∈ (st.xf j).goesBefore.keys ∧ ¬ (j = x ∧ k = u)) ∨ (j = u ∧ k = x)) ∧
      (∀ j k, k ∈ (st'.xf j).goesAfter.keys ↔
        (k ∈ (st.xf j).goesAfter.keys ∧ ¬ (j = u ∧ k = x)) ∨ (j = x ∧ k = u)) := by
  have hux : u ≠ x := hxu.symm
  have ha' : x ∈ ((st.modify x
      (fun t => { t with goesBefore := t.goesBefore.erase u })).xf u).goesAfter.keys := by
    rw [State.modify_xf_of_ne _ _ hux]
    exact ha
  unfold reverseLink
  rw [if_pos hb]
  simp only
  rw [if_pos ha']
  refine ⟨_, rfl, rfl, ?_, ?_, ?_⟩
  · intro j
    simp only [State.modify_xf]
    by_cases h₁ : j = u
    · subst h₁
      simp [hux, Transfer.core]
    · by_cases h₂ : j = x
      · subst h₂
        simp [hxu, Transfer.core]
      · simp [h₁, h₂]
  · intro j k
    simp only [State.modify_xf]
    by_cases h₁ : j = u
    · subst h₁
      simp [hux, or_comm]
    · by_cases h₂ : j = x
      · subst h₂
        simp [hxu, and_comm]
      · simp [h₁, h₂]
  · intro j k
    simp only [State.modify_xf]
    by_cases h₁ : j = u
    · subst h₁
      simp [hux, and_comm]
    · by_cases h₂ : j = x
      · subst h₂
        simp [hxu, or_comm]
      · simp [h₁, h₂]

theorem order_of_base
    {s t : Transfer} (h : s.base = t.base) :
    s.order = t.order := by
  have : s.base.order = t.base.order := by rw [h]
  exact this

theorem srcRanges_of_base
    {s t : Transfer} (h : s.base = t.base) :
    s.srcRanges = t.srcRanges := by
  have : s.base.srcRanges = t.base.srcRanges := by rw [h]
  exact this

theorem tgtRanges_of_base
    {s t : Transfer} (h : s.base = t.base) :
    s.tgtRanges = t.tgtRanges := by
  have : s.base.tgtRanges = t.base.tgtRanges := by rw [h]
  exact this

theorem base_core (t : Transfer) :
    t.core.base = t.base := by
  rfl

theorem turned_append
    {E : Nat → Nat → Prop} {P : List (Nat × Nat)} {x u : Nat}
    (hux : (u, x) ∉ P) (j k : Nat) :
    Turned E (P ++ [(x, u)]) j k ↔
      (Turned E P j k ∧ ¬ (j = x ∧ k = u)) ∨ (j = u ∧ k = x) := by
  unfold Turned
  simp only [List.mem_append, List.mem_singleton, Prod.mk.injEq]
  constructor
  · rintro (⟨hE, hn⟩ | hn | ⟨rfl, rfl⟩)
    · exact Or.inl ⟨Or.inl ⟨hE, fun h => hn (Or.inl h)⟩, fun h => hn (Or.inr h)⟩
    · refine Or.inl ⟨Or.inr hn, ?_⟩
      rintro ⟨rfl, rfl⟩
      exact hux hn
    · exact Or.inr ⟨rfl, rfl⟩
  · rintro (⟨⟨hE, hn⟩ | hn, hne⟩ | ⟨rfl, rfl⟩)
    · exact Or.inl ⟨hE, by tauto⟩
    · exact Or.inr (Or.inl hn)
    · exact Or.inr (Or.inr ⟨rfl, rfl⟩)

end Step

section Loops

/-- What the pass needs of the edges `E` and of the order: an edge is a real
dependency between two transfers of the list, and the order is injective. -/
structure Ordered (E : Nat → Nat → Prop) (st : State) : Prop where
  mem : ∀ x y, E x y → x ∈ st.transfers ∧ y ∈ st.transfers
  irrefl : ∀ x, ¬ E x x
  reads : ∀ x y, E x y → Reads st.xf x y
  inj : ∀ x y, x ∈ st.transfers → y ∈ st.transfers →
    (st.xf x).order = (st.xf y).order → x = y

variable {E : Nat → Nat → Prop} {st₀ : State} (hE : Ordered E st₀)

include hE

/-- Of two opposite edges at most one points backwards. -/
theorem Reversed.not_both
    {st : State} {P : List (Nat × Nat)} (h : Reversed E st₀ st P) {x u : Nat}
    (hback : ¬ (st₀.xf x).order < (st₀.xf u).order) :
    (u, x) ∉ P := by
  intro hux
  obtain ⟨hEux, hback'⟩ := h.back u x hux
  obtain ⟨hu, hx⟩ := hE.mem u x hEux
  have := hE.inj x u hx hu (by omega)
  subst this
  exact hE.irrefl x hEux

/-- One edge: it is left alone or added to the reversed ones. -/
theorem reverseEdge_spec
    {st : State} {P : List (Nat × Nat)} (h : Reversed E st₀ st P) {x u : Nat}
    (ht : Turned E P x u) :
    ∃ st' P', reverseEdge x (st, P.length) u = .ok (st', P'.length) ∧
      Reversed E st₀ st' P' ∧
      ((P' = P ∧ (st₀.xf x).order < (st₀.xf u).order) ∨ P' = P ++ [(x, u)]) := by
  have hox := order_of_base (h.base x)
  have hou := order_of_base (h.base u)
  unfold reverseEdge
  simp only [hox, hou]
  by_cases hlt : (st₀.xf x).order < (st₀.xf u).order
  · rw [if_pos hlt]
    exact ⟨st, P, rfl, h, Or.inl ⟨rfl, hlt⟩⟩
  rw [if_neg hlt]
  have hux := h.not_both hE hlt
  obtain ⟨hExu, hxuP⟩ : E x u ∧ (x, u) ∉ P := by
    rcases ht with ht | ht
    · exact ht
    · exact absurd ht hux
  have hne : x ≠ u := by
    rintro rfl
    exact hE.irrefl x hExu
  have hne' : u ≠ x := hne.symm
  set overlap := (st.xf x).srcRanges.intersect (st.xf u).tgtRanges with hoverlap
  have hstash : (P.length, overlap) = stashOf st₀.xf ((x, u), P.length) := by
    rw [hoverlap, srcRanges_of_base (h.base x), tgtRanges_of_base (h.base u)]
    rfl
  have hnonempty : overlap.nonempty = true := by
    rw [BlockSet.nonempty_iff]
    obtain ⟨i, hi, hi'⟩ := hE.reads x u hExu
    refine ⟨i, ?_⟩
    rw [hoverlap, srcRanges_of_base (h.base x), tgtRanges_of_base (h.base u)]
    simp [hi, hi']
  rw [if_pos hnonempty]
  set st₁ := (st.modify u
      (fun t => { t with stashBefore := t.stashBefore ++ [(P.length, overlap)] })).modify x
      (fun t => { t with useStash := t.useStash ++ [(P.length, overlap)] }) with hst₁
  have hgb : ∀ j, (st₁.xf j).goesBefore = (st.xf j).goesBefore := by
    intro j
    simp only [hst₁, State.modify_xf]
    split_ifs <;> simp_all
  have hga : ∀ j, (st₁.xf j).goesAfter = (st.xf j).goesAfter := by
    intro j
    simp only [hst₁, State.modify_xf]
    split_ifs <;> simp_all
  have hturned : Turned E P x u := Or.inl ⟨hExu, hxuP⟩
  obtain ⟨st', hrun, htrans, hcore, hbefore, hafter⟩ := reverseLink_spec st₁ hne
    (by rw [hgb]; exact (h.before x u).mpr hturned)
    (by rw [hga]; exact (h.after x u).mpr hturned)
  simp only [hrun]
  refine ⟨st', P ++ [(x, u)], by simp, ⟨?_, ?_, ?_, ?_, ?_, ?_, ?_, ?_⟩, Or.inr rfl⟩
  · rw [List.nodup_append]
    refine ⟨h.nodup, by simp, ?_⟩
    rintro p hp q hq rfl
    exact hxuP (List.mem_singleton.mp hq ▸ hp)
  · intro y v hyv
    rw [List.mem_append, List.mem_singleton, Prod.mk.injEq] at hyv
    rcases hyv with hyv | ⟨rfl, rfl⟩
    · exact h.back y v hyv
    · exact ⟨hExu, hlt⟩
  · intro j k
    rw [hbefore, hgb, h.before, turned_append hux]
  · intro j k
    rw [hafter, hga, h.after, turned_append hux]
    simp only [and_comm]
  · intro j
    have : (st'.xf j).stashBefore = (st₁.xf j).stashBefore := by
      have := congrArg Transfer.stashBefore (hcore j)
      exact this
    rw [this, definedBy_append, ← h.defined, ← hstash]
    simp only [hst₁, State.modify_xf]
    by_cases h₁ : j = x
    · subst h₁
      simp [hne, hne']
    · by_cases h₂ : j = u
      · subst h₂
        simp [h₁]
      · have h₂' : u ≠ j := fun h => h₂ h.symm
        simp [h₁, h₂, h₂']
  · intro j
    have : (st'.xf j).useStash = (st₁.xf j).useStash := by
      have := congrArg Transfer.useStash (hcore j)
      exact this
    rw [this, usedBy_append, ← h.used, ← hstash]
    simp only [hst₁, State.modify_xf]
    by_cases h₁ : j = x
    · subst h₁
      simp [hne]
    · have h₁' : x ≠ j := fun h => h₁ h.symm
      by_cases h₂ : j = u
      · subst h₂
        simp [h₁, h₁']
      · simp [h₁, h₁', h₂]
  · intro j
    have hb : (st'.xf j).base = (st₁.xf j).base := by
      rw [← base_core, hcore, base_core]
    rw [hb, ← h.base]
    simp only [hst₁, State.modify_xf]
    by_cases h₁ : j = x
    · subst h₁
      simp [hne, Transfer.base]
    · by_cases h₂ : j = u
      · subst h₂
        simp [h₁, Transfer.base]
      · simp [h₁, h₂]
  · rw [htrans]
    exact h.transfers

/-- Every edge out of `x` points forwards or has been reversed. -/
def Settled (E : Nat → Nat → Prop) (st₀ : State) (P : List (Nat × Nat)) (x : Nat) : Prop :=
  ∀ u, E x u → (st₀.xf x).order < (st₀.xf u).order ∨ (x, u) ∈ P

/-- The inner loop settles the vertices it visits. -/
theorem reverseEdges_spec
    (x : Nat) (l : List Nat) (hl : l.Nodup)
    {st : State} {P : List (Nat × Nat)} (h : Reversed E st₀ st P)
    (ht : ∀ u ∈ l, Turned E P x u) :
    ∃ st' P', l.foldlM (reverseEdge x) (st, P.length) = .ok (st', P'.length) ∧
      Reversed E st₀ st' P' ∧ P ⊆ P' ∧
      ∀ u ∈ l, (st₀.xf x).order < (st₀.xf u).order ∨ (x, u) ∈ P' := by
  induction l generalizing st P with
  | nil => exact ⟨st, P, rfl, h, List.Subset.refl _, by simp⟩
  | cons u l ih =>
      rw [List.nodup_cons] at hl
      obtain ⟨st₁, P₁, h₁, hrev₁, hcase⟩ := reverseEdge_spec hE h (ht u List.mem_cons_self)
      have hsub : P ⊆ P₁ := by
        rcases hcase with ⟨rfl, _⟩ | rfl
        · exact List.Subset.refl _
        · exact List.subset_append_left _ _
      have ht₁ : ∀ v ∈ l, Turned E P₁ x v := by
        intro v hv
        rcases hcase with ⟨rfl, _⟩ | rfl
        · exact ht v (List.mem_cons_of_mem _ hv)
        · rcases ht v (List.mem_cons_of_mem _ hv) with ⟨hEv, hn⟩ | hn
          · refine Or.inl ⟨hEv, ?_⟩
            simp only [List.mem_append, List.mem_singleton, Prod.mk.injEq, not_or]
            refine ⟨hn, ?_⟩
            rintro ⟨_, rfl⟩
            exact hl.1 hv
          · exact Or.inr (List.mem_append_left _ hn)
      obtain ⟨st₂, P₂, h₂, hrev₂, hsub₂, hdone⟩ := ih hl.2 hrev₁ ht₁
      refine ⟨st₂, P₂, ?_, hrev₂, List.Subset.trans hsub hsub₂, ?_⟩
      · rw [List.foldlM_cons, h₁]
        exact h₂
      · intro v hv
        rw [List.mem_cons] at hv
        rcases hv with rfl | hv
        · rcases hcase with ⟨_, hlt⟩ | rfl
          · exact Or.inl hlt
          · exact Or.inr (hsub₂ (by simp))
        · exact hdone v hv

theorem reverseVertex_spec
    (x : Nat) {st : State} {P : List (Nat × Nat)} (h : Reversed E st₀ st P) :
    ∃ st' P', (st.xf x).goesBefore.keys.foldlM (reverseEdge x) (st, P.length) =
        .ok (st', P'.length) ∧
      Reversed E st₀ st' P' ∧ P ⊆ P' ∧ Settled E st₀ P' x := by
  obtain ⟨st', P', hrun, hrev, hsub, hdone⟩ := reverseEdges_spec hE x _
    (st.xf x).goesBefore.keys_nodup h (fun u hu => (h.before x u).mp hu)
  refine ⟨st', P', hrun, hrev, hsub, ?_⟩
  intro u hExu
  by_cases hP : (x, u) ∈ P
  · exact Or.inr (hsub hP)
  · exact hdone u ((h.before x u).mpr (Or.inl ⟨hExu, hP⟩))

/-- `ReverseBackwardEdges` ends without an exception and all edges that point
backwards have been reversed. -/
theorem reverseBackwardEdges_spec
    (hbefore : ∀ x y, y ∈ (st₀.xf x).goesBefore.keys ↔ E x y)
    (hafter : ∀ x y, x ∈ (st₀.xf y).goesAfter.keys ↔ E x y)
    (hstash : ∀ x, (st₀.xf x).stashBefore = [] ∧ (st₀.xf x).useStash = []) :
    ∃ st P, reverseBackwardEdges st₀ = .ok st ∧ Reversed E st₀ st P ∧
      ∀ x u, E x u → (st₀.xf x).order < (st₀.xf u).order ∨ (x, u) ∈ P := by
  have hinit : Reversed E st₀ st₀ [] := by
    refine ⟨List.nodup_nil, ?_, ?_, ?_, ?_, ?_, fun _ => rfl, rfl⟩
    · intro x u hxu
      cases hxu
    · intro x y
      rw [hbefore]
      simp [Turned]
    · intro x y
      rw [hafter]
      simp [Turned]
    · intro u
      exact (hstash u).1
    · intro x
      exact (hstash x).2
  obtain ⟨⟨st, n⟩, hrun, P, rfl, hrev, hset⟩ := forLoop_total
    (fun (s : State × Nat) x => (s.1.xf x).goesBefore.keys.foldlM (reverseEdge x) s)
    (fun done s => ∃ P, s.2 = P.length ∧ Reversed E st₀ s.1 P ∧
      ∀ x ∈ done, Settled E st₀ P x)
    st₀.transfers (st₀, 0) ⟨[], rfl, hinit, by simp⟩
    (by
      rintro done x rest ⟨st, n⟩ _ ⟨P, rfl, hrev, hset⟩
      obtain ⟨st', P', hrun, hrev', hsub, hx⟩ := reverseVertex_spec hE x hrev
      refine ⟨(st', P'.length), hrun, P', rfl, hrev', ?_⟩
      intro y hy
      rw [List.mem_append, List.mem_singleton] at hy
      rcases hy with hy | rfl
      · intro u hu
        exact (hset y hy u hu).imp_right (fun h => hsub h)
      · exact hx)
  refine ⟨st, P, ?_, hrev, ?_⟩
  · unfold reverseBackwardEdges
    simp only [bind, Except.bind, hrun]
    rfl
  · intro x u hxu
    exact hset x (hE.mem x u hxu).1 u hxu

end Loops

section Result

variable {E : Nat → Nat → Prop} {st₀ st : State} {P : List (Nat × Nat)}

theorem Turned.forward
    (hE : Ordered E st₀) (h : Reversed E st₀ st P)
    (hall : ∀ x u, E x u → (st₀.xf x).order < (st₀.xf u).order ∨ (x, u) ∈ P)
    {x y : Nat} (ht : Turned E P x y) :
    (x ∈ st₀.transfers ∧ y ∈ st₀.transfers) ∧
      (st₀.xf x).order < (st₀.xf y).order := by
  rcases ht with ⟨hxy, hn⟩ | hyx
  · exact ⟨hE.mem x y hxy, (hall x y hxy).resolve_right hn⟩
  · obtain ⟨hyx', hback⟩ := h.back y x hyx
    obtain ⟨hy, hx⟩ := hE.mem y x hyx'
    refine ⟨⟨hx, hy⟩, ?_⟩
    by_contra hlt
    have := hE.inj x y hx hy (by omega)
    subst this
    exact hE.irrefl x hyx'

theorem mem_definedBy
    {xf : Nat → Transfer} {u i : Nat} {r : BlockSet} :
    (i, r) ∈ definedBy xf P u ↔
      ∃ x, P[i]? = some (x, u) ∧ r = (xf x).srcRanges.intersect (xf u).tgtRanges := by
  unfold definedBy stashOf
  simp only [List.mem_map, List.mem_filter, decide_eq_true_eq, Prod.exists, Prod.mk.injEq]
  constructor
  · rintro ⟨x, v, j, ⟨hmem, rfl⟩, rfl, rfl⟩
    exact ⟨x, List.mem_zipIdx_iff_getElem?.mp hmem, rfl⟩
  · rintro ⟨x, hget, rfl⟩
    exact ⟨x, u, i, ⟨List.mem_zipIdx_iff_getElem?.mpr hget, rfl⟩, rfl, rfl⟩

theorem mem_usedBy
    {xf : Nat → Transfer} {x i : Nat} {r : BlockSet} :
    (i, r) ∈ usedBy xf P x ↔
      ∃ u, P[i]? = some (x, u) ∧ r = (xf x).srcRanges.intersect (xf u).tgtRanges := by
  unfold usedBy stashOf
  simp only [List.mem_map, List.mem_filter, decide_eq_true_eq, Prod.exists, Prod.mk.injEq]
  constructor
  · rintro ⟨y, u, j, ⟨hmem, rfl⟩, rfl, rfl⟩
    exact ⟨u, List.mem_zipIdx_iff_getElem?.mp hmem, rfl⟩
  · rintro ⟨u, hget, rfl⟩
    exact ⟨x, u, i, ⟨List.mem_zipIdx_iff_getElem?.mpr hget, rfl⟩, rfl, rfl⟩

theorem nodup_ids
    (xf : Nat → Transfer) (P : List (Nat × Nat)) (p : (Nat × Nat) × Nat → Bool) :
    (((P.zipIdx.filter p).map (stashOf xf)).map Prod.fst).Nodup := by
  rw [List.map_map]
  have hsub : ((P.zipIdx.filter p).map (Prod.fst ∘ stashOf xf)).Sublist
      (P.zipIdx.map Prod.snd) := by
    have := (List.filter_sublist (p := p) (l := P.zipIdx)).map (Prod.fst ∘ stashOf xf)
    exact this
  refine hsub.nodup ?_
  rw [List.zipIdx_map_snd]
  exact List.nodup_range'

end Result

end BlockImageDiff
end AndroidBuild
