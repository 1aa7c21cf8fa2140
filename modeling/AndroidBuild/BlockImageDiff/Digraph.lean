import AndroidBuild.BlockImageDiff.Transfer

/-!
# `GenerateDigraph`

If the blocks written by `a` are read by `b`, then `b` needs to go before `a`:
`b.goes_before[a]` and `a.goes_after[b]` hold the number of such blocks.

`generateDigraph_spec` describes the edges of the result and what the pass
leaves alone.
-/

namespace AndroidBuild
namespace BlockImageDiff

open RangeLib RangeLib.RangeSet

/-- The list `source_ranges`: its length, and the transfers reading block `i`
(none for an index that holds `None`). -/
structure SourceRanges where
  len : Int
  readers : Int → List Nat

/-- `source_ranges[i][b] = None`. -/
def SourceRanges.add (b : Nat) (sr : SourceRanges) (i : Int) : SourceRanges :=
  { sr with readers := Function.update sr.readers i (insertKey (sr.readers i) b) }

/-- Record one range `(s, e)` read by `b`. -/
def SourceRanges.addRange (b : Nat) (sr : SourceRanges) (p : Int × Int) : SourceRanges :=
  (intRange p.1 p.2).foldl (SourceRanges.add b) { sr with len := max sr.len p.2 }

def sourceRanges (st : State) : SourceRanges :=
  st.transfers.foldl
    (fun sr b => (st.xf b).srcRanges.toRangeSet.pairs.foldl (SourceRanges.addRange b) sr)
    { len := 0, readers := fun _ => [] }

/-- The ordered set of transfers that read a block of `tgt`. -/
def intersections (sr : SourceRanges) (tgt : BlockSet) : List Nat :=
  tgt.toRangeSet.pairs.foldl
    (fun acc p =>
      ((intRange p.1 p.2).takeWhile (fun i => decide (i < sr.len))).foldl
        (fun acc i => (sr.readers i).foldl insertKey acc) acc)
    []

/-- `b.goes_before[a] = w` and `a.goes_after[b] = w`. -/
def State.link (st : State) (b a : Nat) (w : Option Int) : State :=
  (st.modify b (fun t => { t with goesBefore := t.goesBefore.set a w })).modify a
    (fun t => { t with goesAfter := t.goesAfter.set b w })

/-- The cost of removing the source blocks `i` of `b`; nearly none for the
`__ZERO` domain. -/
def edgeSize (b : Transfer) (i : BlockSet) : Int :=
  if b.srcName = some "__ZERO" then 0 else i.size

/-- The body of the loop over the pairs `a`, `b`. -/
def addEdge (a : Nat) (st : State) (b : Nat) : State :=
  if a = b then st
  else
    let i := (st.xf a).tgtRanges.intersect (st.xf b).srcRanges
    if i.nonempty then st.link b a (some (edgeSize (st.xf b) i))
    else st

def generateDigraph (st : State) : State :=
  let sr := sourceRanges st
  st.transfers.foldl
    (fun st a => (intersections sr (st.xf a).tgtRanges).foldl (addEdge a) st) st

/-- Some block is read by `b` and written by `a`. -/
def Reads (xf : Nat → Transfer) (b a : Nat) : Prop :=
  ∃ i, i ∈ (xf b).srcRanges ∧ i ∈ (xf a).tgtRanges

section SourceRanges

/-- An index of `source_ranges` that holds a transfer is within the list. -/
def SourceRanges.Wf (sr : SourceRanges) : Prop :=
  ∀ i b, b ∈ sr.readers i → i < sr.len

theorem SourceRanges.mem_add
    {sr : SourceRanges} {b c : Nat} {i j : Int} :
    c ∈ (sr.add b i).readers j ↔ c ∈ sr.readers j ∨ (j = i ∧ c = b) := by
  unfold SourceRanges.add
  simp only [Function.update_apply]
  split_ifs with h
  · subst h
    simp
  · simp [h]

theorem SourceRanges.mem_foldl_add
    {b c : Nat} {j : Int} (is : List Int) (sr : SourceRanges) :
    c ∈ (is.foldl (SourceRanges.add b) sr).readers j ↔
      c ∈ sr.readers j ∨ (j ∈ is ∧ c = b) := by
  induction is generalizing sr with
  | nil => simp
  | cons i is ih =>
      rw [List.foldl_cons, ih, SourceRanges.mem_add, List.mem_cons]
      tauto

theorem SourceRanges.len_foldl_add
    {b : Nat} (is : List Int) (sr : SourceRanges) :
    (is.foldl (SourceRanges.add b) sr).len = sr.len := by
  induction is generalizing sr with
  | nil => rfl
  | cons i is ih => rw [List.foldl_cons, ih]; rfl

theorem SourceRanges.mem_addRange
    {sr : SourceRanges} {b c : Nat} {p : Int × Int} {j : Int} :
    c ∈ (sr.addRange b p).readers j ↔
      c ∈ sr.readers j ∨ (j ∈ intRange p.1 p.2 ∧ c = b) := by
  unfold SourceRanges.addRange
  rw [SourceRanges.mem_foldl_add]

theorem SourceRanges.Wf.addRange
    {sr : SourceRanges} (h : sr.Wf) (b : Nat) (p : Int × Int) :
    (sr.addRange b p).Wf := by
  intro j c hc
  rw [SourceRanges.mem_addRange] at hc
  have hlen : (sr.addRange b p).len = max sr.len p.2 := by
    unfold SourceRanges.addRange
    rw [SourceRanges.len_foldl_add]
  rw [hlen]
  rcases hc with hc | ⟨hj, _⟩
  · have := h j c hc
    omega
  · rw [mem_intRange] at hj
    omega

theorem mem_foldl_addRange
    {b c : Nat} {j : Int} (ps : List (Int × Int)) (sr : SourceRanges) :
    c ∈ (ps.foldl (SourceRanges.addRange b) sr).readers j ↔
      c ∈ sr.readers j ∨ (j ∈ ps.flatMap (fun p => intRange p.1 p.2) ∧ c = b) := by
  induction ps generalizing sr with
  | nil => simp
  | cons p ps ih =>
      rw [List.foldl_cons, ih, SourceRanges.mem_addRange, List.flatMap_cons, List.mem_append]
      tauto

theorem wf_foldl_addRange
    {b : Nat} (ps : List (Int × Int)) {sr : SourceRanges} (h : sr.Wf) :
    (ps.foldl (SourceRanges.addRange b) sr).Wf := by
  induction ps generalizing sr with
  | nil => exact h
  | cons p ps ih => exact ih (h.addRange b p)

theorem sourceRanges_aux
    (xf : Nat → Transfer) (ts : List Nat) (sr : SourceRanges) (h : sr.Wf) :
    (ts.foldl (fun sr b =>
        (xf b).srcRanges.toRangeSet.pairs.foldl (SourceRanges.addRange b) sr) sr).Wf ∧
      ∀ c j, c ∈ (ts.foldl (fun sr b =>
          (xf b).srcRanges.toRangeSet.pairs.foldl (SourceRanges.addRange b) sr) sr).readers j ↔
        c ∈ sr.readers j ∨ (c ∈ ts ∧ j ∈ (xf c).srcRanges) := by
  induction ts generalizing sr with
  | nil => simp [h]
  | cons b ts ih =>
      obtain ⟨hw, hm⟩ := ih _ (wf_foldl_addRange (b := b) _ h)
      refine ⟨hw, fun c j => ?_⟩
      rw [List.foldl_cons, hm, mem_foldl_addRange, List.mem_cons]
      constructor
      · rintro ((hc | ⟨hj, rfl⟩) | ⟨hc, hj⟩)
        · exact Or.inl hc
        · exact Or.inr ⟨Or.inl rfl, hj⟩
        · exact Or.inr ⟨Or.inr hc, hj⟩
      · rintro (hc | ⟨rfl | hc, hj⟩)
        · exact Or.inl (Or.inl hc)
        · exact Or.inl (Or.inr ⟨hj, rfl⟩)
        · exact Or.inr ⟨hc, hj⟩

theorem sourceRanges_wf (st : State) :
    (sourceRanges st).Wf :=
  (sourceRanges_aux st.xf st.transfers _ (by intro i b hb; simp at hb)).1

theorem mem_sourceRanges
    (st : State) (c : Nat) (j : Int) :
    c ∈ (sourceRanges st).readers j ↔ c ∈ st.transfers ∧ j ∈ (st.xf c).srcRanges := by
  have := (sourceRanges_aux st.xf st.transfers
    { len := 0, readers := fun _ => [] } (by intro i b hb; simp at hb)).2 c j
  simpa [sourceRanges] using this

theorem mem_foldl_insertKey
    {c : Nat} (ks acc : List Nat) :
    c ∈ ks.foldl insertKey acc ↔ c ∈ acc ∨ c ∈ ks := by
  induction ks generalizing acc with
  | nil => simp
  | cons k ks ih =>
      rw [List.foldl_cons, ih, mem_insertKey, List.mem_cons]
      tauto

theorem mem_foldl_readers
    {sr : SourceRanges} {c : Nat} (is : List Int) (acc : List Nat) :
    c ∈ is.foldl (fun acc i => (sr.readers i).foldl insertKey acc) acc ↔
      c ∈ acc ∨ ∃ i ∈ is, c ∈ sr.readers i := by
  induction is generalizing acc with
  | nil => simp
  | cons i is ih =>
      rw [List.foldl_cons, ih, mem_foldl_insertKey]
      simp only [List.mem_cons, exists_eq_or_imp]
      tauto

/-- Leaving a range at the end of `source_ranges` loses no reader. -/
theorem mem_takeWhile_readers
    {sr : SourceRanges} (h : sr.Wf) {c : Nat} {p : Int × Int} :
    (∃ i ∈ (intRange p.1 p.2).takeWhile (fun i => decide (i < sr.len)),
        c ∈ sr.readers i) ↔
      ∃ i ∈ intRange p.1 p.2, c ∈ sr.readers i := by
  constructor
  · rintro ⟨i, hi, hc⟩
    exact ⟨i, (List.takeWhile_sublist _).subset hi, hc⟩
  · rintro ⟨i, hi, hc⟩
    refine ⟨i, ?_, hc⟩
    have hlt := h i c hc
    obtain ⟨l, r, hlr⟩ := List.append_of_mem hi
    have hsorted := intRange_strict p.1 p.2
    rw [hlr, List.pairwise_append] at hsorted
    rw [hlr, List.takeWhile_append_of_pos, List.takeWhile_cons_of_pos]
    · simp
    · simpa using hlt
    · intro a ha
      have := hsorted.2.2 a ha i (by simp)
      simp only [decide_eq_true_eq]
      omega

theorem mem_intersections
    {sr : SourceRanges} (h : sr.Wf) {tgt : BlockSet} {c : Nat} :
    c ∈ intersections sr tgt ↔ ∃ i, i ∈ tgt ∧ c ∈ sr.readers i := by
  have aux : ∀ (ps : List (Int × Int)) (acc : List Nat),
      c ∈ ps.foldl (fun acc p =>
          ((intRange p.1 p.2).takeWhile (fun i => decide (i < sr.len))).foldl
            (fun acc i => (sr.readers i).foldl insertKey acc) acc) acc ↔
        c ∈ acc ∨ ∃ i ∈ ps.flatMap (fun p => intRange p.1 p.2), c ∈ sr.readers i := by
    intro ps
    induction ps with
    | nil => simp
    | cons p ps ih =>
        intro acc
        rw [List.foldl_cons, ih, mem_foldl_readers, mem_takeWhile_readers h,
          List.flatMap_cons]
        simp only [List.mem_append, or_and_right, exists_or, or_assoc]
  have := aux tgt.toRangeSet.pairs []
  simp only [List.not_mem_nil, false_or] at this
  exact this

end SourceRanges

section Edges

def Transfer.core (t : Transfer) : Transfer :=
  { t with goesBefore := .empty, goesAfter := .empty }

/-- The edges `b → a` present in both dictionaries are exactly those of `R`, and weighted. -/
structure EdgesAre (xf : Nat → Transfer) (R : Nat → Nat → Prop) : Prop where
  before : ∀ b a, a ∈ (xf b).goesBefore.keys ↔ R b a
  after : ∀ b a, b ∈ (xf a).goesAfter.keys ↔ R b a
  beforeWeight : ∀ b a v, (xf b).goesBefore.get? a = some v → v ≠ none
  afterWeight : ∀ b a v, (xf a).goesAfter.get? b = some v → v ≠ none

theorem EdgesAre.congr
    {xf : Nat → Transfer} {R S : Nat → Nat → Prop}
    (h : EdgesAre xf R) (hRS : ∀ b a, R b a ↔ S b a) :
    EdgesAre xf S where
  before b a := (h.before b a).trans (hRS b a)
  after b a := (h.after b a).trans (hRS b a)
  beforeWeight := h.beforeWeight
  afterWeight := h.afterWeight

section Link

variable (st : State) (b a j : Nat) (w : Option Int)

theorem link_core :
    ((st.link b a w).xf j).core = (st.xf j).core := by
  unfold State.link
  rw [State.modify_xf, State.modify_xf, State.modify_xf]
  split_ifs with h₁ h₂ h₃
  · subst h₁
    subst h₂
    rfl
  · subst h₁
    rfl
  · subst h₃
    rfl
  · rfl

theorem link_goesBefore :
    ((st.link b a w).xf j).goesBefore =
      if j = b then (st.xf b).goesBefore.set a w else (st.xf j).goesBefore := by
  unfold State.link
  rw [State.modify_xf, State.modify_xf, State.modify_xf]
  split_ifs with h₁ h₂ <;> simp_all

theorem link_goesAfter :
    ((st.link b a w).xf j).goesAfter =
      if j = a then (st.xf a).goesAfter.set b w else (st.xf j).goesAfter := by
  unfold State.link
  rw [State.modify_xf, State.modify_xf, State.modify_xf]
  split_ifs with h₁ h₂ <;> simp_all

theorem mem_link_goesBefore {k : Nat} :
    k ∈ ((st.link b a w).xf j).goesBefore.keys ↔
      k ∈ (st.xf j).goesBefore.keys ∨ (j = b ∧ k = a) := by
  rw [link_goesBefore]
  split_ifs with h
  · subst h
    simp [or_comm]
  · simp [h]

theorem mem_link_goesAfter {k : Nat} :
    k ∈ ((st.link b a w).xf j).goesAfter.keys ↔
      k ∈ (st.xf j).goesAfter.keys ∨ (j = a ∧ k = b) := by
  rw [link_goesAfter]
  split_ifs with h
  · subst h
    simp [or_comm]
  · simp [h]

end Link

theorem link_edges
    {st : State} {R : Nat → Nat → Prop} (h : EdgesAre st.xf R) (b a : Nat) (n : Int) :
    EdgesAre (st.link b a (some n)).xf (fun b' a' => R b' a' ∨ (b' = b ∧ a' = a)) where
  before b' a' := by
    rw [mem_link_goesBefore, h.before]
  after b' a' := by
    rw [mem_link_goesAfter, h.after, and_comm]
  beforeWeight b' a' v := by
    rw [link_goesBefore]
    split_ifs with hb
    · subst hb
      rw [OrderedDict.get?_set]
      split_ifs
      · rintro ⟨⟩
        simp
      · exact h.beforeWeight b' a' v
    · exact h.beforeWeight b' a' v
  afterWeight b' a' v := by
    rw [link_goesAfter]
    split_ifs with ha
    · subst ha
      rw [OrderedDict.get?_set]
      split_ifs
      · rintro ⟨⟩
        simp
      · exact h.afterWeight b' a' v
    · exact h.afterWeight b' a' v

theorem addEdge_core
    (a : Nat) (st : State) (b j : Nat) :
    ((addEdge a st b).xf j).core = (st.xf j).core := by
  unfold addEdge
  split_ifs with hab
  · rfl
  · simp only
    split_ifs
    · exact link_core st b a j _
    · rfl

@[simp] theorem addEdge_transfers
    (a : Nat) (st : State) (b : Nat) :
    (addEdge a st b).transfers = st.transfers := by
  unfold addEdge
  split_ifs
  · rfl
  · simp only
    split_ifs <;> rfl

theorem srcRanges_of_core
    {s t : Transfer} (h : s.core = t.core) :
    s.srcRanges = t.srcRanges := by
  have : s.core.srcRanges = t.core.srcRanges := by rw [h]
  exact this

theorem tgtRanges_of_core
    {s t : Transfer} (h : s.core = t.core) :
    s.tgtRanges = t.tgtRanges := by
  have : s.core.tgtRanges = t.core.tgtRanges := by rw [h]
  exact this

theorem reads_of_core
    {xf yf : Nat → Transfer} (h : ∀ j, (xf j).core = (yf j).core) (b a : Nat) :
    Reads xf b a ↔ Reads yf b a := by
  unfold Reads
  rw [srcRanges_of_core (h b), tgtRanges_of_core (h a)]

theorem addEdge_edges
    {st : State} {R : Nat → Nat → Prop} (h : EdgesAre st.xf R) (a b : Nat) :
    EdgesAre (addEdge a st b).xf
      (fun b' a' => R b' a' ∨ (b' = b ∧ a' = a ∧ a ≠ b ∧ Reads st.xf b a)) := by
  have hreads : ((st.xf a).tgtRanges.intersect (st.xf b).srcRanges).nonempty = true ↔
      Reads st.xf b a := by
    rw [BlockSet.nonempty_iff]
    unfold Reads
    simp only [BlockSet.mem_intersect, and_comm]
  unfold addEdge
  split_ifs with hab
  · exact h.congr (fun b' a' => by simp [hab])
  · simp only
    split_ifs with hne
    · refine (link_edges h b a _).congr (fun b' a' => ?_)
      simp [hab, hreads.mp hne]
    · refine h.congr (fun b' a' => ?_)
      rw [← hreads]
      simp [hne]

/-- One target transfer `a` against all candidates. -/
theorem foldl_addEdge_spec
    (a : Nat) (bs : List Nat) {st : State} {R : Nat → Nat → Prop}
    (h : EdgesAre st.xf R) :
    EdgesAre (bs.foldl (addEdge a) st).xf
        (fun b' a' => R b' a' ∨ (b' ∈ bs ∧ a' = a ∧ a ≠ b' ∧ Reads st.xf b' a)) ∧
      (bs.foldl (addEdge a) st).transfers = st.transfers ∧
      ∀ j, ((bs.foldl (addEdge a) st).xf j).core = (st.xf j).core := by
  induction bs generalizing st R with
  | nil => exact ⟨h.congr (by simp), rfl, fun _ => rfl⟩
  | cons b bs ih =>
      have hcore := addEdge_core a st b
      obtain ⟨h₁, h₂, h₃⟩ := ih (addEdge_edges h a b)
      rw [List.foldl_cons]
      refine ⟨h₁.congr ?_, ?_, fun j => (h₃ j).trans (hcore j)⟩
      · intro b' a'
        rw [reads_of_core hcore b' a, List.mem_cons]
        constructor
        · rintro ((hR | ⟨rfl, rfl, hne, hr⟩) | ⟨hm, hrest⟩)
          · exact Or.inl hR
          · exact Or.inr ⟨Or.inl rfl, rfl, hne, hr⟩
          · exact Or.inr ⟨Or.inr hm, hrest⟩
        · rintro (hR | ⟨rfl | hm, rfl, hne, hr⟩)
          · exact Or.inl (Or.inl hR)
          · exact Or.inl (Or.inr ⟨rfl, rfl, hne, hr⟩)
          · exact Or.inr ⟨hm, rfl, hne, hr⟩
      · rw [h₂, addEdge_transfers]

/-- The edge relation `GenerateDigraph` computes. -/
def MustPrecede (st : State) (b a : Nat) : Prop :=
  b ∈ st.transfers ∧ a ∈ st.transfers ∧ a ≠ b ∧ Reads st.xf b a

theorem generateDigraph_aux
    (st₀ : State) (as : List Nat) {st : State} {R : Nat → Nat → Prop}
    (hcore : ∀ j, (st.xf j).core = (st₀.xf j).core)
    (h : EdgesAre st.xf R) :
    let st' := as.foldl (fun st a =>
      (intersections (sourceRanges st₀) (st.xf a).tgtRanges).foldl (addEdge a) st) st
    EdgesAre st'.xf
        (fun b a => R b a ∨ (b ∈ st₀.transfers ∧ a ∈ as ∧ a ≠ b ∧ Reads st₀.xf b a)) ∧
      st'.transfers = st.transfers ∧ ∀ j, (st'.xf j).core = (st₀.xf j).core := by
  induction as generalizing st R with
  | nil => exact ⟨h.congr (by simp), rfl, hcore⟩
  | cons a as ih =>
      obtain ⟨h₁, h₂, h₃⟩ := foldl_addEdge_spec a
        (intersections (sourceRanges st₀) (st.xf a).tgtRanges) h
      obtain ⟨g₁, g₂, g₃⟩ := ih (fun j => (h₃ j).trans (hcore j)) h₁
      refine ⟨g₁.congr ?_, g₂.trans h₂, g₃⟩
      have htgt := tgtRanges_of_core (hcore a)
      intro b' a'
      rw [reads_of_core hcore b' a, mem_intersections (sourceRanges_wf st₀), htgt,
        List.mem_cons]
      simp only [mem_sourceRanges]
      constructor
      · rintro ((hR | ⟨⟨i, hi, hb, hi'⟩, rfl, hne, hr⟩) | ⟨hb, ha, hrest⟩)
        · exact Or.inl hR
        · exact Or.inr ⟨hb, Or.inl rfl, hne, hr⟩
        · exact Or.inr ⟨hb, Or.inr ha, hrest⟩
      · rintro (hR | ⟨hb, rfl | ha, hne, hr⟩)
        · exact Or.inl (Or.inl hR)
        · obtain ⟨i, hi, hi'⟩ := hr
          exact Or.inl (Or.inr ⟨⟨i, hi', hb, hi⟩, rfl, hne, ⟨i, hi, hi'⟩⟩)
        · exact Or.inr ⟨hb, ha, hne, hr⟩

/-- On transfers without edges `GenerateDigraph` adds the edges of `MustPrecede`. -/
theorem generateDigraph_spec
    (st : State)
    (hempty : ∀ j, (st.xf j).goesBefore = .empty ∧ (st.xf j).goesAfter = .empty) :
    EdgesAre (generateDigraph st).xf (MustPrecede st) ∧
      (generateDigraph st).transfers = st.transfers ∧
      ∀ j, ((generateDigraph st).xf j).core = (st.xf j).core := by
  have h₀ : EdgesAre st.xf (fun _ _ => False) := by
    constructor
    · intro b a
      simp [(hempty b).1]
    · intro b a
      simp [(hempty a).2]
    · intro b a v hv
      rw [(hempty b).1] at hv
      cases hv
    · intro b a v hv
      rw [(hempty a).2] at hv
      cases hv
  obtain ⟨h₁, h₂, h₃⟩ := generateDigraph_aux st st.transfers (fun _ => rfl) h₀
  refine ⟨h₁.congr (fun b a => ?_), h₂, h₃⟩
  unfold MustPrecede
  tauto

end Edges

end BlockImageDiff
end AndroidBuild
