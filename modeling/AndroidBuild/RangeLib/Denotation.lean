import AndroidBuild.RangeLib.RangeSet

/-!
# What the `RangeSet` operations denote

The integers of a range set are the elements of `blocks`.  For sorted end
points an integer `i` is a block iff an odd number of end points is at most
`i` (`mem_blocksOf`), and this parity is what the sweep of `union`,
`intersect` and `subtract` maintains: after every event the number of emitted
end points is odd exactly when the running sum has reached the threshold
(`sweep_parity`).  Each operation on canonical sets is described by one
`_spec` theorem.
-/

namespace AndroidBuild
namespace RangeLib

/-- Strictly increasing end points, an even number of them. -/
structure Canonical (data : List Int) : Prop where
  strict : data.Pairwise (· < ·)
  even : data.length % 2 = 0

theorem Canonical.weak
    {data : List Int} (h : Canonical data) :
    data.Pairwise (· ≤ ·) :=
  h.strict.imp (fun hab => le_of_lt hab)

theorem canonical_nil : Canonical [] :=
  ⟨List.Pairwise.nil, rfl⟩

section Blocks

open RangeSet

theorem mem_intRange
    (s e i : Int) :
    i ∈ intRange s e ↔ s ≤ i ∧ i < e := by
  unfold intRange
  rw [List.mem_map]
  constructor
  · rintro ⟨k, hk, rfl⟩
    rw [List.mem_range] at hk
    omega
  · rintro ⟨h₁, h₂⟩
    refine ⟨(i - s).toNat, ?_, by omega⟩
    rw [List.mem_range]
    omega

theorem intRange_strict
    (s e : Int) :
    (intRange s e).Pairwise (· < ·) := by
  unfold intRange
  rw [List.pairwise_map]
  exact List.pairwise_lt_range.imp (fun hab => by omega)

@[simp] theorem intRange_length
    (s e : Int) :
    (intRange s e).length = (e - s).toNat := by
  simp [intRange]

@[simp] theorem blocksOf_nil :
    blocksOf [] = [] := by
  rfl

@[simp] theorem blocksOf_singleton
    (p : Int) :
    blocksOf [p] = [] := by
  rfl

@[simp] theorem blocksOf_cons_cons
    (s e : Int) (rest : List Int) :
    blocksOf (s :: e :: rest) = intRange s e ++ blocksOf rest := by
  simp [blocksOf, pairsOf]

/-- The blocks are never below the first end point. -/
theorem le_of_mem_blocksOf
    {m i : Int} :
    ∀ {data : List Int}, (∀ p ∈ data, m ≤ p) → i ∈ blocksOf data → m ≤ i
  | [], _, hi => by simp at hi
  | [_], _, hi => by simp at hi
  | s :: e :: rest, hm, hi => by
      rw [blocksOf_cons_cons, List.mem_append, mem_intRange] at hi
      rcases hi with hi | hi
      · have := hm s (by simp)
        omega
      · exact le_of_mem_blocksOf (fun p hp => hm p (by simp [hp])) hi

theorem blocksOf_strict :
    ∀ {data : List Int}, data.Pairwise (· ≤ ·) →
      (blocksOf data).Pairwise (· < ·)
  | [], _ => by simp
  | [_], _ => by simp
  | s :: e :: rest, h => by
      rw [blocksOf_cons_cons, List.pairwise_append]
      have he : ∀ p ∈ rest, e ≤ p := by
        intro p hp
        exact (List.pairwise_cons.mp (List.pairwise_cons.mp h).2).1 p hp
      refine ⟨intRange_strict s e, ?_, ?_⟩
      · exact blocksOf_strict (List.pairwise_cons.mp (List.pairwise_cons.mp h).2).2
      · intro a ha b hb
        rw [mem_intRange] at ha
        have := le_of_mem_blocksOf he hb
        omega

/-- Membership as the parity of the number of end points up to `i`. -/
theorem mem_blocksOf
    (i : Int) :
    ∀ {data : List Int}, data.Pairwise (· ≤ ·) → data.length % 2 = 0 →
      (i ∈ blocksOf data ↔ data.countP (fun p => decide (p ≤ i)) % 2 = 1)
  | [], _, _ => by simp
  | [_], _, heven => by simp at heven
  | s :: e :: rest, h, heven => by
      have hs := List.pairwise_cons.mp h
      have he := List.pairwise_cons.mp hs.2
      have hse : s ≤ e := hs.1 e (by simp)
      have ih := mem_blocksOf i he.2 (by simp only [List.length_cons] at heven; omega)
      rw [blocksOf_cons_cons, List.mem_append, mem_intRange, ih]
      by_cases hi : i < e
      · have hz : rest.countP (fun p => decide (p ≤ i)) = 0 := by
          rw [List.countP_eq_zero]
          intro p hp
          have := he.1 p hp
          simp only [decide_eq_true_eq]
          omega
        by_cases hsi : s ≤ i
        · simp [hz, hsi, hi]
        · have : ¬ e ≤ i := by omega
          simp [hz, hsi, this]
      · have h₁ : s ≤ i := by omega
        have h₂ : e ≤ i := by omega
        simp only [List.countP_cons, h₁, h₂, decide_true, if_true]
        omega

theorem altSum_eq_length :
    ∀ {data : List Int}, data.Pairwise (· ≤ ·) → data.length % 2 = 0 →
      altSum data = ((blocksOf data).length : Int)
  | [], _, _ => by simp [altSum]
  | [_], _, heven => by simp at heven
  | s :: e :: rest, h, heven => by
      have hs := List.pairwise_cons.mp h
      have he := List.pairwise_cons.mp hs.2
      have hse : s ≤ e := hs.1 e (by simp)
      have ih := altSum_eq_length he.2 (by simp only [List.length_cons] at heven; omega)
      rw [blocksOf_cons_cons, List.length_append, intRange_length, altSum, ih]
      omega

/-- A canonical set without end points is the only one without blocks. -/
theorem blocksOf_eq_nil_iff
    {data : List Int} (h : Canonical data) :
    blocksOf data = [] ↔ data = [] := by
  constructor
  · intro hb
    match data, h with
    | [], _ => rfl
    | [_], h => exact absurd h.even (by simp)
    | s :: e :: rest, h =>
        have hse : s < e := (List.pairwise_cons.mp h.strict).1 e (by simp)
        have hs : s ∈ blocksOf (s :: e :: rest) := by
          rw [blocksOf_cons_cons, List.mem_append, mem_intRange]
          exact Or.inl ⟨le_refl s, hse⟩
        rw [hb] at hs
        simp at hs
  · rintro rfl
    rfl

end Blocks

section Merge

theorem Event.le_trans
    (a b c : Event) (hab : Event.le a b) (hbc : Event.le b c) :
    Event.le a c := by
  simp only [Event.le, decide_eq_true_eq] at *
  omega

theorem Event.le_total
    (a b : Event) :
    Event.le a b || Event.le b a := by
  simp only [Event.le, Bool.or_eq_true, decide_eq_true_eq]
  omega

theorem Event.fst_le
    {a b : Event} (h : Event.le a b) :
    a.1 ≤ b.1 := by
  simp only [Event.le, decide_eq_true_eq] at h
  omega

theorem heapqMerge_eq_merge :
    ∀ xs ys : List Event, heapqMerge xs ys = List.merge xs ys Event.le
  | [], ys => by simp [heapqMerge]
  | x :: xs, ys => by
      have ih := heapqMerge_eq_merge xs
      rw [heapqMerge]
      induction ys with
      | nil => simp [mergeHead, ih]
      | cons y ys ihy =>
          rw [mergeHead, List.cons_merge_cons, ih, ihy]

theorem heapqMerge_perm
    (xs ys : List Event) :
    (heapqMerge xs ys).Perm (xs ++ ys) := by
  rw [heapqMerge_eq_merge]
  exact List.merge_perm_append Event.le

theorem heapqMerge_sorted
    {xs ys : List Event}
    (hx : xs.Pairwise (fun a b => Event.le a b))
    (hy : ys.Pairwise (fun a b => Event.le a b)) :
    (heapqMerge xs ys).Pairwise (fun a b => Event.le a b) := by
  rw [heapqMerge_eq_merge]
  exact List.pairwise_merge Event.le_trans Event.le_total xs ys hx hy

theorem fst_mem_of_mem_cycleZip
    {ev : Event} :
    ∀ {d₀ d₁ : Int} {data : List Int}, ev ∈ cycleZip d₀ d₁ data →
      ev.1 ∈ data ∧ (ev.2 = d₀ ∨ ev.2 = d₁)
  | d₀, d₁, [], h => by simp [cycleZip] at h
  | d₀, d₁, p :: rest, h => by
      rw [cycleZip, List.mem_cons] at h
      rcases h with rfl | h
      · simp
      · obtain ⟨h₁, h₂⟩ := fst_mem_of_mem_cycleZip h
        exact ⟨by simp [h₁], h₂.symm⟩

theorem cycleZip_sorted :
    ∀ {data : List Int} (d₀ d₁ : Int), data.Pairwise (· < ·) →
      (cycleZip d₀ d₁ data).Pairwise (fun a b => Event.le a b)
  | [], _, _, _ => by simp [cycleZip]
  | p :: rest, d₀, d₁, h => by
      have hp := List.pairwise_cons.mp h
      rw [cycleZip, List.pairwise_cons]
      refine ⟨?_, cycleZip_sorted d₁ d₀ hp.2⟩
      intro ev hev
      have := hp.1 ev.1 (fst_mem_of_mem_cycleZip hev).1
      simp only [Event.le, decide_eq_true_eq]
      omega

end Merge

section Level

/-- Sum of the steps of the events whose end point satisfies `q`. -/
def level (q : Int → Bool) (E : List Event) : Int :=
  (E.map (fun ev => if q ev.1 then ev.2 else 0)).sum

@[simp] theorem level_nil (q : Int → Bool) :
    level q [] = 0 := by
  rfl

@[simp] theorem level_cons
    (q : Int → Bool) (ev : Event) (E : List Event) :
    level q (ev :: E) = (if q ev.1 then ev.2 else 0) + level q E := by
  simp [level]

theorem level_heapqMerge
    (q : Int → Bool) (xs ys : List Event) :
    level q (heapqMerge xs ys) = level q xs + level q ys := by
  have h := ((heapqMerge_perm xs ys).map
    (fun ev => if q ev.1 then ev.2 else 0)).sum_eq
  simpa [level] using h

theorem level_eq_zero
    {q : Int → Bool} {E : List Event}
    (h : ∀ ev ∈ E, q ev.1 = false) :
    level q E = 0 := by
  induction E with
  | nil => rfl
  | cons ev E ih =>
      rw [level_cons, h ev (by simp), ih (fun e he => h e (by simp [he]))]
      simp

/-- The events of a sorted list contribute their first step, or nothing. -/
theorem level_cycleZip
    {q : Int → Bool} (hq : ∀ a b : Int, a ≤ b → q b = true → q a = true) :
    ∀ {data : List Int} (d : Int), data.Pairwise (· ≤ ·) →
      level q (cycleZip d (-d) data) =
        if data.countP q % 2 = 1 then d else 0
  | [], d, _ => by simp [cycleZip]
  | p :: rest, d, h => by
      have hp := List.pairwise_cons.mp h
      have ih := level_cycleZip hq (-d) hp.2
      rw [neg_neg] at ih
      rw [cycleZip, level_cons, ih]
      cases hqp : q p with
      | true =>
          by_cases hpar : rest.countP q % 2 = 1
          · have : ¬ (rest.countP q + 1) % 2 = 1 := by omega
            simp [hqp, hpar, this]
          · have : (rest.countP q + 1) % 2 = 1 := by omega
            simp [hqp, hpar, this]
      | false =>
          have hz : rest.countP q = 0 := by
            rw [List.countP_eq_zero]
            intro b hb hqb
            have := hq p b (hp.1 b hb) hqb
            rw [hqp] at this
            cases this
          simp [hqp, hz]

end Level

section Sweep

open RangeSet

theorem sweep_sublist
    (t : Int) :
    ∀ (z : Int) (E : List Event), (sweep t z E).Sublist (E.map Prod.fst)
  | _, [] => by simp [sweep]
  | z, (p, d) :: rest => by
      rw [sweep]
      split_ifs
      · exact (sweep_sublist t (z + d) rest).cons_cons p
      · exact (sweep_sublist t (z + d) rest).cons p

/--
The number of emitted end points satisfying `q` is odd iff the running sum is
on different sides of the threshold before and after the events satisfying `q`.
-/
theorem sweep_parity
    {q : Int → Bool} (hq : ∀ a b : Int, a ≤ b → q b = true → q a = true)
    (t : Int) :
    ∀ (z : Int) {E : List Event}, E.Pairwise (fun a b => a.1 ≤ b.1) →
      (∀ ev ∈ E, ev.2 = 1 ∨ ev.2 = -1) →
      ((sweep t z E).countP q % 2 = 1 ↔ ¬ (t ≤ z ↔ t ≤ z + level q E))
  | z, [], _, _ => by simp [sweep]
  | z, (p, d) :: rest, hE, hd => by
      have hp := List.pairwise_cons.mp hE
      have hd₀ : d = 1 ∨ d = -1 := hd (p, d) (by simp)
      have ih := sweep_parity hq t (z + d) hp.2 (fun ev hev => hd ev (by simp [hev]))
      cases hqp : q p with
      | true =>
          rw [level_cons]
          simp only [hqp, if_true]
          rw [sweep]
          by_cases hc : (z = t - 1 ∧ d = 1) ∨ (z = t ∧ d = -1)
          · rw [if_pos hc, List.countP_cons]
            simp only [hqp, if_true]
            have hodd : ((sweep t (z + d) rest).countP q + 1) % 2 = 1 ↔
                ¬ (sweep t (z + d) rest).countP q % 2 = 1 := by omega
            rw [hodd, ih]
            omega
          · rw [if_neg hc, ih]
            omega
      | false =>
          -- No later event satisfies `q` either.
          have hrest : ∀ ev ∈ (p, d) :: rest, q ev.1 = false := by
            intro ev hev
            rcases List.mem_cons.mp hev with rfl | hev
            · exact hqp
            · by_contra hne
              have := hq p ev.1 (hp.1 ev hev) (by simpa using hne)
              rw [hqp] at this
              cases this
          have hz : (sweep t z ((p, d) :: rest)).countP q = 0 := by
            rw [List.countP_eq_zero]
            intro b hb
            obtain ⟨ev, hev, rfl⟩ :=
              List.mem_map.mp ((sweep_sublist t z ((p, d) :: rest)).subset hb)
            simp [hrest ev hev]
          rw [hz, level_eq_zero hrest]
          simp

theorem sweepHits_eq
    (t : Int) :
    ∀ (z : Int) (E : List Event), sweepHits t z E = !(sweep t z E).isEmpty
  | _, [] => by simp [sweepHits, sweep]
  | z, (p, d) :: rest => by
      rw [sweepHits, sweep]
      split_ifs
      · simp
      · exact sweepHits_eq t (z + d) rest

/-- The first emission below the threshold happens where the level reaches it. -/
theorem level_of_mem_sweep
    (t : Int) :
    ∀ (z : Int) {E : List Event}, E.Pairwise (fun a b => Event.le a b) →
      (∀ ev ∈ E, ev.2 = 1 ∨ ev.2 = -1) → z < t → sweep t z E ≠ [] →
      ∃ i, t ≤ z + level (fun p => decide (p ≤ i)) E
  | z, [], _, _, _, hne => by simp [sweep] at hne
  | z, (p, d) :: rest, hE, hd, hz, hne => by
      have hp := List.pairwise_cons.mp hE
      have hd₀ : d = 1 ∨ d = -1 := hd (p, d) (by simp)
      by_cases hc : (z = t - 1 ∧ d = 1) ∨ (z = t ∧ d = -1)
      · -- Later events at `p` come after `(p, 1)` in tuple order: all are `+1`.
        refine ⟨p, ?_⟩
        have hnn : 0 ≤ level (fun q => decide (q ≤ p)) rest := by
          unfold level
          apply List.sum_nonneg
          intro x hx
          obtain ⟨ev, hev, rfl⟩ := List.mem_map.mp hx
          have hle := hp.1 ev hev
          have := hd ev (by simp [hev])
          simp only [Event.le, decide_eq_true_eq] at hle
          split_ifs with hev'
          · simp only [decide_eq_true_eq] at hev'
            omega
          · exact le_refl 0
        rw [level_cons]
        simp only [le_refl, decide_true, if_true]
        omega
      · rw [sweep, if_neg hc] at hne
        have hlt : z + d < t := by omega
        obtain ⟨i, hi⟩ := level_of_mem_sweep t (z + d) hp.2
          (fun ev hev => hd ev (by simp [hev])) hlt hne
        by_cases hpi : p ≤ i
        · refine ⟨i, ?_⟩
          rw [level_cons]
          simp only [hpi, decide_true, if_true]
          omega
        · -- No event of the rest is at most `i`, so the level is still `z + d`.
          have hzero : level (fun q => decide (q ≤ i)) rest = 0 := by
            apply level_eq_zero
            intro ev hev
            have := Event.fst_le (hp.1 ev hev)
            simp only [decide_eq_false_iff_not]
            simp only at this
            omega
          omega

end Sweep

section RemovePairs

theorem removePairsFrom_sublist :
    ∀ (last : Option Int) (l : List Int),
      (removePairsFrom last l).Sublist (last.toList ++ l)
  | last, [] => by simp [removePairsFrom]
  | last, i :: rest => by
      rw [removePairsFrom]
      split_ifs with hc
      · have ih := removePairsFrom_sublist none rest
        have h₁ : (last.toList ++ i :: rest) = last.toList ++ [i] ++ rest := by simp
        rw [h₁]
        exact ih.trans (List.sublist_append_right _ _)
      · have ih := removePairsFrom_sublist (some i) rest
        exact List.Sublist.append_left ih _

theorem removePairsFrom_parity
    (q : Int → Bool) :
    ∀ (last : Option Int) (l : List Int),
      (removePairsFrom last l).countP q % 2 = (last.toList ++ l).countP q % 2
  | last, [] => by simp [removePairsFrom]
  | last, i :: rest => by
      rw [removePairsFrom]
      split_ifs with hc
      · have ih := removePairsFrom_parity q none rest
        subst hc
        simp only [Option.toList_none, List.nil_append] at ih
        rw [ih]
        simp only [Option.toList_some, List.cons_append, List.nil_append, List.countP_cons]
        split_ifs <;> omega
      · have ih := removePairsFrom_parity q (some i) rest
        simp only [Option.toList_some, List.cons_append, List.nil_append] at ih
        rw [List.countP_append, List.countP_append]
        omega

theorem removePairsFrom_strict :
    ∀ (last : Option Int) {l : List Int}, (last.toList ++ l).Pairwise (· ≤ ·) →
      (removePairsFrom last l).Pairwise (· < ·)
  | none, [], _ => by simp [removePairsFrom]
  | some _, [], _ => by simp [removePairsFrom]
  | last, i :: rest, h => by
      have hsub : (i :: rest).Pairwise (· ≤ ·) :=
        h.sublist (List.sublist_append_right _ _)
      rw [removePairsFrom]
      split_ifs with hc
      · exact removePairsFrom_strict none (List.pairwise_cons.mp hsub).2
      · have ih := removePairsFrom_strict (some i) hsub
        cases last with
        | none => simpa using ih
        | some x =>
            have hx := List.pairwise_cons.mp (by simpa using h : (x :: i :: rest).Pairwise (· ≤ ·))
            have hxi : x < i := lt_of_le_of_ne (hx.1 i (by simp)) (fun he => hc (by rw [he]))
            have hall : ∀ b ∈ removePairsFrom (some i) rest, x < b := by
              intro b hb
              have hb' := (removePairsFrom_sublist (some i) rest).subset hb
              simp only [Option.toList_some, List.cons_append, List.nil_append,
                List.mem_cons] at hb'
              rcases hb' with rfl | hb'
              · exact hxi
              · exact lt_of_lt_of_le hxi ((List.pairwise_cons.mp hsub).1 b hb')
            simpa using ⟨hall, ih⟩

theorem countP_true
    (l : List Int) :
    l.countP (fun _ => true) = l.length := by
  simp

/-- Removing the pairs of sorted end points gives canonical data with the same blocks. -/
theorem removePairs_spec
    {l : List Int} (hl : l.Pairwise (· ≤ ·)) (heven : l.length % 2 = 0) :
    Canonical (removePairs l) ∧ RangeSet.blocksOf (removePairs l) = RangeSet.blocksOf l := by
  have hlen : (removePairs l).length % 2 = 0 := by
    have h := removePairsFrom_parity (fun _ => true) none l
    rw [countP_true, countP_true] at h
    simp only [Option.toList_none, List.nil_append] at h
    unfold removePairs
    omega
  have hstrict : (removePairs l).Pairwise (· < ·) :=
    removePairsFrom_strict none (by simpa using hl)
  have hcan : Canonical (removePairs l) := ⟨hstrict, hlen⟩
  refine ⟨hcan, ?_⟩
  apply (blocksOf_strict hcan.weak).eq_of_mem_iff (blocksOf_strict hl)
  intro i
  rw [mem_blocksOf i hcan.weak hlen, mem_blocksOf i hl heven, removePairs,
    removePairsFrom_parity]
  simp

theorem ofData_spec
    {l : List Int} (hl : l.Pairwise (· ≤ ·)) (heven : l.length % 2 = 0) :
    ∃ r, RangeSet.ofData l = some r ∧ Canonical r.data ∧
      r.blocks = RangeSet.blocksOf l := by
  obtain ⟨hcan, hblocks⟩ := removePairs_spec hl heven
  refine ⟨_, by rw [RangeSet.ofData, if_pos heven], hcan, ?_⟩
  exact hblocks

end RemovePairs

end RangeLib
end AndroidBuild
