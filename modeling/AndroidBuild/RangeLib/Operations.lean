import AndroidBuild.RangeLib.Denotation

/-!
# The `RangeSet` operations on canonical sets

One theorem per operation: on canonical operands it returns, the result is
canonical, and its blocks are the expected ones.  The three sweeping
operations are instances of `sweep_spec`.
-/

namespace AndroidBuild
namespace RangeLib
namespace RangeSet

section SetOperations

variable {a b : RangeSet}

theorem mem_blocks
    (ha : Canonical a.data) (i : Int) :
    i ∈ a.blocks ↔ a.data.countP (fun p => decide (p ≤ i)) % 2 = 1 :=
  mem_blocksOf i ha.weak ha.even

theorem blocks_strict
    (ha : Canonical a.data) :
    a.blocks.Pairwise (· < ·) :=
  blocksOf_strict ha.weak

theorem blocks_nodup
    (ha : Canonical a.data) :
    a.blocks.Nodup :=
  (blocks_strict ha).imp (fun h => ne_of_lt h)

theorem size_eq_length
    (ha : Canonical a.data) :
    a.size = (a.blocks.length : Int) :=
  altSum_eq_length ha.weak ha.even

theorem nonempty_iff
    (ha : Canonical a.data) :
    a.nonempty = true ↔ ∃ i, i ∈ a.blocks := by
  have h := blocksOf_eq_nil_iff ha
  unfold nonempty blocks
  constructor
  · intro hne
    apply List.exists_mem_of_ne_nil
    intro hnil
    simp [h.mp hnil] at hne
  · rintro ⟨i, hi⟩
    cases hd : a.data with
    | nil => simp [hd] at hi
    | cons p rest => simp

theorem countP_le_eq
    (l : List Int) (p : Int) :
    l.countP (fun x => decide (x ≤ p)) =
      l.countP (fun x => decide (x ≤ p - 1)) + l.count p := by
  induction l with
  | nil => rfl
  | cons x l ih =>
      simp only [List.countP_cons, List.count_cons, decide_eq_true_eq, beq_iff_eq, ih]
      split_ifs <;> omega

theorem mem_data_iff
    (ha : Canonical a.data) (p : Int) :
    p ∈ a.data ↔ ¬ (p ∈ a.blocks ↔ p - 1 ∈ a.blocks) := by
  have hnodup : a.data.Nodup := ha.strict.imp (fun h => ne_of_lt h)
  have hcount := countP_le_eq a.data p
  rw [mem_blocks ha p, mem_blocks ha (p - 1)]
  by_cases hp : p ∈ a.data
  · rw [List.count_eq_one_of_mem hnodup hp] at hcount
    simp only [hp, true_iff]
    omega
  · rw [List.count_eq_zero_of_not_mem hp] at hcount
    simp only [hp, false_iff, not_not]
    omega

theorem sameData_iff
    (ha : Canonical a.data) (hb : Canonical b.data) :
    a.sameData b = true ↔ ∀ i, i ∈ a.blocks ↔ i ∈ b.blocks := by
  unfold sameData
  rw [decide_eq_true_eq]
  constructor
  · intro h i
    unfold blocks
    rw [h]
  · intro h
    refine ha.strict.eq_of_mem_iff hb.strict ?_
    intro p
    rw [mem_data_iff ha, mem_data_iff hb, h p, h (p - 1)]

theorem merged_sorted
    (d₀ d₁ e₀ e₁ : Int)
    (ha : Canonical a.data) (hb : Canonical b.data) :
    (heapqMerge (cycleZip d₀ d₁ a.data) (cycleZip e₀ e₁ b.data)).Pairwise
      (fun x y => Event.le x y) :=
  heapqMerge_sorted (cycleZip_sorted d₀ d₁ ha.strict) (cycleZip_sorted e₀ e₁ hb.strict)

theorem merged_steps
    (da db : Int) (hda : da = 1 ∨ da = -1) (hdb : db = 1 ∨ db = -1) :
    ∀ ev ∈ heapqMerge (cycleZip da (-da) a.data) (cycleZip db (-db) b.data),
      ev.2 = 1 ∨ ev.2 = -1 := by
  intro ev hev
  rcases List.mem_append.mp ((heapqMerge_perm _ _).subset hev) with h | h
  · have := (fst_mem_of_mem_cycleZip h).2
    omega
  · have := (fst_mem_of_mem_cycleZip h).2
    omega

theorem merged_level
    {q : Int → Bool} (hq : ∀ x y : Int, x ≤ y → q y = true → q x = true)
    (da db : Int) (ha : Canonical a.data) (hb : Canonical b.data) :
    level q (heapqMerge (cycleZip da (-da) a.data) (cycleZip db (-db) b.data)) =
      (if a.data.countP q % 2 = 1 then da else 0) +
        (if b.data.countP q % 2 = 1 then db else 0) := by
  rw [level_heapqMerge, level_cycleZip hq da ha.weak, level_cycleZip hq db hb.weak]

/-- The sweep with threshold `t` keeps the blocks whose steps add up to `t`. -/
theorem sweep_spec
    (t da db : Int) (ht : 0 < t)
    (hda : da = 1 ∨ da = -1) (hdb : db = 1 ∨ db = -1)
    (ha : Canonical a.data) (hb : Canonical b.data) :
    ∃ r, ofData (sweep t 0
        (heapqMerge (cycleZip da (-da) a.data) (cycleZip db (-db) b.data))) = some r ∧
      Canonical r.data ∧
      ∀ i, i ∈ r.blocks ↔
        t ≤ (if i ∈ a.blocks then da else 0) + (if i ∈ b.blocks then db else 0) := by
  set E := heapqMerge (cycleZip da (-da) a.data) (cycleZip db (-db) b.data) with hE
  have hsorted := merged_sorted da (-da) db (-db) ha hb
  have hfst : E.Pairwise (fun x y => x.1 ≤ y.1) := hsorted.imp Event.fst_le
  have hsteps := merged_steps (a := a) (b := b) da db hda hdb
  have hweak : (sweep t 0 E).Pairwise (· ≤ ·) :=
    (List.pairwise_map.mpr hfst).sublist (sweep_sublist t 0 E)
  have heven : (sweep t 0 E).length % 2 = 0 := by
    have hpar := sweep_parity (q := fun _ => true) (by simp) t 0 hfst hsteps
    rw [merged_level (by simp) da db ha hb, countP_true, countP_true, countP_true,
      ha.even, hb.even] at hpar
    simp only [Nat.zero_ne_one, if_false] at hpar
    omega
  obtain ⟨r, hr, hcan, hblocks⟩ := ofData_spec hweak heven
  refine ⟨r, hr, hcan, ?_⟩
  intro i
  have hq : ∀ x y : Int, x ≤ y → decide (y ≤ i) = true → decide (x ≤ i) = true := by
    intro x y hxy hy
    simp only [decide_eq_true_eq] at hy ⊢
    omega
  have hpar := sweep_parity hq t 0 hfst hsteps
  rw [merged_level hq da db ha hb] at hpar
  rw [hblocks, mem_blocksOf i hweak heven, hpar]
  simp only [mem_blocks ha, mem_blocks hb]
  omega

theorem union_spec
    (ha : Canonical a.data) (hb : Canonical b.data) :
    ∃ r, a.union b = some r ∧ Canonical r.data ∧
      ∀ i, i ∈ r.blocks ↔ i ∈ a.blocks ∨ i ∈ b.blocks := by
  obtain ⟨r, hr, hcan, hmem⟩ :=
    sweep_spec 1 1 1 (by omega) (by simp) (by simp) ha hb
  refine ⟨r, hr, hcan, fun i => ?_⟩
  rw [hmem i]
  split_ifs <;> simp_all

theorem intersect_spec
    (ha : Canonical a.data) (hb : Canonical b.data) :
    ∃ r, a.intersect b = some r ∧ Canonical r.data ∧
      ∀ i, i ∈ r.blocks ↔ i ∈ a.blocks ∧ i ∈ b.blocks := by
  obtain ⟨r, hr, hcan, hmem⟩ :=
    sweep_spec 2 1 1 (by omega) (by simp) (by simp) ha hb
  refine ⟨r, hr, hcan, fun i => ?_⟩
  rw [hmem i]
  split_ifs <;> simp_all

theorem subtract_spec
    (ha : Canonical a.data) (hb : Canonical b.data) :
    ∃ r, a.subtract b = some r ∧ Canonical r.data ∧
      ∀ i, i ∈ r.blocks ↔ i ∈ a.blocks ∧ i ∉ b.blocks := by
  obtain ⟨r, hr, hcan, hmem⟩ :=
    sweep_spec 1 1 (-1) (by omega) (by simp) (by simp) ha hb
  refine ⟨r, by simpa [subtract] using hr, hcan, fun i => ?_⟩
  rw [hmem i]
  split_ifs <;> simp_all

theorem overlaps_spec
    (ha : Canonical a.data) (hb : Canonical b.data) :
    a.overlaps b = true ↔ ∃ i, i ∈ a.blocks ∧ i ∈ b.blocks := by
  have hsorted := merged_sorted 1 (-1) 1 (-1) ha hb
  have hsteps := merged_steps (a := a) (b := b) 1 1 (by simp) (by simp)
  have hlevel : ∀ i : Int,
      level (fun p => decide (p ≤ i))
        (heapqMerge (cycleZip 1 (-1) a.data) (cycleZip 1 (-1) b.data)) =
      (if i ∈ a.blocks then 1 else 0) + (if i ∈ b.blocks then 1 else 0) := by
    intro i
    rw [merged_level (by simp only [decide_eq_true_eq]; omega) 1 1 ha hb]
    simp only [mem_blocks ha, mem_blocks hb]
  unfold overlaps
  rw [sweepHits_eq]
  constructor
  · intro h
    obtain ⟨i, hi⟩ := level_of_mem_sweep 2 0 hsorted hsteps (by omega)
      (fun hnil => by rw [hnil] at h; simp at h)
    rw [hlevel i] at hi
    refine ⟨i, ?_⟩
    split_ifs at hi <;> simp_all
  · rintro ⟨i, hia, hib⟩
    have hpar := sweep_parity (q := fun p => decide (p ≤ i))
      (by simp only [decide_eq_true_eq]; omega) 2 0
      (hsorted.imp Event.fst_le) hsteps
    rw [hlevel i] at hpar
    simp only [hia, hib, if_true] at hpar
    cases hs : sweep 2 0
        (heapqMerge (cycleZip 1 (-1) a.data) (cycleZip 1 (-1) b.data)) with
    | nil =>
        rw [hs] at hpar
        simp at hpar
    | cons p rest => simp

end SetOperations

section First

theorem firstLoop_weak :
    ∀ {data : List Int} {n : Int}, 0 ≤ n → data.Pairwise (· < ·) →
      (firstLoop n data).Pairwise (· ≤ ·) ∧ (firstLoop n data).length % 2 = 0 ∧
      (∀ p ∈ firstLoop n data, ∃ s ∈ data, s ≤ p)
  | [], _, _, _ => by simp [firstLoop]
  | [_], _, _, _ => by simp [firstLoop]
  | s :: e :: rest, n, hn, h => by
      have hs := List.pairwise_cons.mp h
      have he := List.pairwise_cons.mp hs.2
      have hse : s < e := hs.1 e (by simp)
      rw [firstLoop]
      split_ifs with hc
      · refine ⟨by simp [hn], by simp, ?_⟩
        intro p hp
        refine ⟨s, by simp, ?_⟩
        simp only [List.mem_cons, List.not_mem_nil, or_false] at hp
        omega
      · obtain ⟨ih₁, ih₂, ih₃⟩ := firstLoop_weak (n := n - (e - s)) (by omega) he.2
        have hlow : ∀ p ∈ firstLoop (n - (e - s)) rest, e < p := by
          intro p hp
          obtain ⟨s', hs', hle⟩ := ih₃ p hp
          have := he.1 s' hs'
          omega
        refine ⟨?_, by simp only [List.length_cons]; omega, ?_⟩
        · refine List.pairwise_cons.mpr ⟨?_, List.pairwise_cons.mpr ⟨?_, ih₁⟩⟩
          · intro p hp
            rcases List.mem_cons.mp hp with rfl | hp
            · exact le_of_lt hse
            · have := hlow p hp
              omega
          · intro p hp
            exact le_of_lt (hlow p hp)
        · intro p hp
          rcases List.mem_cons.mp hp with rfl | hp
          · exact ⟨p, by simp, le_refl p⟩
          · rcases List.mem_cons.mp hp with rfl | hp
            · exact ⟨p, by simp, le_refl p⟩
            · obtain ⟨s', hs', hle⟩ := ih₃ p hp
              exact ⟨s', by simp [hs'], hle⟩

theorem take_intRange
    (s e n : Int) (h : e - s ≥ n) :
    (intRange s e).take n.toNat = intRange s (s + n) := by
  unfold intRange
  rw [← List.map_take, List.take_range]
  congr 2
  omega

theorem blocksOf_firstLoop :
    ∀ {data : List Int} {n : Int}, 0 ≤ n → data.Pairwise (· < ·) →
      blocksOf (firstLoop n data) = (blocksOf data).take n.toNat
  | [], _, _, _ => by simp [firstLoop]
  | [_], _, _, _ => by simp [firstLoop]
  | s :: e :: rest, n, hn, h => by
      have hs := List.pairwise_cons.mp h
      have hse : s < e := hs.1 e (by simp)
      rw [firstLoop]
      split_ifs with hc
      · rw [blocksOf_cons_cons, blocksOf_cons_cons, blocksOf_nil, List.append_nil,
          List.take_append_of_le_length (by rw [intRange_length]; omega),
          take_intRange s e n hc]
      · have hwhole : (intRange s e).take n.toNat = intRange s e :=
          List.take_of_length_le (by rw [intRange_length]; omega)
        have hrest : n.toNat - (e - s).toNat = (n - (e - s)).toNat := by omega
        rw [blocksOf_cons_cons, blocksOf_cons_cons,
          blocksOf_firstLoop (n := n - (e - s)) (by omega)
            (List.pairwise_cons.mp hs.2).2,
          List.take_append, hwhole, intRange_length, hrest]

theorem first_spec
    {a : RangeSet} {n : Int} (ha : Canonical a.data) (hn : 0 ≤ n) :
    ∃ r, a.first n = some r ∧ Canonical r.data ∧
      r.blocks = a.blocks.take n.toNat := by
  unfold first
  split_ifs with hc
  · refine ⟨a, rfl, ha, ?_⟩
    rw [size_eq_length ha] at hc
    rw [List.take_of_length_le (by omega)]
  · obtain ⟨hweak, heven, _⟩ := firstLoop_weak hn ha.strict
    obtain ⟨r, hr, hcan, hblocks⟩ := ofData_spec hweak heven
    exact ⟨r, hr, hcan, by rw [hblocks, blocksOf_firstLoop hn ha.strict]; rfl⟩

end First

section MapWithin

/-- Events of `self` from a state of the loop of `map_within`. -/
def selfEvents : Option Int → List Int → List Event
  | none, data => cycleZip (-5) 5 data
  | some _, data => cycleZip 5 (-5) data

/-- Number of integers of `self` below `p`, counted from a state of the loop. -/
def below : Option Int → List Int → Int → Int
  | none, [], _ => 0
  | none, s :: rest, p => if p ≤ s then 0 else below (some s) rest p
  | some s, [], p => p - s
  | some s, e :: rest, p => if p ≤ e then p - s else e - s + below none rest p

/-- The end point `p` is met while a range of `self` is open. -/
def Inside : Option Int → List Int → Int → Prop
  | none, [], _ => False
  | none, s :: rest, p => s ≤ p ∧ Inside (some s) rest p
  | some _, [], _ => True
  | some _, e :: rest, p => p ≤ e ∨ Inside none rest p

theorem below_open
    {s p : Int} {rest : List Int}
    (hsp : s ≤ p) (hrest : ∀ x ∈ rest, s < x) :
    below none (s :: rest) p = below (some s) rest p := by
  rw [below]
  split_ifs with hps
  · have heq : p = s := le_antisymm hps hsp
    subst heq
    cases rest with
    | nil => simp [below]
    | cons e rest =>
        have := hrest e (by simp)
        rw [below, if_pos (by omega)]
        omega
  · rfl

/-- The loop of `map_within` emits the rank of every end point of `other`. -/
theorem mapWithinLoop_eq :
    ∀ (A : List Int) (start : Option Int) (offset db : Int) {B : List Int},
      (db = 1 ∨ db = -1) → A.Pairwise (· < ·) → B.Pairwise (· < ·) →
      (∀ p ∈ B, Inside start A p) →
      mapWithinLoop offset start
          (List.merge (selfEvents start A) (cycleZip db (-db) B) Event.le) =
        some (B.map (fun p => offset + below start A p)) := by
  intro A
  induction A with
  | nil =>
      intro start offset db B hdb _ hB hin
      cases start with
      | none =>
          cases B with
          | nil => simp [selfEvents, cycleZip, mapWithinLoop]
          | cons p B => exact absurd (hin p (by simp)) (by simp [Inside])
      | some s =>
          simp only [selfEvents, cycleZip, List.nil_merge]
          clear hin hB
          induction B generalizing db with
          | nil => simp [cycleZip, mapWithinLoop]
          | cons p B ih =>
              have ih' := ih (-db) (by omega)
              rw [neg_neg] at ih'
              have h₁ : ¬ db = -5 := by omega
              have h₂ : ¬ db = 5 := by omega
              rw [cycleZip, mapWithinLoop]
              simp only [h₁, h₂, if_false, ih', Option.map_some, List.map_cons, below]
              congr 2
              omega
  | cons a A ih =>
      intro start offset db B hdb hA hB hin
      have ha := List.pairwise_cons.mp hA
      induction B generalizing db with
      | nil =>
          cases start with
          | none =>
              have := ih (some a) offset db (B := []) hdb ha.2 hB (by simp)
              simpa [selfEvents, cycleZip, mapWithinLoop] using this
          | some s =>
              have := ih none (offset + (a - s)) db (B := []) hdb ha.2 hB (by simp)
              simpa [selfEvents, cycleZip, mapWithinLoop] using this
      | cons b B ihB =>
          have hb := List.pairwise_cons.mp hB
          have hbin := hin b (by simp)
          cases start with
          | none =>
              -- Nothing of `other` comes before the next range of `self` opens.
              have hle : Event.le (a, -5) (b, db) = true := by
                have := hbin.1
                simp only [Event.le, decide_eq_true_eq]
                omega
              have hstep := ih (some a) offset db (B := b :: B) hdb ha.2 hB
                (fun p hp => (hin p hp).2)
              simp only [selfEvents, cycleZip] at hstep ⊢
              rw [List.cons_merge_cons, if_pos hle, mapWithinLoop, if_pos rfl, hstep]
              congr 1
              apply List.map_congr_left
              intro p hp
              rw [below_open (hin p hp).1 ha.1]
          | some s =>
              by_cases hle : Event.le (a, 5) (b, db) = true
              · have hab : a < b := by
                  simp only [Event.le, decide_eq_true_eq] at hle
                  omega
                have hlt : ∀ p ∈ b :: B, a < p := by
                  intro p hp
                  rcases List.mem_cons.mp hp with rfl | hp
                  · exact hab
                  · exact lt_trans hab (hb.1 p hp)
                have hstep := ih none (offset + (a - s)) db (B := b :: B) hdb ha.2 hB (by
                  intro p hp
                  rcases hin p hp with h | h
                  · exact absurd h (not_le.mpr (hlt p hp))
                  · exact h)
                simp only [selfEvents, cycleZip] at hstep ⊢
                rw [List.cons_merge_cons, if_pos hle, mapWithinLoop]
                simp only [show ¬ (5 : Int) = -5 by omega, if_false, if_true]
                rw [hstep]
                congr 1
                apply List.map_congr_left
                intro p hp
                have := hlt p hp
                rw [below, if_neg (by omega)]
                omega
              · have hba : b ≤ a := by
                  simp only [Event.le, decide_eq_true_eq] at hle
                  omega
                have hstep := ihB (-db) (by omega) hb.2
                  (fun p hp => hin p (by simp [hp]))
                rw [neg_neg] at hstep
                have h₁ : ¬ db = -5 := by omega
                have h₂ : ¬ db = 5 := by omega
                simp only [selfEvents, cycleZip] at hstep ⊢
                rw [List.cons_merge_cons, if_neg hle, mapWithinLoop]
                simp only [h₁, h₂, if_false]
                rw [hstep]
                simp only [Option.map_some, List.map_cons, below, hba, if_true]
                congr 2
                omega

/-- The rank of `p` counts the blocks below `p`. -/
theorem below_eq_countP :
    ∀ {data : List Int} (p : Int), data.Pairwise (· < ·) → data.length % 2 = 0 →
      below none data p = ((blocksOf data).countP (fun i => decide (i < p)) : Int)
  | [], _, _, _ => by simp [below]
  | [_], _, _, heven => by simp at heven
  | s :: e :: rest, p, h, heven => by
      have hs := List.pairwise_cons.mp h
      have he := List.pairwise_cons.mp hs.2
      have hse : s < e := hs.1 e (by simp)
      have ih := below_eq_countP p he.2 (by simp only [List.length_cons] at heven; omega)
      have hrange : ((intRange s e).countP (fun i => decide (i < p)) : Int) =
          (min p e - s).toNat := by
        have : (intRange s e).countP (fun i => decide (i < p)) =
            (min p e - s).toNat := by
          rw [List.countP_eq_length_filter]
          have hf : (intRange s e).filter (fun i => decide (i < p)) =
              intRange s (min p e) := by
            apply ((intRange_strict s e).sublist List.filter_sublist).eq_of_mem_iff
              (intRange_strict s (min p e))
            intro i
            rw [List.mem_filter, mem_intRange, mem_intRange]
            simp only [decide_eq_true_eq]
            omega
          rw [hf, intRange_length]
        rw [this]
      have hlow : ∀ i ∈ blocksOf rest, e < i := by
        intro i hi
        have := le_of_mem_blocksOf (m := e + 1) (fun q hq => he.1 q hq) hi
        omega
      rw [blocksOf_cons_cons, List.countP_append, Nat.cast_add, hrange, below]
      have hzero : p ≤ e → (blocksOf rest).countP (fun i => decide (i < p)) = 0 := by
        intro hpe
        rw [List.countP_eq_zero]
        intro i hi
        have := hlow i hi
        simp only [decide_eq_true_eq]
        omega
      split_ifs with hps
      · rw [hzero (by omega)]
        omega
      · rw [below]
        split_ifs with hpe
        · rw [hzero hpe]
          omega
        · rw [ih]
          omega

theorem inside_of_mem :
    ∀ {data : List Int} {i p : Int}, data.Pairwise (· < ·) →
      i ∈ blocksOf data → i ≤ p → p ≤ i + 1 → Inside none data p
  | [], _, _, _, hi, _, _ => by simp at hi
  | [_], _, _, _, hi, _, _ => by simp at hi
  | s :: e :: rest, i, p, h, hi, h₁, h₂ => by
      have hs := List.pairwise_cons.mp h
      have he := List.pairwise_cons.mp hs.2
      have hse : s < e := hs.1 e (by simp)
      rw [blocksOf_cons_cons, List.mem_append, mem_intRange] at hi
      rcases hi with hi | hi
      · exact ⟨by omega, Or.inl (by omega)⟩
      · have := le_of_mem_blocksOf (m := e + 1) (fun q hq => he.1 q hq) hi
        exact ⟨by omega, Or.inr (inside_of_mem he.2 hi h₁ h₂)⟩

/-- Number of elements of a list below `p`. -/
def rank (l : List Int) (p : Int) : Int :=
  (l.countP (fun i => decide (i < p)) : Int)

theorem rank_mono
    (l : List Int) {p q : Int} (h : p ≤ q) :
    rank l p ≤ rank l q := by
  unfold rank
  have := List.countP_mono_left (l := l) (p := fun i => decide (i < p))
    (q := fun i => decide (i < q)) (by
      intro x _ hx
      simp only [decide_eq_true_eq] at hx ⊢
      omega)
  omega

theorem rank_succ_of_mem
    {l : List Int} (hnd : l.Nodup) {p : Int} (hp : p ∈ l) :
    rank l (p + 1) = rank l p + 1 := by
  induction l with
  | nil => simp at hp
  | cons x l ih =>
      have hx := List.nodup_cons.mp hnd
      unfold rank at ih ⊢
      simp only [List.countP_cons, decide_eq_true_eq, Nat.cast_add]
      rcases List.mem_cons.mp hp with rfl | hp
      · have heq : l.countP (fun i => decide (i < p + 1)) =
            l.countP (fun i => decide (i < p)) := by
          apply List.countP_congr
          intro y hy
          have : y ≠ p := fun hyp => hx.1 (hyp ▸ hy)
          simp only [decide_eq_true_eq]
          omega
        rw [heq, if_pos (by omega), if_neg (by omega)]
        push_cast
        omega
      · have hxp : x ≠ p := fun hxp => hx.1 (hxp ▸ hp)
        rw [ih hx.2 hp]
        by_cases hlt : x < p
        · rw [if_pos (by omega), if_pos hlt]
          push_cast
          omega
        · rw [if_neg (by omega), if_neg hlt]
          push_cast
          omega

/-- On a run of consecutive elements the rank moves in step. -/
theorem rank_run
    {l : List Int} (hnd : l.Nodup) {s : Int} :
    ∀ k : Nat, (∀ i, s ≤ i → i < s + k → i ∈ l) → rank l (s + k) = rank l s + k
  | 0, _ => by simp
  | k + 1, hall => by
      have ih := rank_run hnd k (fun i h₁ h₂ => hall i h₁ (by push_cast; omega))
      have hmem : s + (k : Int) ∈ l := hall _ (by omega) (by push_cast; omega)
      have := rank_succ_of_mem hnd hmem
      push_cast
      rw [← add_assoc, this, ih]
      omega

theorem blocksOf_map_rank
    {l : List Int} (hnd : l.Nodup) :
    ∀ {data : List Int}, data.Pairwise (· < ·) → (∀ i ∈ blocksOf data, i ∈ l) →
      blocksOf (data.map (rank l)) = (blocksOf data).map (rank l)
  | [], _, _ => by simp
  | [_], _, _ => by simp
  | s :: e :: rest, h, hsub => by
      have hs := List.pairwise_cons.mp h
      have he := List.pairwise_cons.mp hs.2
      have hse : s < e := hs.1 e (by simp)
      have ih := blocksOf_map_rank hnd he.2
        (fun i hi => hsub i (by rw [blocksOf_cons_cons]; simp [hi]))
      have hall : ∀ i, s ≤ i → i < e → i ∈ l := by
        intro i h₁ h₂
        apply hsub
        rw [blocksOf_cons_cons, List.mem_append, mem_intRange]
        exact Or.inl ⟨h₁, h₂⟩
      have hrun : ∀ k : Nat, s + k ≤ e → rank l (s + k) = rank l s + k := by
        intro k hk
        exact rank_run hnd k (fun i h₁ h₂ => hall i h₁ (by omega))
      simp only [List.map_cons]
      rw [blocksOf_cons_cons, blocksOf_cons_cons, List.map_append, ih]
      congr 1
      have hre : rank l e = rank l s + (e - s) := by
        have := hrun (e - s).toNat (by omega)
        rwa [show s + ((e - s).toNat : Int) = e by omega,
          show ((e - s).toNat : Int) = e - s by omega] at this
      unfold intRange
      rw [List.map_map, hre, show rank l s + (e - s) - rank l s = e - s by omega]
      apply List.map_congr_left
      intro k hk
      rw [List.mem_range] at hk
      simp only [Function.comp]
      rw [hrun k (by omega)]

/-- The end points of a set are blocks, or follow one. -/
theorem inside_endpoints :
    ∀ {data A : List Int}, data.Pairwise (· < ·) → data.length % 2 = 0 →
      A.Pairwise (· < ·) → (∀ i ∈ blocksOf data, i ∈ blocksOf A) →
      ∀ p ∈ data, Inside none A p
  | [], _, _, _, _, _, _, hp => by simp at hp
  | [_], _, _, heven, _, _, _, _ => by simp at heven
  | s :: e :: rest, A, h, heven, hA, hsub, p, hp => by
      have hs := List.pairwise_cons.mp h
      have he := List.pairwise_cons.mp hs.2
      have hse : s < e := hs.1 e (by simp)
      have hin : ∀ i, s ≤ i → i < e → i ∈ blocksOf A := by
        intro i h₁ h₂
        apply hsub
        rw [blocksOf_cons_cons, List.mem_append, mem_intRange]
        exact Or.inl ⟨h₁, h₂⟩
      simp only [List.mem_cons] at hp
      rcases hp with rfl | rfl | hp
      · exact inside_of_mem hA (hin p (le_refl p) hse) (le_refl p) (by omega)
      · exact inside_of_mem hA (hin (p - 1) (by omega) (by omega)) (by omega) (by omega)
      · exact inside_endpoints he.2 (by simp only [List.length_cons] at heven; omega) hA
          (fun i hi => hsub i (by rw [blocksOf_cons_cons]; simp [hi])) p hp

theorem mapWithin_spec
    {a b : RangeSet} (ha : Canonical a.data) (hb : Canonical b.data)
    (hsub : ∀ i ∈ b.blocks, i ∈ a.blocks) :
    ∃ r, a.mapWithin b = some r ∧ Canonical r.data ∧
      r.blocks = b.blocks.map (rank a.blocks) := by
  have hloop := mapWithinLoop_eq a.data none 0 (-1) (by omega) ha.strict hb.strict
    (inside_endpoints hb.strict hb.even ha.strict hsub)
  have hmap : b.data.map (fun p => 0 + below none a.data p) =
      b.data.map (rank a.blocks) := by
    apply List.map_congr_left
    intro p _
    rw [zero_add, below_eq_countP p ha.strict ha.even]
    rfl
  have hweak : (b.data.map (rank a.blocks)).Pairwise (· ≤ ·) := by
    rw [List.pairwise_map]
    exact hb.weak.imp (fun h => rank_mono a.blocks h)
  obtain ⟨r, hr, hcan, hblocks⟩ :=
    ofData_spec hweak (by rw [List.length_map]; exact hb.even)
  refine ⟨r, ?_, hcan, ?_⟩
  · unfold mapWithin
    rw [heapqMerge_eq_merge]
    simp only [selfEvents, neg_neg] at hloop
    rw [hloop, hmap]
    exact hr
  · rw [hblocks]
    exact blocksOf_map_rank (blocks_nodup ha) hb.strict hsub

/-- In a strictly sorted list the rank of an element is its index. -/
theorem getElem?_rank
    {l : List Int} (hl : l.Pairwise (· < ·)) {i : Int} (hi : i ∈ l) :
    l[(rank l i).toNat]? = some i := by
  induction l with
  | nil => simp at hi
  | cons x l ih =>
      have hx := List.pairwise_cons.mp hl
      unfold rank at ih ⊢
      rcases List.mem_cons.mp hi with rfl | hi
      · have hz : (i :: l).countP (fun j => decide (j < i)) = 0 := by
          rw [List.countP_eq_zero]
          intro y hy
          simp only [decide_eq_true_eq]
          rcases List.mem_cons.mp hy with rfl | hy
          · omega
          · have := hx.1 y hy
            omega
        simp [hz]
      · have hxi := hx.1 i hi
        have := ih hx.2 hi
        rw [List.countP_cons, decide_eq_true hxi]
        simpa using this

theorem rank_inj
    {l : List Int} (hl : l.Pairwise (· < ·)) {i j : Int} (hi : i ∈ l) (hj : j ∈ l)
    (h : rank l i = rank l j) :
    i = j := by
  have hi' := getElem?_rank hl hi
  rw [h, getElem?_rank hl hj] at hi'
  exact (Option.some.inj hi').symm

/-- The ranks of a sorted list are its positions. -/
theorem map_rank
    {l : List Int} (hl : l.Pairwise (· < ·)) :
    l.map (rank l) = intRange 0 l.length := by
  have hnodup : l.Nodup := hl.imp (fun h => ne_of_lt h)
  refine List.ext_getElem (by simp [intRange]) ?_
  intro k hk _
  rw [List.length_map] at hk
  have hget := getElem?_rank hl (List.getElem_mem hk)
  have hpos : (rank l l[k]).toNat = k :=
    ((List.getElem?_inj (List.getElem?_eq_some_iff.mp hget).1 hnodup).mp
      (hget.trans (List.getElem?_eq_getElem hk).symm))
  have hnonneg : 0 ≤ rank l l[k] := by
    unfold rank
    omega
  simp only [intRange, List.getElem_map, List.getElem_range]
  omega

end MapWithin

end RangeSet
end RangeLib
end AndroidBuild
