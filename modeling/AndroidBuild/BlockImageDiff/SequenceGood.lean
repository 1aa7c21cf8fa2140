import AndroidBuild.BlockImageDiff.FindSequence

/-!
# `AssertSequenceGood`

The check simulates the transfers with an array `touched` of the blocks written
so far.  `assertSequenceGood_iff` restates it as `SequenceGood`: no transfer
reads a block after it was written, no block is written twice, and every block
of the care map is written.
-/

namespace AndroidBuild
namespace BlockImageDiff

open Loop RangeLib RangeLib.RangeSet

/-- The source ranges of a transfer without the blocks it takes from stashes. -/
def Transfer.unstashed (t : Transfer) : BlockSet :=
  t.useStash.foldl (fun x s => x.subtract s.2) t.srcRanges

/-- `assert touched[i] == 0`. -/
def assertUntouched (touched : Int → Bool) (_ : Unit) (i : Int) : Except PyError Unit :=
  if touched i then .error .assertionError else .ok ()

/-- `assert touched[i] == 0; touched[i] = 1`. -/
def touch (total : Nat) (touched : Int → Bool) (i : Int) : Except PyError (Int → Bool) :=
  if i < total then
    if touched i then .error .assertionError
    else .ok (Function.update touched i true)
  else .error .indexError

/-- The blocks of `for s, e in x: for i in range(s, min(e, total_blocks))`. -/
def checkedBlocks (total : Nat) (x : BlockSet) : List Int :=
  x.toRangeSet.pairs.flatMap (fun p => intRange p.1 (min p.2 total))

def simulate (total : Nat) (touched : Int → Bool) (t : Transfer) :
    Except PyError (Int → Bool) := do
  (checkedBlocks total t.unstashed).foldlM (assertUntouched touched) ()
  t.tgtRanges.blocks.foldlM (touch total) touched

/-- `assert touched[i] == 1`. -/
def assertTouched (total : Nat) (touched : Int → Bool) (_ : Unit) (i : Int) :
    Except PyError Unit :=
  if i < total then
    if touched i then .ok () else .error .assertionError
  else .error .indexError

def assertSequenceGood (total : Nat) (careMap : BlockSet) (st : State) : Except PyError Unit := do
  let touched ← st.transfers.foldlM (fun touched x => simulate total touched (st.xf x))
    (fun _ => false)
  careMap.blocks.foldlM (assertTouched total touched) ()

/-- What the simulation checks. -/
structure SequenceGood (total : Nat) (careMap : BlockSet) (xf : Nat → Transfer)
    (ts : List Nat) : Prop where
  reads : ts.Pairwise (fun y x => ∀ i, i ∈ (xf x).unstashed → i ∉ (xf y).tgtRanges)
  writes : ts.Pairwise (fun y x => ∀ i, i ∈ (xf x).tgtRanges → i ∉ (xf y).tgtRanges)
  bounded : ∀ x ∈ ts, ∀ i, i ∈ (xf x).tgtRanges → i < total
  covered : ∀ i, i ∈ careMap → ∃ x ∈ ts, i ∈ (xf x).tgtRanges

section Unstashed

theorem mem_foldl_subtract
    (ss : List Stash) (x : BlockSet) (i : Int) :
    i ∈ ss.foldl (fun x s => x.subtract s.2) x ↔ i ∈ x ∧ ∀ s ∈ ss, i ∉ s.2 := by
  induction ss generalizing x with
  | nil => simp
  | cons s ss ih =>
      rw [List.foldl_cons, ih, BlockSet.mem_subtract]
      simp only [List.mem_cons, forall_eq_or_imp, and_assoc]

@[simp] theorem mem_unstashed
    {t : Transfer} {i : Int} :
    i ∈ t.unstashed ↔ i ∈ t.srcRanges ∧ ∀ s ∈ t.useStash, i ∉ s.2 :=
  mem_foldl_subtract t.useStash t.srcRanges i

theorem mem_checkedBlocks
    {total : Nat} {x : BlockSet} {i : Int} :
    i ∈ checkedBlocks total x ↔ i ∈ x ∧ i < total := by
  unfold checkedBlocks
  have hmem : i ∈ x ↔ ∃ p ∈ x.toRangeSet.pairs, i ∈ intRange p.1 p.2 :=
    List.mem_flatMap
  rw [List.mem_flatMap, hmem]
  simp only [mem_intRange]
  constructor
  · rintro ⟨p, hp, h₁, h₂⟩
    exact ⟨⟨p, hp, h₁, by omega⟩, by omega⟩
  · rintro ⟨⟨p, hp, h₁, h₂⟩, h₃⟩
    exact ⟨p, hp, h₁, by omega⟩

end Unstashed

section Loops

theorem assertUntouched_loop
    (touched : Int → Bool) (is : List Int) :
    is.foldlM (assertUntouched touched) () = .ok () ↔ ∀ i ∈ is, touched i = false := by
  induction is with
  | nil => simp [pure, Except.pure]
  | cons i is ih =>
      rw [List.foldlM_cons]
      simp only [List.mem_cons, forall_eq_or_imp, ← ih, assertUntouched]
      cases touched i <;> simp [bind, Except.bind]

theorem assertTouched_loop
    {total : Nat} {touched : Int → Bool} (is : List Int) :
    is.foldlM (assertTouched total touched) () = .ok () ↔
      ∀ i ∈ is, i < total ∧ touched i = true := by
  induction is with
  | nil => simp [pure, Except.pure]
  | cons i is ih =>
      rw [List.foldlM_cons]
      simp only [List.mem_cons, forall_eq_or_imp, ← ih, assertTouched]
      by_cases h : i < total
      · cases touched i <;> simp [bind, Except.bind, h]
      · simp [bind, Except.bind, h]

theorem touch_loop
    {total : Nat} (is : List Int) (hnodup : is.Nodup) (touched touched' : Int → Bool) :
    is.foldlM (touch total) touched = .ok touched' ↔
      (∀ i ∈ is, i < total ∧ touched i = false) ∧
        touched' = fun i => touched i || decide (i ∈ is) := by
  induction is generalizing touched with
  | nil =>
      simp only [List.foldlM_nil, List.not_mem_nil, false_implies, implies_true, true_and,
        decide_false, Bool.or_false]
      constructor
      · rintro ⟨⟩
        rfl
      · rintro rfl
        rfl
  | cons i is ih =>
      rw [List.nodup_cons] at hnodup
      rw [List.foldlM_cons]
      unfold touch
      by_cases hi : i < total
      · rw [if_pos hi]
        cases ht : touched i with
        | true => simp [bind, Except.bind, ht]
        | false =>
            simp only [Bool.false_eq_true, if_false, bind, Except.bind, List.mem_cons,
              forall_eq_or_imp, hi, ht, true_and]
            have := ih hnodup.2 (Function.update touched i true)
            unfold touch at this
            rw [this]
            have hupd : ∀ j ∈ is, Function.update touched i true j = touched j := by
              intro j hj
              rw [Function.update_of_ne]
              rintro rfl
              exact hnodup.1 hj
            constructor
            · rintro ⟨h₁, rfl⟩
              refine ⟨fun j hj => ?_, ?_⟩
              · rw [← hupd j hj]
                exact h₁ j hj
              · funext j
                by_cases hji : j = i
                · subst hji
                  simp
                · simp [hji]
            · rintro ⟨h₁, rfl⟩
              refine ⟨fun j hj => ?_, ?_⟩
              · rw [hupd j hj]
                exact h₁ j hj
              · funext j
                by_cases hji : j = i
                · subst hji
                  simp
                · simp [hji]
      · rw [if_neg hi]
        simp [bind, Except.bind, hi]

/-- The simulation of one transfer. -/
theorem simulate_iff
    {total : Nat} {touched touched' : Int → Bool} {t : Transfer} :
    simulate total touched t = .ok touched' ↔
      (∀ i, i ∈ t.unstashed → i < total → touched i = false) ∧
      (∀ i, i ∈ t.tgtRanges → i < total ∧ touched i = false) ∧
        touched' = fun i => touched i || decide (i ∈ t.tgtRanges) := by
  have hreads := assertUntouched_loop touched (checkedBlocks total t.unstashed)
  simp only [mem_checkedBlocks, and_imp] at hreads
  unfold simulate
  rw [bind_eq_ok]
  simp only [touch_loop _ t.tgtRanges.blocks_nodup, BlockSet.mem_blocks_iff]
  constructor
  · rintro ⟨⟨⟩, h₁, h₂⟩
    exact ⟨hreads.mp h₁, h₂⟩
  · rintro ⟨h₁, h₂⟩
    exact ⟨(), hreads.mpr h₁, h₂⟩

theorem simulate_loop
    {total : Nat} {xf : Nat → Transfer} (ts : List Nat) (touched touched' : Int → Bool) :
    ts.foldlM (fun touched x => simulate total touched (xf x)) touched = .ok touched' ↔
      (∀ x ∈ ts, ∀ i, i ∈ (xf x).unstashed → i < total → touched i = false) ∧
      (∀ x ∈ ts, ∀ i, i ∈ (xf x).tgtRanges → i < total ∧ touched i = false) ∧
      ts.Pairwise (fun y x => ∀ i, i ∈ (xf x).unstashed → i ∉ (xf y).tgtRanges) ∧
      ts.Pairwise (fun y x => ∀ i, i ∈ (xf x).tgtRanges → i ∉ (xf y).tgtRanges) ∧
        touched' = fun i => touched i || decide (∃ x ∈ ts, i ∈ (xf x).tgtRanges) := by
  induction ts generalizing touched with
  | nil =>
      simp only [List.foldlM_nil, List.not_mem_nil, false_implies, implies_true, true_and,
        List.Pairwise.nil, false_and, exists_false, decide_false, Bool.or_false]
      constructor
      · rintro ⟨⟩
        rfl
      · rintro rfl
        rfl
  | cons x ts ih =>
      rw [List.foldlM_cons, bind_eq_ok]
      simp only [simulate_iff, ih, List.forall_mem_cons, List.pairwise_cons]
      constructor
      · rintro ⟨_, ⟨hr, hw, rfl⟩, hrs, hws, hpr, hpw, rfl⟩
        simp only [Bool.or_eq_false_iff, decide_eq_false_iff_not] at hrs hws
        refine ⟨⟨hr, fun y hy i hi hlt => (hrs y hy i hi hlt).1⟩,
          ⟨hw, fun y hy i hi => ⟨(hws y hy i hi).1, (hws y hy i hi).2.1⟩⟩,
          ⟨fun y hy i hi hix => (hrs y hy i hi (hw i hix).1).2 hix, hpr⟩,
          ⟨fun y hy i hi => (hws y hy i hi).2.2, hpw⟩, ?_⟩
        funext i
        simp [Bool.or_assoc]
      · rintro ⟨⟨hr, hrs⟩, ⟨hw, hws⟩, ⟨hxr, hpr⟩, ⟨hxw, hpw⟩, rfl⟩
        refine ⟨_, ⟨hr, hw, rfl⟩, ?_, ?_, hpr, hpw, ?_⟩
        · intro y hy i hi hlt
          simp [hrs y hy i hi hlt, hxr y hy i hi]
        · intro y hy i hi
          exact ⟨(hws y hy i hi).1, by simp [(hws y hy i hi).2, hxw y hy i hi]⟩
        · funext i
          simp [Bool.or_assoc]

end Loops

/-- The check looks at the ranges and the uses of the transfers only. -/
theorem SequenceGood.congr
    {total : Nat} {careMap : BlockSet} {xf xf' : Nat → Transfer} {ts : List Nat}
    (h : SequenceGood total careMap xf ts)
    (hsame : ∀ x ∈ ts, (xf' x).unstashed = (xf x).unstashed ∧
      (xf' x).tgtRanges = (xf x).tgtRanges) :
    SequenceGood total careMap xf' ts := by
  refine ⟨?_, ?_, ?_, ?_⟩
  · refine h.reads.imp_of_mem ?_
    intro y x hy hx hr
    rw [(hsame x hx).1, (hsame y hy).2]
    exact hr
  · refine h.writes.imp_of_mem ?_
    intro y x hy hx hw
    rw [(hsame x hx).2, (hsame y hy).2]
    exact hw
  · intro x hx
    rw [(hsame x hx).2]
    exact h.bounded x hx
  · intro i hi
    obtain ⟨x, hx, hix⟩ := h.covered i hi
    exact ⟨x, hx, by rw [(hsame x hx).2]; exact hix⟩

theorem assertSequenceGood_iff
    {total : Nat} {careMap : BlockSet} {st : State} :
    assertSequenceGood total careMap st = .ok () ↔
      SequenceGood total careMap st.xf st.transfers := by
  unfold assertSequenceGood
  rw [bind_eq_ok]
  simp only [simulate_loop, assertTouched_loop, BlockSet.mem_blocks_iff]
  constructor
  · rintro ⟨_, ⟨_, hw, hpr, hpw, rfl⟩, hcare⟩
    refine ⟨hpr, hpw, fun x hx i hi => (hw x hx i hi).1, fun i hi => ?_⟩
    simpa using (hcare i hi).2
  · intro h
    refine ⟨_, ⟨fun _ _ _ _ _ => trivial, fun x hx i hi => ⟨h.bounded x hx i hi, trivial⟩,
      h.reads, h.writes, rfl⟩, fun i hi => ?_⟩
    obtain ⟨x, hx, hix⟩ := h.covered i hi
    exact ⟨h.bounded x hx i hix, by simpa using ⟨x, hx, hix⟩⟩

end BlockImageDiff
end AndroidBuild
