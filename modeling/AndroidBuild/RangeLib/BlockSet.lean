import AndroidBuild.RangeLib.Operations
import Mathlib

/-!
# Range sets of block numbers

A `BlockSet` is a `RangeSet` in canonical form without negative blocks, the
only kind that image maps contain.  On it the operations of `RangeSet` cannot
raise, and `i ∈ s` says that block `i` belongs to `s`.
-/

namespace AndroidBuild
namespace RangeLib

structure BlockSet where
  toRangeSet : RangeSet
  canonical : Canonical toRangeSet.data
  nonneg : ∀ i ∈ toRangeSet.blocks, 0 ≤ i

namespace BlockSet

instance : DecidableEq BlockSet := fun a b =>
  if h : a.toRangeSet = b.toRangeSet then
    isTrue (by cases a; cases b; cases h; rfl)
  else
    isFalse (fun hab => h (by rw [hab]))

def blocks (s : BlockSet) : List Int :=
  s.toRangeSet.blocks

instance : Membership Int BlockSet :=
  ⟨fun s i => i ∈ s.blocks⟩

instance (i : Int) (s : BlockSet) : Decidable (i ∈ s) :=
  inferInstanceAs (Decidable (i ∈ s.blocks))

@[simp] theorem mem_blocks_iff
    {i : Int} {s : BlockSet} :
    i ∈ s.blocks ↔ i ∈ s :=
  Iff.rfl

theorem blocks_strict (s : BlockSet) :
    s.blocks.Pairwise (· < ·) :=
  RangeSet.blocks_strict s.canonical

theorem blocks_nodup (s : BlockSet) :
    s.blocks.Nodup :=
  RangeSet.blocks_nodup s.canonical

theorem nonneg_of_mem
    {s : BlockSet} {i : Int} (h : i ∈ s) :
    0 ≤ i :=
  s.nonneg i h

/-- The empty set, `RangeSet()`. -/
def empty : BlockSet :=
  ⟨{}, canonical_nil, fun i hi => by simp [RangeSet.blocks] at hi⟩

@[simp] theorem not_mem_empty
    (i : Int) :
    i ∉ empty := by
  intro h
  simp [Membership.mem, empty, blocks, RangeSet.blocks] at h
  cases h

@[simp] theorem blocks_empty :
    empty.blocks = [] := by
  rfl

/-- `RangeSet(data=(s, e))`. -/
def blockRange (s e : Nat) : BlockSet where
  toRangeSet := if s < e then { data := [(s : Int), (e : Int)], monotonic := true } else {}
  canonical := by
    split_ifs with h
    · exact ⟨by simp [h], by simp⟩
    · exact canonical_nil
  nonneg := by
    intro i hi
    split_ifs at hi
    · simp only [RangeSet.blocks, RangeSet.blocksOf, RangeSet.pairsOf, List.flatMap_cons,
        List.flatMap_nil, List.append_nil, mem_intRange] at hi
      exact (Int.natCast_nonneg s).trans hi.1
    · cases hi

theorem blocks_blockRange
    (s e : Nat) :
    (blockRange s e).blocks = RangeSet.intRange s e := by
  unfold blockRange blocks RangeSet.blocks RangeSet.blocksOf
  split_ifs with h
  · simp [RangeSet.pairsOf]
  · have : (e : Int) - s ≤ 0 := by omega
    simp [RangeSet.pairsOf, RangeSet.intRange, Int.toNat_of_nonpos this]

@[simp] theorem mem_blockRange
    {s e : Nat} {i : Int} :
    i ∈ blockRange s e ↔ (s : Int) ≤ i ∧ i < e := by
  rw [← mem_blocks_iff, blocks_blockRange, mem_intRange]

/-- A result of a raw operation whose specification is known. -/
def ofSpec
    (o : Option RangeSet) (P : Int → Prop)
    (h : ∃ r, o = some r ∧ Canonical r.data ∧ ∀ i, i ∈ r.blocks ↔ P i)
    (hP : ∀ i, P i → 0 ≤ i) : BlockSet where
  toRangeSet := o.get (by obtain ⟨r, hr, _⟩ := h; simp [hr])
  canonical := by
    obtain ⟨r, hr, hc, _⟩ := h
    simpa [hr] using hc
  nonneg := by
    obtain ⟨r, hr, _, hm⟩ := h
    intro i hi
    exact hP i ((hm i).mp (by simpa [hr] using hi))

theorem mem_ofSpec
    {o : Option RangeSet} {P : Int → Prop}
    (h : ∃ r, o = some r ∧ Canonical r.data ∧ ∀ i, i ∈ r.blocks ↔ P i)
    (hP : ∀ i, P i → 0 ≤ i) (i : Int) :
    i ∈ ofSpec o P h hP ↔ P i := by
  obtain ⟨r, hr, hc, hm⟩ := h
  rw [← hm i]
  show i ∈ (o.get _).blocks ↔ _
  simp [hr]

/-- `RangeSet.union`. -/
def union (a b : BlockSet) : BlockSet :=
  ofSpec (a.toRangeSet.union b.toRangeSet) (fun i => i ∈ a ∨ i ∈ b)
    (RangeSet.union_spec a.canonical b.canonical)
    (fun _ h => h.elim nonneg_of_mem nonneg_of_mem)

/-- `RangeSet.intersect`. -/
def intersect (a b : BlockSet) : BlockSet :=
  ofSpec (a.toRangeSet.intersect b.toRangeSet) (fun i => i ∈ a ∧ i ∈ b)
    (RangeSet.intersect_spec a.canonical b.canonical)
    (fun _ h => nonneg_of_mem h.1)

/-- `RangeSet.subtract`. -/
def subtract (a b : BlockSet) : BlockSet :=
  ofSpec (a.toRangeSet.subtract b.toRangeSet) (fun i => i ∈ a ∧ i ∉ b)
    (RangeSet.subtract_spec a.canonical b.canonical)
    (fun _ h => nonneg_of_mem h.1)

@[simp] theorem mem_union
    {a b : BlockSet} {i : Int} :
    i ∈ a.union b ↔ i ∈ a ∨ i ∈ b :=
  mem_ofSpec _ _ i

@[simp] theorem mem_intersect
    {a b : BlockSet} {i : Int} :
    i ∈ a.intersect b ↔ i ∈ a ∧ i ∈ b :=
  mem_ofSpec _ _ i

@[simp] theorem mem_subtract
    {a b : BlockSet} {i : Int} :
    i ∈ a.subtract b ↔ i ∈ a ∧ i ∉ b :=
  mem_ofSpec _ _ i

/-- `RangeSet.overlaps`. -/
def overlaps (a b : BlockSet) : Bool :=
  a.toRangeSet.overlaps b.toRangeSet

/-- `RangeSet.__bool__`. -/
def nonempty (a : BlockSet) : Bool :=
  a.toRangeSet.nonempty

theorem nonempty_iff
    {a : BlockSet} :
    a.nonempty = true ↔ ∃ i, i ∈ a :=
  RangeSet.nonempty_iff a.canonical

theorem nonempty_eq_false_iff
    {a : BlockSet} :
    a.nonempty = false ↔ ∀ i, i ∉ a := by
  rw [← Bool.not_eq_true, nonempty_iff, not_exists]

/-- `RangeSet.size`. -/
def size (a : BlockSet) : Int :=
  a.toRangeSet.size

theorem size_eq_length (a : BlockSet) :
    a.size = (a.blocks.length : Int) :=
  RangeSet.size_eq_length a.canonical

theorem size_nonneg (a : BlockSet) :
    0 ≤ a.size := by
  rw [size_eq_length]
  omega

theorem size_pos_iff
    {a : BlockSet} :
    0 < a.size ↔ ∃ i, i ∈ a := by
  rw [size_eq_length]
  have h := List.length_pos_iff_exists_mem (l := a.blocks)
  simp only [mem_blocks_iff] at h
  rw [← h]
  omega

/-- `RangeSet.first`, for a non-negative argument. -/
def first (a : BlockSet) (n : Nat) : BlockSet where
  toRangeSet := (a.toRangeSet.first n).get (by
    obtain ⟨r, hr, _⟩ := RangeSet.first_spec (n := n) a.canonical (by omega)
    simp [hr])
  canonical := by
    obtain ⟨r, hr, hc, _⟩ := RangeSet.first_spec (n := n) a.canonical (by omega)
    simpa [hr] using hc
  nonneg := by
    obtain ⟨r, hr, _, hb⟩ := RangeSet.first_spec (n := n) a.canonical (by omega)
    intro i hi
    simp only [hr, Option.get_some, hb] at hi
    exact a.nonneg i (List.mem_of_mem_take hi)

@[simp] theorem blocks_first
    (a : BlockSet) (n : Nat) :
    (a.first n).blocks = a.blocks.take n := by
  obtain ⟨r, hr, _, hb⟩ := RangeSet.first_spec (n := n) a.canonical (by omega)
  show ((a.toRangeSet.first n).get _).blocks = _
  simp only [hr, Option.get_some, hb, Int.toNat_natCast]
  rfl

/-- What `first` leaves. -/
theorem blocks_subtract_first
    (a : BlockSet) (n : Nat) :
    (a.subtract (a.first n)).blocks = a.blocks.drop n := by
  have hsorted : (a.blocks.drop n).Pairwise (· < ·) :=
    a.blocks_strict.sublist (List.drop_sublist n _)
  refine List.Pairwise.eq_of_mem_iff (blocks_strict _) hsorted ?_
  intro i
  have hmem : i ∈ a.blocks ↔ i ∈ a.blocks.take n ∨ i ∈ a.blocks.drop n := by
    rw [← List.mem_append, List.take_append_drop]
  have hdisj : i ∈ a.blocks.take n → i ∉ a.blocks.drop n := by
    have := a.blocks_nodup
    rw [← List.take_append_drop n a.blocks, List.nodup_append] at this
    intro h₁ h₂
    exact this.2.2 i h₁ i h₂ rfl
  rw [mem_blocks_iff, mem_subtract, ← mem_blocks_iff, ← mem_blocks_iff, blocks_first, hmem]
  constructor
  · rintro ⟨h | h, hn⟩
    · exact absurd h hn
    · exact h
  · intro h
    exact ⟨Or.inr h, fun h' => hdisj h' h⟩

/-- `RangeSet.__eq__`. -/
def same (a b : BlockSet) : Bool :=
  a.toRangeSet.sameData b.toRangeSet

theorem blocks_eq_of_same
    {a b : BlockSet} (h : a.same b = true) :
    a.blocks = b.blocks := by
  unfold same RangeSet.sameData at h
  unfold blocks RangeSet.blocks
  rw [of_decide_eq_true h]

@[simp] theorem same_self (a : BlockSet) :
    a.same a = true := by
  simp [same, RangeSet.sameData]

/-- A subset and what subtracting it leaves. -/
theorem perm_subtract
    {a b : BlockSet} (hsub : ∀ i, i ∈ b → i ∈ a) :
    (b.blocks ++ (a.subtract b).blocks).Perm a.blocks := by
  rw [List.perm_ext_iff_of_nodup]
  · intro i
    rw [List.mem_append, mem_blocks_iff, mem_blocks_iff, mem_blocks_iff, mem_subtract]
    constructor
    · rintro (h | h)
      · exact hsub i h
      · exact h.1
    · intro h
      by_cases hb : i ∈ b
      · exact Or.inl hb
      · exact Or.inr ⟨h, hb⟩
  · rw [List.nodup_append]
    refine ⟨blocks_nodup _, blocks_nodup _, ?_⟩
    intro x hx y hy hxy
    rw [mem_blocks_iff, mem_subtract] at hy
    exact hy.2 (hxy ▸ hx)
  · exact blocks_nodup a

theorem size_subtract
    {a b : BlockSet} (hsub : ∀ i, i ∈ b → i ∈ a) :
    (a.subtract b).size = a.size - b.size := by
  have := (perm_subtract hsub).length_eq
  rw [List.length_append] at this
  rw [size_eq_length, size_eq_length, size_eq_length]
  omega

end BlockSet

end RangeLib
end AndroidBuild
