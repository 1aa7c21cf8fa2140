import Mathlib.Tactic

/-!
# Slots shared by content

Items are kept in slots that are named by a hash of their content.  Items with
the same hash share a slot, which counts its references and is given up when
the count drops to zero; space is taken only once for each slot.

`Counts hash S s` says that the slots `s` store exactly the items of the finite
set `S`, and `Holds hash size S s` that moreover the space in use is that of
these items.  The latter needs that equal hashes come with equal sizes.
-/

namespace AndroidBuild
namespace SharedSlots

universe u v

variable {α : Type u} {H : Type v} [DecidableEq H]

/-- Reference counts and the space in use. -/
structure Slots (H : Type v) where
  count : H → Nat
  used : Int

def Slots.init : Slots H :=
  ⟨fun _ => 0, 0⟩

/-- Store one more item. -/
def Slots.acquire (s : Slots H) (h : H) (size : Int) : Slots H :=
  if 0 < s.count h then { s with count := Function.update s.count h (s.count h + 1) }
  else { count := Function.update s.count h 1, used := s.used + size }

/-- Give up one item of a slot that is in use. -/
def Slots.release (s : Slots H) (h : H) (size : Int) : Slots H where
  count := Function.update s.count h (s.count h - 1)
  used := if s.count h - 1 = 0 then s.used - size else s.used

section Holds

variable (hash : α → H) (size : α → Int)

/-- The space of the slots that the items of `S` occupy. -/
def weight (S : Finset α) : Int :=
  ∑ p ∈ S.image (fun a => (hash a, size a)), p.2

/-- Every slot counts the stored items with its hash. -/
def Counts (S : Finset α) (s : Slots H) : Prop :=
  ∀ h, s.count h = (S.filter (fun a => hash a = h)).card

structure Holds (S : Finset α) (s : Slots H) : Prop where
  counts : Counts hash S s
  used : s.used = weight hash size S

variable {hash size}

variable (hash size) in
theorem weight_mono
    (hsize : ∀ a, 0 ≤ size a) {S T : Finset α} (h : S ⊆ T) :
    weight hash size S ≤ weight hash size T := by
  unfold weight
  refine Finset.sum_le_sum_of_subset_of_nonneg (Finset.image_subset_image h) ?_
  intro p hp _
  obtain ⟨a, _, rfl⟩ := Finset.mem_image.mp hp
  exact hsize a

variable (hash size) in
theorem holds_init :
    Holds hash size ∅ (Slots.init : Slots H) := by
  constructor
  · intro h
    simp [Slots.init]
  · simp [Slots.init, weight]

/-- A slot is in use iff some stored item has its hash. -/
theorem Counts.pos_iff
    {S : Finset α} {s : Slots H} (hS : Counts hash S s) (h : H) :
    0 < s.count h ↔ ∃ a ∈ S, hash a = h := by
  rw [hS h, Finset.card_pos]
  constructor
  · rintro ⟨a, ha⟩
    rw [Finset.mem_filter] at ha
    exact ⟨a, ha⟩
  · rintro ⟨a, ha⟩
    exact ⟨a, Finset.mem_filter.mpr ha⟩

variable [DecidableEq α]

theorem Counts.acquire
    {S : Finset α} {s : Slots H} (hS : Counts hash S s) {a : α} (ha : a ∉ S) (n : Int) :
    Counts hash (insert a S) (s.acquire (hash a) n) := by
  intro h
  have hfilter : ((insert a S).filter (fun b => hash b = h)).card =
      (S.filter (fun b => hash b = h)).card + if hash a = h then 1 else 0 := by
    rw [Finset.filter_insert]
    split_ifs
    · rw [Finset.card_insert_of_notMem (fun hmem => ha (Finset.mem_filter.mp hmem).1)]
    · rfl
  rw [hfilter, ← hS h]
  unfold Slots.acquire
  by_cases hh : hash a = h
  · subst hh
    by_cases hpos : 0 < s.count (hash a)
    · simp [hpos]
    · have hzero : s.count (hash a) = 0 := by omega
      simp [hzero]
  · have hh' : h ≠ hash a := fun e => hh e.symm
    split_ifs <;> simp [Function.update_of_ne hh']

theorem Counts.release
    {S : Finset α} {s : Slots H} (hS : Counts hash S s) {a : α} (ha : a ∈ S) (n : Int) :
    Counts hash (S.erase a) (s.release (hash a) n) := by
  intro h
  unfold Slots.release
  rw [Finset.filter_erase]
  by_cases hh : h = hash a
  · subst hh
    have hmem : a ∈ S.filter (fun b => hash b = hash a) := Finset.mem_filter.mpr ⟨ha, rfl⟩
    rw [Finset.card_erase_of_mem hmem]
    simp [hS (hash a)]
  · rw [Finset.erase_eq_of_notMem]
    · simp [Function.update_of_ne hh, hS h]
    · intro hmem
      exact hh (Finset.mem_filter.mp hmem).2.symm

section SameSize

variable (hsame : ∀ a b, hash a = hash b → size a = size b)

include hsame

omit [DecidableEq α] in
theorem mem_image_pair_iff
    {S : Finset α} {a : α} :
    (hash a, size a) ∈ S.image (fun b => (hash b, size b)) ↔ ∃ b ∈ S, hash b = hash a := by
  rw [Finset.mem_image]
  constructor
  · rintro ⟨b, hb, heq⟩
    exact ⟨b, hb, congrArg Prod.fst heq⟩
  · rintro ⟨b, hb, heq⟩
    exact ⟨b, hb, Prod.ext heq (hsame b a heq)⟩

/-- A further item takes space only when its slot is not in use yet. -/
theorem weight_insert
    {S : Finset α} (a : α) :
    weight hash size (insert a S) =
      weight hash size S + if ∃ b ∈ S, hash b = hash a then 0 else size a := by
  unfold weight
  rw [Finset.image_insert]
  split_ifs with h
  · rw [Finset.insert_eq_of_mem ((mem_image_pair_iff hsame).mpr h)]
    omega
  · rw [Finset.sum_insert (fun hmem => h ((mem_image_pair_iff hsame).mp hmem))]
    omega

theorem Holds.acquire
    {S : Finset α} {s : Slots H} (hS : Holds hash size S s) {a : α} (ha : a ∉ S) :
    Holds hash size (insert a S) (s.acquire (hash a) (size a)) := by
  refine ⟨hS.counts.acquire ha _, ?_⟩
  rw [weight_insert hsame, ← hS.used]
  unfold Slots.acquire
  have hpos := hS.counts.pos_iff (hash a)
  by_cases h : 0 < s.count (hash a)
  · simp [h, hpos.mp h]
  · have : ¬ ∃ b ∈ S, hash b = hash a := fun e => h (hpos.mpr e)
    simp [h, this]

theorem Holds.release
    {S : Finset α} {s : Slots H} (hS : Holds hash size S s) {a : α} (ha : a ∈ S) :
    Holds hash size (S.erase a) (s.release (hash a) (size a)) := by
  have hcounts := hS.counts.release ha (size a)
  refine ⟨hcounts, ?_⟩
  have hweight : weight hash size S = weight hash size (S.erase a) +
      if ∃ b ∈ S.erase a, hash b = hash a then 0 else size a := by
    rw [← weight_insert hsame, Finset.insert_erase ha]
  have hlast : s.count (hash a) - 1 = 0 ↔ ¬ ∃ b ∈ S.erase a, hash b = hash a := by
    rw [← hcounts.pos_iff]
    simp only [Slots.release, Function.update_self]
    omega
  show (if s.count (hash a) - 1 = 0 then s.used - size a else s.used) = _
  rw [hS.used, hweight]
  by_cases h : ∃ b ∈ S.erase a, hash b = hash a
  · have : ¬ s.count (hash a) - 1 = 0 := fun e => (hlast.mp e) h
    rw [if_neg this, if_pos h]
    omega
  · rw [if_pos (hlast.mpr h), if_neg h]
    omega

end SameSize

end Holds

end SharedSlots
end AndroidBuild
