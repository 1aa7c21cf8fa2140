import Mathlib.Data.List.Destutter
import Mathlib.Data.List.Sort
import Mathlib.Tactic

/-!
# Lists sorted by a key

A list of records is put in order by a key, and equal neighbours are removed.
When records with equal keys are equal, the result is the only strictly sorted
list with the same records.
-/

namespace AndroidBuild
namespace KeySort

variable {α κ : Type} [LinearOrder κ] (key : α → κ)

/-- A stable sort by the key. -/
def sortByKey (l : List α) : List α :=
  l.insertionSort (fun a b => key a ≤ key b)

/-- Equal neighbours removed. -/
def dedup [DecidableEq α] (l : List α) : List α :=
  l.destutter (fun a b => a ≠ b)

/-- The records of `l`, strictly sorted by the key. -/
structure Canonical (l r : List α) : Prop where
  sorted : r.Pairwise (fun a b => key a < key b)
  mem_iff : ∀ a, a ∈ r ↔ a ∈ l

variable {key}

theorem perm_sortByKey
    (l : List α) :
    (sortByKey key l).Perm l :=
  l.perm_insertionSort _

theorem pairwise_sortByKey
    (l : List α) :
    (sortByKey key l).Pairwise (fun a b => key a ≤ key b) := by
  have : Std.Total (fun a b : α => key a ≤ key b) := ⟨fun a b => le_total _ _⟩
  have : IsTrans α (fun a b : α => key a ≤ key b) := ⟨fun a b c => le_trans⟩
  exact l.pairwise_insertionSort _

/-- Two sorted orders of the same records have the same keys at every place. -/
theorem map_key_eq_of_perm
    {l l' : List α} (hperm : l.Perm l') (h : l.Pairwise (fun a b => key a ≤ key b))
    (h' : l'.Pairwise (fun a b => key a ≤ key b)) :
    l.map key = l'.map key := by
  refine (hperm.map key).eq_of_pairwise ?_ (List.pairwise_map.mpr h) (List.pairwise_map.mpr h')
  intro a b _ _ hab hba
  exact le_antisymm hab hba

section Dedup

variable [DecidableEq α]

theorem mem_dedup
    {l : List α} {a : α} :
    a ∈ dedup l ↔ a ∈ l := by
  suffices H : ∀ (l : List α) (b : α), a ∈ l.destutter' (fun a b => a ≠ b) b ↔ a ∈ b :: l by
    cases l with
    | nil => rfl
    | cons b l => exact H l b
  intro l
  induction l with
  | nil => simp
  | cons c l ih =>
      intro b
      rw [List.destutter'_cons]
      split
      case isTrue hne => rw [List.mem_cons, ih, List.mem_cons, List.mem_cons, List.mem_cons]
      case isFalse heq =>
          obtain rfl := not_not.mp heq
          rw [ih, List.mem_cons, List.mem_cons, List.mem_cons]
          tauto

/-- Neighbours with the same key are gone when the key tells the records apart. -/
theorem pairwise_dedup
    {l : List α} (h : l.Pairwise (fun a b => key a ≤ key b))
    (hinj : ∀ a ∈ l, ∀ b ∈ l, key a = key b → a = b) :
    (dedup l).Pairwise (fun a b => key a < key b) := by
  have hle : (dedup l).Pairwise (fun a b => key a ≤ key b) := h.sublist (List.destutter_sublist _ l)
  have hchain : (dedup l).IsChain (fun a b => key a < key b) := by
    have hne : (dedup l).IsChain (fun a b => a ≠ b) := List.isChain_destutter _ l
    rw [List.isChain_iff_getElem] at hne ⊢
    intro i hi
    refine lt_of_le_of_ne ?_ (fun heq => hne i hi ?_)
    · exact List.pairwise_iff_getElem.mp hle i (i + 1) (by omega) hi (by omega)
    · exact hinj _ (mem_dedup.mp (List.getElem_mem _)) _ (mem_dedup.mp (List.getElem_mem _)) heq
  have : IsTrans α (fun a b : α => key a < key b) := ⟨fun a b c => lt_trans⟩
  exact List.isChain_iff_pairwise.mp hchain

end Dedup

namespace Canonical

theorem unique
    {l l' r r' : List α} (h : Canonical key l r) (h' : Canonical key l' r')
    (hmem : ∀ a, a ∈ l ↔ a ∈ l') :
    r = r' := by
  have : Std.Irrefl (fun a b : α => key a < key b) := ⟨fun a => lt_irrefl _⟩
  have : Std.Antisymm (fun a b : α => key a < key b) :=
    ⟨fun a b hab hba => absurd hab (lt_asymm hba)⟩
  refine h.sorted.eq_of_mem_iff h'.sorted ?_
  intro a
  rw [h.mem_iff, h'.mem_iff, hmem]

theorem congr
    {l l' r : List α} (h : Canonical key l r) (hmem : ∀ a, a ∈ l ↔ a ∈ l') :
    Canonical key l' r :=
  ⟨h.sorted, fun a => (h.mem_iff a).trans (hmem a)⟩

/-- The key tells the records apart. -/
theorem key_inj
    {l r : List α} (h : Canonical key l r) {a b : α} (ha : a ∈ l) (hb : b ∈ l)
    (hkey : key a = key b) :
    a = b := by
  have hnodup : (r.map key).Nodup := List.pairwise_map.mpr (h.sorted.imp (fun hab => hab.ne))
  exact List.inj_on_of_nodup_map hnodup ((h.mem_iff a).mpr ha) ((h.mem_iff b).mpr hb) hkey

/-- Sorting and removing equal neighbours gives the canonical list, if there is one. -/
theorem iff_dedup
    [DecidableEq α] {l r : List α} :
    Canonical key l r ↔ r = dedup (sortByKey key l) ∧
      r.Pairwise (fun a b => key a < key b) := by
  have hmem : ∀ a, a ∈ dedup (sortByKey key l) ↔ a ∈ l := by
    intro a
    rw [mem_dedup, (perm_sortByKey l).mem_iff]
  constructor
  · intro h
    have hdedup : Canonical key l (dedup (sortByKey key l)) := by
      refine ⟨pairwise_dedup (pairwise_sortByKey l) ?_, hmem⟩
      intro a ha b hb
      exact h.key_inj ((perm_sortByKey l).mem_iff.mp ha) ((perm_sortByKey l).mem_iff.mp hb)
    exact ⟨h.unique hdedup (fun _ => Iff.rfl), h.sorted⟩
  · rintro ⟨rfl, hsorted⟩
    exact ⟨hsorted, hmem⟩

/-- When there is a canonical list. -/
theorem exists_iff
    [DecidableEq α] {l : List α} :
    (∃ r, Canonical key l r) ↔ ∀ a ∈ l, ∀ b ∈ l, key a = key b → a = b := by
  constructor
  · rintro ⟨r, h⟩ a ha b hb hkey
    exact h.key_inj ha hb hkey
  · intro h
    refine ⟨dedup (sortByKey key l), iff_dedup.mpr ⟨rfl, ?_⟩⟩
    refine pairwise_dedup (pairwise_sortByKey l) ?_
    intro a ha b hb
    exact h a ((perm_sortByKey l).mem_iff.mp ha) b ((perm_sortByKey l).mem_iff.mp hb)

end Canonical

end KeySort
end AndroidBuild
