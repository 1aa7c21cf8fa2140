import Mathlib.Tactic

/-!
# Binary heaps in an array

The algorithms of Python's `heapq` on an array, for an arbitrary strict
comparison `lt`.  Every operation rearranges the items it was given.
-/

namespace AndroidBuild
namespace Heapq

universe u

variable {α : Type u} (lt : α → α → Bool)

/-- `_siftdown(heap, startpos, pos)`: move the item at `pos` towards the root. -/
def siftdown (startpos : Nat) : Nat → Array α → Nat → Array α
  | 0, heap, _ => heap
  | fuel + 1, heap, pos =>
      if startpos < pos then
        let parentpos := (pos - 1) / 2
        match heap[pos]?, heap[parentpos]? with
        | some newitem, some parent =>
            if lt newitem parent then
              siftdown startpos fuel (heap.swapIfInBounds pos parentpos) parentpos
            else heap
        | _, _ => heap
      else heap

/-- The smaller child of `pos`, given its left child `childpos`. -/
def smallerChild (heap : Array α) (childpos : Nat) : Nat :=
  match heap[childpos]?, heap[childpos + 1]? with
  | some left, some right => if lt left right then childpos else childpos + 1
  | _, _ => childpos

/-- First loop of `_siftup`: move the hole at `pos` down to a leaf. -/
def siftupLoop : Nat → Array α → Nat → Array α × Nat
  | 0, heap, pos => (heap, pos)
  | fuel + 1, heap, pos =>
      let childpos := 2 * pos + 1
      if childpos < heap.size then
        let childpos := smallerChild lt heap childpos
        siftupLoop fuel (heap.swapIfInBounds pos childpos) childpos
      else (heap, pos)

/-- `_siftup(heap, pos)`. -/
def siftup (heap : Array α) (pos : Nat) : Array α :=
  let r := siftupLoop lt heap.size heap pos
  siftdown lt pos heap.size r.1 r.2

def heappush (heap : Array α) (item : α) : Array α :=
  siftdown lt 0 (heap.size + 1) (heap.push item) heap.size

/-- `heappop(heap)`; `none` is the `IndexError` of an empty heap. -/
def heappop (heap : Array α) : Option (α × Array α) :=
  match heap.back? with
  | none => none
  | some lastelt =>
      match heap.pop[0]? with
      | none => some (lastelt, heap.pop)
      | some returnitem =>
          some (returnitem, siftup lt (heap.pop.setIfInBounds 0 lastelt) 0)

def heapify (x : Array α) : Array α :=
  (List.range (x.size / 2)).reverse.foldl (fun heap i => siftup lt heap i) x

section Perm

variable {lt}

theorem swapIfInBounds_perm
    (xs : Array α) (i j : Nat) :
    (xs.swapIfInBounds i j).toList.Perm xs.toList := by
  unfold Array.swapIfInBounds
  split_ifs with hi hj
  · exact (Array.swap_perm hi hj).toList
  · exact List.Perm.refl _
  · exact List.Perm.refl _

theorem siftdown_perm
    (startpos : Nat) :
    ∀ (fuel : Nat) (heap : Array α) (pos : Nat),
      (siftdown lt startpos fuel heap pos).toList.Perm heap.toList
  | 0, _, _ => List.Perm.refl _
  | fuel + 1, heap, pos => by
      rw [siftdown]
      split_ifs with hpos
      · simp only
        split
        · split_ifs
          · exact (siftdown_perm startpos fuel _ _).trans (swapIfInBounds_perm heap _ _)
          · exact List.Perm.refl _
        · exact List.Perm.refl _
      · exact List.Perm.refl _

theorem siftupLoop_perm :
    ∀ (fuel : Nat) (heap : Array α) (pos : Nat),
      (siftupLoop lt fuel heap pos).1.toList.Perm heap.toList
  | 0, _, _ => List.Perm.refl _
  | fuel + 1, heap, pos => by
      rw [siftupLoop]
      simp only
      split_ifs
      · exact (siftupLoop_perm fuel _ _).trans (swapIfInBounds_perm heap _ _)
      · exact List.Perm.refl _

theorem siftup_perm
    (heap : Array α) (pos : Nat) :
    (siftup lt heap pos).toList.Perm heap.toList :=
  (siftdown_perm _ _ _ _).trans (siftupLoop_perm _ _ _)

variable (lt) in
theorem heappush_perm
    (heap : Array α) (item : α) :
    (heappush lt heap item).toList.Perm (item :: heap.toList) := by
  refine (siftdown_perm _ _ _ _).trans ?_
  rw [Array.toList_push]
  exact List.perm_append_singleton item heap.toList

theorem heapify_perm
    (x : Array α) :
    (heapify lt x).toList.Perm x.toList := by
  unfold heapify
  generalize (List.range (x.size / 2)).reverse = is
  induction is generalizing x with
  | nil => exact List.Perm.refl _
  | cons i is ih => exact (ih (siftup lt x i)).trans (siftup_perm x i)

variable (lt) in
theorem heappop_isSome
    {heap : Array α} (h : heap.toList ≠ []) :
    ∃ r, heappop lt heap = some r := by
  unfold heappop
  cases hb : heap.back? with
  | none =>
      rw [Array.back?_eq_none_iff] at hb
      exact absurd (by simp [hb]) h
  | some lastelt =>
      simp only
      split
      · exact ⟨_, rfl⟩
      · exact ⟨_, rfl⟩

/-- A popped item together with the remaining heap makes up the heap. -/
theorem heappop_perm
    {heap rest : Array α} {item : α}
    (h : heappop lt heap = some (item, rest)) :
    (item :: rest.toList).Perm heap.toList := by
  unfold heappop at h
  cases hb : heap.back? with
  | none => simp [hb] at h
  | some lastelt =>
      have hback : heap.toList = heap.pop.toList ++ [lastelt] := by
        have hlast : heap.toList.getLast? = some lastelt := by
          rw [← hb, Array.back?_eq_getElem?, List.getLast?_eq_getElem?]
          simp
        rw [Array.toList_pop]
        exact (List.dropLast_append_getLast? lastelt hlast).symm
      rw [hb] at h
      simp only at h
      cases h0 : heap.pop[0]? with
      | none =>
          rw [h0] at h
          simp only [Option.some.injEq, Prod.mk.injEq] at h
          obtain ⟨rfl, rfl⟩ := h
          rw [hback]
          exact (List.perm_append_singleton _ _).symm
      | some returnitem =>
          rw [h0] at h
          simp only [Option.some.injEq, Prod.mk.injEq] at h
          obtain ⟨rfl, rfl⟩ := h
          have hset : (heap.pop.setIfInBounds 0 lastelt).toList =
              lastelt :: heap.pop.toList.tail := by
            rw [Array.toList_setIfInBounds]
            cases hl : heap.pop.toList with
            | nil =>
                rw [← Array.getElem?_toList, hl] at h0
                simp at h0
            | cons x xs => simp
          have hcons : heap.pop.toList = returnitem :: heap.pop.toList.tail := by
            cases hl : heap.pop.toList with
            | nil =>
                rw [← Array.getElem?_toList, hl] at h0
                simp at h0
            | cons x xs =>
                rw [← Array.getElem?_toList, hl] at h0
                simp only [List.getElem?_cons_zero, Option.some.injEq] at h0
                simp [h0]
          rw [hback]
          refine (List.Perm.cons returnitem ((siftup_perm _ _).trans
            (List.Perm.of_eq hset))).trans ?_
          rw [hcons, List.cons_append, List.tail_cons]
          exact List.Perm.cons returnitem (List.perm_append_singleton _ _).symm

end Perm

end Heapq
end AndroidBuild
