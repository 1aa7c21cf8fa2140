import AndroidBuild.Lib.Heapq
import Mathlib.Order.WithBot

/-!
# The order of a binary heap

The operations of `heapq` keep the heap order, for items that are compared by a
key, so that the item that is popped has a least key.  Positions behind the end
of the array count as greatest, and the order is a fact about all positions.
-/

namespace AndroidBuild
namespace Heapq

universe u v

variable {α : Type u} {K : Type v} (key : α → K)

section Positions

/-- The key of the item at a position. -/
def keyAt (heap : Array α) (i : Nat) : WithTop K :=
  match heap[i]? with
  | some a => ((key a : K) : WithTop K)
  | none => ⊤

variable {key}

theorem keyAt_of_getElem?
    {heap : Array α} {i : Nat} {a : α} (h : heap[i]? = some a) :
    keyAt key heap i = key a := by
  rw [keyAt, h]

theorem keyAt_of_size_le
    {heap : Array α} {i : Nat} (h : heap.size ≤ i) :
    keyAt key heap i = ⊤ := by
  rw [keyAt, Array.getElem?_eq_none h]

theorem keyAt_congr
    {heap heap' : Array α} {i j : Nat} (h : heap'[i]? = heap[j]?) :
    keyAt key heap' i = keyAt key heap j := by
  rw [keyAt, keyAt, h]

/-- After a swap every position shows what was at its partner. -/
theorem keyAt_swap
    {heap : Array α} {i j : Nat} (hi : i < heap.size) (hj : j < heap.size) (k : Nat) :
    keyAt key (heap.swapIfInBounds i j) k =
      keyAt key heap (if k = i then j else if k = j then i else k) := by
  refine keyAt_congr ?_
  rw [Array.swapIfInBounds_def, dif_pos hi, dif_pos hj, Array.getElem?_swap]
  by_cases hkj : k = j
  · subst hkj
    rw [if_pos rfl]
    by_cases hki : k = i
    · subst hki
      rw [if_pos rfl, Array.getElem?_eq_getElem hi]
    · rw [if_neg hki, if_pos rfl, Array.getElem?_eq_getElem hi]
  · rw [if_neg (Ne.symm hkj)]
    by_cases hki : k = i
    · subst hki
      rw [if_pos rfl, if_pos rfl, Array.getElem?_eq_getElem hj]
    · rw [if_neg (Ne.symm hki), if_neg hki, if_neg hkj]

end Positions

section Order

variable [LinearOrder K]

/-- `<` of two items. -/
def byKey (a b : α) : Bool :=
  decide (key a < key b)

/-- From `start` on, no item is greater than its children. -/
def OrderedFrom (start : Nat) (heap : Array α) : Prop :=
  ∀ i, 0 < i → start ≤ (i - 1) / 2 → keyAt key heap ((i - 1) / 2) ≤ keyAt key heap i

/-- The heap invariant of `heapq`. -/
def IsHeap (heap : Array α) : Prop :=
  OrderedFrom key 0 heap

/-- The positions of the subtree of `start`. -/
inductive Below (start : Nat) : Nat → Prop where
  | root : Below start start
  | child {i : Nat} : 0 < i → Below start ((i - 1) / 2) → Below start i

/-- Ordered from `start` on, except that the item at `pos` may be smaller than its parent. -/
structure UpOrdered (start pos : Nat) (heap : Array α) : Prop where
  pairs : ∀ i, 0 < i → start ≤ (i - 1) / 2 → i ≠ pos →
    keyAt key heap ((i - 1) / 2) ≤ keyAt key heap i
  grand : ∀ i, 0 < i → (i - 1) / 2 = pos → 0 < pos → start ≤ (pos - 1) / 2 →
    keyAt key heap ((pos - 1) / 2) ≤ keyAt key heap i

/-- Ordered from `start` on, whatever item is at `pos`. -/
structure DownOrdered (start pos : Nat) (heap : Array α) : Prop where
  pairs : ∀ i, 0 < i → start ≤ (i - 1) / 2 → i ≠ pos → (i - 1) / 2 ≠ pos →
    keyAt key heap ((i - 1) / 2) ≤ keyAt key heap i
  grand : ∀ i, 0 < i → (i - 1) / 2 = pos → 0 < pos → start ≤ (pos - 1) / 2 →
    keyAt key heap ((pos - 1) / 2) ≤ keyAt key heap i

theorem Below.le
    {start pos : Nat} (h : Below start pos) :
    start ≤ pos := by
  induction h with
  | root => exact le_rfl
  | child _ _ ih => omega

/-- A position of the subtree other than its root has its parent there. -/
theorem Below.parent
    {start pos : Nat} (h : Below start pos) (hne : start < pos) :
    Below start ((pos - 1) / 2) := by
  cases h with
  | root => exact absurd hne (lt_irrefl _)
  | child _ h => exact h

end Order

variable [LinearOrder K]

section Siftdown

variable {key}

/-- The item at `pos` changes places with its greater parent. -/
theorem UpOrdered.move
    {start pos : Nat} {heap : Array α} (h : UpOrdered key start pos heap)
    (hpos : 0 < pos) (hstart : start ≤ (pos - 1) / 2) (hsize : pos < heap.size)
    (hlt : keyAt key heap pos < keyAt key heap ((pos - 1) / 2)) :
    UpOrdered key start ((pos - 1) / 2) (heap.swapIfInBounds pos ((pos - 1) / 2)) := by
  have hsize' : (pos - 1) / 2 < heap.size := by omega
  constructor
  · intro i hi hstart_i hne
    rw [keyAt_swap hsize hsize', keyAt_swap hsize hsize']
    by_cases hipos : i = pos
    · subst hipos
      rw [if_neg (by omega), if_pos rfl, if_pos rfl]
      exact hlt.le
    · rw [if_neg hipos, if_neg hne]
      by_cases hsibling : (i - 1) / 2 = (pos - 1) / 2
      · rw [if_neg (by omega), if_pos hsibling]
        have hold := h.pairs i hi hstart_i hipos
        rw [hsibling] at hold
        exact hlt.le.trans hold
      · by_cases hchild : (i - 1) / 2 = pos
        · rw [if_pos hchild]
          exact h.grand i hi hchild hpos hstart
        · rw [if_neg hchild, if_neg hsibling]
          exact h.pairs i hi hstart_i hipos
  · intro i hi hparent hpos' hgrand
    rw [keyAt_swap hsize hsize', keyAt_swap hsize hsize', if_neg (by omega), if_neg (by omega)]
    have hup := h.pairs ((pos - 1) / 2) hpos' hgrand (by omega)
    by_cases hipos : i = pos
    · rw [if_pos hipos]
      exact hup
    · rw [if_neg hipos, if_neg (by omega)]
      have hold := h.pairs i hi (by omega) hipos
      rw [hparent] at hold
      exact hup.trans hold

/-- If the item at `pos` is not smaller than its parent, everything is ordered. -/
theorem UpOrdered.finish
    {start pos : Nat} {heap : Array α} (h : UpOrdered key start pos heap)
    (hle : 0 < pos → start ≤ (pos - 1) / 2 →
      keyAt key heap ((pos - 1) / 2) ≤ keyAt key heap pos) :
    OrderedFrom key start heap := by
  intro i hi hstart
  by_cases hipos : i = pos
  · subst hipos
    exact hle hi hstart
  · exact h.pairs i hi hstart hipos

/-- Moving the item towards the root restores the order. -/
theorem siftdown_ordered
    {start fuel pos : Nat} {heap : Array α} (hbelow : Below start pos) (hfuel : pos < fuel)
    (hsize : pos < heap.size) (h : UpOrdered key start pos heap) :
    OrderedFrom key start (siftdown (byKey key) start fuel heap pos) := by
  induction fuel generalizing heap pos with
  | zero => exact absurd hfuel (Nat.not_lt_zero _)
  | succ fuel ih =>
      rw [siftdown]
      by_cases hroot : start < pos
      · have hparent := hbelow.parent hroot
        have hsize' : (pos - 1) / 2 < heap.size := by omega
        rw [if_pos hroot]
        simp only [Array.getElem?_eq_getElem hsize, Array.getElem?_eq_getElem hsize']
        have hkey : keyAt key heap pos = key heap[pos] := keyAt_of_getElem? (Array.getElem?_eq_getElem hsize)
        have hkey' : keyAt key heap ((pos - 1) / 2) = key heap[(pos - 1) / 2] :=
          keyAt_of_getElem? (Array.getElem?_eq_getElem hsize')
        by_cases hlt : key heap[pos] < key heap[(pos - 1) / 2]
        · have hbyKey : byKey key heap[pos] heap[(pos - 1) / 2] = true := decide_eq_true hlt
          rw [if_pos hbyKey]
          refine ih hparent (by omega) (by simpa using hsize')
            (h.move (by omega) hparent.le hsize ?_)
          rw [hkey, hkey']
          exact WithTop.coe_lt_coe.mpr hlt
        · have hnot : ¬ byKey key heap[pos] heap[(pos - 1) / 2] = true := by
            simpa [byKey] using hlt
          rw [if_neg hnot]
          refine h.finish fun _ _ => ?_
          rw [hkey, hkey']
          exact WithTop.coe_le_coe.mpr (not_lt.mp hlt)
      · rw [if_neg hroot]
        exact h.finish fun _ _ => absurd hbelow.le (by omega)

end Siftdown

section Siftup

variable {key}

/-- The child that is chosen is not greater than the other. -/
theorem smallerChild_spec
    (key : α → K) {heap : Array α} {pos : Nat} (hsize : 2 * pos + 1 < heap.size) :
    0 < smallerChild (byKey key) heap (2 * pos + 1) ∧
      (smallerChild (byKey key) heap (2 * pos + 1) - 1) / 2 = pos ∧
      smallerChild (byKey key) heap (2 * pos + 1) < heap.size ∧
      ∀ i, 0 < i → (i - 1) / 2 = pos →
        keyAt key heap (smallerChild (byKey key) heap (2 * pos + 1)) ≤ keyAt key heap i := by
  have hchild (i : Nat) (hi : 0 < i) (hparent : (i - 1) / 2 = pos) :
      i = 2 * pos + 1 ∨ i = 2 * pos + 1 + 1 := by omega
  have hleft : keyAt key heap (2 * pos + 1) = key heap[2 * pos + 1] :=
    keyAt_of_getElem? (Array.getElem?_eq_getElem hsize)
  unfold smallerChild
  rw [Array.getElem?_eq_getElem hsize]
  cases hr : heap[2 * pos + 1 + 1]? with
  | none =>
      simp only
      refine ⟨by omega, by omega, hsize, fun i hi hparent => ?_⟩
      rcases hchild i hi hparent with rfl | rfl
      · exact le_rfl
      · rw [keyAt_of_size_le (Array.getElem?_eq_none_iff.mp hr)]
        exact le_top
  | some right =>
      have hsize' := (Array.getElem?_eq_some_iff.mp hr).1
      have hright : keyAt key heap (2 * pos + 1 + 1) = key right := keyAt_of_getElem? hr
      by_cases hlt : key heap[2 * pos + 1] < key right
      · simp only [byKey, hlt, decide_true, if_true]
        refine ⟨by omega, by omega, hsize, fun i hi hparent => ?_⟩
        rcases hchild i hi hparent with rfl | rfl
        · exact le_rfl
        · rw [hleft, hright]
          exact WithTop.coe_le_coe.mpr hlt.le
      · simp only [byKey, hlt, decide_false, Bool.false_eq_true, if_false]
        refine ⟨by omega, by omega, hsize', fun i hi hparent => ?_⟩
        rcases hchild i hi hparent with rfl | rfl
        · rw [hleft, hright]
          exact WithTop.coe_le_coe.mpr (not_lt.mp hlt)
        · exact le_rfl

/-- The smaller child moves up into the hole. -/
theorem DownOrdered.move
    {start pos c : Nat} {heap : Array α} (h : DownOrdered key start pos heap)
    (hstart : start ≤ pos) (hc : 0 < c) (hparent : (c - 1) / 2 = pos) (hsize : c < heap.size)
    (hleast : ∀ i, 0 < i → (i - 1) / 2 = pos → keyAt key heap c ≤ keyAt key heap i) :
    DownOrdered key start c (heap.swapIfInBounds pos c) := by
  have hsize' : pos < heap.size := by omega
  constructor
  · intro i hi hstart_i hne hne'
    rw [keyAt_swap hsize' hsize, keyAt_swap hsize' hsize]
    by_cases hipos : i = pos
    · rw [if_neg (by omega), if_neg hne', if_pos hipos]
      have hold := h.grand c hc hparent (by omega) (by omega)
      rw [← hipos] at hold
      exact hold
    · rw [if_neg hipos, if_neg hne]
      by_cases hsibling : (i - 1) / 2 = pos
      · rw [if_pos hsibling]
        exact hleast i hi hsibling
      · rw [if_neg hsibling, if_neg hne']
        exact h.pairs i hi hstart_i hipos hsibling
  · intro i hi hchild _ _
    rw [keyAt_swap hsize' hsize, keyAt_swap hsize' hsize, if_pos hparent, if_neg (by omega),
      if_neg (by omega)]
    have hold := h.pairs i hi (by omega) (by omega) (by omega)
    rw [hchild] at hold
    exact hold

/-- The hole sinks to a leaf, where only its own item may be out of order. -/
theorem siftupLoop_ordered
    {start fuel pos : Nat} {heap : Array α} (hbelow : Below start pos)
    (hfuel : heap.size ≤ pos + fuel) (hsize : pos < heap.size)
    (h : DownOrdered key start pos heap) :
    Below start (siftupLoop (byKey key) fuel heap pos).2 ∧
      (siftupLoop (byKey key) fuel heap pos).2 < heap.size ∧
      UpOrdered key start (siftupLoop (byKey key) fuel heap pos).2
        (siftupLoop (byKey key) fuel heap pos).1 := by
  induction fuel generalizing heap pos with
  | zero => omega
  | succ fuel ih =>
      rw [siftupLoop]
      by_cases hleaf : 2 * pos + 1 < heap.size
      · obtain ⟨hc, hparent, hc', hleast⟩ := smallerChild_spec key hleaf
        have hmoved := h.move hbelow.le hc hparent hc' hleast
        have hsame (i j : Nat) : (heap.swapIfInBounds i j).size = heap.size := by simp
        simp only [if_pos hleaf]
        have hchild : Below start (smallerChild (byKey key) heap (2 * pos + 1)) := by
          refine .child hc ?_
          rw [hparent]
          exact hbelow
        have hrest := ih hchild (by rw [hsame]; omega)
          (by rw [hsame]; exact hc') hmoved
        rw [hsame] at hrest
        exact hrest
      · simp only [if_neg hleaf]
        refine ⟨hbelow, hsize, ⟨fun i hi hstart hne => ?_, h.grand⟩⟩
        by_cases hparent : (i - 1) / 2 = pos
        · rw [keyAt_of_size_le (i := i) (by omega)]
          exact le_top
        · exact h.pairs i hi hstart hne hparent

theorem size_of_perm
    {heap heap' : Array α} (h : heap'.toList.Perm heap.toList) :
    heap'.size = heap.size := by
  simpa using h.length_eq

/-- `_siftup` repairs the subtree of `start`. -/
theorem siftup_ordered
    {start : Nat} {heap : Array α} (hsize : start < heap.size)
    (h : OrderedFrom key (start + 1) heap) :
    OrderedFrom key start (siftup (byKey key) heap start) := by
  have hdown : DownOrdered key start start heap := by
    refine ⟨fun i hi hstart _ hne => h i hi (by omega), fun i _ _ hpos hgrand => ?_⟩
    omega
  obtain ⟨hbelow, hlt, hup⟩ :=
    siftupLoop_ordered .root (Nat.le_add_left heap.size start) hsize hdown
  have hsame : (siftupLoop (byKey key) heap.size heap start).1.size = heap.size :=
    size_of_perm (siftupLoop_perm _ _ _)
  exact siftdown_ordered hbelow hlt (hlt.trans_eq hsame.symm) hup

end Siftup

section Operations

variable {key}

theorem heapify_isHeap
    (x : Array α) :
    IsHeap key (heapify (byKey key) x) := by
  have hstart : OrderedFrom key (x.size / 2) x := by
    intro i hi hstart
    rw [keyAt_of_size_le (i := i) (by omega)]
    exact le_top
  have hloop : ∀ (m : Nat) (heap : Array α), m ≤ heap.size → OrderedFrom key m heap →
      OrderedFrom key 0
        ((List.range m).reverse.foldl (fun heap i => siftup (byKey key) heap i) heap) := by
    intro m
    induction m with
    | zero => exact fun heap _ h => h
    | succ m ih =>
        intro heap hsize h
        rw [List.range_succ, List.reverse_append, List.reverse_singleton, List.singleton_append,
          List.foldl_cons]
        have hsame : (siftup (byKey key) heap m).size = heap.size :=
          size_of_perm (siftup_perm _ _)
        exact ih _ (by omega) (siftup_ordered hsize h)
  exact hloop _ x (Nat.div_le_self _ _) hstart

theorem heappush_isHeap
    {heap : Array α} (h : IsHeap key heap) (item : α) :
    IsHeap key (heappush (byKey key) heap item) := by
  have hold (i : Nat) (hi : i < heap.size) :
      keyAt key (heap.push item) i = keyAt key heap i := by
    refine keyAt_congr ?_
    rw [Array.getElem?_push, if_neg (by omega)]
  have hbeyond (i : Nat) (hi : heap.size < i) : keyAt key (heap.push item) i = ⊤ := by
    refine keyAt_of_size_le ?_
    rw [Array.size_push]
    exact hi
  refine siftdown_ordered ?_ (Nat.lt_succ_self _) (by simp) ⟨fun i hi hstart hne => ?_, ?_⟩
  · generalize heap.size = n
    induction n using Nat.strong_induction_on with
    | h n ih =>
        by_cases hn : n = 0
        · exact hn ▸ .root
        · exact .child (Nat.pos_of_ne_zero hn) (ih _ (by omega))
  · by_cases hlt : i < heap.size
    · rw [hold i hlt, hold _ (by omega)]
      exact h i hi (Nat.zero_le _)
    · rw [hbeyond i (by omega)]
      exact le_top
  · intro i hi hparent _ _
    rw [hbeyond i (by omega)]
    exact le_top

/-- The first item of a heap has a least key. -/
theorem IsHeap.keyAt_zero_le
    {heap : Array α} (h : IsHeap key heap) (i : Nat) :
    keyAt key heap 0 ≤ keyAt key heap i := by
  induction i using Nat.strong_induction_on with
  | h i ih =>
      by_cases hi : i = 0
      · rw [hi]
      · exact (ih ((i - 1) / 2) (by omega)).trans (h i (Nat.pos_of_ne_zero hi) (Nat.zero_le _))

theorem IsHeap.pop
    {heap : Array α} (h : IsHeap key heap) :
    IsHeap key heap.pop := by
  intro i hi hstart
  by_cases hlt : i < heap.size - 1
  · have hsame (j : Nat) (hj : j < heap.size - 1) : keyAt key heap.pop j = keyAt key heap j := by
      refine keyAt_congr ?_
      rw [Array.getElem?_pop, if_pos hj]
    rw [hsame i hlt, hsame _ (by omega)]
    exact h i hi hstart
  · rw [keyAt_of_size_le (i := i) (by rw [Array.size_pop]; omega)]
    exact le_top

/-- Popping leaves a heap and gives an item of least key. -/
theorem heappop_isHeap
    {heap rest : Array α} {item : α} (h : IsHeap key heap)
    (hpop : heappop (byKey key) heap = some (item, rest)) :
    IsHeap key rest ∧ ∀ a ∈ heap.toList, key item ≤ key a := by
  unfold heappop at hpop
  cases hback : heap.back? with
  | none =>
      rw [hback] at hpop
      cases hpop
  | some lastelt =>
      rw [hback] at hpop
      simp only at hpop
      cases hfirst : heap.pop[0]? with
      | none =>
          rw [hfirst] at hpop
          simp only [Option.some.injEq, Prod.mk.injEq] at hpop
          obtain ⟨rfl, rfl⟩ := hpop
          refine ⟨h.pop, fun a ha => ?_⟩
          -- the last item is the only one
          have hsize : heap.size ≤ 1 := by
            have := Array.getElem?_eq_none_iff.mp hfirst
            rw [Array.size_pop] at this
            omega
          obtain ⟨i, hi, rfl⟩ := List.getElem_of_mem ha
          rw [Array.length_toList] at hi
          rw [Array.back?_eq_getElem?, Array.getElem?_eq_some_iff] at hback
          obtain ⟨hlast, rfl⟩ := hback
          have hsame : i = heap.size - 1 := by omega
          subst hsame
          exact le_rfl
      | some returnitem =>
          rw [hfirst] at hpop
          simp only [Option.some.injEq, Prod.mk.injEq] at hpop
          obtain ⟨rfl, rfl⟩ := hpop
          obtain ⟨hsize, hget⟩ := Array.getElem?_eq_some_iff.mp hfirst
          constructor
          · refine siftup_ordered (by simpa using hsize) fun i hi hstart => ?_
            have hsame (j : Nat) (hj : j ≠ 0) :
                keyAt key (heap.pop.setIfInBounds 0 lastelt) j = keyAt key heap.pop j := by
              refine keyAt_congr ?_
              rw [Array.getElem?_setIfInBounds_ne (Ne.symm hj)]
            rw [hsame i (by omega), hsame _ (by omega)]
            exact h.pop i hi (Nat.zero_le _)
          · intro a ha
            obtain ⟨i, hi, rfl⟩ := List.getElem_of_mem ha
            rw [Array.length_toList] at hi
            have hzero : heap[0]? = some returnitem := by
              rw [← hfirst, Array.getElem?_pop, if_pos (by simpa using hsize)]
            have hle := h.keyAt_zero_le i
            rw [keyAt_of_getElem? hzero, keyAt_of_getElem? (Array.getElem?_eq_getElem hi)] at hle
            exact WithTop.coe_le_coe.mp hle

end Operations

end Heapq
end AndroidBuild
