import Mathlib.Tactic

/-!
# Maps into sets, and the orders they are iterated in

A hash map whose values are sets, with the operations that create a missing
set before they add to it.  Nothing is promised about the order in which a hash
set or the keys of a hash map are visited, so a loop over one takes a
`HashOrder`, and a result that holds for every `HashOrder` holds whatever the
hashes are.
-/

namespace AndroidBuild

universe u v w

/-- A choice of the order in which each finite set is visited. -/
structure HashOrder (α : Type u) where
  iterate : Finset α → List α
  nodup : ∀ s, (iterate s).Nodup
  mem_iterate : ∀ s a, a ∈ iterate s ↔ a ∈ s

namespace HashOrder

variable {α : Type u}

attribute [simp] mem_iterate

noncomputable instance : Inhabited (HashOrder α) :=
  ⟨⟨Finset.toList, Finset.nodup_toList, fun _ _ => Finset.mem_toList⟩⟩

theorem iterate_singleton
    (order : HashOrder α) (a : α) :
    order.iterate {a} = [a] := by
  refine List.perm_singleton.mp ?_
  exact (List.perm_ext_iff_of_nodup (order.nodup _) (List.nodup_singleton a)).mpr (by simp)

/-- The elements of a finite set in increasing order, by insertion. -/
def increasing [LinearOrder α] (s : Finset α) : List α :=
  Quot.liftOn s.val (fun l => l.insertionSort (· ≤ ·)) fun l l' h =>
    ((List.perm_insertionSort _ l).trans
      (List.Perm.trans h (List.perm_insertionSort _ l').symm)).eq_of_pairwise'
      (List.pairwise_insertionSort (· ≤ ·) l) (List.pairwise_insertionSort (· ≤ ·) l')

theorem coe_increasing
    [LinearOrder α] (s : Finset α) :
    (increasing s : Multiset α) = s.val := by
  obtain ⟨m, hm⟩ := s
  revert hm
  refine Quot.inductionOn m fun l _ => ?_
  exact Quot.sound (List.perm_insertionSort (· ≤ ·) l)

/-- Visit the elements in increasing order. -/
def sorted [LinearOrder α] : HashOrder α where
  iterate := increasing
  nodup s := by
    rw [← Multiset.coe_nodup, coe_increasing]
    exact s.nodup
  mem_iterate s a := by
    rw [← Multiset.mem_coe, coe_increasing, Finset.mem_val]

/-- Visit the elements with `p` before those without. -/
noncomputable def preferring (p : α → Prop) [DecidablePred p] : HashOrder α where
  iterate s := (s.filter p).toList ++ (s.filter (fun a => ¬ p a)).toList
  nodup s := by
    refine List.Nodup.append (Finset.nodup_toList _) (Finset.nodup_toList _) ?_
    intro a hpos hneg
    rw [Finset.mem_toList, Finset.mem_filter] at hpos hneg
    exact hneg.2 hpos.2
  mem_iterate s a := by
    rw [List.mem_append, Finset.mem_toList, Finset.mem_toList, Finset.mem_filter,
      Finset.mem_filter]
    tauto

/-- An element with `p` is visited before one without. -/
theorem preferring_before
    (p : α → Prop) [DecidablePred p] {s : Finset α} {a b : α} (ha : a ∈ s) (hpa : p a)
    (hpb : ¬ p b) {front back : List α}
    (hsplit : (preferring p).iterate s = front ++ b :: back) :
    a ∈ front := by
  have hmem : a ∈ (s.filter p).toList := by
    rw [Finset.mem_toList, Finset.mem_filter]
    exact ⟨ha, hpa⟩
  have hb : b ∉ (s.filter p).toList := by
    rw [Finset.mem_toList, Finset.mem_filter]
    exact fun h => hpb h.2
  change (s.filter p).toList ++ _ = front ++ b :: back at hsplit
  rcases List.append_eq_append_iff.mp hsplit with ⟨middle, hfront, _⟩ | ⟨middle, hpositive, hrest⟩
  · rw [hfront]
    exact List.mem_append_left middle hmem
  · cases middle with
    | nil =>
        rw [List.append_nil] at hpositive
        rwa [← hpositive]
    | cons c middle =>
        rw [List.cons_append, List.cons.injEq] at hrest
        refine absurd ?_ hb
        rw [hpositive, hrest.1]
        exact List.mem_append_right front List.mem_cons_self

end HashOrder

/-- A map into sets.  A key may be present with the empty set. -/
structure SetMap (K : Type u) (V : Type v) where
  keys : Finset K
  values : K → Finset V
  values_of_notMem : ∀ k, k ∉ keys → values k = ∅

namespace SetMap

variable {K : Type u} {V : Type v}

def empty : SetMap K V where
  keys := ∅
  values _ := ∅
  values_of_notMem _ _ := rfl

@[simp] theorem keys_empty :
    (empty : SetMap K V).keys = ∅ := by
  rfl

@[simp] theorem values_empty
    (k : K) :
    (empty : SetMap K V).values k = ∅ := by
  rfl

theorem mem_keys_of_mem
    {m : SetMap K V} {k : K} {v : V} (h : v ∈ m.values k) :
    k ∈ m.keys := by
  by_contra hk
  rw [m.values_of_notMem k hk] at h
  exact Finset.notMem_empty v h

variable [DecidableEq K]

/-- `m.get(k)`, with nothing for null. -/
def get? (m : SetMap K V) (k : K) : Option (Finset V) :=
  if k ∈ m.keys then some (m.values k) else none

theorem get?_of_mem
    {m : SetMap K V} {k : K} (h : k ∈ m.keys) :
    m.get? k = some (m.values k) := by
  exact if_pos h

variable [DecidableEq V]

/-- `m.computeIfAbsent(k, new).addAll(vs)`. -/
def addAll (m : SetMap K V) (k : K) (vs : Finset V) : SetMap K V where
  keys := insert k m.keys
  values := Function.update m.values k (m.values k ∪ vs)
  values_of_notMem k' h := by
    rw [Finset.mem_insert, not_or] at h
    rw [Function.update_of_ne h.1, m.values_of_notMem k' h.2]

/-- `m.computeIfAbsent(k, new).add(v)`. -/
def add (m : SetMap K V) (k : K) (v : V) : SetMap K V :=
  m.addAll k {v}

/-- `m.get(k).remove(v)`. -/
def remove (m : SetMap K V) (k : K) (v : V) : SetMap K V where
  keys := m.keys
  values := Function.update m.values k ((m.values k).erase v)
  values_of_notMem k' h := by
    rcases eq_or_ne k' k with rfl | hne
    · rw [Function.update_self, m.values_of_notMem k' h, Finset.erase_empty]
    · rw [Function.update_of_ne hne, m.values_of_notMem k' h]

@[simp] theorem mem_keys_addAll
    {m : SetMap K V} {k k' : K} {vs : Finset V} :
    k' ∈ (m.addAll k vs).keys ↔ k' = k ∨ k' ∈ m.keys := by
  exact Finset.mem_insert

@[simp] theorem mem_values_addAll
    {m : SetMap K V} {k k' : K} {vs : Finset V} {v : V} :
    v ∈ (m.addAll k vs).values k' ↔ v ∈ m.values k' ∨ k' = k ∧ v ∈ vs := by
  change v ∈ Function.update m.values k (m.values k ∪ vs) k' ↔ _
  rcases eq_or_ne k' k with rfl | hne
  · rw [Function.update_self, Finset.mem_union]
    simp
  · rw [Function.update_of_ne hne]
    simp [hne]

@[simp] theorem mem_keys_add
    {m : SetMap K V} {k k' : K} {v : V} :
    k' ∈ (m.add k v).keys ↔ k' = k ∨ k' ∈ m.keys := by
  exact mem_keys_addAll

@[simp] theorem mem_values_add
    {m : SetMap K V} {k k' : K} {v v' : V} :
    v' ∈ (m.add k v).values k' ↔ v' ∈ m.values k' ∨ k' = k ∧ v' = v := by
  rw [add, mem_values_addAll, Finset.mem_singleton]

@[simp] theorem mem_values_remove
    {m : SetMap K V} {k k' : K} {v v' : V} :
    v' ∈ (m.remove k v).values k' ↔ v' ∈ m.values k' ∧ ¬ (k' = k ∧ v' = v) := by
  change v' ∈ Function.update m.values k ((m.values k).erase v) k' ↔ _
  rcases eq_or_ne k' k with rfl | hne
  · rw [Function.update_self, Finset.mem_erase]
    tauto
  · rw [Function.update_of_ne hne]
    simp [hne]

section Fold

variable {ι : Type w} (key : ι → K) (vals : ι → Finset V)

theorem mem_keys_foldl_addAll
    (l : List ι) (m : SetMap K V) {k : K} :
    k ∈ (l.foldl (fun m i => m.addAll (key i) (vals i)) m).keys ↔
      k ∈ m.keys ∨ ∃ i ∈ l, key i = k := by
  induction l generalizing m with
  | nil => simp
  | cons i l ih =>
      rw [List.foldl_cons, ih, mem_keys_addAll, List.exists_mem_cons_iff, eq_comm]
      tauto

theorem mem_values_foldl_addAll
    (l : List ι) (m : SetMap K V) {k : K} {v : V} :
    v ∈ (l.foldl (fun m i => m.addAll (key i) (vals i)) m).values k ↔
      v ∈ m.values k ∨ ∃ i ∈ l, key i = k ∧ v ∈ vals i := by
  induction l generalizing m with
  | nil => simp
  | cons i l ih =>
      rw [List.foldl_cons, ih, mem_values_addAll, List.exists_mem_cons_iff, eq_comm, or_assoc]

end Fold

end SetMap
end AndroidBuild
