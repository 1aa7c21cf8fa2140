import Mathlib.Tactic

/-!
# Insertion-ordered dictionaries

A dictionary that iterates over its keys in the order of their first
insertion.  Assigning to a key that is present keeps its place.
-/

namespace AndroidBuild

universe u v w

/-- Association list with distinct keys, in insertion order. -/
structure OrderedDict (K : Type u) (V : Type v) where
  entries : List (K × V)
  nodup : (entries.map Prod.fst).Nodup

namespace OrderedDict

variable {K : Type u} {V : Type v}

def keys (d : OrderedDict K V) : List K :=
  d.entries.map Prod.fst

def values (d : OrderedDict K V) : List V :=
  d.entries.map Prod.snd

/-- The dictionary without entries. -/
def empty : OrderedDict K V :=
  ⟨[], by simp⟩

@[simp] theorem keys_empty :
    (empty : OrderedDict K V).keys = [] := by
  rfl

theorem keys_nodup (d : OrderedDict K V) :
    d.keys.Nodup :=
  d.nodup

variable [DecidableEq K]

/-- `d.get(k)`. -/
def get? (d : OrderedDict K V) (k : K) : Option V :=
  d.entries.lookup k

/-- Update of an association list: in place, or at the end. -/
def setEntries (k : K) (v : V) : List (K × V) → List (K × V)
  | [] => [(k, v)]
  | e :: rest => if e.1 = k then (k, v) :: rest else e :: setEntries k v rest

theorem mem_keys_setEntries
    (k k' : K) (v : V) (l : List (K × V)) :
    k' ∈ (setEntries k v l).map Prod.fst ↔ k' = k ∨ k' ∈ l.map Prod.fst := by
  induction l with
  | nil => simp [setEntries]
  | cons e l ih =>
      rw [setEntries]
      split_ifs with he
      · subst he
        simp
      · rw [List.map_cons, List.mem_cons, ih, List.map_cons, List.mem_cons]
        tauto

theorem nodup_setEntries
    (k : K) (v : V) {l : List (K × V)} (h : (l.map Prod.fst).Nodup) :
    ((setEntries k v l).map Prod.fst).Nodup := by
  induction l with
  | nil => simp [setEntries]
  | cons e l ih =>
      rw [List.map_cons, List.nodup_cons] at h
      rw [setEntries]
      split_ifs with he
      · subst he
        simpa using h
      · rw [List.map_cons, List.nodup_cons, mem_keys_setEntries]
        refine ⟨?_, ih h.2⟩
        rintro (hek | hmem)
        · exact he hek
        · exact h.1 hmem

/-- `d[k] = v`. -/
def set (d : OrderedDict K V) (k : K) (v : V) : OrderedDict K V :=
  ⟨setEntries k v d.entries, nodup_setEntries k v d.nodup⟩

/-- `del d[k]`, for a key that is present. -/
def erase (d : OrderedDict K V) (k : K) : OrderedDict K V where
  entries := d.entries.filter (fun e => !decide (e.1 = k))
  nodup := d.nodup.sublist (List.filter_sublist.map Prod.fst)

@[simp] theorem mem_keys_set
    {d : OrderedDict K V} {k k' : K} {v : V} :
    k' ∈ (d.set k v).keys ↔ k' = k ∨ k' ∈ d.keys :=
  mem_keys_setEntries k k' v d.entries

@[simp] theorem mem_keys_erase
    {d : OrderedDict K V} {k k' : K} :
    k' ∈ (d.erase k).keys ↔ k' ≠ k ∧ k' ∈ d.keys := by
  unfold erase keys
  simp only [List.mem_map, List.mem_filter, Bool.not_eq_true', decide_eq_false_iff_not]
  constructor
  · rintro ⟨e, ⟨hmem, hne⟩, rfl⟩
    exact ⟨hne, e, hmem, rfl⟩
  · rintro ⟨hne, e, hmem, rfl⟩
    exact ⟨e, ⟨hmem, hne⟩, rfl⟩

theorem get?_set
    (d : OrderedDict K V) (k k' : K) (v : V) :
    (d.set k v).get? k' = if k' = k then some v else d.get? k' := by
  unfold set get?
  simp only
  induction d.entries with
  | nil =>
      by_cases h : k' = k
      · simp [setEntries, h]
      · have hb : (k' == k) = false := by simpa using h
        simp [setEntries, List.lookup_cons, h, hb]
  | cons e l ih =>
      obtain ⟨k₀, v₀⟩ := e
      rw [setEntries]
      by_cases he : k₀ = k
      · subst he
        by_cases h : k' = k₀
        · simp [h]
        · have hb : (k' == k₀) = false := by simpa using h
          simp [List.lookup_cons, h, hb]
      · rw [if_neg he]
        by_cases h₀ : k' = k₀
        · subst h₀
          simp [he]
        · have hb : (k' == k₀) = false := by simpa using h₀
          simp only [List.lookup_cons, hb, ih]

/-- A new key is put at the end. -/
theorem setEntries_of_fresh
    {entries : List (K × V)} {k : K} (h : k ∉ entries.map Prod.fst) (v : V) :
    setEntries k v entries = entries ++ [(k, v)] := by
  induction entries with
  | nil => rfl
  | cons e l ih =>
      rw [List.map_cons, List.mem_cons, not_or] at h
      rw [setEntries, if_neg (Ne.symm h.1), ih h.2, List.cons_append]

theorem entries_set_of_fresh
    {d : OrderedDict K V} {k : K} (h : k ∉ d.keys) (v : V) :
    (d.set k v).entries = d.entries ++ [(k, v)] :=
  setEntries_of_fresh h v

theorem mem_keys_iff
    {d : OrderedDict K V} {k : K} :
    k ∈ d.keys ↔ ∃ v, d.get? k = some v := by
  unfold keys get?
  induction d.entries with
  | nil => simp
  | cons e l ih =>
      obtain ⟨k₀, v₀⟩ := e
      by_cases h : k = k₀
      · subst h
        simp
      · have hb : (k == k₀) = false := by simpa using h
        simp [List.lookup_cons, h, hb, ih]

theorem mem_of_get?
    {d : OrderedDict K V} {k : K} {v : V} (h : d.get? k = some v) :
    (k, v) ∈ d.entries := by
  unfold get? at h
  revert h
  induction d.entries with
  | nil => simp
  | cons e l ih =>
      obtain ⟨k₀, v₀⟩ := e
      rw [List.lookup_cons]
      by_cases hk : k = k₀
      · subst hk
        simp only [beq_self_eq_true]
        rintro ⟨⟩
        exact List.mem_cons_self
      · rw [beq_false_of_ne hk]
        intro h
        exact List.mem_cons_of_mem _ (ih h)

theorem get?_of_mem
    (d : OrderedDict K V) {k : K} {v : V} (h : (k, v) ∈ d.entries) :
    d.get? k = some v := by
  obtain ⟨entries, hnodup⟩ := d
  unfold get?
  simp only at h ⊢
  induction entries with
  | nil => cases h
  | cons e l ih =>
      obtain ⟨k₀, v₀⟩ := e
      rw [List.map_cons, List.nodup_cons] at hnodup
      rcases List.mem_cons.mp h with heq | hmem
      · cases heq
        simp
      · have hne : k ≠ k₀ := by
          rintro rfl
          exact hnodup.1 (List.mem_map.mpr ⟨_, hmem, rfl⟩)
        have hb : (k == k₀) = false := by simpa using hne
        simp only [List.lookup_cons, hb]
        exact ih hnodup.2 hmem

theorem get?_erase
    (d : OrderedDict K V) {k k' : K} (h : k' ≠ k) :
    (d.erase k).get? k' = d.get? k' := by
  unfold erase get?
  simp only
  induction d.entries with
  | nil => rfl
  | cons e l ih =>
      obtain ⟨k₀, v₀⟩ := e
      by_cases he : k₀ = k
      · subst he
        have hb : (k' == k₀) = false := by simpa using h
        simp [List.lookup_cons, hb, ih]
      · by_cases h₀ : k' = k₀
        · subst h₀
          simp [h]
        · have hb : (k' == k₀) = false := by simpa using h₀
          simp [List.lookup_cons, he, hb, ih]

/-- Every value is changed in place. -/
def mapValues {W : Type w} (d : OrderedDict K V) (f : V → W) : OrderedDict K W where
  entries := d.entries.map (fun e => (e.1, f e.2))
  nodup := by
    have h : (d.entries.map (fun e => (e.1, f e.2))).map Prod.fst = d.entries.map Prod.fst := by
      simp [Function.comp_def]
    rw [h]
    exact d.nodup

omit [DecidableEq K] in
@[simp] theorem keys_mapValues
    {W : Type w} (d : OrderedDict K V) (f : V → W) :
    (d.mapValues f).keys = d.keys := by
  unfold mapValues keys
  rw [List.map_map]
  rfl

theorem get?_mapValues
    {W : Type w} (d : OrderedDict K V) (f : V → W) (k : K) :
    (d.mapValues f).get? k = (d.get? k).map f := by
  unfold mapValues get?
  simp only
  induction d.entries with
  | nil => rfl
  | cons e l ih =>
      obtain ⟨k₀, v₀⟩ := e
      by_cases h : k = k₀
      · simp [h]
      · have hb : (k == k₀) = false := by simpa using h
        simp [List.lookup_cons, hb, ih]

theorem get?_erase_self
    (d : OrderedDict K V) (k : K) :
    (d.erase k).get? k = none := by
  cases hget : (d.erase k).get? k with
  | none => rfl
  | some v =>
      have hmem := mem_keys_iff.mpr ⟨v, hget⟩
      rw [mem_keys_erase] at hmem
      exact absurd rfl hmem.1

theorem get?_foldl_erase
    (l : List K) (d : OrderedDict K V) (k : K) :
    (l.foldl erase d).get? k = if k ∈ l then none else d.get? k := by
  induction l generalizing d with
  | nil => simp
  | cons a l ih =>
      rw [List.foldl_cons, ih]
      by_cases hk : k = a
      · subst hk
        simp [get?_erase_self]
      · rw [get?_erase d hk]
        simp [hk]

theorem get?_eq_none_iff
    {d : OrderedDict K V} {k : K} :
    d.get? k = none ↔ k ∉ d.keys := by
  rw [mem_keys_iff, ← Option.isSome_iff_exists, Option.not_isSome_iff_eq_none]

/-- The value of `k`, when there is one, is changed in place. -/
def modify (d : OrderedDict K V) (k : K) (f : V → V) : OrderedDict K V :=
  match d.get? k with
  | none => d
  | some v => d.set k (f v)

theorem get?_modify
    (d : OrderedDict K V) (k k' : K) (f : V → V) :
    (d.modify k f).get? k' = if k' = k then (d.get? k').map f else d.get? k' := by
  unfold modify
  cases hget : d.get? k with
  | none =>
      split_ifs with h
      · subst h
        simp [hget]
      · rfl
  | some v =>
      simp only [get?_set]
      split_ifs with h
      · subst h
        simp [hget]
      · rfl

section Fold

variable {ι : Type w} (key : ι → K) (val : ι → V)

theorem get?_foldl_set
    {l : List ι} (hl : (l.map key).Nodup) (d : OrderedDict K V) {k : K} {v : V} :
    (l.foldl (fun d i => d.set (key i) (val i)) d).get? k = some v ↔
      (∃ i ∈ l, key i = k ∧ val i = v) ∨ (∀ i ∈ l, key i ≠ k) ∧ d.get? k = some v := by
  induction l generalizing d with
  | nil => simp
  | cons i l ih =>
      rw [List.map_cons, List.nodup_cons] at hl
      rw [List.foldl_cons, ih hl.2, get?_set, List.exists_mem_cons_iff, List.forall_mem_cons]
      by_cases hk : k = key i
      · subst hk
        have hfresh : ∀ j ∈ l, key j ≠ key i := by
          intro j hj heq
          exact hl.1 (heq ▸ List.mem_map_of_mem hj)
        rw [if_pos rfl, Option.some.injEq]
        constructor
        · rintro (h | ⟨_, h⟩)
          · exact Or.inl (Or.inr h)
          · exact Or.inl (Or.inl ⟨rfl, h⟩)
        · rintro ((⟨_, h⟩ | h) | ⟨⟨h, _⟩, _⟩)
          · exact Or.inr ⟨hfresh, h⟩
          · exact Or.inl h
          · exact absurd rfl h
      · rw [if_neg hk]
        simp only [Ne.symm hk, false_and, false_or, ne_eq, not_false_eq_true, true_and]

/-- What a loop of assignments under distinct keys leaves behind. -/
theorem get?_foldl_set_empty
    {l : List ι} (hl : (l.map key).Nodup) {k : K} {v : V} :
    (l.foldl (fun d i => d.set (key i) (val i)) empty).get? k = some v ↔
      ∃ i ∈ l, key i = k ∧ val i = v := by
  rw [get?_foldl_set key val hl]
  constructor
  · rintro (h | ⟨_, h⟩)
    · exact h
    · cases h
  · exact Or.inl

/-- Every entry of a second dictionary is assigned. -/
theorem get?_foldl_entries
    {W : Type w} (d : OrderedDict K V) (e : OrderedDict K W) (f : W → V) (k : K) :
    (e.entries.foldl (fun d x => d.set x.1 (f x.2)) d).get? k =
      ((e.get? k).map f).or (d.get? k) := by
  ext v
  have hfresh : (∀ x ∈ e.entries, x.1 ≠ k) ↔ e.get? k = none := by
    rw [get?_eq_none_iff, keys, List.mem_map]
    exact ⟨fun h ⟨x, hx, hk⟩ => h x hx hk, fun h x hx hk => h ⟨x, hx, hk⟩⟩
  rw [get?_foldl_set Prod.fst (fun x : K × W => f x.2) e.nodup, hfresh]
  cases hget : e.get? k with
  | none =>
      simp only [Option.map_none, Option.none_or, true_and, or_iff_right_iff_imp]
      rintro ⟨x, hx, rfl, _⟩
      rw [get?_of_mem e hx] at hget
      cases hget
  | some w =>
      simp only [Option.map_some, Option.some_or, reduceCtorEq, false_and, or_false,
        Option.some.injEq]
      constructor
      · rintro ⟨x, hx, rfl, rfl⟩
        rw [get?_of_mem e hx, Option.some.injEq] at hget
        rw [hget]
      · rintro rfl
        exact ⟨(k, w), mem_of_get? hget, rfl, rfl⟩

/-- Every entry of a second dictionary changes the value of its key, when there is one. -/
theorem get?_foldl_modify
    {W : Type w} {l : List (K × W)} (hl : (l.map Prod.fst).Nodup) (d : OrderedDict K V)
    (f : W → V → V) (k : K) :
    (l.foldl (fun d x => d.modify x.1 (f x.2)) d).get? k =
      match l.lookup k with
      | none => d.get? k
      | some w => (d.get? k).map (f w) := by
  induction l generalizing d with
  | nil => rfl
  | cons x l ih =>
      obtain ⟨k₀, w⟩ := x
      rw [List.map_cons, List.nodup_cons] at hl
      rw [List.foldl_cons, ih hl.2, get?_modify]
      by_cases hk : k = k₀
      · subst hk
        have hnone : l.lookup k = none := by
          rw [List.lookup_eq_none_iff]
          intro p hp
          rw [bne_iff_ne]
          rintro rfl
          exact hl.1 (List.mem_map.mpr ⟨p, hp, rfl⟩)
        rw [hnone]
        simp
      · have hb : (k == k₀) = false := by simpa using hk
        simp only [List.lookup_cons, hb, if_neg hk]

end Fold

end OrderedDict
end AndroidBuild
