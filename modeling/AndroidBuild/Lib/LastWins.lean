import AndroidBuild.Lib.OrderedDict

/-!
# Records under their keys

A dictionary that takes the records of a list one by one keeps the last record
with each key.  All records with a property are kept when each of them is the
last with its key.
-/

namespace AndroidBuild
namespace LastWins

variable {α κ : Type} [DecidableEq κ] (key : α → κ)

/-- The dictionary of the records. -/
def byKey (l : List α) : OrderedDict κ α :=
  l.foldl (fun d a => d.set (key a) a) OrderedDict.empty

/-- Every record with the property is the last with its key. -/
def AllLast (P : α → Prop) (l : List α) : Prop :=
  ∀ front a back, l = front ++ a :: back → P a → ∀ b ∈ back, key b ≠ key a

variable {key}

theorem get?_byKey
    (l : List α) (k : κ) :
    (byKey key l).get? k = l.reverse.find? (fun a => key a = k) := by
  induction l using List.reverseRecOn with
  | nil => rfl
  | append_singleton l a ih =>
      rw [byKey, List.foldl_append, List.foldl_cons, List.foldl_nil, OrderedDict.get?_set,
        List.reverse_append, List.reverse_singleton, List.singleton_append, List.find?_cons]
      by_cases hk : k = key a
      · rw [if_pos hk, decide_eq_true hk.symm]
      · rw [if_neg hk, decide_eq_false (Ne.symm hk)]
        exact ih

theorem mem_of_mem_byKey
    {l : List α} {k : κ} {a : α} (h : (k, a) ∈ (byKey key l).entries) :
    a ∈ l ∧ key a = k := by
  have hget := (byKey key l).get?_of_mem h
  rw [get?_byKey] at hget
  have hmem := List.mem_of_find?_eq_some hget
  have hkey := List.find?_some hget
  exact ⟨List.mem_reverse.mp hmem, of_decide_eq_true hkey⟩

/-- The record that is kept is a record behind which no other has its key. -/
theorem mem_byKey_iff
    {l : List α} {k : κ} {a : α} :
    (k, a) ∈ (byKey key l).entries ↔
      key a = k ∧ ∃ front back, l = front ++ a :: back ∧ ∀ b ∈ back, key b ≠ k := by
  constructor
  · intro h
    have hget := (byKey key l).get?_of_mem h
    rw [get?_byKey, List.find?_eq_some_iff_append] at hget
    obtain ⟨hkey, front, back, hl, hfront⟩ := hget
    refine ⟨of_decide_eq_true hkey, back.reverse, front.reverse, ?_, ?_⟩
    · rw [← List.reverse_reverse l, hl]
      simp
    · intro b hb
      have hne := hfront b (List.mem_reverse.mp hb)
      simpa using hne
  · rintro ⟨rfl, front, back, rfl, hback⟩
    apply OrderedDict.mem_of_get?
    rw [get?_byKey, List.reverse_append, List.reverse_cons, List.append_assoc,
      List.find?_append, List.find?_eq_none.mpr ?_]
    · simp
    · intro b hb
      simpa using hback b (List.mem_reverse.mp hb)

theorem key_of_mem_byKey
    {l : List α} {e : κ × α} (h : e ∈ (byKey key l).entries) :
    e.1 = key e.2 :=
  (mem_byKey_iff.mp h).1.symm

section Kept

variable {P : α → Bool}

variable (key P) in
/-- The records with the property that are kept. -/
def kept (l : List α) : List α :=
  ((byKey key l).entries.filter fun e => P e.2).map Prod.snd

theorem map_key_kept
    (l : List α) :
    (kept key P l).map key = ((byKey key l).entries.filter fun e => P e.2).map Prod.fst := by
  rw [kept, List.map_map]
  refine List.map_congr_left fun e he => ?_
  exact (key_of_mem_byKey (List.mem_of_mem_filter he)).symm

theorem nodup_map_key_kept
    (l : List α) :
    ((kept key P l).map key).Nodup := by
  rw [map_key_kept]
  exact (byKey key l).nodup.sublist (List.filter_sublist.map Prod.fst)

theorem mem_kept_iff
    {l : List α} {a : α} :
    a ∈ kept key P l ↔
      P a ∧ ∃ front back, l = front ++ a :: back ∧ ∀ b ∈ back, key b ≠ key a := by
  rw [kept, List.mem_map]
  constructor
  · rintro ⟨⟨k, a⟩, he, rfl⟩
    rw [List.mem_filter] at he
    obtain ⟨rfl, hlast⟩ := mem_byKey_iff.mp he.1
    exact ⟨he.2, hlast⟩
  · rintro ⟨hP, hlast⟩
    refine ⟨(key a, a), ?_, rfl⟩
    rw [List.mem_filter]
    exact ⟨mem_byKey_iff.mpr ⟨rfl, hlast⟩, hP⟩

theorem kept_subset
    {l : List α} {a : α} (h : a ∈ kept key P l) :
    a ∈ l.filter P := by
  obtain ⟨hP, front, back, rfl, _⟩ := mem_kept_iff.mp h
  rw [List.mem_filter]
  exact ⟨by simp, hP⟩

omit [DecidableEq κ] in
/-- Records that are all last with their keys have different keys. -/
theorem nodup_of_allLast
    {l : List α} (h : AllLast key (fun a => P a) l) :
    ((l.filter P).map key).Nodup := by
  induction l with
  | nil => simp
  | cons a l ih =>
      have htail : AllLast key (fun a => P a) l := fun front b back hl =>
        h (a :: front) b back (by rw [hl, List.cons_append])
      rw [List.filter_cons]
      split_ifs with hP
      · rw [List.map_cons, List.nodup_cons]
        refine ⟨fun hmem => ?_, ih htail⟩
        obtain ⟨b, hb, hkey⟩ := List.mem_map.mp hmem
        exact h [] a l rfl hP b (List.mem_of_mem_filter hb) hkey
      · exact ih htail

theorem perm_kept_of_allLast
    {l : List α} (h : AllLast key (fun a => P a) l) :
    (kept key P l).Perm (l.filter P) := by
  have hkept : (kept key P l).Nodup := (nodup_map_key_kept l).of_map
  have hfilter : (l.filter P).Nodup := (nodup_of_allLast h).of_map
  rw [List.perm_ext_iff_of_nodup hkept hfilter]
  intro a
  refine ⟨kept_subset, fun ha => ?_⟩
  obtain ⟨hmem, hP⟩ := List.mem_filter.mp ha
  obtain ⟨front, back, hl⟩ := List.append_of_mem hmem
  exact mem_kept_iff.mpr ⟨hP, front, back, hl, h front a back hl hP⟩

/-- A record that another follows with its key is lost. -/
theorem allLast_of_subset_kept
    {l : List α} (hnodup : ((l.filter P).map key).Nodup)
    (h : ∀ a ∈ l.filter P, a ∈ kept key P l) :
    AllLast key (fun a => P a) l := by
  rintro front a back rfl hP b hb hkey
  have ha : a ∈ (front ++ a :: back).filter P := by
    simp [hP]
  obtain ⟨_, front', back', hl, hlast⟩ := mem_kept_iff.mp (h a ha)
  -- the place of the record that is kept is behind the place of this one
  have hback : a ∈ back := by
    rcases List.append_eq_append_iff.mp hl with ⟨mid, rfl, hmid⟩ | ⟨mid, rfl, hmid⟩
    · cases mid with
      | nil =>
          obtain ⟨_, rfl⟩ := List.cons.inj hmid
          exact absurd hkey (hlast b hb)
      | cons c mid =>
          obtain ⟨_, rfl⟩ := List.cons.inj hmid
          simp
    · cases mid with
      | nil =>
          obtain ⟨_, rfl⟩ := List.cons.inj hmid
          exact absurd hkey (hlast b hb)
      | cons c mid =>
          obtain ⟨_, rfl⟩ := List.cons.inj hmid
          exact absurd hkey (hlast b (by simp [hb]))
  rw [List.filter_append, List.filter_cons, if_pos hP, List.map_append, List.map_cons,
    List.nodup_append] at hnodup
  refine (List.nodup_cons.mp hnodup.2.1).1 ?_
  exact List.mem_map_of_mem (List.mem_filter.mpr ⟨hback, hP⟩)

end Kept

end LastWins
end AndroidBuild
