import AndroidBuild.FsConfig.Generate

/-!
# The partition that an entry is written for

One run of the generator for the system partition and one for every other
partition share the entries between them.  A run compares the name of its
partition with the start of the path as a text, so an entry is written by
exactly the run of its partition when no name is the start of the path without
naming a directory of it.
-/

namespace AndroidBuild
namespace FsConfig

open Text

section Names

/-- The name of a partition other than system. -/
structure PartitionName (name : Str) : Prop where
  nonempty : name ≠ []
  noComma : ',' ∉ name
  noSlash : '/' ∉ name
  notSystem : name ≠ system

instance (name : Str) : Decidable (PartitionName name) :=
  decidable_of_iff (name ≠ [] ∧ ',' ∉ name ∧ '/' ∉ name ∧ name ≠ system)
    ⟨fun h => ⟨h.1, h.2.1, h.2.2.1, h.2.2.2⟩, fun h => ⟨h.1, h.2, h.3, h.4⟩⟩

/-- `','.join(names)`. -/
def joinNames (names : List Str) : Str :=
  [','].intercalate names

/-- A path that starts with the name of a partition, as a text. -/
def StartsWith (name path : Str) : Prop :=
  name <+: path ∨ "system/".toList ++ name <+: path

/-- A directory itself, or a path in it. -/
def Under (dir path : Str) : Prop :=
  path = dir ∨ dir ++ ['/'] <+: path

/-- A path in the directory of a partition, at the top level or under system. -/
def InDirectory (name path : Str) : Prop :=
  Under name path ∨ Under ("system/".toList ++ name) path

/-- The partition of a path: the one whose directory contains it, or system. -/
def Owns (names : List Str) (run path : Str) : Prop :=
  if run = system then ∀ name ∈ names, ¬InDirectory name path else InDirectory run path

/-- Exactly one run writes the entry, and it is the run of its partition. -/
def EmittedOnce (names : List Str) (path : Str) : Prop :=
  ∃ run ∈ system :: names, Owns names run path ∧
    ∀ run' ∈ system :: names,
      (emitEntry run' (some (joinNames names)) path = true ↔ run' = run)

instance (dir path : Str) : Decidable (Under dir path) :=
  inferInstanceAs (Decidable (_ ∨ _))

instance (name path : Str) : Decidable (StartsWith name path) :=
  inferInstanceAs (Decidable (_ ∨ _))

instance (name path : Str) : Decidable (InDirectory name path) :=
  inferInstanceAs (Decidable (_ ∨ _))

instance (names : List Str) (run path : Str) : Decidable (Owns names run path) :=
  inferInstanceAs (Decidable (if run = system then _ else _))

instance (names : List Str) (path : Str) : Decidable (EmittedOnce names path) :=
  inferInstanceAs (Decidable (∃ run ∈ system :: names, _))

end Names

section Runs

variable {names : List Str} {name name' path : Str}

theorem partsFrom_joinNames
    (hne : names ≠ []) (h : ∀ name ∈ names, ',' ∉ name) :
    partsFrom ',' [] (joinNames names) = names := by
  induction names with
  | nil => exact absurd rfl hne
  | cons name names ih =>
      rw [List.forall_mem_cons] at h
      have hname : ∀ c ∈ name, c ≠ ',' := by
        rintro c hc rfl
        exact h.1 hc
      unfold joinNames at ih ⊢
      cases names with
      | nil => rw [List.intercalate_singleton, partsFrom_last hname, List.nil_append]
      | cons name' names =>
          rw [List.intercalate_cons_cons, List.append_assoc, List.singleton_append,
            partsFrom_append hname, ih (by simp) h.2, List.nil_append]

theorem joinNames_ne_nil
    (hne : names ≠ []) (h : ∀ name ∈ names, name ≠ []) :
    joinNames names ≠ [] := by
  cases names with
  | nil => exact absurd rfl hne
  | cons name names =>
      have hname := h name (by simp)
      unfold joinNames
      cases names with
      | nil => rwa [List.intercalate_singleton]
      | cons name' names => simp [List.intercalate_cons_cons]

/-- The run for a partition other than system. -/
theorem emitEntry_partition
    (h : name ≠ system) (allPartitions : Option Str) :
    emitEntry name allPartitions path = true ↔ StartsWith name path := by
  unfold emitEntry StartsWith
  rw [if_neg h, Bool.or_eq_true, List.isPrefixOf_iff_prefix, List.isPrefixOf_iff_prefix]

theorem emitEntry_system
    (h : ∀ name ∈ names, PartitionName name) :
    emitEntry system (some (joinNames names)) path = true ↔
      ∀ name ∈ names, ¬StartsWith name path := by
  unfold emitEntry
  rw [if_pos rfl]
  cases names with
  | nil => simp [joinNames]
  | cons name rest =>
      have hne := joinNames_ne_nil (List.cons_ne_nil name rest) (fun n hn => (h n hn).nonempty)
      have hparts := partsFrom_joinNames (List.cons_ne_nil name rest) (fun n hn => (h n hn).noComma)
      split
      · contradiction
      · rename_i heq
        exact absurd (Option.some.inj heq) hne
      · rename_i parts _ heq
        rw [← Option.some.inj heq, hparts]
        simp only [StartsWith, Bool.not_eq_true', List.any_eq_false, Bool.or_eq_true,
          List.isPrefixOf_iff_prefix]

theorem InDirectory.startsWith
    (h : InDirectory name path) :
    StartsWith name path := by
  have hunder : ∀ dir, Under dir path → dir <+: path := by
    rintro dir (rfl | hpre)
    · exact List.prefix_rfl
    · exact (List.prefix_append _ _).trans hpre
  exact h.imp (hunder _) (hunder _)

theorem takeWhile_of_under
    (hslash : '/' ∉ name) (h : Under name path) :
    path.takeWhile (fun c => c ≠ '/') = name := by
  have hall : ∀ c ∈ name, (decide (c ≠ '/')) = true := by
    intro c hc
    rw [decide_eq_true_eq]
    rintro rfl
    exact hslash hc
  rcases h with rfl | ⟨rest, rfl⟩
  · exact (List.takeWhile_eq_self_iff (p := fun c => decide (c ≠ '/'))).mpr hall
  · rw [List.append_assoc, List.takeWhile_append_of_pos hall]
    simp

theorem under_system
    (h : Under ("system/".toList ++ name) path) :
    ∃ rest, path = "system/".toList ++ rest ∧ Under name rest := by
  rcases h with rfl | ⟨rest, rfl⟩
  · exact ⟨name, rfl, Or.inl rfl⟩
  · refine ⟨name ++ ['/'] ++ rest, ?_, Or.inr (List.prefix_append _ _)⟩
    simp only [List.append_assoc]

theorem not_under_system
    (hname : PartitionName name) (h : Under name path)
    (h' : Under ("system/".toList ++ name') path) :
    False := by
  obtain ⟨rest, rfl, -⟩ := under_system h'
  have hfirst := takeWhile_of_under hname.noSlash h
  have hsystem : ("system/".toList ++ rest).takeWhile (fun c => c ≠ '/') = system := by
    change ("system".toList ++ ['/'] ++ rest).takeWhile (fun c => c ≠ '/') = system
    rw [List.append_assoc, List.takeWhile_append_of_pos (by simp)]
    simp [system]
  exact hname.notSystem (hfirst.symm.trans hsystem)

theorem InDirectory.unique
    (hname : PartitionName name) (hname' : PartitionName name') (h : InDirectory name path)
    (h' : InDirectory name' path) :
    name = name' := by
  rcases h with h | h
  · rcases h' with h' | h'
    · exact (takeWhile_of_under hname.noSlash h).symm.trans (takeWhile_of_under hname'.noSlash h')
    · exact (not_under_system hname h h').elim
  · rcases h' with h' | h'
    · exact (not_under_system hname' h' h).elim
    · obtain ⟨rest, rfl, hrest⟩ := under_system h
      obtain ⟨rest', heq, hrest'⟩ := under_system h'
      obtain rfl := List.append_cancel_left heq
      exact (takeWhile_of_under hname.noSlash hrest).symm.trans
        (takeWhile_of_under hname'.noSlash hrest')

/-- An entry is written once, by the run of its partition, iff no name of a partition
is the start of its path without naming a directory of it. -/
theorem emitEntry_once
    (h : ∀ name ∈ names, PartitionName name) :
    EmittedOnce names path ↔
      ∀ name ∈ names, StartsWith name path → InDirectory name path := by
  have hpartition : ∀ name ∈ names,
      (emitEntry name (some (joinNames names)) path = true ↔ StartsWith name path) := by
    intro name hmem
    exact emitEntry_partition (h name hmem).notSystem _
  constructor
  · rintro ⟨run, hrun, howns, honce⟩ name hmem hstarts
    have heq : name = run :=
      (honce name (List.mem_cons_of_mem _ hmem)).mp ((hpartition name hmem).mpr hstarts)
    unfold Owns at howns
    rwa [← heq, if_neg (h name hmem).notSystem] at howns
  · intro hdir
    by_cases hsome : ∃ name ∈ names, StartsWith name path
    · obtain ⟨name, hmem, hstarts⟩ := hsome
      have hin := hdir name hmem hstarts
      have hne := (h name hmem).notSystem
      refine ⟨name, List.mem_cons_of_mem _ hmem, ?_, ?_⟩
      · unfold Owns
        rwa [if_neg hne]
      · intro run hrun
        rcases List.mem_cons.mp hrun with rfl | hrun
        · rw [emitEntry_system h]
          constructor
          · intro hnone
            exact absurd hstarts (hnone name hmem)
          · intro heq
            exact absurd heq.symm hne
        · rw [hpartition run hrun]
          constructor
          · intro hrunStarts
            exact InDirectory.unique (h run hrun) (h name hmem) (hdir run hrun hrunStarts) hin
          · rintro rfl
            exact hstarts
    · have hnone : ∀ name ∈ names, ¬StartsWith name path := by
        intro name hmem hstarts
        exact hsome ⟨name, hmem, hstarts⟩
      refine ⟨system, List.mem_cons_self, ?_, ?_⟩
      · unfold Owns
        rw [if_pos rfl]
        intro name hmem hin
        exact hnone name hmem hin.startsWith
      · intro run hrun
        rcases List.mem_cons.mp hrun with rfl | hrun
        · simpa using (emitEntry_system h).mpr hnone
        · rw [hpartition run hrun]
          constructor
          · intro hstarts
            exact absurd hstarts (hnone run hrun)
          · intro heq
            exact absurd heq (h run hrun).notSystem

theorem emitEntry_once_vendor :
    EmittedOnce ["vendor".toList, "odm".toList] "system/vendor/lib/foo".toList :=
  (emitEntry_once (by decide)).mpr (by decide)

/-- `vendor` is the start of `vendor_dlkm`, so both runs write the entry. -/
theorem emitEntry_twice :
    ¬EmittedOnce ["vendor".toList, "vendor_dlkm".toList] "vendor_dlkm/lib".toList := by
  decide

end Runs

end FsConfig
end AndroidBuild
