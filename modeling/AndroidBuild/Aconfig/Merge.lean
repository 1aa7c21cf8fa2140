import AndroidBuild.Aconfig.Protos
import AndroidBuild.Lib.KeySort

/-!
# Merging parsed flags

`parsed_flags::merge` sorts the flags of all messages by their fully qualified
names, removes equal neighbours, and leaves the search for duplicates to
`verify_fields`, which compares neighbours.  The name of a flag has no dot, so
the fully qualified name tells package and name apart, and the result is the
canonical list of the distinct flags.
-/

namespace AndroidBuild
namespace Aconfig

open KeySort

section Merge

/-- `merge`. -/
def mergeParsedFlags (parsedFlags : List ProtoParsedFlags) (dedup : Bool) :
    Checked String ProtoParsedFlags := do
  let sorted := sortByKey ProtoParsedFlag.fullyQualifiedName parsedFlags.flatten
  let merged := if dedup then KeySort.dedup sorted else sorted
  verifyParsedFlags merged
  pure merged

/-- The flag passes `parsed_flag::verify_fields`. -/
def ProtoParsedFlag.Verified (pf : ProtoParsedFlag) : Prop :=
  pf.verifyFields = .ok ()

end Merge

section Verify

theorem ensure_eq_ok
    {condition : Bool} {message : String} :
    ensure condition message = .ok () ↔ condition = true := by
  cases condition <;> simp [ensure]

theorem verifyNeighbours_some_eq_ok
    {prev pf : ProtoParsedFlag} :
    verifyNeighbours (some prev) pf = .ok () ↔
      prev.fullyQualifiedName < pf.fullyQualifiedName := by
  rw [verifyNeighbours]
  split_ifs with hlt heq
  · exact iff_of_true rfl hlt
  · refine iff_of_false ?_ hlt
    intro h
    obtain ⟨_, _, h⟩ := Loop.bind_eq_ok.mp h
    obtain ⟨_, _, h⟩ := Loop.bind_eq_ok.mp h
    cases h
  · exact iff_of_false nofun hlt

theorem verifyParsedFlag_eq_ok
    {previous s : Option ProtoParsedFlag} {pf : ProtoParsedFlag} :
    verifyParsedFlag previous pf = .ok s ↔
      verifyNeighbours previous pf = .ok () ∧ pf.Verified ∧ s = some pf := by
  rw [verifyParsedFlag, Loop.bind_eq_ok]
  simp only [Loop.bind_eq_ok, pure, Except.pure, Except.ok.injEq]
  constructor
  · rintro ⟨_, hprev, _, hpf, rfl⟩
    exact ⟨hprev, hpf, rfl⟩
  · rintro ⟨hprev, hpf, rfl⟩
    exact ⟨_, hprev, _, hpf, rfl⟩

/-- The loop from a previous flag on. -/
theorem verifyLoop_eq_ok
    {l : ProtoParsedFlags} {previous : Option ProtoParsedFlag} :
    (∃ s, l.foldlM verifyParsedFlag previous = .ok s) ↔
      (previous.toList ++ l).IsChain
          (fun a b => a.fullyQualifiedName < b.fullyQualifiedName) ∧
        ∀ pf ∈ l, pf.Verified := by
  induction l generalizing previous with
  | nil =>
      refine iff_of_true ⟨previous, rfl⟩ ⟨?_, by simp⟩
      cases previous <;> simp
  | cons pf l ih =>
      have hstep : (∃ s, (pf :: l).foldlM verifyParsedFlag previous = .ok s) ↔
          verifyNeighbours previous pf = .ok () ∧ pf.Verified ∧
            ∃ s, l.foldlM verifyParsedFlag (some pf) = .ok s := by
        simp only [List.foldlM_cons, Loop.bind_eq_ok, verifyParsedFlag_eq_ok]
        constructor
        · rintro ⟨s, _, ⟨hprev, hpf, rfl⟩, hs⟩
          exact ⟨hprev, hpf, s, hs⟩
        · rintro ⟨hprev, hpf, s, hs⟩
          exact ⟨s, _, ⟨hprev, hpf, rfl⟩, hs⟩
      rw [hstep, ih, List.forall_mem_cons]
      cases previous with
      | none =>
          have hnone : verifyNeighbours none pf = .ok () := rfl
          simp only [hnone, true_and, Option.toList_none, Option.toList_some, List.nil_append,
            List.singleton_append]
          tauto
      | some prev =>
          rw [verifyNeighbours_some_eq_ok]
          simp only [Option.toList_some, List.singleton_append, List.isChain_cons_cons]
          tauto

theorem verifyParsedFlags_eq_ok
    {l : ProtoParsedFlags} :
    verifyParsedFlags l = .ok () ↔
      l.Pairwise (fun a b => a.fullyQualifiedName < b.fullyQualifiedName) ∧
        ∀ pf ∈ l, pf.Verified := by
  have : IsTrans ProtoParsedFlag (fun a b => a.fullyQualifiedName < b.fullyQualifiedName) :=
    ⟨fun _ _ _ => lt_trans⟩
  rw [← List.isChain_iff_pairwise, verifyParsedFlags, Loop.bind_eq_ok]
  have hloop : (∃ s, l.foldlM verifyParsedFlag none = .ok s) ↔ _ := verifyLoop_eq_ok
  rw [Option.toList_none, List.nil_append] at hloop
  rw [← hloop]
  simp [pure, Except.pure]

theorem mergeParsedFlags_eq_ok
    {parsedFlags : List ProtoParsedFlags} {dedup : Bool} {r : ProtoParsedFlags} :
    mergeParsedFlags parsedFlags dedup = .ok r ↔
      r = (if dedup then
          KeySort.dedup (sortByKey ProtoParsedFlag.fullyQualifiedName parsedFlags.flatten)
        else sortByKey ProtoParsedFlag.fullyQualifiedName parsedFlags.flatten) ∧
      r.Pairwise (fun a b => a.fullyQualifiedName < b.fullyQualifiedName) ∧
        ∀ pf ∈ r, pf.Verified := by
  rw [mergeParsedFlags, Loop.bind_eq_ok]
  simp only [pure, Except.pure, Except.ok.injEq]
  constructor
  · rintro ⟨_, hverify, rfl⟩
    exact ⟨rfl, verifyParsedFlags_eq_ok.mp hverify⟩
  · rintro ⟨rfl, hverify⟩
    exact ⟨(), verifyParsedFlags_eq_ok.mpr hverify, rfl⟩

end Verify

section Keys

theorem dot_not_mem_of_isValidNameIdent
    {s : String} (h : isValidNameIdent s = true) :
    '.' ∉ s.toList := by
  rw [Aconfig.isValidNameIdent, isValidIdentChars.eq_def, Bool.and_eq_true] at h
  intro hdot
  cases hs : s.toList with
  | nil => simp [hs] at hdot
  | cons first chars =>
      rw [hs] at h hdot
      simp only [Bool.and_eq_true, List.all_eq_true] at h
      rcases List.mem_cons.mp hdot with rfl | hdot
      · exact absurd h.2.1 (by decide)
      · exact absurd (h.2.2 '.' hdot) (by decide)

theorem ProtoParsedFlag.Verified.isValidNameIdent
    {pf : ProtoParsedFlag} (h : pf.Verified) :
    Aconfig.isValidNameIdent pf.name = true := by
  obtain ⟨_, _, h⟩ := Loop.bind_eq_ok.mp h
  obtain ⟨_, _, h⟩ := Loop.bind_eq_ok.mp h
  obtain ⟨_, _, h⟩ := Loop.bind_eq_ok.mp h
  obtain ⟨_, hname, _⟩ := Loop.bind_eq_ok.mp h
  exact ensure_eq_ok.mp hname

theorem append_cons_eq_append_cons_iff
    {α : Type} {a : α} {before before' after after' : List α} (h : a ∉ before) (h' : a ∉ before') :
    before ++ a :: after = before' ++ a :: after' ↔ before = before' ∧ after = after' := by
  constructor
  · intro heq
    rw [List.append_eq_append_iff] at heq
    rcases heq with ⟨middle, hbefore, hafter⟩ | ⟨middle, hbefore, hafter⟩
    · cases middle with
      | nil => simp_all
      | cons b middle => simp_all
    · cases middle with
      | nil => simp_all
      | cons b middle => simp_all
  · rintro ⟨rfl, rfl⟩
    rfl

/-- The fully qualified name tells package and name apart. -/
theorem fullyQualifiedName_inj
    {pf pf' : ProtoParsedFlag} (h : pf.Verified) (h' : pf'.Verified) :
    pf.fullyQualifiedName = pf'.fullyQualifiedName ↔
      pf.package = pf'.package ∧ pf.name = pf'.name := by
  have hdot := dot_not_mem_of_isValidNameIdent h.isValidNameIdent
  have hdot' := dot_not_mem_of_isValidNameIdent h'.isValidNameIdent
  have hchars : ∀ q : ProtoParsedFlag, q.fullyQualifiedName.toList.reverse =
      q.name.toList.reverse ++ '.' :: q.package.toList.reverse := by
    intro q
    rw [ProtoParsedFlag.fullyQualifiedName, String.toList_append, String.toList_append]
    simp
  rw [← String.toList_inj, ← List.reverse_inj, hchars, hchars,
    append_cons_eq_append_cons_iff (by simpa using hdot) (by simpa using hdot')]
  simp only [List.reverse_inj, String.toList_inj]
  tauto

end Keys

section Laws

/-- Flags of the same package and name are the same message. -/
def Identical (flags : List ProtoParsedFlag) : Prop :=
  ∀ pf ∈ flags, ∀ pf' ∈ flags, pf.package = pf'.package → pf.name = pf'.name → pf = pf'

/-- With `dedup` the result is the canonical list of the flags. -/
theorem merge_dedup_eq_ok
    {parsedFlags : List ProtoParsedFlags} {r : ProtoParsedFlags} :
    mergeParsedFlags parsedFlags true = .ok r ↔
      Canonical ProtoParsedFlag.fullyQualifiedName parsedFlags.flatten r ∧
        ∀ pf ∈ parsedFlags.flatten, pf.Verified := by
  rw [mergeParsedFlags_eq_ok, Canonical.iff_dedup, and_assoc]
  simp only [if_true]
  refine and_congr_right ?_
  rintro rfl
  refine and_congr_right ?_
  intro _
  simp only [mem_dedup, (perm_sortByKey _).mem_iff]

theorem identical_iff
    {flags : List ProtoParsedFlag} (h : ∀ pf ∈ flags, pf.Verified) :
    Identical flags ↔ ∀ pf ∈ flags, ∀ pf' ∈ flags,
      pf.fullyQualifiedName = pf'.fullyQualifiedName → pf = pf' := by
  refine forall₄_congr ?_
  intro pf hpf pf' hpf'
  rw [fullyQualifiedName_inj (h pf hpf) (h pf' hpf'), and_imp]

theorem exists_merge_dedup
    (parsedFlags : List ProtoParsedFlags) :
    (∃ r, mergeParsedFlags parsedFlags true = .ok r) ↔
      (∀ pf ∈ parsedFlags.flatten, pf.Verified) ∧ Identical parsedFlags.flatten := by
  simp only [merge_dedup_eq_ok, exists_and_right, Canonical.exists_iff]
  rw [and_comm]
  refine and_congr_right ?_
  intro h
  rw [identical_iff h]

theorem exists_merge
    (parsedFlags : List ProtoParsedFlags) :
    (∃ r, mergeParsedFlags parsedFlags false = .ok r) ↔
      (∀ pf ∈ parsedFlags.flatten, pf.Verified) ∧
        (parsedFlags.flatten.map (fun pf => (pf.package, pf.name))).Nodup := by
  have hperm : (sortByKey ProtoParsedFlag.fullyQualifiedName parsedFlags.flatten).Perm
      parsedFlags.flatten := perm_sortByKey _
  simp only [mergeParsedFlags_eq_ok, Bool.false_eq_true, if_false, exists_eq_left,
    hperm.mem_iff]
  rw [and_comm]
  refine and_congr_right ?_
  intro h
  have hkeys : (parsedFlags.flatten.map (fun pf => (pf.package, pf.name))).Nodup ↔
      (parsedFlags.flatten.map ProtoParsedFlag.fullyQualifiedName).Nodup := by
    rw [List.Nodup, List.Nodup, List.pairwise_map, List.pairwise_map]
    refine List.Pairwise.iff_of_mem ?_
    intro pf pf' hpf hpf'
    rw [Ne, Ne, Prod.mk.injEq, fullyQualifiedName_inj (h pf hpf) (h pf' hpf')]
  rw [hkeys, ← (hperm.map _).nodup_iff]
  constructor
  · intro hsorted
    exact List.pairwise_map.mpr (hsorted.imp (fun hlt => hlt.ne))
  · intro hnodup
    refine ((pairwise_sortByKey _).and (List.pairwise_map.mp hnodup)).imp ?_
    intro pf pf' hboth
    exact lt_of_le_of_ne hboth.1 hboth.2

theorem merge_dedup_congr
    {parsedFlags parsedFlags' : List ProtoParsedFlags}
    (h : ∀ pf, pf ∈ parsedFlags.flatten ↔ pf ∈ parsedFlags'.flatten) {r : ProtoParsedFlags} :
    mergeParsedFlags parsedFlags true = .ok r ↔ mergeParsedFlags parsedFlags' true = .ok r := by
  rw [merge_dedup_eq_ok, merge_dedup_eq_ok]
  simp only [h]
  refine and_congr_left ?_
  intro _
  exact ⟨fun hr => hr.congr h, fun hr => hr.congr (fun pf => (h pf).symm)⟩

theorem exists_merge_of_subset
    {parsedFlags parsedFlags' : List ProtoParsedFlags} {r : ProtoParsedFlags}
    (h : mergeParsedFlags parsedFlags' true = .ok r)
    (hsubset : parsedFlags.flatten ⊆ parsedFlags'.flatten) :
    ∃ r', mergeParsedFlags parsedFlags true = .ok r' := by
  obtain ⟨hverified, hidentical⟩ := (exists_merge_dedup parsedFlags').mp ⟨r, h⟩
  refine (exists_merge_dedup parsedFlags).mpr ⟨fun pf hpf => hverified pf (hsubset hpf), ?_⟩
  intro pf hpf pf' hpf'
  exact hidentical pf (hsubset hpf) pf' (hsubset hpf')

theorem merge_merge
    (a b : List ProtoParsedFlags) (r : ProtoParsedFlags) :
    (do
      let mergedA ← mergeParsedFlags a true
      let mergedB ← mergeParsedFlags b true
      mergeParsedFlags [mergedA, mergedB] true) = .ok r ↔
      mergeParsedFlags (a ++ b) true = .ok r := by
  have hcongr : ∀ mergedA mergedB, mergeParsedFlags a true = .ok mergedA →
      mergeParsedFlags b true = .ok mergedB → (mergeParsedFlags [mergedA, mergedB] true = .ok r ↔
        mergeParsedFlags (a ++ b) true = .ok r) := by
    intro mergedA mergedB hA hB
    refine merge_dedup_congr ?_
    intro pf
    have hmemA := (merge_dedup_eq_ok.mp hA).1.mem_iff pf
    have hmemB := (merge_dedup_eq_ok.mp hB).1.mem_iff pf
    rw [List.flatten_append, List.mem_append, ← hmemA, ← hmemB]
    simp
  simp only [Loop.bind_eq_ok]
  constructor
  · rintro ⟨mergedA, hA, mergedB, hB, h⟩
    exact (hcongr mergedA mergedB hA hB).mp h
  · intro h
    have hleft : a.flatten ⊆ (a ++ b).flatten := by simp
    have hright : b.flatten ⊆ (a ++ b).flatten := by simp
    obtain ⟨mergedA, hA⟩ := exists_merge_of_subset h hleft
    obtain ⟨mergedB, hB⟩ := exists_merge_of_subset h hright
    exact ⟨mergedA, hA, mergedB, hB, (hcongr mergedA mergedB hA hB).mpr h⟩

/-- The laws of `merge`. -/
theorem merge_laws :
    (∀ parsedFlags : List ProtoParsedFlags, (∃ r, mergeParsedFlags parsedFlags true = .ok r) ↔
      (∀ pf ∈ parsedFlags.flatten, pf.Verified) ∧ Identical parsedFlags.flatten) ∧
    (∀ (parsedFlags : List ProtoParsedFlags) (r : ProtoParsedFlags),
      mergeParsedFlags parsedFlags true = .ok r →
        r.Pairwise (fun a b => a.fullyQualifiedName < b.fullyQualifiedName) ∧
          ∀ pf, pf ∈ r ↔ pf ∈ parsedFlags.flatten) ∧
    (∀ (parsedFlags parsedFlags' : List ProtoParsedFlags) (r : ProtoParsedFlags),
      parsedFlags.flatten.Perm parsedFlags'.flatten →
        (mergeParsedFlags parsedFlags true = .ok r ↔ mergeParsedFlags parsedFlags' true = .ok r)) ∧
    (∀ (a b : List ProtoParsedFlags) (r : ProtoParsedFlags),
      (do
        let mergedA ← mergeParsedFlags a true
        let mergedB ← mergeParsedFlags b true
        mergeParsedFlags [mergedA, mergedB] true) = .ok r ↔
        mergeParsedFlags (a ++ b) true = .ok r) ∧
    (∀ x : ProtoParsedFlags, verifyParsedFlags x = .ok () → mergeParsedFlags [x] true = .ok x) ∧
    (∀ parsedFlags : List ProtoParsedFlags, (∃ r, mergeParsedFlags parsedFlags false = .ok r) ↔
      (∀ pf ∈ parsedFlags.flatten, pf.Verified) ∧ Identical parsedFlags.flatten ∧
        (parsedFlags.flatten.map (fun pf => (pf.package, pf.name))).Nodup) := by
  refine ⟨exists_merge_dedup, ?_, ?_, ?_, ?_, ?_⟩
  · intro parsedFlags r h
    obtain ⟨hcanonical, -⟩ := merge_dedup_eq_ok.mp h
    exact ⟨hcanonical.sorted, hcanonical.mem_iff⟩
  · intro parsedFlags parsedFlags' r hperm
    exact merge_dedup_congr (fun pf => hperm.mem_iff)
  · exact merge_merge
  · intro x hx
    obtain ⟨hsorted, hverified⟩ := verifyParsedFlags_eq_ok.mp hx
    refine merge_dedup_eq_ok.mpr ⟨⟨hsorted, ?_⟩, ?_⟩
    · simp
    · simpa using hverified
  · intro parsedFlags
    rw [exists_merge]
    refine and_congr_right ?_
    intro _
    rw [iff_and_self]
    intro hnodup pf hpf pf' hpf' hpackage hname
    exact List.inj_on_of_nodup_map hnodup hpf hpf' (Prod.ext hpackage hname)

/-- A read-only flag of the package `com.a`. -/
def readOnlyFlag (name : String) : ProtoParsedFlag :=
  { package? := some "com.a", name? := some name, namespace? := some "ns",
    description? := some "text", bug := ["123"], state? := some (.known .disabled),
    permission? := some (.known .readOnly),
    trace := [⟨some "a.aconfig", some (.known .disabled), some (.known .readOnly)⟩],
    isFixedReadOnly? := some false, isExported? := none, container? := some "system",
    metadata? := some ⟨none, some (.known .none)⟩ }

theorem merge_laws_example :
    mergeParsedFlags [[readOnlyFlag "b", readOnlyFlag "a"], [readOnlyFlag "a"]] true =
        .ok [readOnlyFlag "a", readOnlyFlag "b"] ∧
      mergeParsedFlags [[readOnlyFlag "a"], [readOnlyFlag "a", readOnlyFlag "b"]] true =
        .ok [readOnlyFlag "a", readOnlyFlag "b"] ∧
      mergeParsedFlags [[readOnlyFlag "a", readOnlyFlag "b"]] true =
        .ok [readOnlyFlag "a", readOnlyFlag "b"] := by
  have hmerge : mergeParsedFlags [[readOnlyFlag "b", readOnlyFlag "a"], [readOnlyFlag "a"]] true =
      .ok [readOnlyFlag "a", readOnlyFlag "b"] := by
    decide +kernel
  refine ⟨hmerge, ?_, ?_⟩
  · refine (merge_laws.2.2.1 _ _ _ ?_).mp hmerge
    decide
  · refine merge_laws.2.2.2.2.1 _ ?_
    decide +kernel

end Laws

end Aconfig
end AndroidBuild
