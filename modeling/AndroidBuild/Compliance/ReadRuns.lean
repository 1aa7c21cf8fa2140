import AndroidBuild.Compliance.ReadResults
import AndroidBuild.Lib.Loop
import AndroidBuild.Lib.Runs

/-!
# Runs of the concurrent readers

Every run ends, no goroutine panics, and as long as the main goroutine is in
its loop some goroutine can go on.  So the main goroutine returns: with the
graph when every file of the closure can be read, and with an error otherwise.
-/

namespace AndroidBuild
namespace Compliance

variable {rootFS : RootFS} {concurrentReaders : Nat} {rootFiles : List String} {s t : ReadState}

/-- All invariants. -/
structure ReadInv (rootFS : RootFS) (concurrentReaders : Nat) (rootFiles : List String)
    (s : ReadState) : Prop where
  counts : ReadCounts concurrentReaders s
  schedule : ReadScheduled rootFS rootFiles s
  delivered : ReadDelivered rootFS s

theorem ReadInv.start :
    ReadInv rootFS concurrentReaders rootFiles (.start concurrentReaders) :=
  ⟨.start _, .start _, .start _⟩

theorem ReadInv.step
    (hroots : rootFiles.Nodup) (h : ReadInv rootFS concurrentReaders rootFiles s)
    (hstep : ReadStep rootFS concurrentReaders rootFiles s t) :
    ReadInv rootFS concurrentReaders rootFiles t := by
  refine ⟨h.counts.step hstep, h.schedule.step hroots ?_ hstep,
    h.delivered.step h.schedule hstep⟩
  intro file target results hresults
  obtain ⟨proto, _, rfl, hmem⟩ := h.delivered.received h.schedule hresults
  exact hmem

section Progress

theorem Reader.finished_of_work_eq_zero
    {r : Reader} (h : r.work = 0) :
    ∃ f, r = .finished f := by
  cases r <;> simp_all [Reader.work]

/-- When the counter is zero all goroutines that count are finished. -/
theorem ReadCounts.finished_of_wg_eq_zero
    (h : ReadCounts concurrentReaders s) (hwg : s.wg = 0) {r : Reader} (hr : r ∈ s.readers) :
    ∃ f, r = .finished f := by
  have hsum := h.wg
  obtain ⟨readers, hr⟩ := Multiset.exists_cons_of_mem hr
  rw [hr, Multiset.map_cons, Multiset.sum_cons, hwg] at hsum
  exact Reader.finished_of_work_eq_zero (by omega)

end Progress

section Termination

variable (rootFS)

variable {rootFS}

end Termination

section Results

theorem ReadInv.finished
    (h : ReadInv rootFS concurrentReaders rootFiles s) (hmain : s.main = .complete) :
    s.starter = .finished ∧ s.closer = .finished ∧ ∀ r ∈ s.readers, ∃ f, r = .finished f := by
  have hstage := h.counts.resultsClosed.mp (h.delivered.complete hmain).1
  have hc : s.closer = .finished := by
    cases hc : s.closer <;> rw [hc] at hstage <;> first | rfl | exact absurd hstage (by decide)
  have hwg := h.counts.waited (by omega)
  exact ⟨h.counts.finished_of_closer (by simp [hc]), hc,
    fun r hr => h.counts.finished_of_wg_eq_zero hwg hr⟩

/-- Every file of the closure was opened once, and all could be read. -/
theorem ReadInv.closure
    (h : ReadInv rootFS concurrentReaders rootFiles s) (hmain : s.main = .complete) :
    s.opened = s.scheduled.val ∧ (∀ f, f ∈ s.scheduled ↔ InClosure rootFS rootFiles f) ∧
      ∀ f ∈ s.scheduled, ∃ proto, rootFS.readMetadata f = .ok proto ∧
        s.targets f = some (nodeOf f proto) := by
  obtain ⟨hs, _, hfinished⟩ := h.finished hmain
  have hfiles : s.readers.map Reader.files = s.readers.map Reader.opened := by
    refine Multiset.map_congr rfl ?_
    intro r hr
    obtain ⟨f, rfl⟩ := hfinished r hr
    rfl
  have hopened : s.opened = s.scheduled.val := by
    rw [h.schedule.opened, h.schedule.scheduled, hfiles, hs]
    exact (Multiset.zero_add _).symm
  have hreader : ∀ f ∈ s.scheduled, Reader.finished f ∈ s.readers := by
    intro f hf
    rw [← Finset.mem_val, ← hopened, h.schedule.opened] at hf
    obtain ⟨fs, hfs, hf⟩ := Multiset.mem_join.mp hf
    obtain ⟨r, hr, rfl⟩ := Multiset.mem_map.mp hfs
    obtain ⟨g, rfl⟩ := hfinished r hr
    obtain rfl : f = g := Multiset.mem_singleton.mp hf
    exact hr
  refine ⟨hopened, fun f => ⟨h.schedule.closure f, ?_⟩, ?_⟩
  · intro hf
    induction hf with
    | root hf => exact h.schedule.roots (by simp [hs]) _ hf
    | dep _ hproto hd ih =>
        obtain ⟨proto, hproto', hdeps, _⟩ := h.schedule.consistent _ (hreader _ ih)
        rw [hproto] at hproto'
        cases hproto'
        exact (hdeps _ hd).resolve_left List.not_mem_nil
  · intro f hf
    have hr := hreader f hf
    obtain ⟨proto, hproto, _⟩ := h.schedule.consistent _ hr
    refine ⟨proto, hproto, ?_⟩
    have hsent := h.delivered.sent (by simp [hmain]) _ hr trivial
    rw [(h.delivered.complete hmain).2] at hsent
    obtain ⟨tn, htn⟩ := Option.ne_none_iff_exists'.mp (hsent.resolve_left (by simp))
    obtain ⟨proto', hproto', rfl⟩ := h.delivered.node f tn htn
    rw [hproto] at hproto'
    cases hproto'
    exact htn

/-- The node that the last loop leaves for a file. -/
def indexedNode (file : String) (proto : LicenseMetadata) : TargetNode where
  name := file
  proto := { proto with deps := [] }
  edges := proto.deps.map fun ad =>
    { target := file
      dependency := ad.file
      annotations := (ad.annotations.filter (· ∈ recognizedAnnotations)).dedup }
  licenseConditions := licenseConditionSetFromNames proto.licenseConditions

/-- The dependencies of a file are found. -/
theorem addDependencies_ok
    {scheduled : Finset String} {targets : String → Option TargetNode} {file : String}
    {proto : LicenseMetadata}
    (hdeps : ∀ d ∈ proto.files, d ≠ "" ∧ d ∈ scheduled ∧ targets d ≠ none) :
    addDependencies scheduled targets (nodeOf file proto) =
      .ok (proto.deps.map (edgeFor file)) := by
  rw [addDependencies, Loop.mapM_eq_ok, List.forall₂_map_right_iff]
  change List.Forall₂ _ proto.deps proto.deps
  rw [List.forall₂_same]
  intro ad had
  obtain ⟨hname, hmem, htarget⟩ := hdeps ad.file (List.mem_map_of_mem had)
  rw [addDependency, if_neg hname, if_neg (not_not.mpr hmem),
    if_neg (by simpa [Option.isNone_iff_eq_none] using htarget)]
  rfl

theorem ReadInv.indexTargets
    (h : ReadInv rootFS concurrentReaders rootFiles s) (hmain : s.main = .complete)
    (hname : ∃ err, rootFS.readMetadata "" = .error err)
    {order : List String} (horder : (order : Multiset String) = s.scheduled.val) :
    ∃ nodes, Compliance.indexTargets s.scheduled s.targets order = .ok nodes ∧
      List.Forall₂ (fun f tn => ∃ proto, rootFS.readMetadata f = .ok proto ∧
        tn = indexedNode f proto) order nodes := by
  obtain ⟨_, hclosure, htargets⟩ := h.closure hmain
  have hdeps : ∀ f ∈ s.scheduled, ∀ proto, rootFS.readMetadata f = .ok proto →
      ∀ d ∈ proto.files, d ≠ "" ∧ d ∈ s.scheduled ∧ s.targets d ≠ none := by
    intro f hf proto hproto d hd
    have hmem := (hclosure d).mpr (.dep ((hclosure f).mp hf) hproto hd)
    obtain ⟨proto', hproto', htarget⟩ := htargets d hmem
    refine ⟨?_, hmem, by simp [htarget]⟩
    rintro rfl
    obtain ⟨err, herr⟩ := hname
    rw [herr] at hproto'
    cases hproto'
  have hindex : ∀ f ∈ order, ∃ tn, indexTarget s.scheduled s.targets f = .ok tn ∧
      ∃ proto, rootFS.readMetadata f = .ok proto ∧ tn = indexedNode f proto := by
    intro f hf
    have hmem : f ∈ s.scheduled := by
      rw [← Finset.mem_val, ← horder]
      exact hf
    obtain ⟨proto, hproto, htarget⟩ := htargets f hmem
    refine ⟨indexedNode f proto, ?_, proto, hproto, rfl⟩
    rw [indexTarget, htarget]
    simp only [addDependencies_ok (hdeps f hmem proto hproto)]
    rfl
  rw [Compliance.indexTargets]
  clear horder
  induction order with
  | nil => exact ⟨[], rfl, .nil⟩
  | cons f order ih =>
      rw [List.forall_mem_cons] at hindex
      obtain ⟨tn, htn, hproto⟩ := hindex.1
      obtain ⟨nodes, hnodes, hall⟩ := ih hindex.2
      refine ⟨tn :: nodes, ?_, .cons hproto hall⟩
      rw [Loop.mapM_eq_ok] at hnodes ⊢
      exact .cons htn hnodes

end Results

end Compliance
end AndroidBuild
