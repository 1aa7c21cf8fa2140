import AndroidBuild.Compliance.ReadCounts

/-!
# Scheduled files

Every file that is scheduled has a reader, or a goroutine that is about to start
one, and no file has two.  A reader that goes through its dependencies leaves
all those behind it scheduled.
-/

namespace AndroidBuild
namespace Compliance

/-- The root files and what they depend on, directly or not. -/
inductive InClosure (rootFS : RootFS) (rootFiles : List String) : String → Prop
  | root {f : String} :
      f ∈ rootFiles →
      InClosure rootFS rootFiles f
  | dep {f d : String} {proto : LicenseMetadata} :
      InClosure rootFS rootFiles f →
      rootFS.readMetadata f = .ok proto →
      d ∈ proto.files →
      InClosure rootFS rootFiles d

section Readers

variable (rootFS : RootFS) (scheduled : Finset String)

def Reader.file : Reader → String
  | .opening f => f
  | .sending f _ => f
  | .releasing f _ => f
  | .scanning f _ => f
  | .adding f _ _ => f
  | .taking f _ _ => f
  | .failed f => f
  | .finished f => f

/-- The file of a reader, and the file it is about to start a reader for. -/
def Reader.files : Reader → Multiset String
  | .adding f d _ => {f, d}
  | .taking f d _ => {f, d}
  | r => {r.file}

def Reader.opened : Reader → Multiset String
  | .opening _ => 0
  | r => {r.file}

def Starter.files : Starter → Multiset String
  | .scheduling fs => fs
  | .taking f fs => f ::ₘ fs
  | _ => 0

/-- The dependencies of `f` are scheduled, up to those in the list. -/
def Scanned (f : String) (deps : List String) : Prop :=
  ∃ proto, rootFS.readMetadata f = .ok proto ∧ (∀ d ∈ proto.files, d ∈ deps ∨ d ∈ scheduled) ∧
    ∀ d ∈ deps, d ∈ proto.files

/-- What a reader knows of its file. -/
def Reader.Consistent : Reader → Prop
  | .opening _ => True
  | .sending f proto => proto = rootFS.readMetadata f
  | .releasing f deps => Scanned rootFS scheduled f deps
  | .scanning f deps => Scanned rootFS scheduled f deps
  | .adding f _ deps => Scanned rootFS scheduled f deps
  | .taking f _ deps => Scanned rootFS scheduled f deps
  | .failed f => ∃ err, rootFS.readMetadata f = .error err
  | .finished f => Scanned rootFS scheduled f []

end Readers

variable {rootFS : RootFS} {concurrentReaders : Nat} {rootFiles : List String}
  {scheduled : Finset String} {s t : ReadState}

theorem Scanned.mono
    {scheduled' : Finset String} (hsub : scheduled ⊆ scheduled') {f : String} {deps : List String}
    (h : Scanned rootFS scheduled f deps) :
    Scanned rootFS scheduled' f deps := by
  obtain ⟨proto, hproto, hdeps, hfiles⟩ := h
  refine ⟨proto, hproto, ?_, hfiles⟩
  intro d hd
  exact (hdeps d hd).imp_right (fun h => hsub h)

/-- The next dependency is scheduled. -/
theorem Scanned.next
    {f d : String} {deps : List String}
    (h : Scanned rootFS scheduled f (d :: deps)) (hd : d ∈ scheduled) :
    Scanned rootFS scheduled f deps := by
  obtain ⟨proto, hproto, hdeps, hfiles⟩ := h
  refine ⟨proto, hproto, ?_, fun e he => hfiles e (List.mem_cons_of_mem _ he)⟩
  intro e he
  rcases hdeps e he with hmem | hmem
  · rcases List.mem_cons.mp hmem with rfl | hmem
    · exact Or.inr hd
    · exact Or.inl hmem
  · exact Or.inr hmem

theorem Reader.Consistent.mono
    {scheduled' : Finset String} (hsub : scheduled ⊆ scheduled') {r : Reader}
    (h : r.Consistent rootFS scheduled) :
    r.Consistent rootFS scheduled' := by
  cases r with
  | opening f => exact trivial
  | sending f proto => exact h
  | failed f => exact h
  | releasing f deps => exact Scanned.mono hsub h
  | scanning f deps => exact Scanned.mono hsub h
  | adding f d deps => exact Scanned.mono hsub h
  | taking f d deps => exact Scanned.mono hsub h
  | finished f => exact Scanned.mono hsub h

theorem Reader.sent_consistent
    (f : String) :
    (Reader.sent f (rootFS.readMetadata f)).Consistent rootFS scheduled := by
  cases h : rootFS.readMetadata f with
  | error err => exact ⟨err, h⟩
  | ok proto => exact ⟨proto, h, fun d hd => Or.inl hd, fun d hd => hd⟩

theorem Reader.file_mem_files
    (r : Reader) :
    r.file ∈ r.files := by
  cases r <;> simp [Reader.file, Reader.files]

/-- What is scheduled, opened and scanned. -/
structure ReadScheduled (rootFS : RootFS) (rootFiles : List String) (s : ReadState) : Prop where
  scheduled : s.scheduled.val = s.starter.files + (s.readers.map Reader.files).sum
  opened : s.opened = (s.readers.map Reader.opened).sum
  marking : s.starter = .marking → s.readers = 0
  roots : s.starter ≠ .marking → ∀ f ∈ rootFiles, f ∈ s.scheduled
  closure : ∀ f ∈ s.scheduled, InClosure rootFS rootFiles f
  consistent : ∀ r ∈ s.readers, r.Consistent rootFS s.scheduled

theorem ReadScheduled.start
    (concurrentReaders : Nat) :
    ReadScheduled rootFS rootFiles (.start concurrentReaders) := by
  refine ⟨?_, ?_, ?_, ?_, ?_, ?_⟩ <;> simp [ReadState.start, Starter.files]

theorem ReadScheduled.file_mem
    (h : ReadScheduled rootFS rootFiles s) {r : Reader} (hr : r ∈ s.readers) :
    r.file ∈ s.scheduled := by
  obtain ⟨readers, hr⟩ := Multiset.exists_cons_of_mem hr
  have hs := h.scheduled
  rw [hr, Multiset.map_cons, Multiset.sum_cons] at hs
  rw [← Finset.mem_val, hs, Multiset.mem_add, Multiset.mem_add]
  exact Or.inr (Or.inl r.file_mem_files)

/-- A step of a reader that schedules nothing. -/
theorem ReadScheduled.reader
    (h : ReadScheduled rootFS rootFiles s) (new : Multiset Reader) {r : Reader}
    {readers : Multiset Reader} (hr : s.readers = r ::ₘ readers)
    (hreaders : t.readers = new + readers) (hfiles : (new.map Reader.files).sum = r.files)
    (hopened : t.opened + r.opened = s.opened + (new.map Reader.opened).sum)
    (hconsistent : ∀ r' ∈ new, r'.Consistent rootFS s.scheduled)
    (hscheduled : t.scheduled = s.scheduled) (hstarter : t.starter = s.starter) :
    ReadScheduled rootFS rootFiles t := by
  have hs := h.scheduled
  have ho := h.opened
  rw [hr, Multiset.map_cons, Multiset.sum_cons] at hs ho
  refine ⟨?_, ?_, ?_, ?_, ?_, ?_⟩
  · rw [hscheduled, hstarter, hreaders, Multiset.map_add, Multiset.sum_add, hfiles]
    exact hs
  · rw [ho, add_right_comm, add_comm r.opened, add_right_comm] at hopened
    rw [hreaders, Multiset.map_add, Multiset.sum_add]
    exact add_right_cancel hopened
  · intro hm
    rw [hstarter] at hm
    have := h.marking hm
    rw [hr] at this
    exact absurd this (Multiset.cons_ne_zero)
  · rw [hstarter, hscheduled]
    exact h.roots
  · rw [hscheduled]
    exact h.closure
  · intro r' hr'
    rw [hreaders, Multiset.mem_add] at hr'
    rw [hscheduled]
    rcases hr' with hr' | hr'
    · exact hconsistent r' hr'
    · exact h.consistent r' (by rw [hr]; exact Multiset.mem_cons_of_mem hr')

theorem ReadScheduled.step
    (hroots : rootFiles.Nodup) (h : ReadScheduled rootFS rootFiles s)
    (hreceived : ∀ file target results, s.results = ⟨file, .ok target⟩ :: results →
      target.name ∈ s.scheduled)
    (hstep : ReadStep rootFS concurrentReaders rootFiles s t) :
    ReadScheduled rootFS rootFiles t := by
  have hc := h.consistent
  cases hstep with
  | mark hs =>
      have hzero := h.marking hs
      have hs' := h.scheduled
      simp only [hzero, hs, Multiset.map_zero, Multiset.sum_zero, add_zero, Starter.files,
        Finset.val_eq_zero] at hs'
      refine ⟨?_, h.opened, fun hm => by simp at hm, fun _ f hf => by simp [hf], ?_, ?_⟩
      · simp [hs', hzero, Starter.files, hroots.dedup]
      · intro f hf
        simp only [hs', Finset.empty_union, List.mem_toFinset] at hf
        exact .root hf
      · simp [hzero]
  | addRoot hs =>
      have hs' := h.scheduled
      rw [hs] at hs'
      exact ⟨hs', h.opened, fun hm => by simp at hm, fun _ => h.roots (by simp [hs]), h.closure,
        h.consistent⟩
  | @takeRoot f files hs htask =>
      have hs' := h.scheduled
      rw [hs] at hs'
      refine ⟨?_, ?_, fun hm => by simp at hm, fun _ => h.roots (by simp [hs]), h.closure, ?_⟩
      · simp only [hs', Starter.files, Multiset.map_cons, Multiset.sum_cons, Reader.files,
          Reader.file, Multiset.cons_add, Multiset.singleton_add, Multiset.add_cons]
      · simp only [h.opened, Multiset.map_cons, Multiset.sum_cons, Reader.opened, zero_add]
      · intro r hr
        rcases Multiset.mem_cons.mp hr with rfl | hr
        · exact trivial
        · exact h.consistent r hr
  | launch hs =>
      have hs' := h.scheduled
      rw [hs] at hs'
      exact ⟨hs', h.opened, fun hm => by simp at hm, fun _ => h.roots (by simp [hs]), h.closure,
        h.consistent⟩
  | wait hc' hwg => exact ⟨h.scheduled, h.opened, h.marking, h.roots, h.closure, h.consistent⟩
  | closeTask hc' => exact ⟨h.scheduled, h.opened, h.marking, h.roots, h.closure, h.consistent⟩
  | closeResults hc' hmain =>
      exact ⟨h.scheduled, h.opened, h.marking, h.roots, h.closure, h.consistent⟩
  | @read f readers hr =>
      exact h.reader {.sending f (rootFS.readMetadata f)} hr rfl rfl
        (by simp [Reader.opened, Reader.file, add_comm s.opened]) (by simp [Reader.Consistent]) rfl rfl
  | @send f proto readers hr hmain hopen hroom =>
      rw [hr, Multiset.forall_mem_cons] at hc
      obtain rfl : proto = rootFS.readMetadata f := hc.1
      refine h.reader {.sent f (rootFS.readMetadata f)} hr rfl ?_ ?_ ?_ rfl rfl
      · cases rootFS.readMetadata f <;> rfl
      · cases rootFS.readMetadata f <;> rfl
      · rintro r hr'
        rw [Multiset.mem_singleton.mp hr']
        exact Reader.sent_consistent f
  | @release f deps readers hr hopen hroom =>
      rw [hr, Multiset.forall_mem_cons] at hc
      exact h.reader {.scanning f deps} hr rfl rfl rfl (by simpa [Reader.Consistent] using hc.1) rfl rfl
  | @skip f d deps readers hr hd =>
      rw [hr, Multiset.forall_mem_cons] at hc
      exact h.reader {.scanning f deps} hr rfl rfl rfl (by simpa [Reader.Consistent] using hc.1.next hd) rfl rfl
  | @schedule f d deps readers hr hd =>
      rw [hr, Multiset.forall_mem_cons] at hc
      obtain ⟨proto, hproto, hdeps, hfiles⟩ := id hc.1
      have hsub := Finset.subset_insert d s.scheduled
      have hs := h.scheduled
      have ho := h.opened
      rw [hr, Multiset.map_cons, Multiset.sum_cons] at hs ho
      refine ⟨?_, ?_, ?_, ?_, ?_, ?_⟩
      · rw [Finset.insert_val_of_notMem hd, hs]
        simp only [Multiset.map_cons, Multiset.sum_cons, Reader.files, Reader.file,
          Multiset.insert_eq_cons, Multiset.cons_add, Multiset.singleton_add, Multiset.add_cons]
        rw [Multiset.cons_swap]
      · rw [Multiset.map_cons, Multiset.sum_cons]
        exact ho
      · intro hm
        have := h.marking hm
        rw [hr] at this
        exact absurd this Multiset.cons_ne_zero
      · intro hm e he
        exact hsub (h.roots hm e he)
      · intro e he
        rcases Finset.mem_insert.mp he with rfl | he
        · have hf : f ∈ s.scheduled := h.file_mem (r := .scanning f (e :: deps)) (by simp [hr])
          exact .dep (h.closure f hf) hproto (hfiles e List.mem_cons_self)
        · exact h.closure e he
      · rw [Multiset.forall_mem_cons]
        exact ⟨(Scanned.mono hsub hc.1).next (Finset.mem_insert_self d _),
          fun r hr' => (hc.2 r hr').mono hsub⟩
  | @add f d deps readers hr =>
      rw [hr, Multiset.forall_mem_cons] at hc
      exact h.reader {.taking f d deps} hr rfl rfl rfl (by simpa [Reader.Consistent] using hc.1) rfl rfl
  | @take f d deps readers hr htask =>
      rw [hr, Multiset.forall_mem_cons] at hc
      refine h.reader {.opening d, .scanning f deps} hr (by simp) ?_ ?_ ?_ rfl rfl
      · simpa [Reader.files, Reader.file] using Multiset.pair_comm d f
      · simp [Reader.opened, Reader.file]
      · simpa [Reader.Consistent] using hc.1
  | @done f readers hr hwg =>
      rw [hr, Multiset.forall_mem_cons] at hc
      exact h.reader {.finished f} hr rfl rfl rfl (by simpa [Reader.Consistent] using hc.1) rfl rfl
  | @receive file target results hmain hresults =>
      have hmem := hreceived file target results hresults
      rw [Finset.insert_eq_of_mem hmem]
      exact ⟨h.scheduled, h.opened, h.marking, h.roots, h.closure, h.consistent⟩
  | fail hmain hresults =>
      exact ⟨h.scheduled, h.opened, h.marking, h.roots, h.closure, h.consistent⟩
  | finish hmain hresults hclosed =>
      exact ⟨h.scheduled, h.opened, h.marking, h.roots, h.closure, h.consistent⟩

end Compliance
end AndroidBuild
