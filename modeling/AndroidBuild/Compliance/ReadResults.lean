import AndroidBuild.Compliance.ReadSchedule

/-!
# Results of the readers

The result of a file that was read is in the channel until the main goroutine
receives it, and from then on the node is in the map of targets.  After the
first error the main goroutine receives no more.
-/

namespace AndroidBuild
namespace Compliance

/-- The reader has sent its result. -/
def Reader.HasSent : Reader → Prop
  | .opening _ => False
  | .sending _ _ => False
  | _ => True

/-- What is in the channel and in the map of targets. -/
structure ReadDelivered (rootFS : RootFS) (s : ReadState) : Prop where
  target : ∀ q ∈ s.results, q.target = (rootFS.readMetadata q.file).map (nodeOf q.file)
  reader : ∀ q ∈ s.results, ∃ r ∈ s.readers, r.HasSent ∧ r.file = q.file
  node : ∀ f tn, s.targets f = some tn → ∃ proto, rootFS.readMetadata f = .ok proto ∧
    tn = nodeOf f proto
  sent : (∀ err, s.main ≠ .failed err) → ∀ r ∈ s.readers, r.HasSent →
    (∃ q ∈ s.results, q.file = r.file) ∨ s.targets r.file ≠ none
  failed : ∀ err, s.main = .failed err → ∃ r ∈ s.readers, r.HasSent ∧
    rootFS.readMetadata r.file = .error err
  complete : s.main = .complete → s.resultsClosed = true ∧ s.results = []

variable {rootFS : RootFS} {concurrentReaders : Nat} {rootFiles : List String} {s t : ReadState}

theorem ReadDelivered.start
    (concurrentReaders : Nat) :
    ReadDelivered rootFS (.start concurrentReaders) := by
  refine ⟨?_, ?_, ?_, ?_, ?_, ?_⟩ <;> simp [ReadState.start]

theorem Reader.sent_hasSent
    (f : String) (proto : Except ReadError LicenseMetadata) :
    (Reader.sent f proto).HasSent ∧ (Reader.sent f proto).file = f := by
  cases proto <;> exact ⟨trivial, rfl⟩

/-- A reader whose file cannot be read fails. -/
theorem Reader.Consistent.failed
    {scheduled : Finset String} {r : Reader} (h : r.Consistent rootFS scheduled) (hsent : r.HasSent)
    {err : ReadError} (herr : rootFS.readMetadata r.file = .error err) :
    r = .failed r.file := by
  have hnot : ∀ deps, ¬ Scanned rootFS scheduled r.file deps := by
    rintro deps ⟨proto, hproto, _⟩
    rw [herr] at hproto
    cases hproto
  cases r with
  | opening f => exact absurd hsent id
  | sending f proto => exact absurd hsent id
  | failed f => rfl
  | releasing f deps => exact absurd h (hnot deps)
  | scanning f deps => exact absurd h (hnot deps)
  | adding f d deps => exact absurd h (hnot deps)
  | taking f d deps => exact absurd h (hnot deps)
  | finished f => exact absurd h (hnot [])

/-- The file in a result that is received is scheduled. -/
theorem ReadDelivered.received
    (h : ReadDelivered rootFS s) (hs : ReadScheduled rootFS rootFiles s) {file : String}
    {target : TargetNode} {results : List ReadResult}
    (hresults : s.results = ⟨file, .ok target⟩ :: results) :
    ∃ proto, rootFS.readMetadata file = .ok proto ∧ target = nodeOf file proto ∧
      file ∈ s.scheduled := by
  have hmem : ⟨file, .ok target⟩ ∈ s.results := by simp [hresults]
  have htarget := h.target _ hmem
  obtain ⟨r, hr, _, hfile⟩ := h.reader _ hmem
  simp only at htarget hfile
  cases hproto : rootFS.readMetadata file with
  | error err =>
      rw [hproto] at htarget
      cases htarget
  | ok proto =>
      rw [hproto] at htarget
      cases htarget
      exact ⟨proto, rfl, rfl, hfile ▸ hs.file_mem hr⟩

theorem ReadDelivered.readerStep
    (h : ReadDelivered rootFS s) (new : Multiset Reader) {r : Reader} {readers : Multiset Reader}
    (hr : s.readers = r ::ₘ readers) (hreaders : t.readers = new + readers)
    (hold : r.HasSent → ∃ r' ∈ new, r'.HasSent ∧ r'.file = r.file)
    (hnew : ∀ r' ∈ new, r'.HasSent → r.HasSent ∧ r'.file = r.file)
    (hresults : t.results = s.results) (htargets : t.targets = s.targets)
    (hmain : t.main = s.main) (hclosed : t.resultsClosed = s.resultsClosed) :
    ReadDelivered rootFS t := by
  have hkeep : ∀ r' ∈ s.readers, r'.HasSent →
      ∃ r'' ∈ t.readers, r''.HasSent ∧ r''.file = r'.file := by
    intro r' hr' hsent
    rw [hr, Multiset.mem_cons] at hr'
    rw [hreaders]
    rcases hr' with rfl | hr'
    · obtain ⟨r'', hmem, hsent', hfile⟩ := hold hsent
      exact ⟨r'', Multiset.mem_add.mpr (Or.inl hmem), hsent', hfile⟩
    · exact ⟨r', Multiset.mem_add.mpr (Or.inr hr'), hsent, rfl⟩
  refine ⟨?_, ?_, ?_, ?_, ?_, ?_⟩
  · rw [hresults]
    exact h.target
  · intro q hq
    rw [hresults] at hq
    obtain ⟨r', hr', hsent, hfile⟩ := h.reader q hq
    obtain ⟨r'', hr'', hsent', hfile'⟩ := hkeep r' hr' hsent
    exact ⟨r'', hr'', hsent', hfile'.trans hfile⟩
  · rw [htargets]
    exact h.node
  · rw [hmain, hresults, htargets, hreaders]
    intro hnone r' hr' hsent
    rcases Multiset.mem_add.mp hr' with hr' | hr'
    · obtain ⟨hsent', hfile⟩ := hnew r' hr' hsent
      rw [hfile]
      exact h.sent hnone r (by simp [hr]) hsent'
    · exact h.sent hnone r' (by simp [hr, hr']) hsent
  · intro err herr
    rw [hmain] at herr
    obtain ⟨r', hr', hsent, hread⟩ := h.failed err herr
    obtain ⟨r'', hr'', hsent', hfile⟩ := hkeep r' hr' hsent
    exact ⟨r'', hr'', hsent', by rw [hfile, hread]⟩
  · rw [hmain, hclosed, hresults]
    exact h.complete

theorem ReadDelivered.other
    (h : ReadDelivered rootFS s) (hreaders : t.readers = s.readers)
    (hresults : t.results = s.results) (htargets : t.targets = s.targets)
    (hmain : t.main = s.main) (hclosed : s.resultsClosed = true → t.resultsClosed = true) :
    ReadDelivered rootFS t := by
  refine ⟨?_, ?_, ?_, ?_, ?_, ?_⟩
  · rw [hresults]
    exact h.target
  · rw [hresults, hreaders]
    exact h.reader
  · rw [htargets]
    exact h.node
  · rw [hmain, hreaders, hresults, htargets]
    exact h.sent
  · rw [hmain, hreaders]
    exact h.failed
  · rw [hmain, hresults]
    exact fun hm => ⟨hclosed (h.complete hm).1, (h.complete hm).2⟩

theorem ReadDelivered.step
    (hs : ReadScheduled rootFS rootFiles s) (h : ReadDelivered rootFS s)
    (hstep : ReadStep rootFS concurrentReaders rootFiles s t) :
    ReadDelivered rootFS t := by
  cases hstep with
  | mark hm =>
      have hzero := hs.marking hm
      refine ⟨h.target, h.reader, ?_, ?_, h.failed, h.complete⟩
      · intro f tn hf
        simp only at hf
        split_ifs at hf
        exact h.node f tn hf
      · simp [hzero]
  | addRoot _ => exact h.other rfl rfl rfl rfl id
  | @takeRoot f files _ _ =>
      refine ⟨h.target, ?_, h.node, ?_, ?_, h.complete⟩
      · intro q hq
        obtain ⟨r, hr, hsent⟩ := h.reader q hq
        exact ⟨r, Multiset.mem_cons_of_mem hr, hsent⟩
      · intro hnone
        rw [Multiset.forall_mem_cons]
        exact ⟨fun hsent => absurd hsent id, h.sent hnone⟩
      · intro err herr
        obtain ⟨r, hr, hsent⟩ := h.failed err herr
        exact ⟨r, Multiset.mem_cons_of_mem hr, hsent⟩
  | launch _ => exact h.other rfl rfl rfl rfl id
  | wait _ _ => exact h.other rfl rfl rfl rfl id
  | closeTask _ => exact h.other rfl rfl rfl rfl id
  | closeResults _ _ => exact h.other rfl rfl rfl rfl (fun _ => rfl)
  | @read f readers hr =>
      exact h.readerStep {.sending f (rootFS.readMetadata f)} hr rfl (fun hsent => absurd hsent id)
        (by simp [Reader.HasSent]) rfl rfl rfl rfl
  | @send f proto readers hr hmain hopen hroom =>
      obtain ⟨hsent, hfile⟩ := Reader.sent_hasSent f proto
      have hproto : proto = rootFS.readMetadata f := hs.consistent (.sending f proto) (by simp [hr])
      have hold : ∀ r ∈ s.readers, r.HasSent → r ∈ readers := by
        intro r hr' hsent
        rw [hr, Multiset.mem_cons] at hr'
        rcases hr' with rfl | hr'
        · exact absurd hsent id
        · exact hr'
      refine ⟨?_, ?_, h.node, ?_, ?_, ?_⟩
      · simp only [List.forall_mem_append, List.forall_mem_singleton]
        exact ⟨h.target, by rw [hproto]⟩
      · simp only [List.forall_mem_append, List.forall_mem_singleton]
        refine ⟨?_, ⟨_, Multiset.mem_cons_self _ _, hsent, hfile⟩⟩
        intro q hq
        obtain ⟨r, hr', hsent', hfile'⟩ := h.reader q hq
        exact ⟨r, Multiset.mem_cons_of_mem (hold r hr' hsent'), hsent', hfile'⟩
      · intro hnone
        rw [Multiset.forall_mem_cons]
        refine ⟨fun _ => Or.inl ⟨_, List.mem_append_right _ List.mem_cons_self, hfile.symm⟩, ?_⟩
        intro r hr' hsent'
        rcases h.sent hnone r (by simp [hr, hr']) hsent' with ⟨q, hq, hfile'⟩ | htarget
        · exact Or.inl ⟨q, List.mem_append_left _ hq, hfile'⟩
        · exact Or.inr htarget
      · intro err herr
        simp only [hmain] at herr
        cases herr
      · intro hm
        simp only [hmain] at hm
        cases hm
  | @release f deps readers hr _ _ =>
      exact h.readerStep {.scanning f deps} hr rfl (by simp [Reader.HasSent, Reader.file])
        (by simp [Reader.HasSent, Reader.file]) rfl rfl rfl rfl
  | @skip f d deps readers hr _ =>
      exact h.readerStep {.scanning f deps} hr rfl (by simp [Reader.HasSent, Reader.file])
        (by simp [Reader.HasSent, Reader.file]) rfl rfl rfl rfl
  | @schedule f d deps readers hr hd =>
      -- the new entry overwrites nothing, since the files of all readers are scheduled
      have hother : ReadDelivered rootFS { s with readers := .adding f d deps ::ₘ readers } :=
        h.readerStep {.adding f d deps} hr rfl (by simp [Reader.HasSent, Reader.file])
          (by simp [Reader.HasSent, Reader.file]) rfl rfl rfl rfl
      refine ⟨hother.target, hother.reader, ?_, ?_, hother.failed, hother.complete⟩
      · intro e tn he
        rcases eq_or_ne e d with rfl | hne
        · simp only [Function.update_self] at he
          cases he
        · simp only [Function.update_of_ne hne] at he
          exact h.node e tn he
      · intro hnone r hr' hsent
        have hfile : r.file ∈ s.scheduled := by
          rcases Multiset.mem_cons.mp hr' with rfl | hr''
          · exact hs.file_mem (r := .scanning f (d :: deps)) (by simp [hr])
          · exact hs.file_mem (by simp [hr, hr''])
        simp only [Function.update_of_ne (ne_of_mem_of_not_mem hfile hd)]
        exact hother.sent hnone r hr' hsent
  | @add f d deps readers hr =>
      exact h.readerStep {.taking f d deps} hr rfl (by simp [Reader.HasSent, Reader.file])
        (by simp [Reader.HasSent, Reader.file]) rfl rfl rfl rfl
  | @take f d deps readers hr _ =>
      exact h.readerStep {.opening d, .scanning f deps} hr (by simp)
        (by simp [Reader.HasSent, Reader.file]) (by simp [Reader.HasSent, Reader.file])
        rfl rfl rfl rfl
  | @done f readers hr _ =>
      exact h.readerStep {.finished f} hr rfl (by simp [Reader.HasSent, Reader.file])
        (by simp [Reader.HasSent, Reader.file]) rfl rfl rfl rfl
  | @receive file target results hmain hresults =>
      obtain ⟨proto, hproto, rfl, _⟩ := h.received hs hresults
      have hsub : ∀ q ∈ results, q ∈ s.results := by
        intro q hq
        rw [hresults]
        exact List.mem_cons_of_mem _ hq
      refine ⟨fun q hq => h.target q (hsub q hq), fun q hq => h.reader q (hsub q hq), ?_, ?_,
        h.failed, ?_⟩
      · intro f tn hf
        rcases eq_or_ne f file with rfl | hne
        · simp only [nodeOf, Function.update_self, Option.some.injEq] at hf
          exact ⟨proto, hproto, hf.symm⟩
        · simp only [nodeOf, Function.update_of_ne hne] at hf
          exact h.node f tn hf
      · intro hnone r hr hsent
        rcases eq_or_ne r.file file with heq | hne
        · simp [heq, nodeOf]
        · simp only [nodeOf, Function.update_of_ne hne]
          rcases h.sent hnone r hr hsent with ⟨q, hq, hfile⟩ | htarget
          · rw [hresults, List.mem_cons] at hq
            rcases hq with rfl | hq
            · exact absurd hfile.symm hne
            · exact Or.inl ⟨q, hq, hfile⟩
          · exact Or.inr htarget
      · intro hm
        simp only [hmain] at hm
        cases hm
  | @fail file err results hmain hresults =>
      have hmem : ⟨file, .error err⟩ ∈ s.results := by simp [hresults]
      have hsub : ∀ q ∈ results, q ∈ s.results := by
        intro q hq
        rw [hresults]
        exact List.mem_cons_of_mem _ hq
      have htarget := h.target _ hmem
      obtain ⟨r, hr, hsent, hfile⟩ := h.reader _ hmem
      refine ⟨fun q hq => h.target q (hsub q hq), fun q hq => h.reader q (hsub q hq), h.node, ?_, ?_,
        fun hm => by cases hm⟩
      · intro hnone
        exact absurd rfl (hnone err)
      · intro err' herr
        cases herr
        refine ⟨r, hr, hsent, ?_⟩
        rw [hfile]
        simp only at htarget ⊢
        cases hproto : rootFS.readMetadata file with
        | error err' =>
            rw [hproto] at htarget
            cases htarget
            rfl
        | ok proto =>
            rw [hproto] at htarget
            cases htarget
  | finish hmain hresults hclosed =>
      refine ⟨h.target, h.reader, h.node, ?_, ?_, fun _ => ⟨hclosed, hresults⟩⟩
      · intro _
        exact h.sent (by simp [hmain])
      · intro err herr
        cases herr

end Compliance
end AndroidBuild
