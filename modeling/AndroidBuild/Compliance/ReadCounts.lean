import AndroidBuild.Compliance.ReadGraph

/-!
# Tokens and the wait group

The tokens of the task pool are in the channel or with a reader that has not
sent its result or has failed.  The wait group counts every reader that is not
finished, and the files that are about to get a reader.  So when the counter is
zero all readers are finished, and the channels are closed after the last send.
-/

namespace AndroidBuild
namespace Compliance

variable {rootFS : RootFS} {concurrentReaders : Nat} {rootFiles : List String}
  {s t : ReadState}

def Reader.tasks : Reader → Nat
  | .opening _ => 1
  | .sending _ _ => 1
  | .releasing _ _ => 1
  | .failed _ => 1
  | _ => 0

def Reader.work : Reader → Nat
  | .taking _ _ _ => 2
  | .finished _ => 0
  | _ => 1

def Starter.work : Starter → Nat
  | .taking _ _ => 1
  | _ => 0

def Closer.stage : Closer → Nat
  | .absent => 0
  | .waiting => 1
  | .closingTask => 2
  | .closingResults => 3
  | .finished => 4

/-- The counts, and how far the goroutine that closes the channels is. -/
structure ReadCounts (concurrentReaders : Nat) (s : ReadState) : Prop where
  tokens : s.tokens + (s.readers.map Reader.tasks).sum = concurrentReaders
  wg : s.wg = (s.readers.map Reader.work).sum + s.starter.work
  room : s.results.length ≤ concurrentReaders
  started : (s.closer = .absent ∧ s.starter ≠ .finished) ∨
    (0 < s.closer.stage ∧ s.starter = .finished)
  waited : 2 ≤ s.closer.stage → s.wg = 0
  taskClosed : s.taskClosed = true ↔ 3 ≤ s.closer.stage
  resultsClosed : s.resultsClosed = true ↔ 4 ≤ s.closer.stage

theorem ReadCounts.start
    (concurrentReaders : Nat) :
    ReadCounts concurrentReaders (.start concurrentReaders) := by
  refine ⟨?_, ?_, ?_, Or.inl ⟨rfl, ?_⟩, ?_, ?_, ?_⟩ <;>
    simp [ReadState.start, Starter.work, Closer.stage]

/-- While a reader is at work the channels are open. -/
theorem ReadCounts.open_of_reader
    (h : ReadCounts concurrentReaders s) {r : Reader} {readers : Multiset Reader}
    (hr : s.readers = r ::ₘ readers) (hwork : 0 < r.work) :
    0 < s.wg ∧ s.closer.stage < 2 ∧ s.taskClosed = false ∧ s.resultsClosed = false := by
  have hwg := h.wg
  rw [hr, Multiset.map_cons, Multiset.sum_cons] at hwg
  have hstage : s.closer.stage < 2 := by
    by_contra hge
    have := h.waited (by omega)
    omega
  have htask : ¬ s.taskClosed = true := by
    rw [h.taskClosed]
    omega
  have hresults : ¬ s.resultsClosed = true := by
    rw [h.resultsClosed]
    omega
  exact ⟨by omega, hstage, Bool.eq_false_of_not_eq_true htask,
    Bool.eq_false_of_not_eq_true hresults⟩

theorem ReadCounts.absent_of_starter
    (h : ReadCounts concurrentReaders s) (hs : s.starter ≠ .finished) :
    s.closer = .absent := by
  rcases h.started with ⟨hc, _⟩ | ⟨_, hc⟩
  · exact hc
  · exact absurd hc hs

theorem ReadCounts.finished_of_closer
    (h : ReadCounts concurrentReaders s) (hc : s.closer ≠ .absent) :
    s.starter = .finished := by
  rcases h.started with ⟨hc', _⟩ | ⟨_, hs⟩
  · exact absurd hc' hc
  · exact hs

theorem ReadCounts.reader
    (h : ReadCounts concurrentReaders s) (new : Multiset Reader) {r : Reader}
    {readers : Multiset Reader} (hr : s.readers = r ::ₘ readers) (hwork : 0 < r.work)
    (hreaders : t.readers = new + readers)
    (htokens : t.tokens + (new.map Reader.tasks).sum = s.tokens + r.tasks)
    (hwg : t.wg + r.work = s.wg + (new.map Reader.work).sum)
    (hroom : t.results.length ≤ concurrentReaders)
    (hstarter : t.starter = s.starter) (hcloser : t.closer = s.closer)
    (htask : t.taskClosed = s.taskClosed) (hresults : t.resultsClosed = s.resultsClosed) :
    ReadCounts concurrentReaders t := by
  obtain ⟨_, hstage, _, _⟩ := h.open_of_reader hr hwork
  have htokens' := h.tokens
  have hwg' := h.wg
  rw [hr, Multiset.map_cons, Multiset.sum_cons] at htokens' hwg'
  refine ⟨?_, ?_, hroom, ?_, ?_, ?_, ?_⟩
  · rw [hreaders, Multiset.map_add, Multiset.sum_add]
    omega
  · rw [hreaders, Multiset.map_add, Multiset.sum_add, hstarter]
    omega
  · rw [hstarter, hcloser]
    exact h.started
  · rw [hcloser]
    omega
  · rw [htask, hcloser]
    exact h.taskClosed
  · rw [hresults, hcloser]
    exact h.resultsClosed

theorem ReadCounts.main
    (h : ReadCounts concurrentReaders s)
    {results : List ReadResult} (hroom : results.length ≤ s.results.length)
    (scheduled : Finset String) (targets : String → Option TargetNode) (main : MainLoop) :
    ReadCounts concurrentReaders
      { s with results := results, scheduled := scheduled, targets := targets, main := main } :=
  ⟨h.tokens, h.wg, hroom.trans h.room, h.started, h.waited, h.taskClosed, h.resultsClosed⟩

theorem ReadCounts.step
    (h : ReadCounts concurrentReaders s)
    (hstep : ReadStep rootFS concurrentReaders rootFiles s t) :
    ReadCounts concurrentReaders t := by
  cases hstep with
  | mark hs =>
      have hwg := h.wg
      rw [hs] at hwg
      exact ⟨h.tokens, hwg, h.room, Or.inl ⟨h.absent_of_starter (by simp [hs]), by simp⟩, h.waited,
        h.taskClosed, h.resultsClosed⟩
  | addRoot hs =>
      have hc := h.absent_of_starter (by simp [hs])
      have hwg := h.wg
      rw [hs] at hwg
      refine ⟨h.tokens, ?_, h.room, Or.inl ⟨hc, by simp⟩, ?_, h.taskClosed, h.resultsClosed⟩
      · simp only [Starter.work] at hwg ⊢
        omega
      · simp [hc, Closer.stage]
  | takeRoot hs htask =>
      have hc := h.absent_of_starter (by simp [hs])
      have hwg := h.wg
      have htokens := h.tokens
      have hclosed : ¬ s.taskClosed = true := by
        rw [h.taskClosed, hc]
        decide
      have hpos := htask.resolve_right hclosed
      rw [hs] at hwg
      refine ⟨?_, ?_, h.room, Or.inl ⟨hc, by simp⟩, h.waited, h.taskClosed, h.resultsClosed⟩
      · simp only [Multiset.map_cons, Multiset.sum_cons, Reader.tasks]
        omega
      · simp only [Multiset.map_cons, Multiset.sum_cons, Reader.work, Starter.work] at hwg ⊢
        omega
  | launch hs =>
      have hc := h.absent_of_starter (by simp [hs])
      have hwg := h.wg
      rw [hs] at hwg
      have htask := h.taskClosed
      have hresults := h.resultsClosed
      rw [hc] at htask hresults
      refine ⟨h.tokens, hwg, h.room, Or.inr ⟨by simp [Closer.stage], rfl⟩, ?_, ?_, ?_⟩
      · simp [Closer.stage]
      · simpa [Closer.stage] using htask
      · simpa [Closer.stage] using hresults
  | wait hc hwg =>
      have htask := h.taskClosed
      have hresults := h.resultsClosed
      have hs := h.finished_of_closer (by simp [hc])
      rw [hc] at htask hresults
      refine ⟨h.tokens, h.wg, h.room, Or.inr ⟨by simp [Closer.stage], hs⟩, fun _ => hwg, ?_, ?_⟩
      · simpa [Closer.stage] using htask
      · simpa [Closer.stage] using hresults
  | closeTask hc =>
      have hresults := h.resultsClosed
      have hs := h.finished_of_closer (by simp [hc])
      have hwaited := h.waited
      rw [hc] at hresults hwaited
      refine ⟨h.tokens, h.wg, h.room, Or.inr ⟨by simp [Closer.stage], hs⟩, ?_, ?_, ?_⟩
      · intro _
        exact hwaited le_rfl
      · simp [Closer.stage]
      · simpa [Closer.stage] using hresults
  | closeResults hc hmain =>
      have htask := h.taskClosed
      have hs := h.finished_of_closer (by simp [hc])
      have hwaited := h.waited
      rw [hc] at htask hwaited
      refine ⟨h.tokens, h.wg, h.room, Or.inr ⟨by simp [Closer.stage], hs⟩, ?_, ?_, ?_⟩
      · intro _
        exact hwaited (by decide)
      · simpa [Closer.stage] using htask
      · simp [Closer.stage]
  | @read f readers hr =>
      exact h.reader {.sending f (rootFS.readMetadata f)} hr (by simp [Reader.work]) rfl
        (by simp [Reader.tasks]) (by simp [Reader.work]) h.room rfl rfl rfl rfl
  | @send f proto readers hr hmain hopen hroom =>
      refine h.reader {.sent f proto} hr (by simp [Reader.work]) rfl ?_ ?_ ?_ rfl rfl rfl rfl
      · cases proto <;> simp [Reader.sent, Reader.tasks]
      · cases proto <;> simp [Reader.sent, Reader.work]
      · simp only [List.length_append, List.length_singleton]
        omega
  | @release f deps readers hr hopen hroom =>
      exact h.reader {.scanning f deps} hr (by simp [Reader.work]) rfl
        (by simp [Reader.tasks]) (by simp [Reader.work]) h.room rfl rfl rfl rfl
  | @skip f d deps readers hr hd =>
      exact h.reader {.scanning f deps} hr (by simp [Reader.work]) rfl
        (by simp [Reader.tasks]) (by simp [Reader.work]) h.room rfl rfl rfl rfl
  | @schedule f d deps readers hr hd =>
      exact h.reader {.adding f d deps} hr (by simp [Reader.work]) rfl
        (by simp [Reader.tasks]) (by simp [Reader.work]) h.room rfl rfl rfl rfl
  | @add f d deps readers hr =>
      exact h.reader {.taking f d deps} hr (by simp [Reader.work]) rfl
        (by simp [Reader.tasks]) (by simp [Reader.work]) h.room rfl rfl rfl rfl
  | @take f d deps readers hr htask =>
      have hclosed := (h.open_of_reader hr (by simp [Reader.work])).2.2.1
      have hpos : 0 < s.tokens := htask.resolve_right (by simp [hclosed])
      refine h.reader {.opening d, .scanning f deps} hr (by simp [Reader.work]) (by simp) ?_ ?_
        h.room rfl rfl rfl rfl
      · simp only [Multiset.insert_eq_cons, Multiset.map_cons, Multiset.map_singleton,
          Multiset.sum_cons, Multiset.sum_singleton, Reader.tasks]
        omega
      · simp [Reader.work]
  | @done f readers hr hwg =>
      refine h.reader {.finished f} hr (by simp [Reader.work]) rfl (by simp [Reader.tasks])
        ?_ h.room rfl rfl rfl rfl
      simp only [Multiset.map_singleton, Multiset.sum_singleton, Reader.work]
      omega
  | receive hmain hresults => exact h.main (by simp [hresults]) _ _ _
  | fail hmain hresults => exact h.main (by simp [hresults]) _ _ _
  | finish hmain hresults hclosed => exact h.main le_rfl _ _ _

end Compliance
end AndroidBuild
