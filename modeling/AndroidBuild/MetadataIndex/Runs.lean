import AndroidBuild.MetadataIndex.Index

/-!
# Every project is read once

The accounts of the index: a project whose channel is open has one goroutine that
will close it, and a project that is stored was searched or has one goroutine that
will search it.  Every run ends, and it ends only when all calls have returned; each
call returns what it would return alone.
-/

namespace AndroidBuild
namespace MetadataIndex

open Text (Str)
open Interleaving

variable {Metadata : Type} {rootFS : RootFS Metadata} {concurrentReaders : Nat}

section Accounts

def Goroutine.toRead : Goroutine Metadata → List Str
  | .call _ (.storing _ projectsToRead) => projectsToRead
  | .call _ (.starting projectsToRead) => projectsToRead
  | .reader p .taking => [p]
  | .reader p .reading => [p]
  | _ => []

/-- The projects whose channels a goroutine has still to close. -/
def Goroutine.toFinish : Goroutine Metadata → List Str
  | .reader p _ => [p]
  | g => g.toRead

def Goroutine.tokens : Goroutine Metadata → Nat
  | .reader _ .reading => 1
  | .reader _ .releasing => 1
  | _ => 0

/-- The statements that a goroutine has left, with those of the readers that it may start. -/
def Goroutine.left : Goroutine Metadata → Nat
  | .call ps (.storing rest toRead) => 6 * rest.length + 5 * toRead.length + ps.length + 3
  | .call ps (.starting toRead) => 5 * toRead.length + ps.length + 2
  | .call _ (.waiting rest _) => rest.length + 1
  | .call _ (.returned _) => 0
  | .reader _ .taking => 4
  | .reader _ .reading => 3
  | .reader _ .releasing => 2
  | .reader _ .finishing => 1

variable {projects : Str → Option (ProjectIndex Metadata)}

def isStored (projects : Str → Option (ProjectIndex Metadata)) (p : Str) : Bool :=
  (projects p).isSome

def isOpen (projects : Str → Option (ProjectIndex Metadata)) (p : Str) : Bool :=
  (projects p).any fun pi => !pi.done

variable (rootFS) in
/-- The entry of a project has its reading. -/
def Found (projects : Str → Option (ProjectIndex Metadata)) (p : Str) : Prop :=
  ∃ pi, projects p = some pi ∧ pi.reading = findMeta rootFS p

variable (rootFS) in
/-- The entries that are finished have their readings. -/
def Sound (ix : Index Metadata) : Prop :=
  ∀ p pi, ix.projects p = some pi → pi.done = true → pi.reading = findMeta rootFS p

/-- What a step does to the accounts and to the entries. -/
structure Effect (rootFS : RootFS Metadata) (ix ix' : Index Metadata) (g : Goroutine Metadata)
    (left : List (Goroutine Metadata)) : Prop where
  toRead : ∀ q, ix'.searched.count q + (left.map fun h => h.toRead.count q).sum +
    (isStored ix.projects q).toNat =
      ix.searched.count q + g.toRead.count q + (isStored ix'.projects q).toNat
  toFinish : ∀ q, 0 + (left.map fun h => h.toFinish.count q).sum + (isOpen ix.projects q).toNat =
    0 + g.toFinish.count q + (isOpen ix'.projects q).toNat
  tokens : ix'.task + (left.map Goroutine.tokens).sum = ix.task + g.tokens
  left : (left.map Goroutine.left).sum < g.left
  stored : ∀ q, isStored ix.projects q = true → isStored ix'.projects q = true
  found : ∀ q, Found rootFS ix.projects q → Found rootFS ix'.projects q
  sound : (∀ q, g = .reader q .finishing → Found rootFS ix.projects q) →
    Sound rootFS ix → Sound rootFS ix'

theorem Found.update
    {p q : Str} {pi : ProjectIndex Metadata} (h : Found rootFS projects q)
    (hpi : Found rootFS projects p → pi.reading = findMeta rootFS p) :
    Found rootFS (Function.update projects p (some pi)) q := by
  rcases eq_or_ne q p with rfl | hq
  · exact ⟨pi, by simp, hpi h⟩
  · obtain ⟨pi', hpi', hreading⟩ := h
    exact ⟨pi', by simpa [hq] using hpi', hreading⟩

theorem Sound.set
    {ix : Index Metadata} (h : Sound rootFS ix) {p : Str} {pi : ProjectIndex Metadata}
    (hpi : pi.done = true → pi.reading = findMeta rootFS p) :
    Sound rootFS (ix.set p pi) := by
  intro q pi' hq hdone
  rcases eq_or_ne q p with rfl | hpq
  · obtain rfl : pi = pi' := by simpa [Index.set] using hq
    exact hpi hdone
  · exact h q pi' (by simpa [Index.set, hpq] using hq) hdone

theorem stored_set
    {ix : Index Metadata} {p q : Str} {pi : ProjectIndex Metadata}
    (h : isStored ix.projects q = true) :
    isStored (ix.set p pi).projects q = true := by
  rcases eq_or_ne q p with rfl | hq
  · simp [isStored, Index.set]
  · simpa [isStored, Index.set, hq] using h

theorem next_effect
    {ix ix' : Index Metadata} {g : Goroutine Metadata} {left : List (Goroutine Metadata)}
    (h : next rootFS concurrentReaders ix g = some (ix', left)) :
    Effect rootFS ix ix' g left := by
  revert h
  fun_cases next rootFS concurrentReaders ix g <;> intro h <;> cases h
  -- only the store, the search and the end of a reader change the entries
  case case2 ps p rest toRead hp =>
    refine ⟨fun q => ?_, fun q => ?_, rfl, by simp [Goroutine.left]; omega, fun q => stored_set,
      fun q hq => hq.update ?_, fun _ hs => hs.set fun hdone => by cases hdone⟩
    · rcases eq_or_ne p q with rfl | hq <;>
        simp [Goroutine.toRead, Index.set, isStored, eq_comm, *]
      omega
    · rcases eq_or_ne p q with rfl | hq <;>
        simp [Goroutine.toFinish, Goroutine.toRead, Index.set, isOpen, eq_comm, *]
    · rintro ⟨pi, hpi, _⟩
      rw [hp] at hpi
      cases hpi
  case case12 p pi hp =>
    refine ⟨fun q => ?_, fun q => ?_, rfl, by simp [Goroutine.left], fun q => stored_set,
      fun q hq => hq.update fun _ => rfl, fun _ hs => hs.set fun _ => rfl⟩
    · rcases eq_or_ne p q with rfl | hq <;>
        simp [Goroutine.toRead, Index.set, isStored, eq_comm, *]
    · rcases eq_or_ne p q with rfl | hq <;>
        simp [Goroutine.toFinish, Index.set, isOpen, eq_comm, *]
  case case16 p reading hp =>
    have hfound : Found rootFS ix.projects p → reading = findMeta rootFS p := by
      rintro ⟨pi, hpi, hreading⟩
      rw [hp] at hpi
      cases hpi
      exact hreading
    refine ⟨fun q => ?_, fun q => ?_, rfl, by simp [Goroutine.left], fun q => stored_set,
      fun q hq => hq.update hfound, fun hg hs => hs.set fun _ => hfound (hg p rfl)⟩
    · rcases eq_or_ne p q with rfl | hq <;>
        simp [Goroutine.toRead, Index.set, isStored, eq_comm, *]
    · rcases eq_or_ne p q with rfl | hq <;>
        simp [Goroutine.toFinish, Index.set, isOpen, eq_comm, *]
  all_goals
    refine ⟨fun q => ?_, fun q => ?_, ?_, ?_, fun _ hq => hq, fun _ hq => hq, fun _ hs => hs⟩ <;>
      simp [Goroutine.toRead, Goroutine.toFinish, Goroutine.tokens, Goroutine.left,
        List.count_cons, Nat.add_comm]
  all_goals omega

end Accounts

section Assertions

variable (rootFS) (concurrentReaders) in
/-- What a goroutine knows at its place. -/
def Asserts (ix : Index Metadata) : Goroutine Metadata → Prop
  | .call ps (.storing rest _) =>
      (0 < concurrentReaders ∧ ps ≠ []) ∧
        ∃ front, ps = front ++ rest ∧ ∀ p ∈ front, isStored ix.projects p = true
  | .call ps (.starting _) =>
      (0 < concurrentReaders ∧ ps ≠ []) ∧ ∀ p ∈ ps, isStored ix.projects p = true
  | .call ps (.waiting rest collected) =>
      (0 < concurrentReaders ∧ ps ≠ []) ∧ (∀ p ∈ ps, isStored ix.projects p = true) ∧
        ∃ front, ps = front ++ rest ∧ collected = collect rootFS front
  | .call ps (.returned v) => v = metadataForProjects rootFS concurrentReaders ps
  | .reader p place =>
      0 < concurrentReaders ∧
        (place = .releasing ∨ place = .finishing → Found rootFS ix.projects p)

theorem enter_asserts
    (ix : Index Metadata) (ps : List Str) :
    Asserts rootFS concurrentReaders ix (enter concurrentReaders ps) := by
  unfold enter
  split_ifs with hpool hnil
  · exact (if_pos hpool).symm
  · subst hnil
    exact ((if_neg hpool).trans (if_pos rfl)).symm
  · exact ⟨⟨by omega, hnil⟩, [], rfl, by simp⟩

theorem Effect.asserts
    {ix ix' : Index Metadata} {g h : Goroutine Metadata} {left : List (Goroutine Metadata)}
    (heffect : Effect rootFS ix ix' g left) (hh : Asserts rootFS concurrentReaders ix h) :
    Asserts rootFS concurrentReaders ix' h := by
  have hstored := heffect.stored
  rcases h with ⟨ps, _ | _ | _ | _⟩ | ⟨p, place⟩
  · obtain ⟨hargs, front, hfront, hps⟩ := hh
    exact ⟨hargs, front, hfront, fun p hp => hstored p (hps p hp)⟩
  · exact ⟨hh.1, fun p hp => hstored p (hh.2 p hp)⟩
  · exact ⟨hh.1, fun p hp => hstored p (hh.2.1 p hp), hh.2.2⟩
  · exact hh
  · exact ⟨hh.1, fun hplace => heffect.found p (hh.2 hplace)⟩

theorem next_asserts
    {ix ix' : Index Metadata} {g : Goroutine Metadata} {left : List (Goroutine Metadata)}
    (h : next rootFS concurrentReaders ix g = some (ix', left)) (hsound : Sound rootFS ix)
    (hg : Asserts rootFS concurrentReaders ix g) :
    ∀ r ∈ left, Asserts rootFS concurrentReaders ix' r := by
  have hstored := (next_effect h).stored
  revert h
  fun_cases next rootFS concurrentReaders ix g <;> intro h <;> cases h
  case case1 ps p rest toRead pi hp =>
    obtain ⟨hargs, front, rfl, hfront⟩ := hg
    refine List.forall_mem_singleton.mpr ⟨hargs, front ++ [p], by simp, ?_⟩
    rw [List.forall_mem_append, List.forall_mem_singleton]
    exact ⟨hfront, by rw [isStored, hp]; rfl⟩
  case case2 ps p rest toRead hp =>
    obtain ⟨hargs, front, rfl, hfront⟩ := hg
    refine List.forall_mem_singleton.mpr ⟨hargs, front ++ [p], by simp, ?_⟩
    rw [List.forall_mem_append, List.forall_mem_singleton]
    exact ⟨fun q hq => hstored q (hfront q hq), by simp [isStored, Index.set]⟩
  case case3 ps toRead =>
    obtain ⟨hargs, front, rfl, hfront⟩ := hg
    rw [List.append_nil] at hargs ⊢
    exact List.forall_mem_singleton.mpr ⟨hargs, hfront⟩
  case case4 ps p toRead =>
    exact List.forall_mem_cons.mpr ⟨⟨hg.1.1, by simp⟩, List.forall_mem_singleton.mpr hg⟩
  case case5 ps =>
    exact List.forall_mem_singleton.mpr ⟨hg.1, hg.2, [], rfl, rfl⟩
  case case6 ps p rest collected reading hp =>
    obtain ⟨hargs, hps, front, rfl, rfl⟩ := hg
    refine List.forall_mem_singleton.mpr ⟨hargs, hps, front ++ [p], by simp, ?_⟩
    rw [collect, collect, List.foldl_append, List.foldl_cons, ← hsound p _ hp rfl]
    rfl
  case case8 ps collected =>
    obtain ⟨⟨hpool, hne⟩, _, front, rfl, rfl⟩ := hg
    rw [List.append_nil] at hne ⊢
    refine List.forall_mem_singleton.mpr ?_
    rw [Asserts, metadataForProjects, if_neg (by omega), if_neg hne]
  case case10 p htask => exact List.forall_mem_singleton.mpr ⟨hg.1, by simp⟩
  case case12 p pi hp =>
    exact List.forall_mem_singleton.mpr ⟨hg.1, fun _ => ⟨_, Function.update_self .., rfl⟩⟩
  case case14 p htask => exact List.forall_mem_singleton.mpr ⟨hg.1, fun _ => hg.2 (.inl rfl)⟩
  case case16 p reading hp => simp

end Assertions

section Runs

/-- The METADATA files of `p` and of `q`; the second does not open. -/
def sampleFS : RootFS Unit where
  stat path := if path ∈ ["p/METADATA".toList, "q/METADATA".toList] then some true else none
  openFile path := if path = "p/METADATA".toList then .ok (.ok []) else .error "busy".toList
  unmarshal _ := .ok ()

/-- A call for `p` and a call for `p` and `q`, with one token. -/
def sampleRun (steps : Nat) : Option (Index Unit × List (Goroutine Unit)) :=
  runSchedule (next sampleFS 1)
    ([0, 1, 0, 0, 0, 2, 0, 0, 0, 0, 0, 0, 0, 0, 1, 0, 0, 0, 1, 0, 0, 0].take steps)
    (.new 1, [enter 1 [['p']], enter 1 [['p'], ['q']]])

theorem sampleRun_reachable
    {steps : Nat} {ix : Index Unit} {procs : List (Goroutine Unit)}
    (h : sampleRun steps = some (ix, procs)) :
    Reachable sampleFS 1 ⟨ix, procs⟩ :=
  (reachable_joined (by simp)).runSchedule h

variable {c : Config (Index Metadata) (Goroutine Metadata)}

variable (h : Reachable rootFS concurrentReaders c)

include h

theorem Reachable.asserts :
    Sound rootFS c.shared ∧ ∀ g ∈ c.procs, Asserts rootFS concurrentReaders c.shared g := by
  refine Interleaving.Reachable.asserted (Sound rootFS) (Asserts rootFS concurrentReaders)
    (fun p pi hp => by cases hp) ?_ ?_ h
  · rintro ix _ ⟨ps, rfl⟩
    exact enter_asserts ix ps
  · intro ix g ix' left hnext hsound hg
    have heffect := next_effect hnext
    refine ⟨heffect.sound ?_ hsound, fun _ hh => heffect.asserts hh, next_asserts hnext hsound hg⟩
    rintro q rfl
    exact hg.2 (.inr rfl)

/-- The accounts of every run. -/
theorem Reachable.accounts :
    (∀ p, c.shared.searched.count p + total (fun g => g.toRead.count p) c.procs =
      (isStored c.shared.projects p).toNat) ∧
      (∀ p, 0 + total (fun g => g.toFinish.count p) c.procs =
        (isOpen c.shared.projects p).toNat) ∧
      c.shared.task + total Goroutine.tokens c.procs = concurrentReaders := by
  have hjoin : ∀ g : Goroutine Metadata, (∃ ps, g = enter concurrentReaders ps) →
      g.toRead = [] ∧ g.toFinish = [] ∧ g.tokens = 0 := by
    rintro _ ⟨ps, rfl⟩
    unfold enter
    split_ifs <;> exact ⟨rfl, rfl, rfl⟩
  refine ⟨fun p => ?_, fun p => ?_, ?_⟩
  · exact Interleaving.Reachable.account (fun ix => ix.searched.count p)
      (fun ix => (isStored ix.projects p).toNat) (fun g => g.toRead.count p) rfl
      (fun g hg => by rw [(hjoin g hg).1, List.count_nil])
      (fun _ _ _ _ hnext => (next_effect hnext).toRead p) h
  · exact Interleaving.Reachable.account (fun _ => 0) (fun ix => (isOpen ix.projects p).toNat)
      (fun g => g.toFinish.count p) rfl (fun g hg => by rw [(hjoin g hg).2.1, List.count_nil])
      (fun _ _ _ _ hnext => (next_effect hnext).toFinish p) h
  · exact Interleaving.Reachable.account Index.task (fun _ => concurrentReaders) Goroutine.tokens
      rfl (fun g hg => (hjoin g hg).2.2)
      (fun _ _ _ _ hnext => by rw [(next_effect hnext).tokens]) h

theorem Reachable.entry
    {p : Str} {place : ReaderPlace} (hr : .reader p place ∈ c.procs) :
    ∃ reading, c.shared.projects p = some ⟨reading, false⟩ := by
  have hfinish := h.accounts.2.1 p
  have hle := weight_le_total (fun g : Goroutine Metadata => g.toFinish.count p) hr
  rw [Goroutine.toFinish, List.count_singleton_self] at hle
  rw [isOpen] at hfinish
  rcases hp : c.shared.projects p with _ | ⟨reading, _ | _⟩ <;> rw [hp] at hfinish
  · simp at hfinish
    omega
  · exact ⟨reading, rfl⟩
  · simp at hfinish
    omega

theorem Reachable.task_lt
    {p : Str} (hr : .reader p .releasing ∈ c.procs) :
    c.shared.task < concurrentReaders := by
  have hle := weight_le_total Goroutine.tokens hr
  have htokens := h.accounts.2.2
  rw [Goroutine.tokens] at hle
  omega

/-- In every run each project's file is looked for at most once, one goroutine at most has to close
its channel, and no reader closes a closed one; the tokens of the readers and of the pool are all
the tokens, so that no reader waits to give one back. -/
theorem index_safe :
    c.shared.searched.Nodup ∧
      (∀ p, total (fun g => g.toFinish.count p) c.procs ≤ 1) ∧
      (∀ p, .reader p .finishing ∈ c.procs → isOpen c.shared.projects p = true) ∧
      c.shared.task + total Goroutine.tokens c.procs = concurrentReaders ∧
      ∀ p, .reader p .releasing ∈ c.procs → c.shared.task < concurrentReaders := by
  refine ⟨?_, fun p => ?_, fun p hp => ?_, h.accounts.2.2, fun p hp => h.task_lt hp⟩
  · refine List.nodup_iff_count_le_one.mpr fun p => ?_
    have hread := h.accounts.1 p
    have hle := Bool.toNat_le (isStored c.shared.projects p)
    omega
  · have hfinish := h.accounts.2.1 p
    have hle := Bool.toNat_le (isOpen c.shared.projects p)
    omega
  · obtain ⟨reading, hentry⟩ := h.entry hp
    rw [isOpen, hentry]
    rfl

omit h in
/-- One reader has read and holds the token, the other waits for it, and both calls still run. -/
theorem index_safe_sample :
    ∃ c : Config (Index Unit) (Goroutine Unit), Reachable sampleFS 1 c ∧
      c.shared.searched = [['p']] ∧ .reader ['p'] .releasing ∈ c.procs ∧ .reader ['q'] .taking ∈ c.procs ∧
      .call [['p']] (.starting []) ∈ c.procs ∧ .call [['p'], ['q']] (.starting []) ∈ c.procs ∧
      c.shared.searched.Nodup ∧ c.shared.task + total Goroutine.tokens c.procs = 1 ∧
      c.shared.task < 1 := by
  have hrun := sampleRun_reachable (show sampleRun 9 = some (_, [.reader ['p'] .releasing,
    .call [['p']] (.starting []), .reader ['q'] .taking,
    .call [['p'], ['q']] (.starting [])]) from rfl)
  obtain ⟨hnodup, _, _, htokens, hlt⟩ := index_safe hrun
  exact ⟨_, hrun, rfl, by simp, by simp, by simp, by simp, hnodup, htokens, hlt ['p'] (by simp)⟩

/-- Whatever other calls do, a call that has returned gave what its projects' files say. -/
theorem returned_answer
    {ps : List Str} {v : Answer Metadata} (hc : .call ps (.returned v) ∈ c.procs) :
    v = metadataForProjects rootFS concurrentReaders ps :=
  h.asserts.2 _ hc

omit h in
/-- The call for `p` has returned with what its reader read; the other has its reader before it. -/
theorem returned_answer_sample :
    ∃ c : Config (Index Unit) (Goroutine Unit), Reachable sampleFS 1 c ∧
      c.shared.searched = [['p']] ∧ .reader ['q'] .taking ∈ c.procs ∧
      .call [['p'], ['q']] (.starting []) ∈ c.procs ∧
      .call [['p']] (.returned (.ok (some [⟨(), ['p']⟩]))) ∈ c.procs ∧
      .ok (some [⟨(), ['p']⟩]) = metadataForProjects sampleFS 1 [['p']] := by
  have hrun := sampleRun_reachable (show sampleRun 14 = some (_, [
    .call [['p']] (.returned (.ok (some [⟨(), ['p']⟩]))), .reader ['q'] .taking,
    .call [['p'], ['q']] (.starting [])]) from rfl)
  exact ⟨_, hrun, rfl, by simp, by simp, by simp, returned_answer hrun (by simp)⟩

end Runs

section Progress

variable {c : Config (Index Metadata) (Goroutine Metadata)}
  (h : Reachable rootFS concurrentReaders c)
  (hstuck : Stuck (next rootFS concurrentReaders) c)

include h hstuck

/-- When no goroutine can go on, no reader holds a token, and so there is no reader. -/
theorem Reachable.reader_of_stuck :
    (∀ p place, .reader p place ∉ c.procs) ∧ c.shared.task = concurrentReaders := by
  have hplace : ∀ q place, .reader q place ∈ c.procs → place = .taking := by
    intro q place hr
    have hnone := hstuck.next_eq_none hr
    obtain ⟨reading, hq⟩ := h.entry hr
    cases place with
    | taking => rfl
    | reading => simp [next, hq] at hnone
    | releasing => simp [next, h.task_lt hr] at hnone
    | finishing => simp [next, hq] at hnone
  have hzero : total Goroutine.tokens c.procs = 0 := by
    refine total_eq_zero fun g hg => ?_
    rcases g with ⟨ps, place⟩ | ⟨q, place⟩
    · rfl
    · rw [hplace q place hg]
      rfl
  have htokens := h.accounts.2.2
  rw [hzero, Nat.add_zero] at htokens
  refine ⟨fun p place hr => ?_, htokens⟩
  obtain rfl := hplace p place hr
  have hpool := (h.asserts.2 _ hr).1
  have hnone := hstuck.next_eq_none hr
  simp [next, htokens, hpool] at hnone

/-- When no goroutine can go on, each is a call that has returned or that waits. -/
theorem Reachable.place_of_stuck
    {g : Goroutine Metadata} (hg : g ∈ c.procs) :
    (∃ ps v, g = .call ps (.returned v)) ∨
      ∃ ps p rest collected, g = .call ps (.waiting (p :: rest) collected) ∧
        isOpen c.shared.projects p = true := by
  have hnone := hstuck.next_eq_none hg
  rcases g with ⟨ps, place⟩ | ⟨p, place⟩
  · cases place with
    | returned v => exact Or.inl ⟨ps, v, rfl⟩
    | storing rest toRead =>
        cases rest with
        | nil => cases hnone
        | cons p rest => cases hp : c.shared.projects p <;> simp [next, hp] at hnone
    | starting toRead => cases toRead <;> cases hnone
    | waiting rest collected =>
        cases rest with
        | nil => cases hnone
        | cons p rest =>
            refine Or.inr ⟨ps, p, rest, collected, rfl, ?_⟩
            obtain ⟨_, hps, front, hfront, _⟩ := h.asserts.2 _ hg
            have hp : isStored c.shared.projects p = true := hps p (by simp [hfront])
            obtain ⟨⟨reading, _ | _⟩, hentry⟩ := Option.isSome_iff_exists.mp hp
            · rw [isOpen, hentry]
              rfl
            · simp [next, hentry] at hnone
  · exact absurd hg ((h.reader_of_stuck hstuck).1 p place)

end Progress

/-- The goroutines cannot go on for ever, and when none can go on all calls have returned, no
reader is left, and all tokens are back. -/
theorem calls_return :
    WellFounded (fun d c : Config (Index Metadata) (Goroutine Metadata) =>
        Step (next rootFS concurrentReaders) c d) ∧
      ∀ c : Config (Index Metadata) (Goroutine Metadata), Reachable rootFS concurrentReaders c →
        Stuck (next rootFS concurrentReaders) c →
          (∀ g ∈ c.procs, ∃ ps v, g = .call ps (.returned v)) ∧
            c.shared.task = concurrentReaders := by
  refine ⟨wellFounded_step Goroutine.left fun _ _ _ _ hnext =>
    (next_effect hnext).left, fun c h hstuck =>
      ⟨fun g hg => ?_, (h.reader_of_stuck hstuck).2⟩⟩
  rcases h.place_of_stuck hstuck hg with hreturned | ⟨ps, p, rest, collected, _, hopen⟩
  · exact hreturned
  · -- nobody is left who would close the channel
    have hfinish := h.accounts.2.1 p
    rw [total_eq_zero, hopen] at hfinish
    · cases hfinish
    · intro g' hg'
      rcases h.place_of_stuck hstuck hg' with ⟨ps', v, rfl⟩ | ⟨ps', q, rest', collected', rfl, _⟩
      · rfl
      · rfl

/-- The run to its end. -/
theorem calls_return_sample :
    ∃ c : Config (Index Unit) (Goroutine Unit), c.procs.card = 2 ∧ Reachable sampleFS 1 c ∧
      Stuck (next sampleFS 1) c ∧ (∀ g ∈ c.procs, ∃ ps v, g = .call ps (.returned v)) ∧
      c.shared.task = 1 := by
  obtain ⟨ix, v, hrun⟩ : ∃ ix v, sampleRun 22 = some (ix, [.call [['p'], ['q']] (.returned v),
      .call [['p']] (.returned (.ok (some [⟨(), ['p']⟩])))]) := ⟨_, _, rfl⟩
  have hrun := sampleRun_reachable hrun
  refine ⟨_, rfl, hrun, (and_iff_left_of_imp (calls_return.2 _ hrun)).mpr (stuck_of_forall ?_)⟩
  simp [next]

end MetadataIndex
end AndroidBuild
