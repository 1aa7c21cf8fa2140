import AndroidBuild.BlockImageDiff.FindTransfers
import AndroidBuild.Lib.WorkerPool

/-!
# The worker threads

`ComputePatchesForInputList` and `SplitLargeApks` start threads that take jobs
from a shared list under a lock.  The first one stores each result at the index
of its job, under the lock; the second one appends the pieces of an archive one
by one to a shared list, which is sorted at the end.

In Python 3 an exception has no attribute `message`, so a job that fails ends
its thread and `error_messages` stays empty.
-/

namespace AndroidBuild
namespace BlockImageDiff

open WorkerPool RangeLib

variable {Block : Type}

section Model

/-- An entry of `diff_queue`. -/
structure DiffJob where
  xfIndex : Nat
  imgdiff : Bool
  patchIndex : Nat

namespace Context

variable (ctx : Context Block)

/-- What `diff_worker` computes for one job. -/
def patchJob (st : State) (compress : Bool) (job : DiffJob) : Except PyError PatchResult := do
  let x ← st.at job.xfIndex
  let info ← ctx.patchFor (st.xf x) job.imgdiff
  let size ← ctx.compressedTarget compress (st.xf x)
  pure ⟨job.xfIndex, info, size⟩

/-- The one entry of `patches` that a job fills. -/
def diffWork (st : State) (compress : Bool) (job : DiffJob) : Option (List (Nat × PatchResult)) :=
  (ctx.patchJob st compress job).toOption.map (fun r => [(job.patchIndex, r)])

/-- The pieces that a job appends to `split_large_apks`. -/
def splitWork (maxBlocks : Nat) (apk : LargeApk) : Option (List SplitApk) :=
  (ctx.splitLargeApk maxBlocks apk).toOption

end Context

/-- `patches[patch_index] = ...`. -/
def storePatch (patches : List (Option PatchResult)) (e : Nat × PatchResult) :
    Option (List (Option PatchResult)) :=
  if e.1 < patches.length then some (patches.set e.1 (some e.2)) else none

/-- `split_large_apks.append(...)`. -/
def appendPiece (pieces : List SplitApk) (piece : SplitApk) : Option (List SplitApk) :=
  some (pieces ++ [piece])

/-- The runs of `diff_worker`, which takes the last job of the queue. -/
def DiffRun (ctx : Context Block) (st : State) (compress : Bool) (queue : List DiffJob)
    (threads : Nat) (p : Pool DiffJob (Nat × PatchResult) (List (Option PatchResult)) (Fin threads)) :
    Prop :=
  Relation.ReflTransGen (Step (ctx.diffWork st compress) storePatch)
    (start queue.reverse (List.replicate queue.length none)) p

/-- The runs of `SplitLargeApks`, which takes the first archive of the list. -/
def SplitRun (ctx : Context Block) (maxBlocks : Nat) (apks : List LargeApk) (threads : Nat)
    (p : Pool LargeApk SplitApk (List SplitApk) (Fin threads)) : Prop :=
  Relation.ReflTransGen (Step (ctx.splitWork maxBlocks) appendPiece) (start apks []) p

end Model

section Patches

variable {ctx : Context Block} {st : State} {compress : Bool}

theorem storePatch_length
    {patches patches' : List (Option PatchResult)} {e : Nat × PatchResult}
    (h : storePatch patches e = some patches') :
    patches'.length = patches.length := by
  unfold storePatch at h
  split_ifs at h
  cases h
  rw [List.length_set]

/-- Stores at distinct indices do not disturb each other. -/
theorem storePatches_spec
    {trace : List (Nat × PatchResult)} (hnodup : (trace.map Prod.fst).Nodup)
    {patches patches' : List (Option PatchResult)}
    (h : trace.foldlM storePatch patches = some patches') :
    (∀ e ∈ trace, patches'[e.1]? = some (some e.2)) ∧
      ∀ i, i ∉ trace.map Prod.fst → patches'[i]? = patches[i]? := by
  induction trace generalizing patches with
  | nil =>
      cases h
      exact ⟨by simp, fun _ _ => rfl⟩
  | cons e trace ih =>
      rw [List.map_cons, List.nodup_cons] at hnodup
      rw [List.foldlM_cons] at h
      obtain ⟨patches₁, hstore, hrest⟩ := Option.bind_eq_some_iff.mp h
      obtain ⟨hstored, hother⟩ := ih hnodup.2 hrest
      unfold storePatch at hstore
      split_ifs at hstore with hlt
      cases hstore
      refine ⟨List.forall_mem_cons.mpr ⟨?_, hstored⟩, ?_⟩
      · rw [hother e.1 hnodup.1]
        exact List.getElem?_set_self hlt
      · intro i hi
        rw [List.map_cons, List.mem_cons, not_or] at hi
        rw [hother i hi.2, List.getElem?_set_ne (Ne.symm hi.1)]

theorem flatMap_diffWork
    {jobs : List DiffJob} (h : ∀ j ∈ jobs, (ctx.diffWork st compress j).isSome = true) :
    (∀ j ∈ jobs, ∃ r, ctx.patchJob st compress j = .ok r ∧
        (j.patchIndex, r) ∈ jobs.flatMap (fun j => (ctx.diffWork st compress j).getD [])) ∧
      (jobs.flatMap (fun j => (ctx.diffWork st compress j).getD [])).map Prod.fst =
        jobs.map DiffJob.patchIndex := by
  induction jobs with
  | nil => simp
  | cons j jobs ih =>
      rw [List.forall_mem_cons] at h
      obtain ⟨ihjobs, ihindices⟩ := ih h.2
      obtain ⟨todo, htodo⟩ := Option.isSome_iff_exists.mp h.1
      obtain ⟨r, hr, rfl⟩ := Option.map_eq_some_iff.mp htodo
      have hok : ctx.patchJob st compress j = .ok r := by
        cases hjob : ctx.patchJob st compress j with
        | error e => simp [hjob, Except.toOption] at hr
        | ok r' =>
            rw [hjob] at hr
            cases hr
            rfl
      rw [List.flatMap_cons, htodo]
      refine ⟨List.forall_mem_cons.mpr ⟨⟨r, hok, by simp⟩, ?_⟩, ?_⟩
      · intro k hk
        obtain ⟨r', hr', hmem⟩ := ihjobs k hk
        exact ⟨r', hr', List.mem_append_right _ hmem⟩
      · simp [ihindices]

/-- All runs leave the same list: the result of each job at its index. -/
theorem diffRun_spec
    {queue : List DiffJob} (hindices : (queue.map DiffJob.patchIndex).Nodup) {threads : Nat}
    (hthreads : 0 < threads)
    {p : Pool DiffJob (Nat × PatchResult) (List (Option PatchResult)) (Fin threads)}
    (hrun : DiffRun ctx st compress queue threads p) (hleft : ∀ w, p.worker w = .left) :
    p.taken = queue.reverse ∧ p.shared.length = queue.length ∧
      (∀ job ∈ queue, ∃ r, ctx.patchJob st compress job = .ok r ∧
        p.shared[job.patchIndex]? = some (some r)) ∧
      ∀ i, i ∉ queue.map DiffJob.patchIndex →
        p.shared[i]? = (List.replicate queue.length (none : Option PatchResult))[i]? := by
  have : Nonempty (Fin threads) := ⟨⟨0, hthreads⟩⟩
  obtain ⟨htaken, hsome, trace, htrace, hperm⟩ := run_left hrun hleft
  obtain ⟨hjobs, hfst⟩ := flatMap_diffWork hsome
  have hperm' := hperm.map Prod.fst
  rw [hfst, List.map_reverse] at hperm'
  have hnodup : (trace.map Prod.fst).Nodup :=
    hperm'.nodup_iff.mpr (List.nodup_reverse.mpr hindices)
  obtain ⟨hstored, hother⟩ := storePatches_spec hnodup htrace
  refine ⟨htaken, ?_, ?_, ?_⟩
  · have hlength : ∀ (l : List (Nat × PatchResult)) (a b : List (Option PatchResult)),
        l.foldlM storePatch a = some b → b.length = a.length := by
      intro l
      induction l with
      | nil =>
          intro a b h
          cases h
          rfl
      | cons e l ih =>
          intro a b h
          rw [List.foldlM_cons] at h
          obtain ⟨c, hc, hrest⟩ := Option.bind_eq_some_iff.mp h
          rw [ih c b hrest, storePatch_length hc]
    rw [hlength _ _ _ htrace, List.length_replicate]
  · intro job hjob
    obtain ⟨r, hr, hmem⟩ := hjobs job (List.mem_reverse.mpr hjob)
    exact ⟨r, hr, hstored (job.patchIndex, r) (hperm.mem_iff.mpr hmem)⟩
  · intro i hi
    apply hother
    rw [hperm'.mem_iff, List.mem_reverse]
    exact hi

end Patches

section Pieces

variable {ctx : Context Block} {maxBlocks : Nat}

theorem append_sep_inj
    {α : Type} {a b d e : List α} {c : α} (h : a ++ c :: d = b ++ c :: e) (hd : c ∉ d)
    (he : c ∉ e) :
    a = b ∧ d = e := by
  rcases List.append_eq_append_iff.mp h with ⟨mid, rfl, hmid⟩ | ⟨mid, rfl, hmid⟩
  · cases mid with
    | nil =>
        rw [List.nil_append, List.cons.injEq] at hmid
        exact ⟨(List.append_nil a).symm, hmid.2⟩
    | cons x mid =>
        rw [List.cons_append, List.cons.injEq] at hmid
        exact absurd (by rw [hmid.2]; simp) hd
  · cases mid with
    | nil =>
        rw [List.nil_append, List.cons.injEq] at hmid
        exact ⟨List.append_nil b, hmid.2.symm⟩
    | cons x mid =>
        rw [List.cons_append, List.cons.injEq] at hmid
        exact absurd (by rw [hmid.2]; simp) he

theorem pieceName_inj
    {a b : String} {i j : Nat} (h : pieceName a i = pieceName b j) :
    a = b ∧ i = j := by
  have hdash : ∀ n : Nat, '-' ∉ (toString n).toList := by
    intro n hmem
    exact Text.ne_of_isDigit ((Text.isNumeral_toString n).digits _ hmem) (by decide) rfl
  have hlist := congrArg String.toList h
  simp only [pieceName, String.toList_append, List.append_assoc] at hlist
  obtain ⟨hname, hdigits⟩ := append_sep_inj (c := '-') hlist (hdash i) (hdash j)
  refine ⟨String.toList_inj.mp hname, ?_⟩
  have hi := (Text.isNumeral_toString i).value
  have hj := (Text.isNumeral_toString j).value
  change (toString i).toList = (toString j).toList at hdigits
  rw [hdigits] at hi
  exact hi.symm.trans hj

theorem splitWork_eq_some
    {apk : LargeApk} {pieces : List SplitApk} :
    ctx.splitWork maxBlocks apk = some pieces ↔ ctx.splitLargeApk maxBlocks apk = .ok pieces := by
  unfold Context.splitWork
  cases ctx.splitLargeApk maxBlocks apk <;> simp [Except.toOption]

/-- A piece is known by its target name. -/
theorem piece_index
    {apk : LargeApk} {pieces : List SplitApk} (h : ctx.splitLargeApk maxBlocks apk = .ok pieces)
    {p : SplitApk} (hp : p ∈ pieces) :
    ∃ k, pieces[k]? = some p ∧ p.tgtName = pieceName apk.tgtName k := by
  unfold Context.splitLargeApk at h
  cases hsplit : ctx.tools.imgdiffSplit maxBlocks (ctx.src.read apk.srcRanges)
      (ctx.tgt.read apk.tgtRanges) with
  | none =>
      rw [hsplit] at h
      cases h
  | some o =>
      rw [hsplit] at h
      obtain ⟨infos, _, hpure⟩ := Loop.bind_eq_ok.mp h
      cases hpure
      obtain ⟨k, hk, hget⟩ := List.getElem_of_mem hp
      refine ⟨k, by rw [List.getElem?_eq_getElem hk, hget], ?_⟩
      rw [← hget, List.getElem_map, List.getElem_zipIdx, Nat.zero_add]

/-- Pieces with the same target name are the same. -/
theorem pieces_inj
    {apks : List LargeApk} (hnames : (apks.map LargeApk.tgtName).Nodup)
    {p q : SplitApk}
    (hp : p ∈ apks.flatMap (fun a => (ctx.splitWork maxBlocks a).getD []))
    (hq : q ∈ apks.flatMap (fun a => (ctx.splitWork maxBlocks a).getD []))
    (hname : p.tgtName = q.tgtName) :
    p = q := by
  have hpiece : ∀ r ∈ apks.flatMap (fun a => (ctx.splitWork maxBlocks a).getD []),
      ∃ apk ∈ apks, ∃ pieces k, ctx.splitLargeApk maxBlocks apk = .ok pieces ∧
        pieces[k]? = some r ∧ r.tgtName = pieceName apk.tgtName k := by
    intro r hr
    obtain ⟨apk, hapk, hr⟩ := List.mem_flatMap.mp hr
    cases hwork : ctx.splitWork maxBlocks apk with
    | none => simp [hwork] at hr
    | some pieces =>
        rw [hwork] at hr
        have hok := splitWork_eq_some.mp hwork
        obtain ⟨k, hk, hname⟩ := piece_index hok hr
        exact ⟨apk, hapk, pieces, k, hok, hk, hname⟩
  obtain ⟨a, ha, pieces, k, hok, hk, hpk⟩ := hpiece p hp
  obtain ⟨b, hb, pieces', k', hok', hk', hqk⟩ := hpiece q hq
  rw [hpk, hqk] at hname
  obtain ⟨hab, rfl⟩ := pieceName_inj hname
  obtain rfl := List.inj_on_of_nodup_map hnames ha hb hab
  rw [hok] at hok'
  cases hok'
  rw [hk] at hk'
  cases hk'
  rfl

instance : Std.Total Context.SplitApk.le where
  total a b := by
    unfold Context.SplitApk.le
    rcases lt_trichotomy a.tgtName b.tgtName with h | h | h
    · exact Or.inl (Or.inl h)
    · by_cases hsrc : b.srcName < a.srcName
      · exact Or.inr (Or.inr ⟨h.symm, not_lt.mpr (le_of_lt hsrc)⟩)
      · exact Or.inl (Or.inr ⟨h, hsrc⟩)
    · exact Or.inr (Or.inl h)

instance : IsTrans SplitApk Context.SplitApk.le where
  trans a b c hab hbc := by
    rcases hab with hab | ⟨hab, hsrc⟩
    · rcases hbc with hbc | ⟨hbc, _⟩
      · exact Or.inl (lt_trans hab hbc)
      · exact Or.inl (hbc ▸ hab)
    · rcases hbc with hbc | ⟨hbc, hsrc'⟩
      · exact Or.inl (hab ▸ hbc)
      · refine Or.inr ⟨hab.trans hbc, ?_⟩
        rw [not_lt] at hsrc hsrc' ⊢
        exact le_trans hsrc hsrc'

/-- Sorting does not depend on the order in which the pieces were appended. -/
theorem insertionSort_eq_of_perm
    {l l' : List SplitApk} (hperm : l.Perm l')
    (hinj : ∀ p ∈ l', ∀ q ∈ l', p.tgtName = q.tgtName → p = q) :
    l.insertionSort Context.SplitApk.le = l'.insertionSort Context.SplitApk.le := by
  have hsort := List.perm_insertionSort Context.SplitApk.le l
  have hsort' := List.perm_insertionSort Context.SplitApk.le l'
  refine List.Perm.eq_of_pairwise ?_ (List.pairwise_insertionSort Context.SplitApk.le l)
    (List.pairwise_insertionSort Context.SplitApk.le l') (hsort.trans (hperm.trans hsort'.symm))
  intro p q hp hq hpq hqp
  apply hinj p (hperm.mem_iff.mp (hsort.mem_iff.mp hp)) q (hsort'.mem_iff.mp hq)
  rcases hpq with hpq | ⟨hpq, _⟩
  · rcases hqp with hqp | ⟨hqp, _⟩
    · exact absurd hqp (lt_asymm hpq)
    · exact hqp.symm
  · exact hpq

theorem appendPieces
    (trace pieces : List SplitApk) :
    trace.foldlM appendPiece pieces = some (pieces ++ trace) := by
  induction trace generalizing pieces with
  | nil => simp
  | cons p trace ih =>
      rw [List.foldlM_cons, appendPiece, Option.bind_eq_bind, Option.bind_some, ih]
      simp

theorem splitLargeApks_single
    {apks : List LargeApk} (h : ∀ a ∈ apks, (ctx.splitWork maxBlocks a).isSome = true)
    (workers : Nat) :
    ctx.splitLargeApks maxBlocks (workers + 1) apks =
      apks.flatMap (fun a => (ctx.splitWork maxBlocks a).getD []) := by
  induction apks with
  | nil => rfl
  | cons a apks ih =>
      rw [List.forall_mem_cons] at h
      obtain ⟨pieces, hpieces⟩ := Option.isSome_iff_exists.mp h.1
      rw [Context.splitLargeApks, splitWork_eq_some.mp hpieces, List.flatMap_cons, hpieces]
      simp only [ih h.2, Option.getD_some]

theorem splitRun_spec
    {apks : List LargeApk} (hnames : (apks.map LargeApk.tgtName).Nodup) {threads : Nat}
    (hthreads : 0 < threads) {p : Pool LargeApk SplitApk (List SplitApk) (Fin threads)}
    (hrun : SplitRun ctx maxBlocks apks threads p) (hleft : ∀ w, p.worker w = .left) :
    p.taken = apks ∧ p.shared.insertionSort Context.SplitApk.le =
      (ctx.splitLargeApks maxBlocks 1 apks).insertionSort Context.SplitApk.le := by
  have : Nonempty (Fin threads) := ⟨⟨0, hthreads⟩⟩
  obtain ⟨htaken, hsome, trace, htrace, hperm⟩ := run_left hrun hleft
  rw [appendPieces, List.nil_append] at htrace
  cases htrace
  refine ⟨htaken, ?_⟩
  rw [splitLargeApks_single hsome 0]
  exact insertionSort_eq_of_perm hperm (fun p hp q hq => pieces_inj hnames hp hq)

end Pieces

section Runs

/-- The jobs of `diff_queue`, which are numbered in the order in which they are appended. -/
def diffJobs (queue : List (Nat × Bool)) : List DiffJob :=
  queue.zipIdx.map (fun q => ⟨q.1.1, q.1.2, q.2⟩)

/-- The numbered jobs give the list of the single-threaded computation. -/
theorem shared_eq_results
    {ctx : Context Block} {st : State} {compress : Bool} {queue : List (Nat × Bool)}
    {patches : List (Option PatchResult)} (hlength : patches.length = queue.length)
    (h : ∀ job ∈ diffJobs queue, ∃ r, ctx.patchJob st compress job = .ok r ∧
      patches[job.patchIndex]? = some (some r)) :
    ∃ results, ctx.computePatchesForInputList st queue compress = .ok results ∧
      patches = results.map some := by
  have hget : ∀ i (hi : i < queue.length), ∃ r,
      ctx.patchJob st compress ⟨queue[i].1, queue[i].2, i⟩ = .ok r ∧ patches[i]? = some (some r) := by
    intro i hi
    refine h ⟨queue[i].1, queue[i].2, i⟩ ?_
    rw [diffJobs, List.mem_map]
    exact ⟨(queue[i], i), List.mk_mem_zipIdx_iff_getElem?.mpr (List.getElem?_eq_getElem hi), rfl⟩
  choose r hjob hpatch using hget
  refine ⟨List.ofFn (fun i : Fin queue.length => r i i.isLt), ?_, ?_⟩
  · refine Loop.mapM_eq_ok.mpr (List.forall₂_iff_get.mpr ⟨by simp, ?_⟩)
    intro i hi _
    rw [List.get_ofFn]
    exact hjob i hi
  · apply List.ext_getElem?
    intro i
    by_cases hi : i < queue.length
    · rw [hpatch i hi]
      simp [hi]
    · rw [List.getElem?_eq_none (by omega), List.getElem?_eq_none (by simpa using hi)]

/-- Whatever the interleaving, workers that all finish leave what one worker leaves. -/
theorem workers_deterministic
    (ctx : Context Block) (st : State) (compress : Bool) (maxBlocks : Nat) :
    (∀ queue : List DiffJob, (queue.map DiffJob.patchIndex).Nodup → ∀ threads, 0 < threads →
      ∀ p, DiffRun ctx st compress queue threads p → (∀ w, p.worker w = .left) →
        p.taken = queue.reverse ∧
        (∀ job ∈ queue, ∃ r, ctx.patchJob st compress job = .ok r ∧
          p.shared[job.patchIndex]? = some (some r)) ∧
        ∀ q, DiffRun ctx st compress queue 1 q → (∀ w, q.worker w = .left) →
          p.shared = q.shared) ∧
    (∀ queue : List (Nat × Bool), ∀ threads, 0 < threads →
      ∀ p, DiffRun ctx st compress (diffJobs queue) threads p → (∀ w, p.worker w = .left) →
        ∃ results, ctx.computePatchesForInputList st queue compress = .ok results ∧
          p.shared = results.map some) ∧
    (∀ apks : List LargeApk, (apks.map LargeApk.tgtName).Nodup → ∀ threads, 0 < threads →
      ∀ p, SplitRun ctx maxBlocks apks threads p → (∀ w, p.worker w = .left) →
        p.taken = apks ∧ p.shared.insertionSort Context.SplitApk.le =
          (ctx.splitLargeApks maxBlocks 1 apks).insertionSort Context.SplitApk.le) := by
  refine ⟨?_, ?_, ?_⟩
  · intro queue hindices threads hthreads p hrun hleft
    obtain ⟨htaken, _, hjobs, hother⟩ := diffRun_spec hindices hthreads hrun hleft
    refine ⟨htaken, hjobs, ?_⟩
    intro q hrun' hleft'
    obtain ⟨_, _, hjobs', hother'⟩ := diffRun_spec hindices Nat.one_pos hrun' hleft'
    apply List.ext_getElem?
    intro i
    by_cases hi : i ∈ queue.map DiffJob.patchIndex
    · obtain ⟨job, hjob, rfl⟩ := List.mem_map.mp hi
      obtain ⟨r, hr, hp⟩ := hjobs job hjob
      obtain ⟨r', hr', hq⟩ := hjobs' job hjob
      rw [hr] at hr'
      cases hr'
      rw [hp, hq]
    · rw [hother i hi, hother' i hi]
  · intro queue threads hthreads p hrun hleft
    have hindices : ((diffJobs queue).map DiffJob.patchIndex).Nodup := by
      have hmap : (diffJobs queue).map DiffJob.patchIndex = queue.zipIdx.map Prod.snd := by
        simp [diffJobs, Function.comp_def]
      rw [hmap, List.zipIdx_map_snd]
      exact List.nodup_range'
    obtain ⟨_, hlength, hjobs, _⟩ := diffRun_spec hindices hthreads hrun hleft
    exact shared_eq_results (by rw [hlength]; simp [diffJobs]) hjobs
  · intro apks hnames threads hthreads p hrun hleft
    exact splitRun_spec hnames hthreads hrun hleft

def archiveJobs : List LargeApk :=
  [⟨"a.apk", "a.apk", .blockRange 0 1, .blockRange 0 1⟩,
    ⟨"b.apk", "b.apk", .blockRange 1 2, .blockRange 1 2⟩]

def archiveJobsContext : Context Bool :=
  { swapContext with
    tools := { bitTools with
      imgdiffSplit := fun _ _ _ => some ⟨2, 1, [⟨1, 4096, [2, 0, 1]⟩], [7]⟩ } }

/-- Two workers that split two archives. -/
theorem workers_deterministic_archives :
    ∃ p : Pool LargeApk SplitApk (List SplitApk) (Fin 2),
      SplitRun archiveJobsContext 1 archiveJobs 2 p ∧ (∀ w, p.worker w = .left) ∧
      p.shared.insertionSort Context.SplitApk.le =
        (archiveJobsContext.splitLargeApks 1 1 archiveJobs).insertionSort Context.SplitApk.le := by
  have hjobs : ∀ j ∈ archiveJobs, (archiveJobsContext.splitWork 1 j).isSome = true := by
    decide +kernel
  obtain ⟨p, hrun, hleft, _⟩ := exists_run (0 : Fin 2) [] hjobs (appendPieces _ _)
  exact ⟨p, hrun, hleft, ((workers_deterministic archiveJobsContext
    ⟨fun _ => archiveJobsContext.transfer "a.apk" none .empty .empty .new, []⟩ false 1).2.2 archiveJobs (by decide +kernel) 2 (by decide) p hrun hleft).2⟩

end Runs

end BlockImageDiff
end AndroidBuild
