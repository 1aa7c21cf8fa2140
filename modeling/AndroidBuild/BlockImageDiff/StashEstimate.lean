import AndroidBuild.BlockImageDiff.StashSize

/-!
# The estimate of `ReviseStashSize`

The estimate counts at least the stashes that are live in the current list: a
stash whose user was converted later stays counted, and nothing else is counted
in excess.  `ReviseInv` is the loop invariant; it is kept by every command that
does not raise (`reviseCmd_inv`), and `reviseCmd_ok` says when none does.
-/

namespace AndroidBuild
namespace BlockImageDiff

open Loop RangeLib SharedSlots

variable (rangeSha1 : BlockSet → String) (limit : Option ℚ)

def stashHash (s : Stash) : String :=
  rangeSha1 s.2

def stashBlocks (s : Stash) : Int :=
  s.2.size

/-- Equal hashes come with equal sizes. -/
def SameSize : Prop :=
  ∀ a b : BlockSet, rangeSha1 a = rangeSha1 b → a.size = b.size

variable {rangeSha1 limit}

theorem SameSize.stash
    (h : SameSize rangeSha1) (a b : Stash)
    (hab : stashHash rangeSha1 a = stashHash rangeSha1 b) :
    stashBlocks a = stashBlocks b :=
  h a.2 b.2 hab

section Explicit

theorem acquire_used
    {H : Type} [DecidableEq H] (s : Slots H) (h : H) (n : Int) :
    (s.acquire h n).used = if 0 < s.count h then s.used else s.used + n := by
  unfold Slots.acquire
  split_ifs <;> rfl

theorem le_of_not_exceeds
    {n : Int} {k : ℚ} (hlimit : limit = some k) (hk : 0 < k) (h : exceeds limit n = false) :
    (n : ℚ) ≤ k := by
  subst hlimit
  simp only [exceeds, Bool.and_eq_false_iff, decide_eq_false_iff_not, not_not, not_lt] at h
  rcases h with h | h
  · exact absurd h (ne_of_gt hk)
  · exact h

variable (rangeSha1 limit) in
/-- What the loop over the explicit stashes does: `acc` are stored and the users
of `rej` will be replaced. -/
structure ExplicitSpec (user : Stash → Nat) (ss : List Stash) (E : Finset Stash)
    (e e' : Explicit) (acc rej : List Stash) : Prop where
  split : ∀ s, s ∈ ss ↔ s ∈ acc ∨ s ∈ rej
  sublist : rej.Sublist ss
  counts : Counts (stashHash rangeSha1) (E ∪ acc.toFinset) e'.slots
  replaced : e'.replaced = e.replaced ++ rej.map user
  used : SameSize rangeSha1 → e.slots.used = weight (stashHash rangeSha1) stashBlocks E →
    e'.slots.used = weight (stashHash rangeSha1) stashBlocks (E ∪ acc.toFinset)
  within : ∀ k, limit = some k → 0 < k → (e.slots.used : ℚ) ≤ k → (e'.slots.used : ℚ) ≤ k
  ignored : limit = none → rej = []

variable {m : StashMap} {x : Nat} {user : Stash → Nat}

theorem explicit_loop
    (user : Stash → Nat) (ss : List Stash) (hss : ss.Nodup) (hm : ∀ s ∈ ss, m s.1 = some (s.2, [x, user s]))
    {e : Explicit} {E : Finset Stash} (hc : Counts (stashHash rangeSha1) E e.slots)
    (hE : ∀ s ∈ ss, s ∉ E) :
    ∃ e' acc rej, ss.foldlM (explicitStash rangeSha1 limit m) e = .ok e' ∧
      ExplicitSpec rangeSha1 limit user ss E e e' acc rej := by
  induction ss generalizing e E with
  | nil =>
      refine ⟨e, [], [], rfl, ⟨by simp, List.Sublist.refl _, by simpa using hc, by simp, ?_,
        fun _ _ _ h => h, fun _ => rfl⟩⟩
      intro _ h
      simpa using h
  | cons s ss ih =>
      rw [List.nodup_cons] at hss
      have hm' : ∀ s ∈ ss, m s.1 = some (s.2, [x, user s]) :=
        fun a ha => hm a (List.mem_cons_of_mem _ ha)
      set after := if 0 < e.slots.count (rangeSha1 s.2) then e.slots.used
        else e.slots.used + s.2.size with hafter
      cases hex : exceeds limit after with
      | true =>
          set e₁ : Explicit := { e with replaced := e.replaced ++ [user s] } with he₁
          have hstep : explicitStash rangeSha1 limit m e s = .ok e₁ := by
            unfold explicitStash
            simp only [← hafter, hex, if_true, hm s List.mem_cons_self]
            rfl
          obtain ⟨e', acc, rej, hrun, hspec⟩ := ih hss.2 hm' (e := e₁) hc
            (fun a ha => hE a (List.mem_cons_of_mem _ ha))
          refine ⟨e', acc, s :: rej, ?_, ⟨?_, ?_, hspec.counts, ?_, hspec.used, hspec.within,
            ?_⟩⟩
          · rw [List.foldlM_cons, hstep]
            exact hrun
          · intro a
            rw [List.mem_cons, List.mem_cons, hspec.split]
            tauto
          · exact hspec.sublist.cons_cons s
          · rw [hspec.replaced, he₁]
            simp
          · intro hnone
            rw [hnone] at hex
            cases hex
      | false =>
          set e₁ : Explicit :=
            { e with
              slots := e.slots.acquire (rangeSha1 s.2) s.2.size
              maxStashed := max e.maxStashed after } with he₁
          have hstep : explicitStash rangeSha1 limit m e s = .ok e₁ := by
            unfold explicitStash
            simp only [← hafter, hex, Bool.false_eq_true, if_false]
            rfl
          have hs := hE s List.mem_cons_self
          have hc₁ : Counts (stashHash rangeSha1) (insert s E) e₁.slots :=
            hc.acquire hs (stashBlocks s)
          obtain ⟨e', acc, rej, hrun, hspec⟩ := ih hss.2 hm' (e := e₁) hc₁ (by
            intro a ha hmem
            rcases Finset.mem_insert.mp hmem with rfl | hmem
            · exact hss.1 ha
            · exact hE a (List.mem_cons_of_mem _ ha) hmem)
          have hset : insert s E ∪ acc.toFinset = E ∪ (s :: acc).toFinset := by
            rw [List.toFinset_cons, Finset.insert_union, Finset.union_insert]
          refine ⟨e', s :: acc, rej, ?_, ⟨?_, hspec.sublist.cons s, ?_, hspec.replaced, ?_, ?_,
            hspec.ignored⟩⟩
          · rw [List.foldlM_cons, hstep]
            exact hrun
          · intro a
            rw [List.mem_cons, List.mem_cons, hspec.split]
            tauto
          · rw [← hset]
            exact hspec.counts
          · intro hsame hused
            rw [← hset]
            refine hspec.used hsame ?_
            exact (Holds.acquire hsame.stash ⟨hc, hused⟩ hs).used
          · intro k hk hpos _
            refine hspec.within k hk hpos ?_
            have : e₁.slots.used = after := by
              rw [he₁, acquire_used]
            rw [this]
            exact le_of_not_exceeds hk hpos hex

end Explicit

section Free

/-- Stashes that are held can be freed. -/
theorem free_loop
    (rangeSha1 : BlockSet → String) (ss : List Stash) (hss : ss.Nodup) (slots : Slots String) {E : Finset Stash}
    (hc : Counts (stashHash rangeSha1) E slots) (hE : ∀ s ∈ ss, s ∈ E) :
    ∃ slots', ss.foldlM (freeStash rangeSha1) slots = .ok slots' ∧
      Counts (stashHash rangeSha1) (E \ ss.toFinset) slots' ∧
      (SameSize rangeSha1 → slots.used = weight (stashHash rangeSha1) stashBlocks E →
        slots'.used = weight (stashHash rangeSha1) stashBlocks (E \ ss.toFinset)) ∧
      slots'.used ≤ slots.used := by
  induction ss generalizing slots E with
  | nil =>
      refine ⟨slots, rfl, by simpa using hc, ?_, le_refl _⟩
      intro _ h
      simpa using h
  | cons s ss ih =>
      rw [List.nodup_cons] at hss
      have hs := hE s List.mem_cons_self
      have hpos : 0 < slots.count (rangeSha1 s.2) := (hc.pos_iff _).mpr ⟨s, hs, rfl⟩
      have hstep : freeStash rangeSha1 slots s =
          .ok (slots.release (rangeSha1 s.2) s.2.size) := by
        simp [freeStash, hpos]
      obtain ⟨slots', hrun, hc', hused, hle⟩ := ih hss.2 _ (hc.release hs (stashBlocks s)) (by
        intro a ha
        rw [Finset.mem_erase]
        refine ⟨?_, hE a (List.mem_cons_of_mem _ ha)⟩
        rintro rfl
        exact hss.1 ha)
      have hset : E.erase s \ ss.toFinset = E \ (s :: ss).toFinset := by
        ext a
        simp only [Finset.mem_sdiff, Finset.mem_erase, List.toFinset_cons, Finset.mem_insert]
        tauto
      refine ⟨slots', ?_, hset ▸ hc', ?_, ?_⟩
      · rw [List.foldlM_cons, hstep]
        exact hrun
      · intro hsame h
        rw [← hset]
        exact hused hsame (Holds.release hsame.stash ⟨hc, h⟩ hs).used
      · refine hle.trans ?_
        have := s.2.size_nonneg
        unfold Slots.release stashBlocks
        simp only
        split_ifs <;> omega

end Free

section Invariant

/-- The stashes in use after the stash commands of `x`, when `C` is converted and
the commands `pre` come first. -/
def liveAt (st₀ : State) (C : Finset Nat) (pre : List Nat) (x : Nat) : Finset Stash :=
  (((pre ++ [x]).flatMap (fun y => (st₀.xf y).stashBefore)).filter (fun s =>
    decide (¬ idsUsedBy st₀ C s.1 ∧ ∀ z ∈ pre, s ∉ (st₀.xf z).useStash))).toFinset

theorem mem_liveAt
    {st₀ : State} {C : Finset Nat} {pre : List Nat} {x : Nat} {s : Stash} :
    s ∈ liveAt st₀ C pre x ↔ (∃ y ∈ pre ++ [x], s ∈ (st₀.xf y).stashBefore) ∧
      ¬ idsUsedBy st₀ C s.1 ∧ ∀ z ∈ pre, s ∉ (st₀.xf z).useStash := by
  unfold liveAt
  rw [List.mem_toFinset, List.mem_filter, List.mem_flatMap, decide_eq_true_iff]

theorem idsUsedBy_mono
    {st₀ : State} {C C' : Finset Nat} (h : C ⊆ C') {i : Nat} (hi : idsUsedBy st₀ C i) :
    idsUsedBy st₀ C' i := by
  obtain ⟨c, hc, hs⟩ := hi
  exact ⟨c, h hc, hs⟩

theorem liveAt_anti
    (st₀ : State) {C C' : Finset Nat} (h : C ⊆ C') (pre : List Nat) (x : Nat) :
    liveAt st₀ C' pre x ⊆ liveAt st₀ C pre x := by
  intro s hs
  rw [mem_liveAt] at hs ⊢
  exact ⟨hs.1, fun hi => hs.2.1 (idsUsedBy_mono h hi), hs.2.2⟩

variable (rangeSha1) in
/-- The stash that the command `x` needs is at most `k` blocks. -/
structure Fits (st₀ : State) (C : Finset Nat) (k : ℚ) (pre : List Nat) (x : Nat) : Prop where
  explicit : (weight (stashHash rangeSha1) stashBlocks (liveAt st₀ C pre x) : ℚ) ≤ k
  implicit : x ∉ C → (st₀.xf x).style = .diff →
    (st₀.xf x).srcRanges.overlaps (st₀.xf x).tgtRanges = true →
    (weight (stashHash rangeSha1) stashBlocks (liveAt st₀ C pre x) +
      (st₀.xf x).srcRanges.size : ℚ) ≤ k

theorem weight_liveAt_anti
    (rangeSha1 : BlockSet → String) (st₀ : State) {C C' : Finset Nat} (h : C ⊆ C') (pre : List Nat) (x : Nat) :
    (weight (stashHash rangeSha1) stashBlocks (liveAt st₀ C' pre x) : ℚ) ≤
      weight (stashHash rangeSha1) stashBlocks (liveAt st₀ C pre x) := by
  have := weight_mono (stashHash rangeSha1) stashBlocks
    (fun s => s.2.size_nonneg) (liveAt_anti st₀ h pre x)
  exact_mod_cast this

/-- Converting more commands needs no more stash. -/
theorem Fits.mono
    {st₀ : State} {C C' : Finset Nat} {k : ℚ} {pre : List Nat} {x : Nat}
    (h : Fits rangeSha1 st₀ C k pre x) (hC : C ⊆ C') :
    Fits rangeSha1 st₀ C' k pre x := by
  have hw := weight_liveAt_anti rangeSha1 st₀ hC pre x
  refine ⟨hw.trans h.explicit, ?_⟩
  intro hx hstyle hover
  have := h.implicit (fun hmem => hx (hC hmem)) hstyle hover
  linarith

variable (rangeSha1 limit) in
/-- The loop invariant after the commands of `done`: `C` have been converted and
`E` are the stashes that the estimate counts. -/
structure ReviseInv (st₀ : State) (done : List Nat) (C : Finset Nat) (E : Finset Stash)
    (r : Revise) : Prop where
  agrees : Agrees st₀ C (idsUsedBy st₀ C) r.st
  converted : ∀ c ∈ C, c ∈ st₀.transfers
  counts : Counts (stashHash rangeSha1) E r.slots
  held : ∀ s ∈ E, ∃ y ∈ done, s ∈ (st₀.xf y).stashBefore
  live : ∀ y ∈ done, ∀ s ∈ (st₀.xf y).stashBefore, ¬ idsUsedBy st₀ C s.1 →
    (∀ z ∈ done, s ∉ (st₀.xf z).useStash) → s ∈ E
  used : SameSize rangeSha1 → r.slots.used = weight (stashHash rangeSha1) stashBlocks E
  within : ∀ k, limit = some k → 0 < k → (r.slots.used : ℚ) ≤ k
  fits : SameSize rangeSha1 → ∀ k, limit = some k → 0 < k → ∀ pre x post,
    done = pre ++ x :: post → Fits rangeSha1 st₀ C k pre x

theorem reviseInv_init
    (st₀ : State) :
    ReviseInv rangeSha1 limit st₀ [] ∅ ∅ ⟨st₀, Slots.init, 0, 0⟩ := by
  have hholds := holds_init (stashHash rangeSha1) stashBlocks
  refine ⟨⟨rfl, ?_⟩, by simp, hholds.counts, by simp, by simp, fun _ => hholds.used, ?_, ?_⟩
  · intro x _
    simp [reducedBy, idsUsedBy]
  · intro k _ hk
    simpa [Slots.init] using le_of_lt hk
  · intro _ k _ _ pre x post hsplit
    simp at hsplit

/-- The outcome of the check for an implicit stash. -/
theorem implicitStash_cases
    {x : Nat} {t : Transfer} {e e' : Explicit} (h : implicitStash limit x t e = .ok e') :
    e'.slots = e.slots ∧
      ((e'.replaced = e.replaced ∧ (t.style = .diff → t.srcRanges.overlaps t.tgtRanges = true →
          exceeds limit (e.slots.used + t.srcRanges.size) = false)) ∨
        (e'.replaced = e.replaced ++ [x] ∧ t.style = .diff ∧
          exceeds limit (e.slots.used + t.srcRanges.size) = true)) := by
  unfold implicitStash at h
  simp only at h
  split_ifs at h with hstyle hne hover hex
  · cases h
    exact ⟨rfl, Or.inr ⟨rfl, hstyle, hex⟩⟩
  · cases h
    exact ⟨rfl, Or.inl ⟨rfl, fun _ _ => by simpa using hex⟩⟩
  · cases h
    exact ⟨rfl, Or.inl ⟨rfl, fun _ ho => absurd ho hover⟩⟩
  · cases h
    exact ⟨rfl, Or.inl ⟨rfl, fun hs => absurd hs hstyle⟩⟩

end Invariant

/-- What the revision asserts of the commands, beyond the pairing: a `diff` has
source and target blocks and a `new` uses no stash; and no command uses two
stashes of one definer. -/
structure Revisable (st : State) : Prop where
  diffRanges : ∀ x ∈ st.transfers, (st.xf x).style = .diff →
    (st.xf x).tgtRanges.nonempty = true ∧ (st.xf x).srcRanges.nonempty = true
  newUnused : ∀ x ∈ st.transfers, (st.xf x).style = .new → (st.xf x).useStash = []
  single : ∀ u ∈ st.transfers, ∀ x ∈ st.transfers, ∀ s s',
    s ∈ (st.xf u).stashBefore → s' ∈ (st.xf u).stashBefore →
    s ∈ (st.xf x).useStash → s' ∈ (st.xf x).useStash → s = s'

section Step

variable {st₀ : State} {m : StashMap} (hts : st₀.transfers.Nodup)
  (hpair : StashPairing st₀.xf st₀.transfers)
  (hm : ∀ u x s, u ∈ st₀.transfers → x ∈ st₀.transfers → s ∈ (st₀.xf u).stashBefore →
    s ∈ (st₀.xf x).useStash → m s.1 = some (s.2, [u, x]))

include hpair in
/-- Every stash that `x` defines has a user later in the list. -/
theorem exists_user
    {x : Nat} (hx : x ∈ st₀.transfers) :
    ∃ user : Stash → Nat, ∀ s ∈ (st₀.xf x).stashBefore,
      user s ∈ st₀.transfers ∧ s ∈ (st₀.xf (user s)).useStash ∧ user s ≠ x := by
  have h : ∀ s : Stash, ∃ y, s ∈ (st₀.xf x).stashBefore →
      y ∈ st₀.transfers ∧ s ∈ (st₀.xf y).useStash ∧ y ≠ x := by
    intro s
    by_cases hs : s ∈ (st₀.xf x).stashBefore
    · obtain ⟨y, hy, hsy, hprec⟩ := hpair.used x hx s hs
      refine ⟨y, fun _ => ⟨hy, hsy, ?_⟩⟩
      rintro rfl
      exact absurd hprec (Nat.lt_irrefl _)
    · exact ⟨0, fun h => absurd h hs⟩
  choose user huser using h
  exact ⟨user, huser⟩

variable {done rest : List Nat} {x : Nat} (hsplit : st₀.transfers = done ++ x :: rest)
  {C : Finset Nat} {E : Finset Stash} {r : Revise}
  (hinv : ReviseInv rangeSha1 limit st₀ done C E r)

include hts hpair hsplit hinv

theorem used_mem
    (hxC : x ∉ C) {s : Stash} (hs : s ∈ (st₀.xf x).useStash) :
    s ∈ E := by
  have hx : x ∈ st₀.transfers := by
    rw [hsplit]
    simp
  have hxdone : x ∉ done := by
    rw [hsplit, List.nodup_append] at hts
    intro hmem
    exact hts.2.2 x hmem x List.mem_cons_self rfl
  obtain ⟨u, hu, hsu, hprec⟩ := hpair.defined x hx s hs
  have hudone : u ∈ done := by
    rw [hsplit] at hprec hts
    exact (precedes_split hts).mp hprec
  refine hinv.live u hudone s hsu (not_idsUsedBy hpair hinv.converted hx hxC hs) ?_
  intro z hz hsz
  have hzts : z ∈ st₀.transfers := by
    rw [hsplit]
    exact List.mem_append_left _ hz
  have := (hpair.use_unique hx hzts hs hsz rfl).1
  exact hxdone (this ▸ hz)

include hm

theorem explicit_spec
    {user : Stash → Nat} (huser : ∀ s ∈ (st₀.xf x).stashBefore,
      user s ∈ st₀.transfers ∧ s ∈ (st₀.xf (user s)).useStash ∧ user s ≠ x) :
    ∃ e acc rej, (r.st.xf x).stashBefore.foldlM (explicitStash rangeSha1 limit m)
        ⟨r.slots, r.maxStashed, []⟩ = .ok e ∧
      ExplicitSpec rangeSha1 limit user (r.st.xf x).stashBefore E
        ⟨r.slots, r.maxStashed, []⟩ e acc rej := by
  have hx : x ∈ st₀.transfers := by
    rw [hsplit]
    simp
  have hxdone : x ∉ done := by
    rw [hsplit, List.nodup_append] at hts
    intro hmem
    exact hts.2.2 x hmem x List.mem_cons_self rfl
  have hss : (r.st.xf x).stashBefore =
      (st₀.xf x).stashBefore.filter (fun s => !decide (idsUsedBy st₀ C s.1)) := by
    rw [hinv.agrees.xf x hx, reducedBy_stashBefore]
  have hmem : ∀ s ∈ (r.st.xf x).stashBefore, s ∈ (st₀.xf x).stashBefore := by
    intro s hs
    rw [hss] at hs
    exact (List.mem_filter.mp hs).1
  refine explicit_loop (x := x) user (r.st.xf x).stashBefore ?_ ?_ hinv.counts ?_
  · rw [hss]
    have := (List.nodup_flatMap.mp hpair.definedOnce).1 x hx
    exact (List.Nodup.of_map _ this).filter _
  · intro s hs
    obtain ⟨hu, hsu, _⟩ := huser s (hmem s hs)
    exact hm x (user s) s hx hu (hmem s hs) hsu
  · intro s hs hE
    obtain ⟨y, hy, hsy⟩ := hinv.held s hE
    have hyts : y ∈ st₀.transfers := by
      rw [hsplit]
      exact List.mem_append_left _ hy
    have := (hpair.def_unique hx hyts (hmem s hs) hsy rfl).1
    exact hxdone (this ▸ hy)

/-- A command that raises nothing keeps the invariant. -/
theorem reviseCmd_inv
    {r' : Revise} (hrun : reviseCmd rangeSha1 limit m r x = .ok r') :
    ∃ C' E', ReviseInv rangeSha1 limit st₀ (done ++ [x]) C' E' r' := by
  have hx : x ∈ st₀.transfers := by
    rw [hsplit]
    simp
  obtain ⟨user, huser⟩ := exists_user hpair hx
  obtain ⟨e, acc, rej, hexp, hspec⟩ := explicit_spec hts hpair hm hsplit hinv huser
  have hagree := hinv.agrees.xf x hx
  have hss : ∀ s, s ∈ (r.st.xf x).stashBefore ↔
      s ∈ (st₀.xf x).stashBefore ∧ ¬ idsUsedBy st₀ C s.1 := by
    intro s
    rw [hagree, reducedBy_stashBefore, List.mem_filter]
    simp
  unfold reviseCmd at hrun
  rw [hexp] at hrun
  obtain ⟨_, ⟨⟩, hrun⟩ := bind_eq_ok.mp hrun
  obtain ⟨e₁, himp, hrun⟩ := bind_eq_ok.mp hrun
  obtain ⟨⟨st₁, n₁⟩, hrep, hrun⟩ := bind_eq_ok.mp hrun
  obtain ⟨hslots, hcases⟩ := implicitStash_cases himp
  have hreplaced : ∀ c ∈ e₁.replaced, c ∈ st₀.transfers := by
    have hrej : ∀ c ∈ e.replaced, c ∈ st₀.transfers := by
      intro c hc
      rw [hspec.replaced, List.nil_append, List.mem_map] at hc
      obtain ⟨s, hs, rfl⟩ := hc
      exact (huser s ((hss s).mp (hspec.sublist.subset hs)).1).1
    intro c hc
    rcases hcases with ⟨heq, _⟩ | ⟨heq, _⟩
    · exact hrej c (heq ▸ hc)
    · rw [heq, List.mem_append, List.mem_singleton] at hc
      rcases hc with hc | rfl
      · exact hrej c hc
      · exact hx
  have hsub : ∀ c ∈ e.replaced, c ∈ e₁.replaced := by
    intro c hc
    rcases hcases with ⟨heq, _⟩ | ⟨heq, _⟩
    · exact heq ▸ hc
    · rw [heq]
      exact List.mem_append_left _ hc
  have hag := replaceAll_of_ok hpair hm e₁.replaced hreplaced hinv.converted hinv.agrees hrep
  set C' := C ∪ e₁.replaced.toFinset with hC'
  have hCC' : C ⊆ C' := Finset.subset_union_left
  set E₁ := E ∪ acc.toFinset with hE₁
  have hc₁ : Counts (stashHash rangeSha1) E₁ e₁.slots := hslots ▸ hspec.counts
  have huse : (st₁.xf x).useStash = if x ∈ C' then [] else (st₀.xf x).useStash := by
    rw [hag.xf x hx, reducedBy_useStash]
  obtain ⟨slots', hfree, hc₂, hused₂, hle₂⟩ := free_loop rangeSha1 (st₁.xf x).useStash (by
      rw [huse]
      split_ifs
      · exact List.nodup_nil
      · exact List.Nodup.of_map _ ((List.nodup_flatMap.mp hpair.usedOnce).1 x hx)) _ hc₁ (by
      intro s hs
      rw [huse] at hs
      split_ifs at hs with hxC
      · cases hs
      · exact Finset.mem_union_left _ (used_mem hts hpair hsplit hinv
          (fun h => hxC (hCC' h)) hs))
  simp only [hfree] at hrun
  cases hrun
  -- a rejected stash loses its definition
  have hrejected : ∀ s ∈ rej, idsUsedBy st₀ C' s.1 := by
    intro s hs
    have hsx := (hss s).mp (hspec.sublist.subset hs)
    refine ⟨user s, Finset.mem_union_right _ (List.mem_toFinset.mpr (hsub _ ?_)), s,
      (huser s hsx.1).2.1, rfl⟩
    rw [hspec.replaced]
    exact List.mem_map_of_mem hs
  have hown : ∀ s ∈ (st₀.xf x).stashBefore, ¬ idsUsedBy st₀ C' s.1 → s ∈ E₁ := by
    intro s hs hn
    have := (hspec.split s).mp ((hss s).mpr ⟨hs, fun hi => hn (idsUsedBy_mono hCC' hi)⟩)
    rcases this with hacc | hrej
    · exact Finset.mem_union_right _ (List.mem_toFinset.mpr hacc)
    · exact absurd (hrejected s hrej) hn
  have hlive : liveAt st₀ C' done x ⊆ E₁ := by
    intro s hs
    obtain ⟨⟨y, hy, hsy⟩, hn, hun⟩ := mem_liveAt.mp hs
    rcases List.mem_append.mp hy with hy | hy
    · exact Finset.mem_union_left _
        (hinv.live y hy s hsy (fun hi => hn (idsUsedBy_mono hCC' hi)) hun)
    · rw [List.mem_singleton.mp hy] at hsy
      exact hown s hsy hn
  have hwithin : ∀ k, limit = some k → 0 < k → (e₁.slots.used : ℚ) ≤ k := by
    intro k hk hpos
    rw [hslots]
    exact hspec.within k hk hpos (hinv.within k hk hpos)
  refine ⟨C', E₁ \ (st₁.xf x).useStash.toFinset, ⟨hag, ?_, hc₂, ?_, ?_, ?_, ?_, ?_⟩⟩
  · intro c hc
    rcases Finset.mem_union.mp hc with hc | hc
    · exact hinv.converted c hc
    · exact hreplaced c (List.mem_toFinset.mp hc)
  · intro s hs
    rcases Finset.mem_union.mp (Finset.mem_sdiff.mp hs).1 with hs | hs
    · obtain ⟨y, hy, hsy⟩ := hinv.held s hs
      exact ⟨y, List.mem_append_left _ hy, hsy⟩
    · refine ⟨x, by simp, ((hss s).mp ?_).1⟩
      exact (hspec.split s).mpr (Or.inl (List.mem_toFinset.mp hs))
  · intro y hy s hsy hn hun
    rw [Finset.mem_sdiff]
    constructor
    · exact hlive (mem_liveAt.mpr ⟨⟨y, hy, hsy⟩, hn,
        fun z hz => hun z (List.mem_append_left _ hz)⟩)
    · rw [List.mem_toFinset, huse]
      split_ifs
      · simp
      · exact hun x (by simp)
  · intro hsame
    exact hused₂ hsame (hslots ▸ hspec.used hsame (hinv.used hsame))
  · intro k hk hpos
    have h₁ := hwithin k hk hpos
    have h₂ : ((slots'.used : Int) : ℚ) ≤ (e₁.slots.used : Int) := by exact_mod_cast hle₂
    exact h₂.trans h₁
  · intro hsame k hk hpos pre y post hpre
    rcases List.eq_nil_or_concat post with rfl | ⟨post', z, rfl⟩
    · have hsplit' : done ++ [x] = pre ++ [y] := hpre
      obtain ⟨rfl, hxy⟩ := List.append_inj' hsplit' rfl
      cases hxy
      have hw : (weight (stashHash rangeSha1) stashBlocks (liveAt st₀ C' done x) : ℚ) ≤
          e₁.slots.used := by
        have h := weight_mono (stashHash rangeSha1) stashBlocks
          (fun s => s.2.size_nonneg) hlive
        rw [← hspec.used hsame (hinv.used hsame), ← hslots] at h
        exact_mod_cast h
      refine ⟨hw.trans (hwithin k hk hpos), ?_⟩
      intro hxC hstyle hover
      have hxr : r.st.xf x = _ := hagree.trans (reducedBy_of_notMem (fun h => hxC (hCC' h)))
      rcases hcases with ⟨_, hno⟩ | ⟨heq, _⟩
      · rw [hxr] at hno
        have := le_of_not_exceeds hk hpos (hno hstyle hover)
        rw [← hslots] at this
        push_cast at this
        linarith
      · exact absurd (Finset.mem_union_right _ (List.mem_toFinset.mpr (by rw [heq]; simp))) hxC
    · have hsplit' : done ++ [x] = (pre ++ y :: post') ++ [z] := by
        rw [hpre]
        simp
      obtain ⟨rfl, _⟩ := List.append_inj' hsplit' rfl
      exact (hinv.fits hsame k hk hpos pre y post' rfl).mono hCC'

/-- No command raises: no command is replaced twice, and no `new` is. -/
theorem reviseCmd_ok
    (hrev : Revisable st₀) :
    ∃ r', reviseCmd rangeSha1 limit m r x = .ok r' := by
  have hx : x ∈ st₀.transfers := by
    rw [hsplit]
    simp
  obtain ⟨user, huser⟩ := exists_user hpair hx
  obtain ⟨e, acc, rej, hexp, hspec⟩ := explicit_spec hts hpair hm hsplit hinv huser
  have hagree := hinv.agrees.xf x hx
  have hrejmem : ∀ s ∈ rej, s ∈ (st₀.xf x).stashBefore ∧ ¬ idsUsedBy st₀ C s.1 := by
    intro s hs
    have := hspec.sublist.subset hs
    rw [hagree, reducedBy_stashBefore, List.mem_filter] at this
    simpa using this
  have hxstyle : (r.st.xf x).style = .diff → x ∉ C ∧ (st₀.xf x).style = .diff := by
    intro hstyle
    have hxC : x ∉ C := by
      intro hmem
      rw [hagree, reducedBy_style_of_mem hmem] at hstyle
      cases hstyle
    rw [hagree, reducedBy_of_notMem hxC] at hstyle
    exact ⟨hxC, hstyle⟩
  -- the assertion on the ranges of a `diff` holds
  obtain ⟨e₁, himp⟩ : ∃ e₁, implicitStash limit x (r.st.xf x) e = .ok e₁ := by
    unfold implicitStash
    simp only
    split_ifs with hstyle hne
    · exact ⟨_, rfl⟩
    · exact ⟨_, rfl⟩
    · exact ⟨_, rfl⟩
    · obtain ⟨hxC, hstyle₀⟩ := hxstyle hstyle
      rw [hagree, reducedBy_of_notMem hxC] at hne
      obtain ⟨h₁, h₂⟩ := hrev.diffRanges x hx hstyle₀
      exact absurd (by simp [h₁, h₂]) hne
    · exact ⟨_, rfl⟩
  obtain ⟨hslots, hcases⟩ := implicitStash_cases himp
  have hrejstyle : ∀ c ∈ rej.map user, c ∈ st₀.transfers ∧ c ∉ C ∧ c ≠ x ∧
      (st₀.xf c).style ≠ .new := by
    intro c hc
    obtain ⟨s, hs, rfl⟩ := List.mem_map.mp hc
    obtain ⟨hsx, hn⟩ := hrejmem s hs
    obtain ⟨hu, hsu, hne⟩ := huser s hsx
    refine ⟨hu, ?_, hne, ?_⟩
    · intro hmem
      exact hn ⟨user s, hmem, s, hsu, rfl⟩
    · intro hnew
      rw [hrev.newUnused _ hu hnew] at hsu
      cases hsu
  have hrejnodup : (rej.map user).Nodup := by
    refine List.Nodup.map_on ?_ ?_
    · intro s hs s' hs' heq
      have hs := (hrejmem s hs).1
      have hs' := (hrejmem s' hs').1
      refine hrev.single x hx (user s) (huser s hs).1 s s' hs hs' (huser s hs).2.1 ?_
      rw [heq]
      exact (huser s' hs').2.1
    · refine hspec.sublist.nodup ?_
      rw [hagree, reducedBy_stashBefore]
      exact (List.Nodup.of_map _ ((List.nodup_flatMap.mp hpair.definedOnce).1 x hx)).filter _
  have hreplaced : e₁.replaced.Nodup ∧ ∀ c ∈ e₁.replaced, c ∈ st₀.transfers ∧ c ∉ C ∧
      (st₀.xf c).style ≠ .new := by
    have herep : e.replaced = rej.map user := by
      rw [hspec.replaced, List.nil_append]
    rcases hcases with ⟨heq, _⟩ | ⟨heq, hstyle, _⟩
    · rw [heq, herep]
      exact ⟨hrejnodup, fun c hc => ⟨(hrejstyle c hc).1, (hrejstyle c hc).2.1,
        (hrejstyle c hc).2.2.2⟩⟩
    · rw [heq, herep]
      obtain ⟨hxC, hstyle₀⟩ := hxstyle hstyle
      constructor
      · rw [List.nodup_append]
        refine ⟨hrejnodup, by simp, ?_⟩
        intro c hc d hd
        rw [List.mem_singleton.mp hd]
        exact (hrejstyle c hc).2.2.1
      · intro c hc
        rcases List.mem_append.mp hc with hc | hc
        · exact ⟨(hrejstyle c hc).1, (hrejstyle c hc).2.1, (hrejstyle c hc).2.2.2⟩
        · rw [List.mem_singleton.mp hc]
          exact ⟨hx, hxC, by rw [hstyle₀]; simp⟩
  obtain ⟨⟨st₁, n₁⟩, hrep⟩ := replaceAll_total hpair hm e₁.replaced
    (fun c hc => (hreplaced.2 c hc).1) hreplaced.1 (fun c hc => (hreplaced.2 c hc).2.2)
    hinv.converted (fun c hc => (hreplaced.2 c hc).2.1) (n := r.newBlocks) hinv.agrees
  have hag := replaceAll_of_ok hpair hm e₁.replaced (fun c hc => (hreplaced.2 c hc).1)
    hinv.converted hinv.agrees hrep
  have huse : (st₁.xf x).useStash =
      if x ∈ C ∪ e₁.replaced.toFinset then [] else (st₀.xf x).useStash := by
    rw [hag.xf x hx, reducedBy_useStash]
  obtain ⟨slots', hfree, _⟩ := free_loop rangeSha1 (st₁.xf x).useStash (by
      rw [huse]
      split_ifs
      · exact List.nodup_nil
      · exact List.Nodup.of_map _ ((List.nodup_flatMap.mp hpair.usedOnce).1 x hx))
    e₁.slots (E := E ∪ acc.toFinset) (hslots ▸ hspec.counts) (by
      intro s hs
      rw [huse] at hs
      split_ifs at hs with hxC
      · cases hs
      · exact Finset.mem_union_left _ (used_mem hts hpair hsplit hinv
          (fun h => hxC (Finset.mem_union_left _ h)) hs))
  refine ⟨⟨st₁, slots', n₁, e₁.maxStashed⟩, ?_⟩
  unfold reviseCmd
  simp only [bind, Except.bind, hexp, himp, hrep, hfree]
  rfl

end Step

section Loop

variable {st₀ : State} (hts : st₀.transfers.Nodup)
  (hpair : StashPairing st₀.xf st₀.transfers)

include hts hpair

theorem reviseLoop_inv
    {r : Revise} (hrun : reviseLoop rangeSha1 limit st₀ = .ok r) :
    ∃ C E, ReviseInv rangeSha1 limit st₀ st₀.transfers C E r := by
  obtain ⟨m, hmap, hm⟩ := stashMap_spec hts hpair
  unfold reviseLoop at hrun
  rw [hmap] at hrun
  refine forLoop_ok
    (fun done r => ∃ C E, ReviseInv rangeSha1 limit st₀ done C E r) hrun
    ⟨∅, ∅, reviseInv_init st₀⟩ ?_
  rintro done x rest r r' hsplit ⟨C, E, hinv⟩ hstep
  exact reviseCmd_inv hts hpair hm hsplit hinv hstep

variable (rangeSha1 limit) in
/-- A paired list that satisfies `Revisable` is revised without an exception. -/
theorem reviseLoop_total
    (hrev : Revisable st₀) :
    ∃ r, reviseLoop rangeSha1 limit st₀ = .ok r := by
  obtain ⟨m, hmap, hm⟩ := stashMap_spec hts hpair
  obtain ⟨r, hrun, _⟩ := forLoop_total
    (reviseCmd rangeSha1 limit m)
    (fun done r => ∃ C E, ReviseInv rangeSha1 limit st₀ done C E r)
    st₀.transfers ⟨st₀, Slots.init, 0, 0⟩ ⟨∅, ∅, reviseInv_init st₀⟩
    (by
      rintro done x rest r hsplit ⟨C, E, hinv⟩
      obtain ⟨r', hstep⟩ := reviseCmd_ok
        hts hpair hm hsplit hinv hrev
      exact ⟨r', hstep, reviseCmd_inv hts hpair hm hsplit hinv hstep⟩)
  refine ⟨r, ?_⟩
  unfold reviseLoop
  rw [hmap]
  exact hrun

end Loop

end BlockImageDiff
end AndroidBuild
