import AndroidBuild.BlockImageDiff.SequenceGood
import AndroidBuild.Lib.SharedSlots

/-!
# `ReviseStashSize`

The pass walks over the sequence, keeps an estimate of the stash in use, and
converts a command to `new` when a stash it needs would exceed the limit.

A converted command no longer uses its stashes, so that their definitions are
removed too, from commands before and after the current one.  The state of the
transfers is therefore determined by the set `C` of the converted commands
(`reducedBy`), and the loop invariant is stated for it.
-/

namespace AndroidBuild
namespace BlockImageDiff

open Loop RangeLib SharedSlots

/-- `common.OPTIONS`, as far as the stash limit goes. -/
structure Options where
  cacheSize : Option Nat
  stashThreshold : ℚ

/-- The updater always uses 4k blocks. -/
def blocksize : Nat := 4096

/-- `stash_map`: the range of a stash and the commands that define and use it. -/
abbrev StashMap := Nat → Option (BlockSet × List Nat)

def StashMap.define (x : Nat) (m : StashMap) (s : Stash) : StashMap :=
  Function.update m s.1 (some (s.2, [x]))

def StashMap.use (x : Nat) (m : StashMap) (s : Stash) : Except PyError StashMap :=
  match m s.1 with
  | none => .error .keyError
  | some (sr, cmds) => .ok (Function.update m s.1 (some (sr, cmds ++ [x])))

def stashMap (st : State) : Except PyError StashMap :=
  st.transfers.foldlM
    (fun m x => (st.xf x).useStash.foldlM (StashMap.use x)
      ((st.xf x).stashBefore.foldl (StashMap.define x) m))
    (fun _ => none)

/-- `max_allowed_blocks and n > max_allowed_blocks`. -/
def exceeds (limit : Option ℚ) (n : Int) : Bool :=
  match limit with
  | none => false
  | some m => decide (m ≠ 0) && decide (m < n)

/-- The local variables of the loop over the explicit stashes. -/
structure Explicit where
  slots : Slots String
  maxStashed : Int
  replaced : List Nat

section Definitions

variable (rangeSha1 : BlockSet → String) (limit : Option ℚ)

/-- One entry of `xf.stash_before`. -/
def explicitStash (m : StashMap) (r : Explicit) (s : Stash) : Except PyError Explicit :=
  let sh := rangeSha1 s.2
  let after := if 0 < r.slots.count sh then r.slots.used else r.slots.used + s.2.size
  if exceeds limit after then
    match m s.1 with
    | none => .error .keyError
    | some (_, _ :: useCmd :: _) => .ok { r with replaced := r.replaced ++ [useCmd] }
    | some _ => .error .indexError
  else
    .ok { r with slots := r.slots.acquire sh s.2.size, maxStashed := max r.maxStashed after }

/-- The implicit stash of an overlapping `diff`. -/
def implicitStash (x : Nat) (t : Transfer) (r : Explicit) : Except PyError Explicit :=
  if t.style = .diff then
    if t.tgtRanges.nonempty && t.srcRanges.nonempty then
      if t.srcRanges.overlaps t.tgtRanges then
        let after := r.slots.used + t.srcRanges.size
        if exceeds limit after then .ok { r with replaced := r.replaced ++ [x] }
        else .ok { r with maxStashed := max r.maxStashed after }
      else .ok r
    else .error .assertionError
  else .ok r

def sameStash (a b : Stash) : Bool :=
  decide (a.1 = b.1) && a.2.same b.2

def removeDef (m : StashMap) (st : State) (s : Stash) : Except PyError State :=
  match m s.1 with
  | none => .error .keyError
  | some (_, []) => .error .indexError
  | some (_, defCmd :: _) =>
      if (st.xf defCmd).stashBefore.any (sameStash s) then
        .ok (st.modify defCmd
          (fun t => { t with stashBefore := t.stashBefore.eraseP (sameStash s) }))
      else .error .assertionError

/-- Replace one command with a `new`; the second component is `new_blocks`. -/
def replaceCmd (m : StashMap) (s : State × Int) (cmd : Nat) : Except PyError (State × Int) := do
  let st ← (s.1.xf cmd).useStash.foldlM (removeDef m) s.1
  let t ← (st.xf cmd).convertToNew
  pure (st.modify cmd (fun _ => t), s.2 + (st.xf cmd).tgtRanges.size)

/-- One entry of `xf.use_stash`. -/
def freeStash (slots : Slots String) (s : Stash) : Except PyError (Slots String) :=
  if 0 < slots.count (rangeSha1 s.2) then .ok (slots.release (rangeSha1 s.2) s.2.size)
  else .error .assertionError

/-- The variables of the main loop. -/
structure Revise where
  st : State
  slots : Slots String
  newBlocks : Int
  maxStashed : Int

def reviseCmd (m : StashMap) (r : Revise) (x : Nat) : Except PyError Revise := do
  let e ← (r.st.xf x).stashBefore.foldlM (explicitStash rangeSha1 limit m)
    ⟨r.slots, r.maxStashed, []⟩
  let e ← implicitStash limit x (r.st.xf x) e
  let (st, newBlocks) ← e.replaced.foldlM (replaceCmd m) (r.st, r.newBlocks)
  let slots ← (st.xf x).useStash.foldlM (freeStash rangeSha1) e.slots
  pure ⟨st, slots, newBlocks, e.maxStashed⟩

/-- The main loop, for a given `max_allowed_blocks`. -/
def reviseLoop (st : State) : Except PyError Revise := do
  let m ← stashMap st
  st.transfers.foldlM (reviseCmd rangeSha1 limit m) ⟨st, Slots.init, 0, 0⟩

/-- `cache_size * stash_threshold / blocksize`; `None` when the limit is ignored. -/
def maxAllowedBlocks (opts : Options) (ignoreStashLimit : Bool) : Except PyError (Option ℚ) :=
  if ignoreStashLimit then .ok none
  else
    match opts.cacheSize with
    | none => .error .typeError
    | some cacheSize => .ok (some (cacheSize * opts.stashThreshold / blocksize))

/-- The revised transfers, `new_blocks` and `max_stashed_blocks`. -/
def reviseStashSize (opts : Options) (ignoreStashLimit : Bool) (st : State) :
    Except PyError (State × Int × Int) := do
  let limit ← maxAllowedBlocks opts ignoreStashLimit
  let r ← reviseLoop rangeSha1 limit st
  pure (r.st, r.newBlocks, r.maxStashed)

end Definitions

section Reduced

/-- The ids of the stashes that the commands of `C` use. -/
def idsUsedBy (st₀ : State) (C : Finset Nat) (i : Nat) : Prop :=
  ∃ c ∈ C, ∃ s ∈ (st₀.xf c).useStash, s.1 = i

instance (st₀ : State) (C : Finset Nat) (i : Nat) : Decidable (idsUsedBy st₀ C i) :=
  inferInstanceAs (Decidable (∃ c ∈ C, ∃ s ∈ (st₀.xf c).useStash, s.1 = i))

/-- What is left of a transfer converted to `new`. -/
def Transfer.asNew (t : Transfer) : Transfer :=
  { t with useStash := [], style := .new, srcRanges := .empty, patchInfo := none }

/-- The transfers after the commands of `C` were converted, and the stashes whose
ids satisfy `D` removed. -/
def reducedBy (st₀ : State) (C : Finset Nat) (D : Nat → Prop) [DecidablePred D] : State where
  xf := fun x =>
    let t := { st₀.xf x with
      stashBefore := (st₀.xf x).stashBefore.filter (fun s => !decide (D s.1)) }
    if x ∈ C then t.asNew else t
  transfers := st₀.transfers

end Reduced

section Pairing

variable {xf : Nat → Transfer} {ts : List Nat}

/-- An id occurs in one list only, and there once. -/
theorem unique_of_nodup_ids
    {f : Nat → List Stash}
    (h : (ts.flatMap (fun x => (f x).map Prod.fst)).Nodup)
    {u v : Nat} (hu : u ∈ ts) (hv : v ∈ ts) {s s' : Stash}
    (hs : s ∈ f u) (hs' : s' ∈ f v) (hid : s.1 = s'.1) :
    u = v ∧ s = s' := by
  rw [List.nodup_flatMap] at h
  have huv : u = v := by
    by_contra hne
    have : Std.Symm (Function.onFun List.Disjoint fun x => (f x).map Prod.fst) :=
      ⟨fun _ _ hd => List.Disjoint.symm hd⟩
    have hpair := h.2.forall hu hv hne
    exact hpair (List.mem_map.mpr ⟨s, hs, rfl⟩) (List.mem_map.mpr ⟨s', hs', hid.symm⟩)
  subst huv
  exact ⟨rfl, List.inj_on_of_nodup_map (h.1 u hu) hs hs' hid⟩

theorem StashPairing.def_unique
    (h : StashPairing xf ts)
    {u v : Nat} (hu : u ∈ ts) (hv : v ∈ ts) {s s' : Stash}
    (hs : s ∈ (xf u).stashBefore) (hs' : s' ∈ (xf v).stashBefore) (hid : s.1 = s'.1) :
    u = v ∧ s = s' :=
  unique_of_nodup_ids h.definedOnce hu hv hs hs' hid

theorem StashPairing.use_unique
    (h : StashPairing xf ts)
    {x y : Nat} (hx : x ∈ ts) (hy : y ∈ ts) {s s' : Stash}
    (hs : s ∈ (xf x).useStash) (hs' : s' ∈ (xf y).useStash) (hid : s.1 = s'.1) :
    x = y ∧ s = s' :=
  unique_of_nodup_ids h.usedOnce hx hy hs hs' hid

/-- The definer of a stash that `x` uses comes before `x`. -/
theorem precedes_split
    {done rest : List Nat} {x u : Nat} (hts : (done ++ x :: rest).Nodup) :
    Precedes (done ++ x :: rest) u x ↔ u ∈ done := by
  have hx : x ∉ done := by
    rw [List.nodup_append] at hts
    intro hmem
    exact hts.2.2 x hmem x List.mem_cons_self rfl
  unfold Precedes
  rw [List.idxOf_append_of_notMem hx, List.idxOf_cons_self]
  by_cases hu : u ∈ done
  · rw [List.idxOf_append_of_mem hu]
    have := List.idxOf_lt_length_iff.mpr hu
    simp only [hu, iff_true]
    omega
  · rw [List.idxOf_append_of_notMem hu]
    simp [hu]

/-- An entry of `stash_map` after the commands of `done`. -/
structure Entry (xf : Nat → Transfer) (done : List Nat) (m : StashMap) (u : Nat) (s : Stash) :
    Prop where
  unused : (∀ x ∈ done, s ∉ (xf x).useStash) → m s.1 = some (s.2, [u])
  used : ∀ x ∈ done, s ∈ (xf x).useStash → m s.1 = some (s.2, [u, x])

theorem foldl_define
    (x : Nat) (ss : List Stash) (hss : (ss.map Prod.fst).Nodup) (m : StashMap) :
    (∀ s ∈ ss, ss.foldl (StashMap.define x) m s.1 = some (s.2, [x])) ∧
      ∀ i, i ∉ ss.map Prod.fst → ss.foldl (StashMap.define x) m i = m i := by
  induction ss generalizing m with
  | nil => simp
  | cons s ss ih =>
      rw [List.map_cons, List.nodup_cons] at hss
      obtain ⟨h₁, h₂⟩ := ih hss.2 (StashMap.define x m s)
      rw [List.foldl_cons]
      constructor
      · intro s' hs'
        rcases List.mem_cons.mp hs' with rfl | hs'
        · rw [h₂ _ hss.1]
          simp [StashMap.define]
        · exact h₁ s' hs'
      · intro i hi
        rw [List.map_cons, List.mem_cons, not_or] at hi
        rw [h₂ i hi.2, StashMap.define, Function.update_of_ne hi.1]

theorem foldlM_use
    (x : Nat) (ss : List Stash) (hss : (ss.map Prod.fst).Nodup) (m : StashMap)
    (hm : ∀ s ∈ ss, ∃ u, m s.1 = some (s.2, [u])) :
    ∃ m', ss.foldlM (StashMap.use x) m = .ok m' ∧
      (∀ s ∈ ss, ∀ u, m s.1 = some (s.2, [u]) → m' s.1 = some (s.2, [u, x])) ∧
      ∀ i, i ∉ ss.map Prod.fst → m' i = m i := by
  induction ss generalizing m with
  | nil => exact ⟨m, rfl, by simp, fun _ _ => rfl⟩
  | cons s ss ih =>
      rw [List.map_cons, List.nodup_cons] at hss
      obtain ⟨u, hu⟩ := hm s List.mem_cons_self
      set m₁ := Function.update m s.1 (some (s.2, [u, x])) with hm₁
      have hother : ∀ s' ∈ ss, m₁ s'.1 = m s'.1 := by
        intro s' hs'
        rw [hm₁, Function.update_of_ne]
        intro heq
        exact hss.1 (heq ▸ List.mem_map_of_mem hs')
      obtain ⟨m', hrun, hused, hrest⟩ := ih hss.2 m₁ (by
        intro s' hs'
        rw [hother s' hs']
        exact hm s' (List.mem_cons_of_mem _ hs'))
      refine ⟨m', ?_, ?_, ?_⟩
      · rw [List.foldlM_cons]
        have : StashMap.use x m s = .ok m₁ := by simp [StashMap.use, hu, hm₁]
        rw [this]
        exact hrun
      · intro s' hs' v hv
        rcases List.mem_cons.mp hs' with rfl | hs'
        · rw [hrest _ hss.1, hm₁, Function.update_self]
          rw [hu] at hv
          cases hv
          rfl
        · exact hused s' hs' v (by rw [hother s' hs']; exact hv)
      · intro i hi
        rw [List.map_cons, List.mem_cons, not_or] at hi
        rw [hrest i hi.2, hm₁, Function.update_of_ne hi.1]

/-- The map of a paired list exists and gives for every stash its two commands. -/
theorem stashMap_spec
    {st : State} (hts : st.transfers.Nodup) (h : StashPairing st.xf st.transfers) :
    ∃ m, stashMap st = .ok m ∧
      ∀ u x s, u ∈ st.transfers → x ∈ st.transfers → s ∈ (st.xf u).stashBefore →
        s ∈ (st.xf x).useStash → m s.1 = some (s.2, [u, x]) := by
  obtain ⟨m, hrun, hm⟩ := forLoop_total
    (fun m x => (st.xf x).useStash.foldlM (StashMap.use x)
      ((st.xf x).stashBefore.foldl (StashMap.define x) m))
    (fun done m => ∀ u ∈ done, ∀ s ∈ (st.xf u).stashBefore, Entry st.xf done m u s)
    st.transfers (fun _ => none) (by simp)
    (by
      intro done x rest m hsplit hinv
      have hmem : ∀ y ∈ done ++ [x], y ∈ st.transfers := by
        intro y hy
        rw [hsplit]
        simp only [List.mem_append, List.mem_cons, List.not_mem_nil, or_false] at hy ⊢
        tauto
      have hx : x ∈ st.transfers := hmem x (by simp)
      have hdone : ∀ y ∈ done, y ∈ st.transfers := fun y hy => hmem y (by simp [hy])
      have hxdone : x ∉ done := by
        have := hts
        rw [hsplit, List.nodup_append] at this
        intro hmem
        exact this.2.2 x hmem x List.mem_cons_self rfl
      have hdefiner : ∀ s ∈ (st.xf x).useStash, ∃ u ∈ done, s ∈ (st.xf u).stashBefore := by
        intro s hs
        obtain ⟨u, _, hsu, hprec⟩ := h.defined x hx s hs
        rw [hsplit] at hprec hts
        exact ⟨u, (precedes_split hts).mp hprec, hsu⟩
      have hnodupD : ((st.xf x).stashBefore.map Prod.fst).Nodup :=
        (List.nodup_flatMap.mp h.definedOnce).1 x hx
      have hnodupU : ((st.xf x).useStash.map Prod.fst).Nodup :=
        (List.nodup_flatMap.mp h.usedOnce).1 x hx
      obtain ⟨hdef, hkeep⟩ := foldl_define x (st.xf x).stashBefore hnodupD m
      set m₁ := (st.xf x).stashBefore.foldl (StashMap.define x) m with hm₁
      -- a stash defined by an earlier command is not redefined here
      have hold : ∀ u ∈ done, ∀ s ∈ (st.xf u).stashBefore, m₁ s.1 = m s.1 := by
        intro u hu s hs
        apply hkeep
        intro hi
        obtain ⟨s', hs', heq⟩ := List.mem_map.mp hi
        have := (h.def_unique hx (hdone u hu) hs' hs heq).1
        exact hxdone (this ▸ hu)
      have hfirst : ∀ u ∈ done, ∀ s ∈ (st.xf u).stashBefore, s ∈ (st.xf x).useStash →
          m₁ s.1 = some (s.2, [u]) := by
        intro u hu s hs hsx
        rw [hold u hu s hs]
        refine (hinv u hu s hs).unused ?_
        intro y hy hsy
        have := (h.use_unique hx (hdone y hy) hsx hsy rfl).1
        exact hxdone (this ▸ hy)
      obtain ⟨m₂, hrun, hused, hrest⟩ := foldlM_use x (st.xf x).useStash hnodupU m₁ (by
        intro s hs
        obtain ⟨u, hu, hsu⟩ := hdefiner s hs
        exact ⟨u, hfirst u hu s hsu hs⟩)
      refine ⟨m₂, hrun, ?_⟩
      -- a stash that `x` does not use keeps its entry
      have hnot : ∀ u ∈ done ++ [x], ∀ s ∈ (st.xf u).stashBefore, s ∉ (st.xf x).useStash →
          m₂ s.1 = m₁ s.1 := by
        intro u hu s hs hsx
        apply hrest
        intro hi
        obtain ⟨s', hs', heq⟩ := List.mem_map.mp hi
        obtain ⟨v, hv, hsv⟩ := hdefiner s' hs'
        have := (h.def_unique (hdone v hv) (hmem u hu) hsv hs heq).2
        exact hsx (this ▸ hs')
      intro u hu s hs
      rcases List.mem_append.mp hu with hu' | hu'
      · constructor
        · intro hun
          have hsx := hun x (by simp)
          rw [hnot u hu s hs hsx, hold u hu' s hs]
          exact (hinv u hu' s hs).unused (fun y hy => hun y (by simp [hy]))
        · intro y hy hsy
          rcases List.mem_append.mp hy with hy' | hy'
          · have hsx : s ∉ (st.xf x).useStash := by
              intro hsx
              have := (h.use_unique hx (hdone y hy') hsx hsy rfl).1
              exact hxdone (this ▸ hy')
            rw [hnot u hu s hs hsx, hold u hu' s hs]
            exact (hinv u hu' s hs).used y hy' hsy
          · rw [List.mem_singleton.mp hy'] at hsy ⊢
            exact hused s hsy u (hfirst u hu' s hs hsy)
      · have hux := List.mem_singleton.mp hu'
        subst hux
        -- a command does not use the stashes it defines
        have hnever : ∀ y ∈ done ++ [u], s ∉ (st.xf y).useStash := by
          intro y hy hsy
          obtain ⟨v, hv, hsv, hprec⟩ := h.defined y (hmem y hy) s hsy
          have huv := (h.def_unique hx hv hs hsv rfl).1
          subst huv
          rcases List.mem_append.mp hy with hy' | hy'
          · obtain ⟨pre, post, rfl⟩ := List.append_of_mem hy'
            rw [hsplit, List.append_assoc, List.cons_append] at hprec hts
            have := (precedes_split hts).mp hprec
            exact hxdone (List.mem_append_left _ this)
          · rw [List.mem_singleton.mp hy'] at hprec
            exact absurd hprec (Nat.lt_irrefl _)
        constructor
        · intro _
          rw [hnot u hu s hs (hnever u hu)]
          exact hdef s hs
        · intro y hy hsy
          exact absurd hsy (hnever y hy))
  refine ⟨m, hrun, ?_⟩
  intro u x s hu hx hsu hsx
  exact (hm u hu s hsu).used x hx hsx

end Pairing

section Replace

variable {st₀ : State}

/-- The transfers of the list are those of `reducedBy`. -/
structure Agrees (st₀ : State) (C : Finset Nat) (D : Nat → Prop) [DecidablePred D]
    (st : State) : Prop where
  transfers : st.transfers = st₀.transfers
  xf : ∀ x ∈ st₀.transfers, st.xf x = (reducedBy st₀ C D).xf x

theorem Agrees.congr
    {C : Finset Nat} {D D' : Nat → Prop} [DecidablePred D] [DecidablePred D'] {st : State}
    (h : Agrees st₀ C D st) (hD : ∀ i, D i ↔ D' i) :
    Agrees st₀ C D' st := by
  refine ⟨h.transfers, fun x hx => ?_⟩
  rw [h.xf x hx]
  simp only [reducedBy, hD]

@[simp] theorem reducedBy_stashBefore
    (C : Finset Nat) (D : Nat → Prop) [DecidablePred D] (x : Nat) :
    ((reducedBy st₀ C D).xf x).stashBefore =
      (st₀.xf x).stashBefore.filter (fun s => !decide (D s.1)) := by
  simp only [reducedBy]
  split_ifs <;> rfl

theorem reducedBy_tgtRanges
    (C : Finset Nat) (D : Nat → Prop) [DecidablePred D] (x : Nat) :
    ((reducedBy st₀ C D).xf x).tgtRanges = (st₀.xf x).tgtRanges := by
  simp only [reducedBy]
  split_ifs <;> rfl

theorem reducedBy_of_notMem
    {C : Finset Nat} {D : Nat → Prop} [DecidablePred D] {x : Nat} (hx : x ∉ C) :
    (reducedBy st₀ C D).xf x = { st₀.xf x with
      stashBefore := (st₀.xf x).stashBefore.filter (fun s => !decide (D s.1)) } := by
  simp [reducedBy, hx]

theorem reducedBy_style_of_mem
    {C : Finset Nat} {D : Nat → Prop} [DecidablePred D] {x : Nat} (hx : x ∈ C) :
    ((reducedBy st₀ C D).xf x).style = .new := by
  simp [reducedBy, hx, Transfer.asNew]

theorem reducedBy_useStash
    (C : Finset Nat) (D : Nat → Prop) [DecidablePred D] (x : Nat) :
    ((reducedBy st₀ C D).xf x).useStash = if x ∈ C then [] else (st₀.xf x).useStash := by
  simp only [reducedBy]
  split_ifs <;> rfl

/-- Removing an entry by its id. -/
theorem eraseP_sameStash
    {l : List Stash} (hl : (l.map Prod.fst).Nodup) (p : Stash → Bool) {s : Stash}
    (hs : s ∈ l) (hp : p s = true) :
    (l.filter p).eraseP (sameStash s) =
      l.filter (fun a => p a && !decide (a.1 = s.1)) := by
  induction l with
  | nil => cases hs
  | cons a l ih =>
      rw [List.map_cons, List.nodup_cons] at hl
      by_cases hid : a.1 = s.1
      · have has : s = a := by
          rcases List.mem_cons.mp hs with h | h
          · exact h
          · exact absurd (hid ▸ List.mem_map_of_mem h) hl.1
        subst has
        have hrest : l.filter (fun a => p a && !decide (a.1 = s.1)) = l.filter p := by
          apply List.filter_congr
          intro b hb
          have : b.1 ≠ s.1 := by
            intro h
            exact hl.1 (h ▸ List.mem_map_of_mem hb)
          simp [this]
        rw [List.filter_cons_of_pos hp, List.eraseP_cons_of_pos (by simp [sameStash]),
          List.filter_cons_of_neg (by simp), hrest]
      · have hs' : s ∈ l := (List.mem_cons.mp hs).resolve_left (fun h => hid (h ▸ rfl))
        have hne : ¬ s.1 = a.1 := fun h => hid h.symm
        by_cases hpa : p a = true
        · rw [List.filter_cons_of_pos hpa, List.eraseP_cons_of_neg (by simp [sameStash, hne]),
            ih hl.2 hs', List.filter_cons_of_pos (by simp [hpa, hid])]
        · rw [List.filter_cons_of_neg hpa, ih hl.2 hs',
            List.filter_cons_of_neg (by simp [hpa])]

theorem not_idsUsedBy
    (hpair : StashPairing st₀.xf st₀.transfers)
    {C : Finset Nat} (hC : ∀ c ∈ C, c ∈ st₀.transfers) {cmd : Nat}
    (hcmd : cmd ∈ st₀.transfers) (hnot : cmd ∉ C) {s : Stash}
    (hs : s ∈ (st₀.xf cmd).useStash) :
    ¬ idsUsedBy st₀ C s.1 := by
  rintro ⟨c, hc, s', hs', hid⟩
  exact hnot ((hpair.use_unique (hC c hc) hcmd hs' hs hid).1 ▸ hc)

variable {m : StashMap} (hpair : StashPairing st₀.xf st₀.transfers)
  (hm : ∀ u x s, u ∈ st₀.transfers → x ∈ st₀.transfers → s ∈ (st₀.xf u).stashBefore →
    s ∈ (st₀.xf x).useStash → m s.1 = some (s.2, [u, x]))

include hpair hm

theorem removeDef_spec
    {C : Finset Nat} {D : Nat → Prop} [DecidablePred D] {st : State}
    (h : Agrees st₀ C D st) {cmd : Nat} (hcmd : cmd ∈ st₀.transfers) {s : Stash}
    (hs : s ∈ (st₀.xf cmd).useStash) (hD : ¬ D s.1) :
    ∃ st', removeDef m st s = .ok st' ∧ Agrees st₀ C (fun i => D i ∨ i = s.1) st' := by
  obtain ⟨u, hu, hsu, _⟩ := hpair.defined cmd hcmd s hs
  have hnodup : ((st₀.xf u).stashBefore.map Prod.fst).Nodup :=
    (List.nodup_flatMap.mp hpair.definedOnce).1 u hu
  have hany : (st.xf u).stashBefore.any (sameStash s) = true := by
    rw [h.xf u hu, reducedBy_stashBefore, List.any_eq_true]
    exact ⟨s, by simp [hsu, hD], by simp [sameStash]⟩
  unfold removeDef
  rw [hm u cmd s hu hcmd hsu hs]
  simp only [hany, if_true]
  refine ⟨_, rfl, ⟨h.transfers, ?_⟩⟩
  intro x hx
  rw [State.modify_xf]
  split_ifs with hxu
  · subst hxu
    rw [h.xf x hx]
    have herase := eraseP_sameStash hnodup (fun a => !decide (D a.1)) hsu (by simp [hD])
    simp only [reducedBy]
    split_ifs
    · simp [Transfer.asNew, herase]
    · simp [herase]
  · rw [h.xf x hx]
    have hfilter : (st₀.xf x).stashBefore.filter (fun a => !decide (D a.1)) =
        (st₀.xf x).stashBefore.filter (fun a => !decide (D a.1 ∨ a.1 = s.1)) := by
      apply List.filter_congr
      intro a ha
      have : a.1 ≠ s.1 := fun hid => hxu (hpair.def_unique hx hu ha hsu hid).1
      simp [this]
    simp only [reducedBy, hfilter]

theorem removeDef_all
    {C : Finset Nat} {cmd : Nat} (hcmd : cmd ∈ st₀.transfers) (ss : List Stash)
    (hss : ∀ s ∈ ss, s ∈ (st₀.xf cmd).useStash) (hnodup : (ss.map Prod.fst).Nodup)
    {D : Nat → Prop} [DecidablePred D] {st : State} (h : Agrees st₀ C D st)
    (hD : ∀ s ∈ ss, ¬ D s.1) :
    ∃ st', ss.foldlM (removeDef m) st = .ok st' ∧
      Agrees st₀ C (fun i => D i ∨ i ∈ ss.map Prod.fst) st' := by
  induction ss generalizing D st with
  | nil => exact ⟨st, rfl, h.congr (by simp)⟩
  | cons s ss ih =>
      rw [List.map_cons, List.nodup_cons] at hnodup
      obtain ⟨st₁, h₁, hag⟩ := removeDef_spec hpair hm h hcmd
        (hss s List.mem_cons_self) (hD s List.mem_cons_self)
      obtain ⟨st₂, h₂, hag₂⟩ := ih (fun a ha => hss a (List.mem_cons_of_mem _ ha)) hnodup.2
        hag (by
          intro a ha
          rintro (hDa | heq)
          · exact hD a (List.mem_cons_of_mem _ ha) hDa
          · exact hnodup.1 (heq ▸ List.mem_map_of_mem ha))
      refine ⟨st₂, ?_, hag₂.congr ?_⟩
      · rw [List.foldlM_cons, h₁]
        exact h₂
      · intro i
        rw [List.map_cons, List.mem_cons]
        tauto

/-- Replacing a command: an exception if it was converted before or is a `new`
already, else it joins the converted ones. -/
theorem replaceCmd_spec
    {C : Finset Nat} (hC : ∀ c ∈ C, c ∈ st₀.transfers) {st : State}
    (h : Agrees st₀ C (idsUsedBy st₀ C) st) {cmd : Nat} (hcmd : cmd ∈ st₀.transfers) (n : Int) :
    (cmd ∈ C ∨ (st₀.xf cmd).style = .new → ∃ e, replaceCmd m (st, n) cmd = .error e) ∧
    (cmd ∉ C → (st₀.xf cmd).style ≠ .new →
      ∃ st' n', replaceCmd m (st, n) cmd = .ok (st', n') ∧
        Agrees st₀ (insert cmd C) (idsUsedBy st₀ (insert cmd C)) st') := by
  have huse : (st.xf cmd).useStash = if cmd ∈ C then [] else (st₀.xf cmd).useStash := by
    rw [h.xf cmd hcmd, reducedBy_useStash]
  by_cases hmem : cmd ∈ C
  · refine ⟨fun _ => ⟨.assertionError, ?_⟩, fun hn => absurd hmem hn⟩
    unfold replaceCmd
    rw [huse, if_pos hmem]
    have hstyle : (st.xf cmd).style = .new := by
      rw [h.xf cmd hcmd]
      exact reducedBy_style_of_mem hmem
    simp [bind, Except.bind, pure, Except.pure, Transfer.convertToNew, hstyle]
  · obtain ⟨st₁, h₁, hag⟩ := removeDef_all hpair hm hcmd (st₀.xf cmd).useStash
      (fun s hs => hs) ((List.nodup_flatMap.mp hpair.usedOnce).1 cmd hcmd) h
      (fun s hs => not_idsUsedBy hpair hC hcmd hmem hs)
    have hxf : st₁.xf cmd = { st₀.xf cmd with
        stashBefore := ((reducedBy st₀ C (fun i => idsUsedBy st₀ C i ∨
          i ∈ (st₀.xf cmd).useStash.map Prod.fst)).xf cmd).stashBefore } := by
      rw [hag.xf cmd hcmd, reducedBy_of_notMem hmem]
    have hstyle : (st₁.xf cmd).style = (st₀.xf cmd).style := by rw [hxf]
    constructor
    · rintro (hc | hnew)
      · exact absurd hc hmem
      · refine ⟨.assertionError, ?_⟩
        unfold replaceCmd
        rw [huse, if_neg hmem]
        simp [bind, Except.bind, h₁, Transfer.convertToNew, hstyle, hnew]
    · intro _ hstyle'
      refine ⟨st₁.modify cmd (fun _ => (st₁.xf cmd).asNew),
        n + (st₁.xf cmd).tgtRanges.size, ?_, ?_⟩
      · unfold replaceCmd
        rw [huse, if_neg hmem]
        simp [bind, Except.bind, pure, Except.pure, h₁, Transfer.convertToNew, hstyle, hstyle',
          Transfer.asNew]
      · refine Agrees.congr (D := fun i => idsUsedBy st₀ C i ∨
          i ∈ (st₀.xf cmd).useStash.map Prod.fst) ⟨hag.transfers, ?_⟩ ?_
        · intro x hx
          rw [State.modify_xf]
          split_ifs with hxc
          · subst hxc
            rw [hag.xf x hx, reducedBy_of_notMem hmem]
            simp [reducedBy]
          · rw [hag.xf x hx]
            simp [reducedBy, hxc]
        · intro i
          unfold idsUsedBy
          simp only [Finset.mem_insert, exists_eq_or_imp, List.mem_map]
          exact or_comm

theorem replaceAll_of_ok
    (R : List Nat) (hR : ∀ c ∈ R, c ∈ st₀.transfers)
    {C : Finset Nat} (hC : ∀ c ∈ C, c ∈ st₀.transfers) {st st' : State} {n n' : Int}
    (h : Agrees st₀ C (idsUsedBy st₀ C) st)
    (hrun : R.foldlM (replaceCmd m) (st, n) = .ok (st', n')) :
    Agrees st₀ (C ∪ R.toFinset) (idsUsedBy st₀ (C ∪ R.toFinset)) st' := by
  induction R generalizing C st n with
  | nil =>
      cases hrun
      simpa using h
  | cons c R ih =>
      obtain ⟨⟨st₁, n₁⟩, h₁, hrest⟩ := foldlM_cons_ok hrun
      have hc := hR c List.mem_cons_self
      obtain ⟨hfail, hok⟩ := replaceCmd_spec hpair hm hC h hc n
      have hgood : c ∉ C ∧ (st₀.xf c).style ≠ .new := by
        by_contra hbad
        rw [not_and_or, not_not, not_not] at hbad
        obtain ⟨e, he⟩ := hfail hbad
        rw [he] at h₁
        cases h₁
      obtain ⟨st₂, n₂, h₂, hag⟩ := hok hgood.1 hgood.2
      rw [h₂] at h₁
      cases h₁
      have := ih (fun d hd => hR d (List.mem_cons_of_mem _ hd)) (by
        intro d hd
        rcases Finset.mem_insert.mp hd with rfl | hd
        · exact hc
        · exact hC d hd) hag hrest
      have hset : insert c C ∪ R.toFinset = C ∪ (c :: R).toFinset := by
        rw [List.toFinset_cons, Finset.insert_union, Finset.union_insert]
      rw [hset] at this
      exact this

/-- Distinct commands that are not `new` can all be replaced. -/
theorem replaceAll_total
    (R : List Nat) (hR : ∀ c ∈ R, c ∈ st₀.transfers) (hnodup : R.Nodup)
    (hstyle : ∀ c ∈ R, (st₀.xf c).style ≠ .new)
    {C : Finset Nat} (hC : ∀ c ∈ C, c ∈ st₀.transfers) (hnot : ∀ c ∈ R, c ∉ C)
    {st : State} {n : Int} (h : Agrees st₀ C (idsUsedBy st₀ C) st) :
    ∃ r, R.foldlM (replaceCmd m) (st, n) = .ok r := by
  induction R generalizing C st n with
  | nil => exact ⟨_, rfl⟩
  | cons c R ih =>
      rw [List.nodup_cons] at hnodup
      have hc := hR c List.mem_cons_self
      obtain ⟨st₁, n₁, h₁, hag⟩ := (replaceCmd_spec hpair hm hC h hc n).2
        (hnot c List.mem_cons_self) (hstyle c List.mem_cons_self)
      obtain ⟨r, hr⟩ := ih (fun d hd => hR d (List.mem_cons_of_mem _ hd)) hnodup.2
        (fun d hd => hstyle d (List.mem_cons_of_mem _ hd)) (by
          intro d hd
          rcases Finset.mem_insert.mp hd with rfl | hd
          · exact hc
          · exact hC d hd) (by
          intro d hd hmem
          rcases Finset.mem_insert.mp hmem with rfl | hmem
          · exact hnodup.1 hd
          · exact hnot d (List.mem_cons_of_mem _ hd) hmem) hag (n := n₁)
      refine ⟨r, ?_⟩
      rw [List.foldlM_cons, h₁]
      exact hr

end Replace

end BlockImageDiff
end AndroidBuild
