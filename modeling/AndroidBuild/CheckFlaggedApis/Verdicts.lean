import AndroidBuild.CheckFlaggedApis.Hierarchy

/-!
# Verdicts on flagged symbols

The errors that the flags and the hierarchy call for, and the condition under
which `findErrors` reports these and no others in every order of its sets.  Its
search does not see the interfaces above an interface, and it takes the flag of
any symbol that prints like the class for the flag of the class.
-/

namespace AndroidBuild
namespace CheckFlaggedApis

section Expected

variable (flagged : Finset (Symbol × Flag)) (flags : OrderedDict Flag Bool)
variable (output : Finset Symbol)

/-- The symbol of a class. -/
def Symbol.IsClass (c : InternalName) : Symbol → Prop
  | .classSymbol d _ _ => d = c
  | .memberSymbol _ _ => False

/-- The flag has no value, or the member's flag is enabled and that of its class has no value. -/
def Unknown (p : Symbol × Flag) : Prop :=
  flags.get? p.2 = none ∨
    ∃ c member, p.1 = .memberSymbol c member ∧ flags.get? p.2 = some true ∧
      ∃ q ∈ flagged, q.1.IsClass c ∧ flags.get? q.2 = none

def EffectivelyEnabled (p : Symbol × Flag) : Prop :=
  flags.get? p.2 = some true ∧
    ∀ c member, p.1 = .memberSymbol c member →
      ∀ q ∈ flagged, q.1.IsClass c → flags.get? q.2 = some true

/-- The errors that there should be. -/
def Expected : ApiError → Prop
  | .unknownFlag symbol flag =>
      (symbol, flag) ∈ flagged ∧ Unknown flagged flags (symbol, flag)
  | .enabledFlaggedApiNotPresent symbol flag =>
      (symbol, flag) ∈ flagged ∧ ¬ Unknown flagged flags (symbol, flag) ∧
        EffectivelyEnabled flagged flags (symbol, flag) ∧ ¬ Provided output symbol
  | .disabledFlaggedApiIsPresent symbol flag =>
      (symbol, flag) ∈ flagged ∧ ¬ Unknown flagged flags (symbol, flag) ∧
        ¬ EffectivelyEnabled flagged flags (symbol, flag) ∧ Provided output symbol

end Expected

section Reports

def ApiError.pair : ApiError → Symbol × Flag
  | .unknownFlag symbol flag => (symbol, flag)
  | .enabledFlaggedApiNotPresent symbol flag => (symbol, flag)
  | .disabledFlaggedApiIsPresent symbol flag => (symbol, flag)

/-- The error for one value of the flag. -/
def Reports (p : Symbol × Flag) (present : Prop) : Option Bool → ApiError → Prop
  | none, e => e = .unknownFlag p.1 p.2
  | some true, e => ¬ present ∧ e = .enabledFlaggedApiNotPresent p.1 p.2
  | some false, e => present ∧ e = .disabledFlaggedApiIsPresent p.1 p.2

theorem Reports.pair_eq
    {p : Symbol × Flag} {present : Prop} {v : Option Bool} {e : ApiError}
    (h : Reports p present v e) :
    e.pair = p := by
  match v, h with
  | none, h =>
      rw [h]
      rfl
  | some true, ⟨_, h⟩ =>
      rw [h]
      rfl
  | some false, ⟨_, h⟩ =>
      rw [h]
      rfl

theorem Expected.pair_mem
    {flagged : Finset (Symbol × Flag)} {flags : OrderedDict Flag Bool} {output : Finset Symbol}
    {e : ApiError} (h : Expected flagged flags output e) :
    e.pair ∈ flagged := by
  cases e <;> exact h.1

variable {output : Finset Symbol} {l : List Symbol} {depth : Nat}
variable (fl : List (Symbol × Flag)) (flags : OrderedDict Flag Bool)

theorem checkSymbol_spec
    (hl : Enumerates l output) (hform : WellFormed output) (hdepth : output.card < depth)
    (p : Symbol × Flag) :
    ∃ o, checkSymbol fl flags depth l p = .ok o ∧
      ∀ e, o = some e ↔
        Reports p (Found output p.1) (isFlagEnabledForSymbol fl flags p.1 p.2) e := by
  obtain ⟨b, hb, hfound⟩ := containsSymbol_spec hl hform hdepth p.1
  rw [checkSymbol]
  cases isFlagEnabledForSymbol fl flags p.1 p.2 with
  | none => exact ⟨_, rfl, fun e => ⟨fun h => (Option.some.inj h).symm, fun h => by rw [h]⟩⟩
  | some enabled =>
      cases enabled with
      | true =>
          refine ⟨_, by rw [hb]; rfl, fun e => ?_⟩
          rw [Reports, ← hfound]
          cases b <;> simp [eq_comm]
      | false =>
          refine ⟨_, by rw [hb]; rfl, fun e => ?_⟩
          rw [Reports, ← hfound]
          cases b <;> simp [eq_comm]

/-- The errors come from the flagged symbols one by one. -/
theorem findErrors_spec
    (hl : Enumerates l output) (hform : WellFormed output) (hdepth : output.card < depth) :
    ∃ errors, findErrors fl flags depth l = .ok errors ∧
      ∀ e, e ∈ errors ↔ ∃ p ∈ fl,
        Reports p (Found output p.1) (isFlagEnabledForSymbol fl flags p.1 p.2) e := by
  suffices H : ∀ (rest : List (Symbol × Flag)) (acc : Finset ApiError),
      ∃ errors, rest.foldlM (fun errors p => (checkSymbol fl flags depth l p).map fun o =>
          o.elim errors fun e => insert e errors) acc = .ok errors ∧
        ∀ e, e ∈ errors ↔ e ∈ acc ∨ ∃ p ∈ rest,
          Reports p (Found output p.1) (isFlagEnabledForSymbol fl flags p.1 p.2) e by
    obtain ⟨errors, hrun, hmem⟩ := H fl ∅
    have hsame : findErrors fl flags depth l =
        fl.foldlM (fun errors p => (checkSymbol fl flags depth l p).map fun o =>
          o.elim errors fun e => insert e errors) ∅ := by
      refine congrArg (fun f => fl.foldlM f ∅) (funext fun errors => funext fun p => ?_)
      refine congrArg (fun f => (checkSymbol fl flags depth l p).map f) (funext fun o => ?_)
      cases o <;> rfl
    refine ⟨errors, hsame.trans hrun, fun e => ?_⟩
    rw [hmem]
    simp
  intro rest
  induction rest with
  | nil => exact fun acc => ⟨acc, rfl, fun e => by simp⟩
  | cons p rest ih =>
      intro acc
      obtain ⟨o, ho, hreports⟩ := checkSymbol_spec fl flags hl hform hdepth p
      rw [List.foldlM_cons, ho]
      cases o with
      | none =>
          obtain ⟨errors, hrun, hmem⟩ := ih acc
          refine ⟨errors, hrun, fun e => ?_⟩
          rw [hmem, List.exists_mem_cons_iff, ← hreports]
          simp
      | some e' =>
          obtain ⟨errors, hrun, hmem⟩ := ih (insert e' acc)
          refine ⟨errors, hrun, fun e => ?_⟩
          rw [hmem, List.exists_mem_cons_iff, ← hreports, Finset.mem_insert,
            Option.some.injEq, eq_comm, or_assoc, or_left_comm]

end Reports

section Condition

variable (flagged : Finset (Symbol × Flag)) (flags : OrderedDict Flag Bool)
variable (output : Finset Symbol)

/-- When a symbol is provided, it is declared where the search looks. -/
def Visible (symbol : Symbol) : Prop :=
  Provided output symbol → Found output symbol

/-- A value of the flag leads to the right error or to none. -/
def Agrees (p : Symbol × Flag) : Option Bool → Prop
  | none => Unknown flagged flags p
  | some enabled =>
      ¬ Unknown flagged flags p ∧
        ((EffectivelyEnabled flagged flags p ↔ enabled = true) ∧ Visible output p.1 ∨
          -- the two slips make up for each other
          enabled = false ∧ EffectivelyEnabled flagged flags p ∧
            Provided output p.1 ∧ ¬ Found output p.1)

/-- The flags of the symbols that print like a class. -/
def PrintedClassFlag (c : InternalName) (v : Option Bool) : Prop :=
  (∃ q ∈ flagged, q.1.toPrettyString = c.name ∧ flags.get? q.2 = v) ∨
    (∀ q ∈ flagged, q.1.toPrettyString ≠ c.name) ∧ v = some true

/-- What is asked of the flagged members. -/
structure Unambiguous (c member : InternalName) (flag : Flag) : Prop where
  disabled : flags.get? flag = some false → Visible output (.memberSymbol c member)
  enabled : flags.get? flag = some true → ∀ v, PrintedClassFlag flagged flags c v →
    Agrees flagged flags output (.memberSymbol c member, flag) v

variable {flagged flags output}

/-- The errors of one symbol are right for exactly the values that agree. -/
theorem reports_iff_agrees
    {p : Symbol × Flag} (hp : p ∈ flagged) (v : Option Bool) :
    (∀ e, e.pair = p → (Reports p (Found output p.1) v e ↔ Expected flagged flags output e)) ↔
      Agrees flagged flags output p v := by
  obtain ⟨symbol, flag⟩ := p
  have hcases : (∀ e : ApiError, e.pair = (symbol, flag) →
        (Reports (symbol, flag) (Found output symbol) v e ↔ Expected flagged flags output e)) ↔
      (Reports (symbol, flag) (Found output symbol) v (.unknownFlag symbol flag) ↔
          Unknown flagged flags (symbol, flag)) ∧
        (Reports (symbol, flag) (Found output symbol) v
            (.enabledFlaggedApiNotPresent symbol flag) ↔
          ¬ Unknown flagged flags (symbol, flag) ∧
            EffectivelyEnabled flagged flags (symbol, flag) ∧ ¬ Provided output symbol) ∧
        (Reports (symbol, flag) (Found output symbol) v
            (.disabledFlaggedApiIsPresent symbol flag) ↔
          ¬ Unknown flagged flags (symbol, flag) ∧
            ¬ EffectivelyEnabled flagged flags (symbol, flag) ∧ Provided output symbol) := by
    constructor
    · intro h
      refine ⟨(h _ rfl).trans ?_, (h _ rfl).trans ?_, (h _ rfl).trans ?_⟩ <;>
        exact and_iff_right hp
    · rintro ⟨hunknown, henabled, hdisabled⟩ e he
      cases e with
      | unknownFlag s f =>
          cases he
          exact hunknown.trans (and_iff_right hp).symm
      | enabledFlaggedApiNotPresent s f =>
          cases he
          exact henabled.trans (and_iff_right hp).symm
      | disabledFlaggedApiIsPresent s f =>
          cases he
          exact hdisabled.trans (and_iff_right hp).symm
  refine hcases.trans ?_
  clear hcases
  have hprovided : Found output symbol → Provided output symbol := Found.provided
  by_cases hunknown : Unknown flagged flags (symbol, flag) <;>
  by_cases henabled : EffectivelyEnabled flagged flags (symbol, flag) <;>
  by_cases hpresent : Provided output symbol <;>
  by_cases hfound : Found output symbol <;>
  match v with
  | none => simp_all [Reports, Agrees]
  | some true => simp_all [Reports, Agrees, Visible]
  | some false => simp_all [Reports, Agrees, Visible]

theorem printedClassFlag_lookup
    {fl : List (Symbol × Flag)} (hfl : Enumerates fl flagged) {flag : Flag}
    (h : flags.get? flag = some true) (c member : InternalName) :
    PrintedClassFlag flagged flags c
      (isFlagEnabledForSymbol fl flags (.memberSymbol c member) flag) := by
  rw [isFlagEnabledForSymbol, h]
  cases hfind : fl.find? fun p => p.1.toPrettyString = c.name with
  | none =>
      right
      refine ⟨fun q hq => ?_, rfl⟩
      simpa using List.find?_eq_none.mp hfind q ((hfl.mem_iff q).mpr hq)
  | some q =>
      left
      refine ⟨q, (hfl.mem_iff q).mp (List.mem_of_find?_eq_some hfind), ?_, rfl⟩
      simpa using List.find?_some hfind

/-- Some order gives the flag of this symbol. -/
theorem exists_lookup
    {flag : Flag} (h : flags.get? flag = some true) (c member : InternalName) {v : Option Bool}
    (hv : PrintedClassFlag flagged flags c v) :
    ∃ fl, Enumerates fl flagged ∧
      isFlagEnabledForSymbol fl flags (.memberSymbol c member) flag = v := by
  rcases hv with ⟨q, hq, hprint, hvalue⟩ | ⟨hnone, rfl⟩
  · refine ⟨q :: (flagged.erase q).toList, ⟨?_, fun x => ?_⟩, ?_⟩
    · rw [List.nodup_cons]
      exact ⟨by simp, Finset.nodup_toList _⟩
    · rw [List.mem_cons, Finset.mem_toList, Finset.mem_erase]
      by_cases hx : x = q
      · simp [hx, hq]
      · simp [hx]
    · have hfirst : (q :: (flagged.erase q).toList).find?
          (fun p => p.1.toPrettyString = c.name) = some q :=
        List.find?_cons_of_pos (by simpa using hprint)
      rw [isFlagEnabledForSymbol, h, hfirst]
      exact hvalue
  · refine ⟨flagged.toList, ⟨Finset.nodup_toList _, fun _ => Finset.mem_toList⟩, ?_⟩
    have hnot : flagged.toList.find? (fun p => p.1.toPrettyString = c.name) = none := by
      rw [List.find?_eq_none]
      intro q hq
      simpa using hnone q (Finset.mem_toList.mp hq)
    rw [isFlagEnabledForSymbol, h, hnot]

/-- All orders agree when the flagged members are unambiguous. -/
theorem agrees_iff_unambiguous
    {p : Symbol × Flag} :
    (∀ fl, Enumerates fl flagged →
        Agrees flagged flags output p (isFlagEnabledForSymbol fl flags p.1 p.2)) ↔
      ∀ c member, p.1 = .memberSymbol c member →
        Unambiguous flagged flags output c member p.2 := by
  obtain ⟨symbol, flag⟩ := p
  cases symbol with
  | classSymbol c superclass interfaces =>
      refine iff_of_true (fun fl _ => ?_) (fun _ _ h => by cases h)
      change Agrees _ _ _ _ (flags.get? flag)
      cases hvalue : flags.get? flag with
      | none => exact Or.inl hvalue
      | some enabled =>
          refine ⟨?_, Or.inl ⟨?_, fun h => h⟩⟩
          · rintro (h | ⟨_, _, h, _⟩)
            · rw [hvalue] at h
              cases h
            · cases h
          · rw [EffectivelyEnabled, hvalue, Option.some.injEq]
            exact and_iff_left (fun _ _ h => by cases h)
  | memberSymbol c member =>
      have hself : (∀ c' member', Symbol.memberSymbol c member = .memberSymbol c' member' →
          Unambiguous flagged flags output c' member' flag) ↔
            Unambiguous flagged flags output c member flag := by
        constructor
        · exact fun h => h c member rfl
        · rintro h _ _ heq
          cases heq
          exact h
      refine Iff.trans ?_ hself.symm
      cases hvalue : flags.get? flag with
      | none =>
          refine iff_of_true (fun fl _ => ?_) ⟨fun h => ?_, fun h => ?_⟩
          · rw [isFlagEnabledForSymbol, hvalue]
            exact Or.inl hvalue
          · rw [hvalue] at h
            cases h
          · rw [hvalue] at h
            cases h
      | some enabled =>
          cases enabled with
          | false =>
              have hknown : ¬ Unknown flagged flags (.memberSymbol c member, flag) := by
                rintro (h | ⟨_, _, _, h, _⟩) <;>
                · rw [hvalue] at h
                  cases h
              have hdisabled :
                  ¬ EffectivelyEnabled flagged flags (.memberSymbol c member, flag) := by
                rintro ⟨h, _⟩
                rw [hvalue] at h
                cases h
              constructor
              · intro h
                refine ⟨fun _ => ?_, fun htrue => ?_⟩
                · have := h flagged.toList ⟨Finset.nodup_toList _, fun _ => Finset.mem_toList⟩
                  rw [isFlagEnabledForSymbol, hvalue] at this
                  rcases this.2 with h | h
                  · exact h.2
                  · exact absurd h.2.1 hdisabled
                · rw [hvalue] at htrue
                  cases htrue
              · intro h fl _
                rw [isFlagEnabledForSymbol, hvalue]
                exact ⟨hknown, Or.inl ⟨iff_of_false hdisabled (by decide), h.disabled hvalue⟩⟩
          | true =>
              constructor
              · intro h
                refine ⟨fun hfalse => ?_, fun _ v hv => ?_⟩
                · rw [hvalue] at hfalse
                  cases hfalse
                · obtain ⟨fl, hfl, rfl⟩ := exists_lookup hvalue c member hv
                  exact h fl hfl
              · intro h fl hfl
                exact h.enabled hvalue _ (printedClassFlag_lookup hfl hvalue c member)

/-- In every order exactly the expected errors are reported, if and only if the flagged members
are unambiguous. -/
theorem findErrors_iff
    (flagged : Finset (Symbol × Flag)) (flags : OrderedDict Flag Bool) {output : Finset Symbol}
    (hform : WellFormed output) {depth : Nat} (hdepth : output.card < depth) :
    (∀ fl l, Enumerates fl flagged → Enumerates l output →
        ∃ errors, findErrors fl flags depth l = .ok errors ∧
          ∀ e, e ∈ errors ↔ Expected flagged flags output e) ↔
      ∀ c member flag, (Symbol.memberSymbol c member, flag) ∈ flagged →
        Unambiguous flagged flags output c member flag := by
  have hone : ∀ fl l, Enumerates fl flagged → Enumerates l output →
      ((∃ errors, findErrors fl flags depth l = .ok errors ∧
          ∀ e, e ∈ errors ↔ Expected flagged flags output e) ↔
        ∀ p ∈ flagged, Agrees flagged flags output p
          (isFlagEnabledForSymbol fl flags p.1 p.2)) := by
    intro fl l hfl hl
    obtain ⟨errors, hrun, hmem⟩ := findErrors_spec fl flags hl hform hdepth
    have herrors : (∃ errors, findErrors fl flags depth l = .ok errors ∧
          ∀ e, e ∈ errors ↔ Expected flagged flags output e) ↔
        ∀ e, e ∈ errors ↔ Expected flagged flags output e := by
      rw [hrun]
      simp
    refine herrors.trans ?_
    -- an error belongs to one flagged symbol
    constructor
    · intro h p hp
      rw [← reports_iff_agrees hp]
      rintro e rfl
      rw [← h e, hmem e]
      constructor
      · exact fun hreports => ⟨e.pair, (hfl.mem_iff _).mpr hp, hreports⟩
      · rintro ⟨p, _, hreports⟩
        rw [hreports.pair_eq]
        exact hreports
    · intro h e
      rw [hmem e]
      constructor
      · rintro ⟨p, hp, hreports⟩
        have hp' := (hfl.mem_iff p).mp hp
        exact ((reports_iff_agrees hp' _).mpr (h p hp') e hreports.pair_eq).mp hreports
      · intro hexpected
        have hp := hexpected.pair_mem
        exact ⟨e.pair, (hfl.mem_iff _).mpr hp,
          ((reports_iff_agrees hp _).mpr (h e.pair hp) e rfl).mpr hexpected⟩
  have hlist : Enumerates output.toList output :=
    ⟨Finset.nodup_toList _, fun _ => Finset.mem_toList⟩
  constructor
  · intro h c member flag hp
    refine (agrees_iff_unambiguous (p := (.memberSymbol c member, flag))).mp
      (fun fl hfl => ?_) c member rfl
    exact (hone fl _ hfl hlist).mp (h fl _ hfl hlist) _ hp
  · intro h fl l hfl hl
    refine (hone fl l hfl hl).mpr fun p hp => ?_
    refine agrees_iff_unambiguous.mpr (fun c member heq => ?_) fl hfl
    obtain ⟨symbol, flag⟩ := p
    cases heq
    exact h c member flag hp

end Condition

section Samples

open Text

/-- `C` implements `I`, which extends `J`. -/
def sampleOutput (declaring : Str) : List Symbol :=
  [createClass "C".toList none ["I".toList], createClass "I".toList none ["J".toList],
    createClass "J".toList none [], createMethod declaring "m()V".toList]

def sampleFlagged : List (Symbol × Flag) :=
  [(createMethod "C".toList "m()V".toList, ⟨"f"⟩)]

def sampleFlags : OrderedDict Flag Bool :=
  OrderedDict.set OrderedDict.empty ⟨"f"⟩ true

theorem sample_link
    {declaring : Str} {c d : InternalName} (h : Link (sampleOutput declaring).toFinset c d) :
    c = toInternalFormat "C".toList ∧ d = toInternalFormat "I".toList ∨
      c = toInternalFormat "I".toList ∧ d = toInternalFormat "J".toList := by
  rcases h with ⟨interfaces, h⟩ | ⟨superclass, interfaces, h, hd⟩
  · simp [HasClass, sampleOutput, createClass, createMethod] at h
  · simp only [HasClass, sampleOutput, createClass, createMethod, List.mem_toFinset,
      List.mem_cons, List.not_mem_nil, or_false, Symbol.classSymbol.injEq, reduceCtorEq] at h
    rcases h with ⟨hc, _, hi⟩ | ⟨hc, _, hi⟩ | ⟨hc, _, hi⟩
    · rw [hi] at hd
      exact Or.inl ⟨hc, by simpa using hd⟩
    · rw [hi] at hd
      exact Or.inr ⟨hc, by simpa using hd⟩
    · rw [hi] at hd
      simp at hd

theorem sample_wellFormed
    (declaring : Str) :
    WellFormed (sampleOutput declaring).toFinset where
  unique := by
    intro c superclass interfaces superclass' interfaces' h h'
    simp only [HasClass, sampleOutput, createClass, createMethod, List.mem_toFinset,
      List.mem_cons, List.not_mem_nil, or_false, Symbol.classSymbol.injEq, reduceCtorEq] at h h'
    rcases h with ⟨hc, hs, hi⟩ | ⟨hc, hs, hi⟩ | ⟨hc, hs, hi⟩ <;>
    rcases h' with ⟨hc', hs', hi'⟩ | ⟨hc', hs', hi'⟩ | ⟨hc', hs', hi'⟩ <;>
    first
      | exact ⟨hs.trans hs'.symm, hi.trans hi'.symm⟩
      | exact absurd (hc.symm.trans hc') (by decide)
  acyclic := by
    intro c hcycle
    have hreach : ∀ d, Relation.TransGen (Link (sampleOutput declaring).toFinset) c d →
        c = toInternalFormat "C".toList ∧ d ≠ toInternalFormat "C".toList ∨
          c = toInternalFormat "I".toList ∧ d = toInternalFormat "J".toList := by
      intro d h
      induction h with
      | single h =>
          rcases sample_link h with ⟨hc, rfl⟩ | ⟨hc, rfl⟩
          · exact Or.inl ⟨hc, by decide⟩
          · exact Or.inr ⟨hc, rfl⟩
      | tail _ h ih =>
          rcases ih with ⟨hc, hne⟩ | ⟨_, rfl⟩
          · rcases sample_link h with ⟨rfl, _⟩ | ⟨_, rfl⟩
            · exact absurd rfl hne
            · exact Or.inl ⟨hc, by decide⟩
          · rcases sample_link h with ⟨heq, _⟩ | ⟨heq, _⟩ <;>
              exact absurd heq (by decide)
    rcases hreach c hcycle with ⟨hc, hne⟩ | ⟨hI, hJ⟩
    · exact hne hc
    · exact absurd (hI.symm.trans hJ) (by decide)

theorem sample_enumerates
    {declaring : Str} : Enumerates (sampleOutput declaring) (sampleOutput declaring).toFinset where
  nodup := by
    simp only [sampleOutput, createClass, createMethod, List.nodup_cons, List.mem_cons,
      List.not_mem_nil, Symbol.classSymbol.injEq, reduceCtorEq, or_false, not_or]
    decide
  mem_iff := fun _ => List.mem_toFinset.symm

theorem sample_unambiguous
    {c member : InternalName} {flag : Flag}
    (h : (Symbol.memberSymbol c member, flag) ∈ sampleFlagged.toFinset) :
    Unambiguous sampleFlagged.toFinset sampleFlags (sampleOutput "I".toList).toFinset
      c member flag := by
  have hpair : ∀ q ∈ sampleFlagged.toFinset,
      q = (createMethod "C".toList "m()V".toList, ⟨"f"⟩) := by
    intro q hq
    simpa [sampleFlagged] using hq
  obtain ⟨⟨rfl, rfl⟩, rfl⟩ : (c = toInternalFormat "C".toList ∧
      member = toInternalFormat "m()V".toList) ∧ flag = ⟨"f"⟩ := by
    simpa [createMethod] using hpair _ h
  have hprint : ∀ q ∈ sampleFlagged.toFinset,
      q.1.toPrettyString ≠ (toInternalFormat "C".toList).name := by
    intro q hq
    rw [hpair q hq]
    decide
  have hclass : ∀ c, ∀ q ∈ sampleFlagged.toFinset, ¬ q.1.IsClass c := by
    intro c q hq
    rw [hpair q hq]
    exact fun h => h
  have hfound : Found (sampleOutput "I".toList).toFinset
      (.memberSymbol (toInternalFormat "C".toList) (toInternalFormat "m()V".toList)) := by
    refine ⟨_, .refl, Or.inr ⟨toInternalFormat "I".toList, ?_, ?_⟩⟩
    · exact ⟨none, _, List.mem_toFinset.mpr List.mem_cons_self, by decide⟩
    · exact List.mem_toFinset.mpr (by decide)
  refine ⟨fun _ _ => hfound, fun hvalue v hv => ?_⟩
  obtain rfl : v = some true := by
    rcases hv with ⟨q, hq, heq, _⟩ | ⟨_, hv⟩
    · exact absurd heq (hprint q hq)
    · exact hv
  refine ⟨?_, Or.inl ⟨iff_of_true ⟨hvalue, ?_⟩ rfl, fun _ => hfound⟩⟩
  · rintro (h | ⟨_, _, _, _, q, hq, hc, _⟩)
    · rw [hvalue] at h
      cases h
    · exact hclass _ q hq hc
  · exact fun c _ _ q hq hc => absurd hc (hclass c q hq)

/-- A member that the direct interface declares gets no error. -/
theorem findErrors_direct :
    ∃ errors, findErrors sampleFlagged sampleFlags 5 (sampleOutput "I".toList) = .ok errors ∧
      ∀ e, e ∈ errors ↔
        Expected sampleFlagged.toFinset sampleFlags (sampleOutput "I".toList).toFinset e := by
  have hdepth : (sampleOutput "I".toList).toFinset.card < 5 := by
    decide +kernel
  have hiff := findErrors_iff sampleFlagged.toFinset sampleFlags (sample_wellFormed _) hdepth
  exact hiff.mpr (fun _ _ _ => sample_unambiguous) _ _
    ⟨by decide, fun _ => List.mem_toFinset.symm⟩ sample_enumerates

/-- A member that only the interface above declares is reported as missing. -/
theorem findErrors_missed :
    WellFormed (sampleOutput "J".toList).toFinset ∧
      Provided (sampleOutput "J".toList).toFinset (createMethod "C".toList "m()V".toList) ∧
      findErrors sampleFlagged sampleFlags 5 (sampleOutput "J".toList) =
        .ok {.enabledFlaggedApiNotPresent (createMethod "C".toList "m()V".toList) ⟨"f"⟩} ∧
      ¬ Expected sampleFlagged.toFinset sampleFlags (sampleOutput "J".toList).toFinset
        (.enabledFlaggedApiNotPresent (createMethod "C".toList "m()V".toList) ⟨"f"⟩) := by
  have hprovided : Provided (sampleOutput "J".toList).toFinset
      (createMethod "C".toList "m()V".toList) := by
    have hCI : Link (sampleOutput "J".toList).toFinset (toInternalFormat "C".toList)
        (toInternalFormat "I".toList) :=
      Or.inr ⟨none, _, List.mem_toFinset.mpr List.mem_cons_self, by decide⟩
    have hIJ : Link (sampleOutput "J".toList).toFinset (toInternalFormat "I".toList)
        (toInternalFormat "J".toList) :=
      Or.inr ⟨none, _, List.mem_toFinset.mpr (List.mem_cons_of_mem _ List.mem_cons_self),
        by decide⟩
    refine ⟨toInternalFormat "J".toList, (Relation.ReflTransGen.single hCI).tail hIJ, ?_⟩
    exact List.mem_toFinset.mpr (by decide)
  refine ⟨sample_wellFormed _, hprovided, by rfl, ?_⟩
  rintro ⟨_, _, _, hnot⟩
  exact hnot hprovided

end Samples

end CheckFlaggedApis
end AndroidBuild
