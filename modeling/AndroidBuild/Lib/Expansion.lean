import AndroidBuild.Lib.Placeholders

/-!
# Repeated replacement of placeholders

The placeholders of a text may be defined by texts that have placeholders
again.  One pass replaces the defined placeholders one after the other; passes
are repeated until none is found.

* `passes_spec`: where the definitions below the text have a bounded height, so
  many passes reach the full expansion of the text, in whatever order the
  definitions are listed.
* `heightAtMost_of_acyclic`: definitions without a cycle have a height that is
  not greater than their number.
* `passes_of_cyclic`: below a cycle no pass is the last.
-/

namespace AndroidBuild
namespace Expansion

open Placeholders

variable {α : Type} [DecidableEq α]

section Passes

variable (T : List (List α × List α))

/-- Replace one placeholder, and tell whether any placeholder was found up to now. -/
def replaceFound (r : List α × Bool) (e : List α × List α) : List α × Bool :=
  if e.1 <:+: r.1 then (replace e.1 e.2 r.1, true) else r

/-- Replace each defined placeholder in turn, and tell whether one was found. -/
def pass (text : List α) : List α × Bool :=
  T.foldl replaceFound (text, false)

/-- Repeat the passes until none is found; the flag tells that there were too many. -/
def passes : Nat → List α → List α × Bool
  | 0, text => (text, true)
  | retries + 1, text =>
      let r := pass T text
      if r.2 then passes retries r.1 else (r.1, false)

end Passes

/-- A text in which each opening element opens a placeholder. -/
inductive Bracketed (o c : α) : List α → Prop
  | nil :
      Bracketed o c []
  | other {a : α} {rest : List α} :
      a ≠ o →
      Bracketed o c rest →
      Bracketed o c (a :: rest)
  | placeholder {p rest : List α} :
      IsPlaceholder o c p →
      Bracketed o c rest →
      Bracketed o c (p ++ rest)

/-- Definitions of different placeholders by texts with placeholders. -/
structure Definitions (o c : α) where
  entries : List (List α × List α)
  nodup : (entries.map Prod.fst).Nodup
  placeholders : ∀ e ∈ entries, IsPlaceholder o c e.1
  bracketed : ∀ e ∈ entries, Bracketed o c e.2

section Specification

variable (o c : α) (E : List (List α × List α))

/-- The full recursive expansion of a text; what is not defined is kept. -/
inductive Expands : List α → List α → Prop
  | nil :
      Expands [] []
  | other {a : α} {rest t : List α} :
      a ≠ o →
      Expands rest t →
      Expands (a :: rest) (a :: t)
  | kept {p rest t : List α} :
      IsPlaceholder o c p →
      (∀ v, (p, v) ∉ E) →
      Expands rest t →
      Expands (p ++ rest) (p ++ t)
  | defined {p v s rest t : List α} :
      IsPlaceholder o c p →
      (p, v) ∈ E →
      Expands v s →
      Expands rest t →
      Expands (p ++ rest) (s ++ t)

/-- The text has the placeholder. -/
def Refers (text q : List α) : Prop :=
  IsPlaceholder o c q ∧ q <:+: text

/-- The definition of `p` has the placeholder `q`. -/
def Depends (p q : List α) : Prop :=
  ∃ v, (p, v) ∈ E ∧ Refers o c v q

/-- Definitions are nested at most so deep below the placeholder. -/
def HeightAtMost : Nat → List α → Prop
  | 0, p => ∀ v, (p, v) ∉ E
  | n + 1, p => ∀ q, Depends o c E p q → HeightAtMost n q

/-- A cycle of definitions is reached. -/
def ReachesCycle (p : List α) : Prop :=
  ∃ q, Relation.ReflTransGen (Depends o c E) p q ∧ Relation.TransGen (Depends o c E) q q

end Specification

section Brackets

variable {o c : α} {p q v x y text : List α}

theorem infix_iff_occurrences
    (hp : p ≠ []) :
    p <:+: text ↔ occurrences p text ≠ 0 := by
  induction text with
  | nil => simp [occurrences, hp]
  | cons a text ih =>
      rw [List.infix_cons_iff, ih, occurrences]
      split_ifs with hstart
      · simp [hstart]
      · simp [hstart]

theorem occurrences_other
    {a : α} (ha : a ≠ o) (hp : IsPlaceholder o c p) :
    occurrences p (a :: text) = occurrences p text := by
  obtain ⟨w, rfl, _⟩ := hp
  rw [occurrences, if_neg, Nat.zero_add]
  intro hstart
  exact ha (List.cons_prefix_cons.mp hstart).1.symm

theorem occurrences_placeholder_append
    (hne : o ≠ c) (hp : IsPlaceholder o c p) (hq : IsPlaceholder o c q) :
    occurrences p (q ++ text) = (if p = q then 1 else 0) + occurrences p text := by
  have hsplit := hp.occurrences_split hne hq (x := []) (y := text)
  simpa [occurrences] using hsplit

theorem replace_other
    {a : α} (ha : a ≠ o) (hp : IsPlaceholder o c p) :
    replace p v (a :: text) = a :: replace p v text := by
  have hnone : matchAt [(p, v)] (a :: text) = none := by
    obtain ⟨w, rfl, _⟩ := hp
    rw [matchAt, List.find?_eq_none]
    intro e he hstart
    rw [List.mem_singleton.mp he] at hstart
    exact ha (List.cons_prefix_cons.mp (of_decide_eq_true hstart)).1.symm
  rw [replace, substitute, substituteFrom, hnone]
  rfl

theorem replace_placeholder_append
    (hne : o ≠ c) (hp : IsPlaceholder o c p) (hq : IsPlaceholder o c q) :
    replace p v (q ++ text) = (if q = p then v else q) ++ replace p v text := by
  have hT : ∀ e ∈ [(p, v)], IsPlaceholder o c e.1 := by
    intro e he
    rw [List.mem_singleton.mp he]
    exact hp
  have hsplit := substitute_split hne hT hq (x := []) (y := text)
  rw [List.nil_append] at hsplit
  have hhere : substitute [(p, v)] q = if q = p then v else q := by
    split_ifs with heq
    · rw [heq]
      exact replace_self hne hp
    · refine substitute_other hne hT hq ?_
      intro e he
      rw [List.mem_singleton.mp he]
      exact Ne.symm heq
  rw [replace, hsplit, hhere]
  rfl

omit [DecidableEq α] in
theorem Bracketed.append
    (hx : Bracketed o c x) (hy : Bracketed o c y) :
    Bracketed o c (x ++ y) := by
  induction hx with
  | nil => exact hy
  | other ha _ ih => exact .other ha ih
  | placeholder hp _ ih =>
      rw [List.append_assoc]
      exact .placeholder hp ih

theorem Bracketed.occurrences_append
    (hne : o ≠ c) (hp : IsPlaceholder o c p) (hx : Bracketed o c x) :
    occurrences p (x ++ y) = occurrences p x + occurrences p y := by
  induction hx with
  | nil => simp [occurrences]
  | other ha _ ih =>
      rw [List.cons_append, occurrences_other ha hp, occurrences_other ha hp, ih]
  | placeholder hq _ ih =>
      rw [List.append_assoc, occurrences_placeholder_append hne hp hq,
        occurrences_placeholder_append hne hp hq, ih, Nat.add_assoc]

theorem Bracketed.replace
    (hne : o ≠ c) (hp : IsPlaceholder o c p) (hv : Bracketed o c v) (h : Bracketed o c text) :
    Bracketed o c (replace p v text) := by
  induction h with
  | nil => exact .nil
  | other ha _ ih =>
      rw [replace_other ha hp]
      exact .other ha ih
  | placeholder hq _ ih =>
      rw [replace_placeholder_append hne hp hq]
      split_ifs
      · exact hv.append ih
      · exact .placeholder hq ih

/-- What a text has after a replacement: what it had before, and what the values have. -/
theorem Bracketed.occurrences_replace
    (hne : o ≠ c) (hp : IsPlaceholder o c p) (hq : IsPlaceholder o c q) (hv : Bracketed o c v)
    (h : Bracketed o c text) :
    occurrences q (Placeholders.replace p v text) =
      (if q = p then 0 else occurrences q text) + occurrences p text * occurrences q v := by
  induction h with
  | nil => simp [Placeholders.replace, substitute, substituteFrom, occurrences]
  | other ha _ ih =>
      rw [replace_other ha hp, occurrences_other ha hq, occurrences_other ha hq,
        occurrences_other ha hp]
      exact ih
  | @placeholder r rest hr _ ih =>
      rw [replace_placeholder_append hne hp hr, occurrences_placeholder_append hne hq hr,
        occurrences_placeholder_append hne hp hr]
      by_cases heq : r = p
      · subst heq
        rw [if_pos rfl, hv.occurrences_append hne hq, ih, if_pos rfl]
        split_ifs <;> ring
      · rw [if_neg heq, occurrences_placeholder_append hne hq hr, ih, if_neg (Ne.symm heq)]
        by_cases hqp : q = p
        · rw [if_pos hqp, if_pos hqp, if_neg (hqp ▸ Ne.symm heq)]
          ring
        · rw [if_neg hqp, if_neg hqp]
          ring

theorem Bracketed.refers_replace_iff
    (hne : o ≠ c) (hp : IsPlaceholder o c p) (hv : Bracketed o c v) (h : Bracketed o c text) :
    Refers o c (Placeholders.replace p v text) q ↔
      q ≠ p ∧ Refers o c text q ∨ Refers o c text p ∧ Refers o c v q := by
  by_cases hq : IsPlaceholder o c q
  · simp only [Refers, hq, hp, true_and, infix_iff_occurrences hq.ne_nil,
      infix_iff_occurrences hp.ne_nil]
    rw [hv.occurrences_replace hne hp hq h]
    by_cases heq : q = p
    · simp [heq]
    · rw [if_neg heq, Ne, Nat.add_eq_zero_iff, Nat.mul_eq_zero]
      tauto
  · simp [Refers, hq]

end Brackets

section Expansions

variable {o c : α} {E : List (List α × List α)} {T : Definitions o c}
  {p v text t rest : List α}

omit [DecidableEq α] in
/-- A text whose placeholders are not defined is its own expansion. -/
theorem expands_self
    (h : Bracketed o c text)
    (hundefined : ∀ q, Refers o c text q → ∀ v, (q, v) ∉ E) :
    Expands o c E text text := by
  induction h with
  | nil => exact .nil
  | other ha _ ih =>
      refine .other ha (ih fun q hq => hundefined q ⟨hq.1, ?_⟩)
      exact hq.2.trans (List.suffix_cons _ _).isInfix
  | placeholder hp _ ih =>
      refine .kept hp (hundefined _ ⟨hp, List.prefix_append _ _ |>.isInfix⟩)
        (ih fun q hq => hundefined q ⟨hq.1, ?_⟩)
      exact hq.2.trans (List.suffix_append _ _).isInfix

omit [DecidableEq α] in
theorem Definitions.eq_of_mem
    {v' : List α} (h : (p, v) ∈ T.entries) (h' : (p, v') ∈ T.entries) :
    v = v' :=
  congrArg Prod.snd (List.inj_on_of_nodup_map T.nodup h h' rfl)

omit [DecidableEq α] in
theorem Expands.of_nil
    (ht : Expands o c E [] t) :
    t = [] := by
  generalize htext : ([] : List α) = text at ht
  cases ht with
  | nil => rfl
  | other => cases htext
  | kept hq => exact absurd (List.append_eq_nil_iff.mp htext.symm).1 hq.ne_nil
  | defined hq => exact absurd (List.append_eq_nil_iff.mp htext.symm).1 hq.ne_nil

omit [DecidableEq α] in
/-- A placeholder at the head of a text is expanded on its own. -/
theorem Expands.of_placeholder
    (hne : o ≠ c) (hp : IsPlaceholder o c p) (ht : Expands o c E (p ++ rest) t) :
    ∃ s u, t = s ++ u ∧ Expands o c E rest u ∧
      ((∀ v, (p, v) ∉ E) ∧ s = p ∨ ∃ v, (p, v) ∈ E ∧ Expands o c E v s) := by
  have hsame : ∀ {q back : List α}, IsPlaceholder o c q → q ++ back = p ++ rest →
      q = p ∧ back = rest := by
    intro q back hq heq
    have hqp : q = p := hq.eq_of_begins hne hp ⟨back, heq⟩
    subst hqp
    exact ⟨rfl, List.append_cancel_left heq⟩
  generalize htext : p ++ rest = text at ht
  cases ht with
  | nil => exact absurd (List.append_eq_nil_iff.mp htext).1 hp.ne_nil
  | other ha _ =>
      obtain ⟨w, rfl, _⟩ := hp
      exact absurd (List.cons.inj htext).1.symm ha
  | kept hq hundefined hrest =>
      obtain ⟨rfl, rfl⟩ := hsame hq htext.symm
      exact ⟨_, _, rfl, hrest, Or.inl ⟨hundefined, rfl⟩⟩
  | defined hq hmem hvalue hrest =>
      obtain ⟨rfl, rfl⟩ := hsame hq htext.symm
      exact ⟨_, _, rfl, hrest, Or.inr ⟨_, hmem, hvalue⟩⟩

omit [DecidableEq α] in
theorem Expands.of_other
    {a : α} (ha : a ≠ o) (ht : Expands o c E (a :: rest) t) :
    ∃ u, t = a :: u ∧ Expands o c E rest u := by
  have hhead : ∀ {q back : List α}, IsPlaceholder o c q → q ++ back ≠ a :: rest := by
    rintro q back ⟨w, rfl, _⟩ heq
    exact ha (List.cons.inj heq).1.symm
  generalize htext : a :: rest = text at ht
  cases ht with
  | nil => cases htext
  | other _ hrest =>
      obtain ⟨rfl, rfl⟩ := List.cons.inj htext
      exact ⟨_, rfl, hrest⟩
  | kept hq _ _ => exact absurd htext.symm (hhead hq)
  | defined hq _ _ _ => exact absurd htext.symm (hhead hq)

omit [DecidableEq α] in
/-- A text has one expansion. -/
theorem Expands.unique
    (hne : o ≠ c) {t' : List α} (ht : Expands o c T.entries text t) (ht' : Expands o c T.entries text t') :
    t = t' := by
  induction ht generalizing t' with
  | nil => exact ht'.of_nil.symm
  | other ha _ ih =>
      obtain ⟨u, rfl, hu⟩ := ht'.of_other ha
      rw [ih hu]
  | kept hp hundefined _ ih =>
      obtain ⟨s, u, rfl, hu, ⟨_, rfl⟩ | ⟨v, hmem, _⟩⟩ := ht'.of_placeholder hne hp
      · rw [ih hu]
      · exact absurd hmem (hundefined v)
  | defined hp hmem _ _ ihv ih =>
      obtain ⟨s, u, rfl, hu, ⟨hundefined, _⟩ | ⟨v', hmem', hv'⟩⟩ :=
        ht'.of_placeholder hne hp
      · exact absurd hmem (hundefined _)
      · rw [T.eq_of_mem hmem' hmem] at hv'
        rw [ihv hv', ih hu]

omit [DecidableEq α] in
/-- The first of two texts is expanded on its own, when it is bracketed. -/
theorem Expands.of_append
    (hne : o ≠ c) (h : Bracketed o c text) (ht : Expands o c T.entries (text ++ rest) t) :
    ∃ s u, t = s ++ u ∧ Expands o c T.entries text s ∧ Expands o c T.entries rest u := by
  induction h generalizing t with
  | nil => exact ⟨[], t, rfl, .nil, ht⟩
  | other ha _ ih =>
      obtain ⟨_, rfl, hrest⟩ := ht.of_other ha
      obtain ⟨s, u, rfl, hs, hu⟩ := ih hrest
      exact ⟨_, u, rfl, .other ha hs, hu⟩
  | placeholder hp _ ih =>
      rw [List.append_assoc] at ht
      obtain ⟨r, _, rfl, hrest, hr⟩ := ht.of_placeholder hne hp
      obtain ⟨s, u, rfl, hs, hu⟩ := ih hrest
      refine ⟨r ++ s, u, (List.append_assoc _ _ _).symm, ?_, hu⟩
      rcases hr with ⟨hundefined, rfl⟩ | ⟨v, hmem, hv⟩
      · exact .kept hp hundefined hs
      · exact .defined hp hmem hv hs

/-- The expansion of a text is that of the text with a definition put in. -/
theorem Expands.of_replace
    (hne : o ≠ c) (hmem : (p, v) ∈ T.entries) (h : Bracketed o c text)
    (ht : Expands o c T.entries (replace p v text) t) :
    Expands o c T.entries text t := by
  have hp := T.placeholders _ hmem
  induction h generalizing t with
  | nil => exact ht
  | other ha _ ih =>
      rw [replace_other ha hp] at ht
      obtain ⟨u, rfl, hu⟩ := ht.of_other ha
      exact .other ha (ih hu)
  | @placeholder q rest hq _ ih =>
      rw [replace_placeholder_append hne hp hq] at ht
      split_ifs at ht with heq
      · obtain ⟨s, u, rfl, hs, hu⟩ := ht.of_append hne (T.bracketed _ hmem)
        rw [heq]
        exact .defined hp hmem hs (ih hu)
      · obtain ⟨s, u, rfl, hu, ⟨hundefined, rfl⟩ | ⟨w, hdefined, hw⟩⟩ :=
          ht.of_placeholder hne hq
        · exact .kept hq hundefined (ih hu)
        · exact .defined hq hdefined hw (ih hu)

end Expansions

section Heights

variable {o c : α} {T : Definitions o c} {p q v text : List α}

omit [DecidableEq α] in
theorem HeightAtMost.of_undefined
    (h : ∀ v, (p, v) ∉ T.entries) (n : Nat) :
    HeightAtMost o c T.entries n p := by
  cases n with
  | zero => exact h
  | succ n =>
      rintro q ⟨v, hmem, _⟩
      exact absurd hmem (h v)

omit [DecidableEq α] in
theorem HeightAtMost.succ
    {n : Nat} (h : HeightAtMost o c T.entries n p) :
    HeightAtMost o c T.entries (n + 1) p := by
  induction n generalizing p with
  | zero => exact .of_undefined h 1
  | succ n ih => exact fun q hq => ih (h q hq)

/-- Definitions that are nested without a cycle are nested at most as deep as there are
placeholders to nest. -/
theorem heightAtMost_of_acyclic
    {names : Finset (List α)} (h : ¬ ReachesCycle o c T.entries p)
    (hnames : ∀ q v, Relation.ReflTransGen (Depends o c T.entries) p q → (q, v) ∈ T.entries → q ∈ names) :
    HeightAtMost o c T.entries names.card p := by
  induction hn : names.card generalizing names p with
  | zero =>
      intro v hmem
      have hp := hnames p v .refl hmem
      rw [Finset.card_eq_zero.mp hn] at hp
      exact absurd hp (Finset.notMem_empty _)
  | succ n ih =>
      intro q hq
      have hp : p ∈ names := by
        obtain ⟨v, hmem, _⟩ := hq
        exact hnames p v .refl hmem
      have hcard : (names.erase p).card = n := by
        rw [Finset.card_erase_of_mem hp, hn]
        rfl
      refine ih ?_ ?_ hcard
      · rintro ⟨r, hr, hcycle⟩
        exact h ⟨r, .head hq hr, hcycle⟩
      · intro r v hr hmem
        rw [Finset.mem_erase]
        refine ⟨?_, hnames r v (.head hq hr) hmem⟩
        -- a path back to `p` would close a cycle
        rintro rfl
        exact h ⟨r, .refl, .head' hq hr⟩

end Heights

section Runs

variable {o c : α} {T : Definitions o c} {p v text : List α} {es : List (List α × List α)}

theorem foldl_replaceFound_true
    (text : List α) :
    (es.foldl replaceFound (text, true)).2 = true := by
  induction es generalizing text with
  | nil => rfl
  | cons e es ih =>
      rw [List.foldl_cons, replaceFound]
      split_ifs
      · exact ih _
      · exact ih _

/-- A pass that finds no placeholder leaves the text as it is. -/
theorem foldl_replaceFound_false
    (h : (es.foldl replaceFound (text, false)).2 = false) :
    (es.foldl replaceFound (text, false)).1 = text ∧ ∀ e ∈ es, ¬ e.1 <:+: text := by
  induction es with
  | nil => exact ⟨rfl, fun _ he => absurd he List.not_mem_nil⟩
  | cons e es ih =>
      rw [List.foldl_cons, replaceFound] at h ⊢
      split_ifs at h ⊢ with hfound
      · rw [foldl_replaceFound_true] at h
        cases h
      · obtain ⟨hsame, hnone⟩ := ih h
        exact ⟨hsame, List.forall_mem_cons.mpr ⟨hfound, hnone⟩⟩

theorem foldl_replaceFound_of_none
    (h : ∀ e ∈ es, ¬ e.1 <:+: text) :
    es.foldl replaceFound (text, false) = (text, false) := by
  induction es with
  | nil => rfl
  | cons e es ih =>
      rw [List.forall_mem_cons] at h
      rw [List.foldl_cons, replaceFound, if_neg h.1]
      exact ih h.2

/-- A property of texts that each replacement keeps is kept by a pass. -/
theorem foldl_replaceFound_rule
    {P : List α → Prop} (hkeep : ∀ e ∈ es, ∀ x, e.1 <:+: x → P x → P (replace e.1 e.2 x))
    (found : Bool) (h : P text) :
    P (es.foldl replaceFound (text, found)).1 := by
  induction es generalizing text found with
  | nil => exact h
  | cons e es ih =>
      rw [List.forall_mem_cons] at hkeep
      rw [List.foldl_cons, replaceFound]
      split_ifs with hfound
      · exact ih hkeep.2 true (hkeep.1 text hfound h)
      · exact ih hkeep.2 found h

variable (hne : o ≠ c)

include hne

theorem bracketed_pass
    (h : Bracketed o c text) :
    Bracketed o c (pass T.entries text).1 :=
  foldl_replaceFound_rule
    (fun e he _ _ hx => (T.bracketed e he).replace hne (T.placeholders e he) hx) false h

/-- The expansion is that of the text before the pass. -/
theorem Expands.of_pass
    {t : List α} (h : Bracketed o c text) (ht : Expands o c T.entries (pass T.entries text).1 t) :
    Expands o c T.entries text t := by
  have hkept : Bracketed o c (pass T.entries text).1 ∧
      (Expands o c T.entries (pass T.entries text).1 t → Expands o c T.entries text t) :=
    foldl_replaceFound_rule (P := fun x => Bracketed o c x ∧ (Expands o c T.entries x t → Expands o c T.entries text t))
      (fun e he x _ hx => ⟨(T.bracketed e he).replace hne (T.placeholders e he) hx.1,
        fun hexp => hx.2 (hexp.of_replace hne he hx.1)⟩) false ⟨h, id⟩
  exact hkept.2 ht

/-- The part of a pass over the entries that are left takes one off the heights of the
placeholders that are done. -/
theorem foldl_heights
    {n : Nat} {found : Bool} (hes : ∀ e ∈ es, e ∈ T.entries) (h : Bracketed o c text)
    (hheight : ∀ q, Refers o c text q → HeightAtMost o c T.entries (n + 1) q ∧
      (q ∉ es.map Prod.fst → HeightAtMost o c T.entries n q)) :
    ∀ q, Refers o c (es.foldl replaceFound (text, found)).1 q → HeightAtMost o c T.entries n q := by
  induction es generalizing text found with
  | nil => exact fun q hq => (hheight q hq).2 List.not_mem_nil
  | cons e es ih =>
      rw [List.forall_mem_cons] at hes
      have hp := T.placeholders e hes.1
      have hv := T.bracketed e hes.1
      rw [List.foldl_cons, replaceFound]
      split_ifs with hfound
      · refine ih hes.2 (hv.replace hne hp h) fun q hq => ?_
        rcases (hv.refers_replace_iff hne hp h).mp hq with ⟨hqp, hq⟩ | ⟨hep, hq⟩
        · refine ⟨(hheight q hq).1, fun hmem => (hheight q hq).2 ?_⟩
          rw [List.map_cons, List.mem_cons, not_or]
          exact ⟨hqp, hmem⟩
        · -- the value brings placeholders that are less deep
          have hless : HeightAtMost o c T.entries n q := (hheight e.1 hep).1 q ⟨e.2, hes.1, hq⟩
          exact ⟨hless.succ, fun _ => hless⟩
      · refine ih hes.2 h fun q hq => ⟨(hheight q hq).1, fun hmem => (hheight q hq).2 ?_⟩
        rw [List.map_cons, List.mem_cons, not_or]
        refine ⟨?_, hmem⟩
        rintro rfl
        exact hfound hq.2

theorem heights_pass
    {n : Nat} (h : Bracketed o c text)
    (hheight : ∀ q, Refers o c text q → HeightAtMost o c T.entries (n + 1) q) :
    ∀ q, Refers o c (pass T.entries text).1 q → HeightAtMost o c T.entries n q := by
  refine foldl_heights hne (fun _ he => he) h fun q hq => ⟨hheight q hq, fun hmem => ?_⟩
  refine .of_undefined (fun v hv => hmem ?_) n
  exact List.mem_map.mpr ⟨(q, v), hv, rfl⟩

/-- As many passes as the definitions are deep reach the full expansion. -/
theorem passes_spec
    {n retries : Nat} (h : Bracketed o c text)
    (hheight : ∀ q, Refers o c text q → HeightAtMost o c T.entries n q) (hn : n < retries) :
    (passes T.entries retries text).2 = false ∧
      Expands o c T.entries text (passes T.entries retries text).1 := by
  induction retries generalizing n text with
  | zero => omega
  | succ retries ih =>
      rw [passes]
      cases hfound : (pass T.entries text).2 with
      | false =>
          obtain ⟨hsame, hnone⟩ := foldl_replaceFound_false hfound
          rw [if_neg (by decide)]
          refine ⟨rfl, ?_⟩
          change Expands o c T.entries text (pass T.entries text).1
          rw [pass, hsame]
          exact expands_self h fun q hq v hmem => hnone (q, v) hmem hq.2
      | true =>
          rw [if_pos rfl]
          cases n with
          | zero =>
              -- nothing is defined, so nothing was found
              have hnone : pass T.entries text = (text, false) := by
                refine foldl_replaceFound_of_none fun e he hin => ?_
                exact hheight e.1 ⟨T.placeholders e he, hin⟩ e.2 he
              rw [hnone] at hfound
              cases hfound
          | succ n =>
              obtain ⟨hflag, hexp⟩ := ih (bracketed_pass hne h) (heights_pass hne h hheight)
                (by omega)
              exact ⟨hflag, hexp.of_pass hne h⟩

/-- A text that reaches a cycle still does after a pass. -/
theorem cyclic_pass
    (h : Bracketed o c text) (hcyclic : ∃ q, Refers o c text q ∧ ReachesCycle o c T.entries q) :
    ∃ q, Refers o c (pass T.entries text).1 q ∧ ReachesCycle o c T.entries q := by
  have hkept : Bracketed o c (pass T.entries text).1 ∧
      ∃ q, Refers o c (pass T.entries text).1 q ∧ ReachesCycle o c T.entries q := by
    refine foldl_replaceFound_rule
      (P := fun x => Bracketed o c x ∧ ∃ q, Refers o c x q ∧ ReachesCycle o c T.entries q) ?_ false
      ⟨h, hcyclic⟩
    rintro e he x _ ⟨hx, q, hq, r, hqr, hr⟩
    have hp := T.placeholders e he
    have hv := T.bracketed e he
    refine ⟨hv.replace hne hp hx, ?_⟩
    by_cases hqe : q = e.1
    · -- the value of the placeholder goes on to the cycle
      have hstep : ∃ z, Depends o c T.entries q z ∧ ReachesCycle o c T.entries z := by
        rcases hqr.cases_head with rfl | ⟨z, hz, hzr⟩
        · obtain ⟨z, hz, hzq⟩ := Relation.TransGen.head'_iff.mp hr
          exact ⟨z, hz, q, hzq, hr⟩
        · exact ⟨z, hz, r, hzr, hr⟩
      obtain ⟨z, ⟨w, hw, hz⟩, hcycle⟩ := hstep
      subst hqe
      rw [T.eq_of_mem hw he] at hz
      exact ⟨z, (hv.refers_replace_iff hne hp hx).mpr (Or.inr ⟨hq, hz⟩), hcycle⟩
    · exact ⟨q, (hv.refers_replace_iff hne hp hx).mpr (Or.inl ⟨hqe, hq⟩), r, hqr, hr⟩
  exact hkept.2

/-- Above a cycle the passes do not end by themselves. -/
theorem passes_of_cyclic
    {retries : Nat} (h : Bracketed o c text)
    (hcyclic : ∃ q, Refers o c text q ∧ ReachesCycle o c T.entries q) :
    (passes T.entries retries text).2 = true := by
  induction retries generalizing text with
  | zero => rfl
  | succ retries ih =>
      rw [passes]
      cases hfound : (pass T.entries text).2 with
      | false =>
          obtain ⟨q, hq, r, hqr, hr⟩ := hcyclic
          have hdefined : ∃ v, (q, v) ∈ T.entries := by
            rcases hqr.cases_head with rfl | ⟨_, ⟨v, hv, _⟩, _⟩
            · obtain ⟨_, ⟨v, hv, _⟩, _⟩ := Relation.TransGen.head'_iff.mp hr
              exact ⟨v, hv⟩
            · exact ⟨v, hv⟩
          obtain ⟨v, hv⟩ := hdefined
          exact absurd hq.2 ((foldl_replaceFound_false hfound).2 (q, v) hv)
      | true =>
          rw [if_pos rfl]
          exact ih (bracketed_pass hne h) (cyclic_pass hne h hcyclic)

end Runs

end Expansion
end AndroidBuild
