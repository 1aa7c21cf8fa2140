import Mathlib.Tactic

/-!
# Placeholders in a text

A placeholder opens with one element, closes with another, and has neither of
the two between them.  So it cannot reach over an opening or a closing element,
and a text may be cut there: the substitution of placeholders, and the count of
their occurrences, go through each part on their own.

Replacing one placeholder after the other is the same as replacing all of them
at once, as long as each is found only where the first text has it.
-/

namespace AndroidBuild
namespace Placeholders

variable {α : Type} [DecidableEq α]

section Substitution

/-- The first pattern of the table that the text begins with, and its value. -/
def matchAt (T : List (List α × List α)) (text : List α) : Option (List α × List α) :=
  T.find? fun e => e.1 <+: text

/-- Each occurrence of a pattern is replaced from left to right; the first `n` elements belong to
an occurrence before. -/
def substituteFrom (T : List (List α × List α)) : Nat → List α → List α
  | _, [] => []
  | n + 1, _ :: rest => substituteFrom T n rest
  | 0, a :: rest =>
      match matchAt T (a :: rest) with
      | some (pattern, value) => value ++ substituteFrom T (pattern.length - 1) rest
      | none => a :: substituteFrom T 0 rest

/-- All patterns of the table are replaced at once. -/
def substitute (T : List (List α × List α)) (text : List α) : List α :=
  substituteFrom T 0 text

/-- `text.replace(pattern, value)`. -/
def replace (pattern value text : List α) : List α :=
  substitute [(pattern, value)] text

/-- The patterns are replaced one after the other. -/
def replaceAll (T : List (List α × List α)) (text : List α) : List α :=
  T.foldl (fun text e => replace e.1 e.2 text) text

/-- The number of places where a pattern occurs. -/
def occurrences (pattern : List α) : List α → Nat
  | [] => 0
  | a :: rest => (if pattern <+: a :: rest then 1 else 0) + occurrences pattern rest

end Substitution

section Cuts

/-- No occurrence of the pattern begins in `x` and ends behind it. -/
def NoCross (p x y : List α) : Prop :=
  ∀ s, s <:+ x → s ≠ [] → p <+: s ++ y → p <+: s

variable {p x y : List α} {T : List (List α × List α)}

omit [DecidableEq α] in
theorem NoCross.tail
    {a : α} (h : NoCross p (a :: x) y) :
    NoCross p x y :=
  fun s hs => h s (hs.trans (List.suffix_cons a x))

omit [DecidableEq α] in
theorem NoCross.prefix_iff
    {a : α} (h : NoCross p (a :: x) y) :
    p <+: a :: (x ++ y) ↔ p <+: a :: x := by
  constructor
  · exact fun hp => h (a :: x) List.suffix_rfl (List.cons_ne_nil a x) hp
  · exact fun hp => hp.trans (List.prefix_append (a :: x) y)

theorem matchAt_append
    {a : α} (h : ∀ e ∈ T, NoCross e.1 (a :: x) y) :
    matchAt T (a :: (x ++ y)) = matchAt T (a :: x) := by
  induction T with
  | nil => rfl
  | cons e T ih =>
      rw [List.forall_mem_cons] at h
      rw [matchAt, List.find?_cons, matchAt, List.find?_cons]
      simp only [h.1.prefix_iff]
      rw [← matchAt, ← matchAt, ih h.2]

theorem length_le_of_matchAt
    {text : List α} {e : List α × List α} (h : matchAt T text = some e) :
    e.1.length ≤ text.length := by
  have hstart := List.find?_some h
  exact (of_decide_eq_true hstart).length_le

/-- A text may be cut where no pattern crosses. -/
theorem substituteFrom_append
    (h : ∀ e ∈ T, NoCross e.1 x y) {n : Nat} (hn : n ≤ x.length) :
    substituteFrom T n (x ++ y) = substituteFrom T n x ++ substitute T y := by
  induction x generalizing n with
  | nil =>
      obtain rfl : n = 0 := Nat.le_zero.mp hn
      rfl
  | cons a x ih =>
      have htail : ∀ e ∈ T, NoCross e.1 x y := fun e he => (h e he).tail
      cases n with
      | succ n =>
          rw [List.cons_append, substituteFrom, substituteFrom]
          exact ih htail (Nat.le_of_succ_le_succ hn)
      | zero =>
          rw [List.cons_append, substituteFrom, matchAt_append h, substituteFrom]
          cases hmatch : matchAt T (a :: x) with
          | none =>
              dsimp only
              rw [ih htail (Nat.zero_le _), List.cons_append]
          | some e =>
              have hlength := length_le_of_matchAt hmatch
              rw [List.length_cons] at hlength
              dsimp only
              rw [ih htail (by omega), List.append_assoc]

theorem substitute_append
    (h : ∀ e ∈ T, NoCross e.1 x y) :
    substitute T (x ++ y) = substitute T x ++ substitute T y :=
  substituteFrom_append h (Nat.zero_le _)

theorem occurrences_append
    (h : NoCross p x y) :
    occurrences p (x ++ y) = occurrences p x + occurrences p y := by
  induction x with
  | nil => simp [occurrences]
  | cons a x ih =>
      rw [List.cons_append, occurrences, occurrences, ih h.tail]
      simp only [h.prefix_iff]
      omega

end Cuts

section Brackets

variable {o c : α}

/-- A placeholder between the two elements. -/
def IsPlaceholder (o c : α) (p : List α) : Prop :=
  ∃ w, p = o :: (w ++ [c]) ∧ o ∉ w ∧ c ∉ w

variable {p q x y : List α}

omit [DecidableEq α] in
theorem IsPlaceholder.ne_nil
    (hp : IsPlaceholder o c p) :
    p ≠ [] := by
  obtain ⟨w, rfl, _⟩ := hp
  exact List.cons_ne_nil _ _

omit [DecidableEq α] in
/-- A placeholder opens at its beginning only. -/
theorem IsPlaceholder.noCross_open
    (hne : o ≠ c) (hp : IsPlaceholder o c p) :
    NoCross p x (o :: y) := by
  intro s _ hs hstart
  rcases Nat.lt_or_ge s.length p.length with hlt | hge
  · have hopen : s ++ [o] <+: p := by
      have hfront : s ++ [o] <+: s ++ o :: y := by simp
      exact List.prefix_of_prefix_length_le hfront hstart (by simpa using hlt)
    obtain ⟨w, rfl, ho, _⟩ := hp
    obtain ⟨a, s, rfl⟩ := List.exists_cons_of_ne_nil hs
    obtain ⟨_, hrest⟩ := List.cons_prefix_cons.mp hopen
    have hmem : o ∈ w ++ [c] := hrest.subset (by simp)
    simp [ho, hne] at hmem
  · exact List.prefix_of_prefix_length_le hstart (List.prefix_append _ _) hge

omit [DecidableEq α] in
/-- A placeholder closes at its end only. -/
theorem IsPlaceholder.noCross_close
    (hne : o ≠ c) (hp : IsPlaceholder o c p) :
    NoCross p (x ++ [c]) y := by
  intro s hsuffix hs hstart
  rcases Nat.lt_or_ge s.length p.length with hlt | hge
  · obtain ⟨front, hfront⟩ := hsuffix
    have hlast : s.getLast hs = c := by
      have hgetLast := congrArg List.getLast? hfront
      rw [List.getLast?_append_of_ne_nil _ hs, List.getLast?_concat,
        List.getLast?_eq_getLast_of_ne_nil hs] at hgetLast
      exact Option.some.inj hgetLast
    have hshort : s <+: p := List.prefix_of_prefix_length_le (List.prefix_append _ _) hstart hlt.le
    obtain ⟨w, rfl, _, hc⟩ := hp
    have hfront' : s <+: o :: w := by
      have hopen : o :: w <+: o :: (w ++ [c]) := ⟨[c], rfl⟩
      refine List.prefix_of_prefix_length_le hshort hopen ?_
      · simp only [List.length_cons, List.length_append, List.length_nil] at hlt ⊢
        omega
    have hmem : c ∈ o :: w := hfront'.subset (hlast ▸ List.getLast_mem hs)
    rcases List.mem_cons.mp hmem with hmem | hmem
    · exact absurd hmem.symm hne
    · exact absurd hmem hc
  · exact List.prefix_of_prefix_length_le hstart (List.prefix_append _ _) hge

omit [DecidableEq α] in
theorem IsPlaceholder.noCross_left
    (hne : o ≠ c) (hp : IsPlaceholder o c p) (hq : IsPlaceholder o c q) :
    NoCross p x (q ++ y) := by
  obtain ⟨w, rfl, _⟩ := hq
  exact hp.noCross_open hne

omit [DecidableEq α] in
theorem IsPlaceholder.noCross_right
    (hne : o ≠ c) (hp : IsPlaceholder o c p) (hq : IsPlaceholder o c q) :
    NoCross p q y := by
  obtain ⟨w, rfl, _⟩ := hq
  exact hp.noCross_close hne (x := o :: w)

omit [DecidableEq α] in
/-- A placeholder begins another one only if they are the same. -/
theorem IsPlaceholder.eq_of_begins
    (hne : o ≠ c) (hp : IsPlaceholder o c p) (hq : IsPlaceholder o c q) (h : p <+: q ++ y) :
    p = q := by
  have hpq : p <+: q := by
    have hq' := hq
    obtain ⟨w, rfl, _⟩ := hq
    exact hp.noCross_right hne hq' _ List.suffix_rfl (List.cons_ne_nil _ _) h
  obtain ⟨w, rfl, _, hc⟩ := hp
  obtain ⟨w', rfl, _, hc'⟩ := hq
  obtain ⟨_, hrest⟩ := List.cons_prefix_cons.mp hpq
  obtain ⟨back, hback⟩ := hrest
  rcases List.eq_nil_or_concat back with rfl | ⟨back, b, rfl⟩
  · rw [List.append_nil] at hback
    rw [hback]
  · rw [List.concat_eq_append, ← List.append_assoc] at hback
    have hw := (List.append_inj' hback rfl).1
    refine absurd ?_ hc'
    rw [← hw]
    simp

omit [DecidableEq α] in
theorem IsPlaceholder.eq_of_begins_self
    (hne : o ≠ c) (hp : IsPlaceholder o c p) (hq : IsPlaceholder o c q) (h : p <+: q) :
    p = q := by
  rw [← List.append_nil q] at h
  exact hp.eq_of_begins hne hq h

end Brackets

section Occurrences

variable {o c : α} {p q x y text : List α} {T : List (List α × List α)} {v : List α}

theorem IsPlaceholder.occurrences_of_not_mem
    (hp : IsPlaceholder o c p) (h : o ∉ text) :
    occurrences p text = 0 := by
  induction text with
  | nil => rfl
  | cons a text ih =>
      rw [List.mem_cons, not_or] at h
      have hhead : ¬ p <+: a :: text := by
        obtain ⟨w, rfl, _⟩ := hp
        intro hstart
        exact h.1 (List.cons_prefix_cons.mp hstart).1
      rw [occurrences, if_neg hhead, ih h.2]

theorem IsPlaceholder.occurrences_placeholder
    (hne : o ≠ c) (hp : IsPlaceholder o c p) (hq : IsPlaceholder o c q) :
    occurrences p q = if p = q then 1 else 0 := by
  have hiff : p <+: q ↔ p = q := by
    refine ⟨fun h => hp.eq_of_begins_self hne hq h, ?_⟩
    rintro rfl
    exact List.prefix_rfl
  obtain ⟨w, rfl, ho, _⟩ := hq
  have hrest : occurrences p (w ++ [c]) = 0 := by
    refine hp.occurrences_of_not_mem ?_
    simp [ho, hne]
  rw [occurrences, hrest]
  simp only [hiff, add_zero]

/-- The count goes through the parts of a text at a placeholder. -/
theorem IsPlaceholder.occurrences_split
    (hne : o ≠ c) (hp : IsPlaceholder o c p) (hq : IsPlaceholder o c q) :
    occurrences p (x ++ (q ++ y)) =
      occurrences p x + ((if p = q then 1 else 0) + occurrences p y) := by
  rw [occurrences_append (hp.noCross_left hne hq), occurrences_append (hp.noCross_right hne hq),
    hp.occurrences_placeholder hne hq]

/-- The substitution goes through the parts of a text at a placeholder. -/
theorem substitute_split
    (hne : o ≠ c) (hT : ∀ e ∈ T, IsPlaceholder o c e.1) (hq : IsPlaceholder o c q) :
    substitute T (x ++ (q ++ y)) = substitute T x ++ (substitute T q ++ substitute T y) := by
  rw [substitute_append fun e he => (hT e he).noCross_left hne hq,
    substitute_append fun e he => (hT e he).noCross_right hne hq]

theorem substituteFrom_eq_self
    (h : ∀ e ∈ T, occurrences e.1 text = 0) :
    substituteFrom T 0 text = text := by
  induction text with
  | nil => rfl
  | cons a text ih =>
      have hnone : matchAt T (a :: text) = none := by
        rw [matchAt, List.find?_eq_none]
        intro e he hstart
        have hzero := h e he
        rw [occurrences, if_pos (of_decide_eq_true hstart)] at hzero
        omega
      have htail : ∀ e ∈ T, occurrences e.1 text = 0 := by
        intro e he
        have hzero := h e he
        rw [occurrences] at hzero
        omega
      rw [substituteFrom, hnone]
      dsimp only
      rw [ih htail]

theorem substituteFrom_skip
    {n : Nat} (h : text.length ≤ n) :
    substituteFrom T n text = [] := by
  induction text generalizing n with
  | nil => cases n <;> rfl
  | cons a text ih =>
      rw [List.length_cons] at h
      obtain ⟨m, rfl⟩ := Nat.exists_eq_add_of_le' (Nat.lt_of_lt_of_le (Nat.succ_pos _) h)
      rw [substituteFrom]
      exact ih (by omega)

/-- A placeholder that the table has not stays. -/
theorem substitute_other
    (hne : o ≠ c) (hT : ∀ e ∈ T, IsPlaceholder o c e.1) (hq : IsPlaceholder o c q)
    (hfresh : ∀ e ∈ T, e.1 ≠ q) :
    substitute T q = q := by
  refine substituteFrom_eq_self fun e he => ?_
  rw [(hT e he).occurrences_placeholder hne hq, if_neg (hfresh e he)]

/-- The last placeholder of the table is replaced by its value. -/
theorem substitute_last
    (hne : o ≠ c) (hT : ∀ e ∈ T, IsPlaceholder o c e.1) (hp : IsPlaceholder o c p)
    (hfresh : ∀ e ∈ T, e.1 ≠ p) :
    substitute (T ++ [(p, v)]) p = v := by
  have hnone : matchAt T p = none := by
    rw [matchAt, List.find?_eq_none]
    intro e he hstart
    exact hfresh e he ((hT e he).eq_of_begins_self hne hp (of_decide_eq_true hstart))
  have hmatch : matchAt (T ++ [(p, v)]) p = some (p, v) := by
    rw [matchAt, List.find?_append, ← matchAt, hnone, Option.none_or, List.find?_cons,
      decide_eq_true List.prefix_rfl]
  obtain ⟨a, rest, rfl⟩ := List.exists_cons_of_ne_nil hp.ne_nil
  rw [substitute, substituteFrom, hmatch]
  dsimp only
  rw [substituteFrom_skip (by simp), List.append_nil]

theorem replace_self
    (hne : o ≠ c) (hp : IsPlaceholder o c p) :
    replace p v p = v :=
  substitute_last (T := []) hne (fun e he => by cases he) hp fun e he => by cases he

/-- A placeholder that does not occur need not be in the table. -/
theorem substituteFrom_concat
    (h : occurrences p text = 0) (n : Nat) :
    substituteFrom (T ++ [(p, v)]) n text = substituteFrom T n text := by
  induction text generalizing n with
  | nil => cases n <;> rfl
  | cons a text ih =>
      rw [occurrences] at h
      have htail : occurrences p text = 0 := by omega
      have hhead : ¬ p <+: a :: text := fun hstart => by
        rw [if_pos hstart] at h
        omega
      cases n with
      | succ n =>
          rw [substituteFrom, substituteFrom]
          exact ih htail n
      | zero =>
          have hmatch : matchAt (T ++ [(p, v)]) (a :: text) = matchAt T (a :: text) := by
            rw [matchAt, List.find?_append, List.find?_cons, decide_eq_false hhead,
              List.find?_nil, Option.or_none, matchAt]
          rw [substituteFrom, hmatch, substituteFrom]
          simp only [ih htail]

/-- Up to its first occurrence a text has none. -/
theorem exists_first
    (h : occurrences p text ≠ 0) :
    ∃ x y, text = x ++ (p ++ y) ∧ occurrences p x = 0 := by
  induction text with
  | nil => exact absurd rfl h
  | cons a text ih =>
      by_cases hstart : p <+: a :: text
      · obtain ⟨y, hy⟩ := hstart
        exact ⟨[], y, hy.symm, rfl⟩
      · rw [occurrences, if_neg hstart, zero_add] at h
        obtain ⟨x, y, rfl, hx⟩ := ih h
        refine ⟨a :: x, y, rfl, ?_⟩
        rw [occurrences, if_neg, hx]
        exact fun hp => hstart (hp.trans (List.prefix_append (a :: x) (p ++ y)))

/-- Induction on the occurrences of a placeholder. -/
theorem placeholder_induction
    {motive : List α → Prop} (hp : p ≠ []) (free : ∀ x, occurrences p x = 0 → motive x)
    (split : ∀ x y, occurrences p x = 0 → motive y → motive (x ++ (p ++ y))) (text : List α) :
    motive text := by
  induction hn : text.length using Nat.strong_induction_on generalizing text with
  | h n ih =>
      by_cases hocc : occurrences p text = 0
      · exact free text hocc
      · obtain ⟨x, y, rfl, hx⟩ := exists_first hocc
        refine split x y hx (ih y.length ?_ y rfl)
        have hpos := List.length_pos_iff.mpr hp
        rw [← hn, List.length_append, List.length_append]
        omega

end Occurrences

section Chains

variable {o c : α} {p text : List α} {T : List (List α × List α)} {v : List α}

/-- A substitution leaves the occurrences of other placeholders. -/
theorem occurrences_le_substitute
    (hne : o ≠ c) (hT : ∀ e ∈ T, IsPlaceholder o c e.1) (hp : IsPlaceholder o c p)
    (hfresh : ∀ e ∈ T, e.1 ≠ p) (text : List α) :
    occurrences p text ≤ occurrences p (substitute T text) := by
  induction text using placeholder_induction hp.ne_nil with
  | free x hx => omega
  | split x y hx ih =>
      rw [substitute_split hne hT hp, substitute_other hne hT hp hfresh,
        hp.occurrences_split hne hp, hp.occurrences_split hne hp]
      omega

/-- One more placeholder is replaced, where the text before the substitution has it. -/
theorem replace_substitute
    (hne : o ≠ c) (hT : ∀ e ∈ T, IsPlaceholder o c e.1) (hp : IsPlaceholder o c p)
    (hfresh : ∀ e ∈ T, e.1 ≠ p) (text : List α)
    (h : occurrences p (substitute T text) = occurrences p text) :
    replace p v (substitute T text) = substitute (T ++ [(p, v)]) text := by
  have hone : ∀ e ∈ [(p, v)], IsPlaceholder o c e.1 := fun e he => by
    rw [List.mem_singleton.mp he]
    exact hp
  have hall : ∀ e ∈ T ++ [(p, v)], IsPlaceholder o c e.1 := fun e he =>
    (List.mem_append.mp he).elim (hT e) (hone e)
  have hfree : ∀ x, occurrences p x = 0 → occurrences p (substitute T x) = 0 →
      replace p v (substitute T x) = substitute (T ++ [(p, v)]) x := by
    intro x hx hsub
    have hreplace : replace p v (substitute T x) = substitute T x :=
      substituteFrom_eq_self fun e he => by rw [List.mem_singleton.mp he, hsub]
    rw [hreplace]
    exact (substituteFrom_concat hx 0).symm
  induction text using placeholder_induction hp.ne_nil with
  | free x hx => exact hfree x hx (h.trans hx)
  | split x y hx ih =>
      have hle := occurrences_le_substitute hne hT hp hfresh y
      rw [substitute_split hne hT hp, substitute_other hne hT hp hfresh,
        hp.occurrences_split hne hp, hp.occurrences_split hne hp] at h
      rw [substitute_split hne hT hp, substitute_other hne hT hp hfresh, replace,
        substitute_split hne hone hp, substitute_split hne hall hp,
        substitute_last hne hT hp hfresh]
      rw [← replace, ← replace, ← replace, replace_self hne hp, ih (by omega),
        hfree x hx (by omega)]

theorem replaceAll_concat
    (T : List (List α × List α)) (e : List α × List α) (text : List α) :
    replaceAll (T ++ [e]) text = replace e.1 e.2 (replaceAll T text) := by
  rw [replaceAll, List.foldl_append]
  rfl

/-- Every step replaces the occurrences that the text has, and no others. -/
def OwnOccurrences (T : List (List α × List α)) (text : List α) : Prop :=
  ∀ front e back, T = front ++ e :: back →
    occurrences e.1 (replaceAll front text) = occurrences e.1 text

/-- No placeholder comes up when those before it in the table are replaced. -/
def NoneArises (T : List (List α × List α)) (text : List α) : Prop :=
  ∀ front e back, T = front ++ e :: back →
    occurrences e.1 (substitute front text) = occurrences e.1 text

theorem NoneArises.init
    {e : List α × List α} (h : NoneArises (T ++ [e]) text) :
    NoneArises T text := by
  rintro front d back rfl
  exact h front d (back ++ [e]) (by simp)

theorem OwnOccurrences.init
    {e : List α × List α} (h : OwnOccurrences (T ++ [e]) text) :
    OwnOccurrences T text := by
  rintro front d back rfl
  exact h front d (back ++ [e]) (by simp)

/-- Replacing one after the other is replacing at once, if no placeholder comes up. -/
theorem replaceAll_eq_substitute
    (hne : o ≠ c) (hT : ∀ e ∈ T, IsPlaceholder o c e.1) (hnodup : (T.map Prod.fst).Nodup)
    (h : NoneArises T text) :
    replaceAll T text = substitute T text := by
  induction T using List.reverseRecOn with
  | nil => exact (substituteFrom_eq_self fun e he => by cases he).symm
  | append_singleton T e ih =>
      have hinit : ∀ d ∈ T, IsPlaceholder o c d.1 := fun d hd =>
        hT d (List.mem_append_left _ hd)
      rw [List.map_append, List.nodup_append] at hnodup
      have hfresh : ∀ d ∈ T, d.1 ≠ e.1 := fun d hd =>
        hnodup.2.2 _ (List.mem_map_of_mem hd) _ (by simp)
      rw [replaceAll_concat, ih hinit hnodup.1 h.init]
      exact replace_substitute hne hinit (hT e (by simp)) hfresh text (h T e [] rfl)

theorem noneArises_of_ownOccurrences
    (hne : o ≠ c) (hT : ∀ e ∈ T, IsPlaceholder o c e.1) (hnodup : (T.map Prod.fst).Nodup)
    (h : OwnOccurrences T text) :
    NoneArises T text := by
  induction T using List.reverseRecOn with
  | nil =>
      intro front e back hsplit
      simp at hsplit
  | append_singleton T e ih =>
      have hinit : ∀ d ∈ T, IsPlaceholder o c d.1 := fun d hd =>
        hT d (List.mem_append_left _ hd)
      rw [List.map_append, List.nodup_append] at hnodup
      have hT' := ih hinit hnodup.1 h.init
      intro front d back hsplit
      rcases List.eq_nil_or_concat back with rfl | ⟨back, b, rfl⟩
      · obtain ⟨rfl, hd⟩ := List.append_inj' hsplit rfl
        obtain rfl := List.singleton_inj.mp hd
        rw [← replaceAll_eq_substitute hne hinit hnodup.1 hT']
        exact h T e [] rfl
      · rw [List.concat_eq_append, ← List.cons_append, ← List.append_assoc] at hsplit
        exact hT' front d back (List.append_inj' hsplit rfl).1

/-- The steps replace the occurrences of the text at once, and no others, exactly when no
placeholder comes up. -/
theorem replaceAll_faithful_iff
    (hne : o ≠ c) (hT : ∀ e ∈ T, IsPlaceholder o c e.1) (hnodup : (T.map Prod.fst).Nodup) :
    replaceAll T text = substitute T text ∧ OwnOccurrences T text ↔ NoneArises T text := by
  refine ⟨fun h => noneArises_of_ownOccurrences hne hT hnodup h.2, fun h => ?_⟩
  refine ⟨replaceAll_eq_substitute hne hT hnodup h, ?_⟩
  intro front e back hsplit
  have hfront : NoneArises front text := fun front' d back' hsplit' =>
    h front' d (back' ++ e :: back) (by rw [hsplit, hsplit', List.append_assoc, List.cons_append])
  rw [hsplit, List.map_append, List.nodup_append] at hnodup
  rw [replaceAll_eq_substitute hne (fun d hd => hT d (by simp [hsplit, hd])) hnodup.1 hfront]
  exact h front e back hsplit

end Chains

end Placeholders
end AndroidBuild
