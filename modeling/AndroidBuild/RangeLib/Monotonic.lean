import AndroidBuild.RangeLib.Format

/-!
# The attribute `monotonic` of a parsed `RangeSet`

`_parse_internal` carries one value `last`, the least start it takes for an
increasing continuation.  After a single block `s` it is `s + 1`; after a range
`s-e` it is `e`, so that a token that starts at the last block of the range
directly before it passes the test although that block is listed twice.
-/

namespace AndroidBuild
namespace RangeLib

open Text

namespace RangeSet

section Listing

def listed (tokens : List (Int × Int)) : List Int :=
  tokens.flatMap (fun t => intRange t.1 (t.2 + 1))

theorem listed_cons_strict
    {t : Int × Int} {tokens : List (Int × Int)} (ht : t.1 ≤ t.2) :
    (listed (t :: tokens)).Pairwise (· < ·) ↔
      (listed tokens).Pairwise (· < ·) ∧ ∀ j ∈ listed tokens, t.2 < j := by
  unfold listed
  rw [List.flatMap_cons, List.pairwise_append]
  constructor
  · rintro ⟨_, htail, hcross⟩
    exact ⟨htail, hcross t.2 ((mem_intRange _ _ _).mpr ⟨ht, by omega⟩)⟩
  · rintro ⟨htail, hcross⟩
    refine ⟨intRange_strict _ _, htail, ?_⟩
    intro i hi j hj
    have hle := ((mem_intRange _ _ _).mp hi).2
    have hlt := hcross j hj
    omega

/-- The listed blocks increase exactly when each token starts after the end of the one
before it. -/
theorem listed_strict
    {tokens : List (Int × Int)} (h : ∀ t ∈ tokens, t.1 ≤ t.2) :
    (listed tokens).Pairwise (· < ·) ↔ tokens.IsChain (fun s t => s.2 < t.1) := by
  induction tokens with
  | nil => simp [listed]
  | cons t tokens ih =>
      rw [List.forall_mem_cons] at h
      have ih := ih h.2
      rw [listed_cons_strict h.1, ih]
      cases tokens with
      | nil => simp [listed]
      | cons u tokens =>
          rw [List.forall_mem_cons] at h
          rw [List.isChain_cons_cons, and_comm]
          refine and_congr_left ?_
          intro hchain
          have hafter := ((listed_cons_strict h.2.1).mp (ih.mpr hchain)).2
          have hsplit : ∀ j, j ∈ listed (u :: tokens) ↔
              (u.1 ≤ j ∧ j ≤ u.2) ∨ j ∈ listed tokens := by
            intro j
            simp only [listed, List.flatMap_cons, List.mem_append, mem_intRange,
              Int.lt_add_one_iff]
          constructor
          · intro hall
            exact hall u.1 ((hsplit u.1).mpr (Or.inl ⟨le_refl _, h.2.1⟩))
          · intro hlt j hj
            rcases (hsplit j).mp hj with hj | hj
            · omega
            · have := hafter j hj
              omega

end Listing

section Loop

/-- The least start that `_parse_internal` accepts after a word. -/
def nextStart (p : String × (Int × Int)) : Int :=
  if '-' ∈ p.1.toList then p.2.2 else p.2.2 + 1

/-- One token: the test against `last` and its new value. -/
theorem parseWord_monotonic
    {w : String} {t : Int × Int} (h : IsToken w t) (st : Parse) :
    ∃ st', parseWord st w = some st' ∧
      st'.monotonic = (st.monotonic && decide (st.last ≤ t.1)) ∧
      (st.last ≤ t.1 → st'.last = nextStart (w, t)) := by
  cases h with
  | single h =>
      have hdash := not_mem_numeral h (c := '-') (by decide)
      rw [parseWord, if_neg hdash, h.parseInt]
      refine ⟨_, rfl, rfl, ?_⟩
      intro hle
      rw [nextStart, if_neg hdash]
      exact if_pos hle
  | @range v w s e hs he hle =>
      have hdash : '-' ∈ (v ++ "-" ++ w).toList := by simp
      have hse : (s : Int) ≤ e := Int.ofNat_le.mpr hle
      rw [parseWord, if_pos hdash, parsePair_range hs he]
      refine ⟨_, rfl, ?_, ?_⟩
      · simp [hse]
      · intro hlast
        rw [nextStart, if_pos hdash]
        exact if_pos ⟨hlast, hse⟩

theorem parseWords_not_monotonic
    {ws : List String} {tokens : List (Int × Int)} (h : List.Forall₂ IsToken ws tokens)
    {st st' : Parse} (hst : st.monotonic = false)
    (hrun : ws.foldlM parseWord st = some st') :
    st'.monotonic = false := by
  induction h generalizing st with
  | nil =>
      cases hrun
      exact hst
  | cons hw _ ih =>
      obtain ⟨st₁, hst₁, hmono, _⟩ := parseWord_monotonic hw st
      rw [List.foldlM_cons, hst₁] at hrun
      exact ih (by rw [hmono, hst, Bool.false_and]) hrun

/-- The whole loop: every token starts where the one before it allows. -/
theorem parseWords_monotonic
    {ws : List String} {tokens : List (Int × Int)} (h : List.Forall₂ IsToken ws tokens)
    {st st' : Parse} (hst : st.monotonic = true)
    (hrun : ws.foldlM parseWord st = some st') :
    st'.monotonic = true ↔
      (∀ t ∈ tokens.head?, st.last ≤ t.1) ∧
      (ws.zip tokens).IsChain (fun p q => nextStart p ≤ q.2.1) := by
  induction h generalizing st with
  | nil =>
      cases hrun
      simp [hst]
  | @cons w t ws tokens hw htokens ih =>
      obtain ⟨st₁, hst₁, hmono, hlast⟩ := parseWord_monotonic hw st
      rw [List.foldlM_cons, hst₁] at hrun
      rw [hst, Bool.true_and] at hmono
      by_cases hle : st.last ≤ t.1
      · rw [ih (by simp [hmono, hle]) hrun, hlast hle]
        cases htokens with
        | nil => simp [hle]
        | cons _ _ => simp [hle, List.isChain_cons_cons]
      · have hfalse := parseWords_not_monotonic htokens (by simp [hmono, hle]) hrun
        simp [hfalse, hle]

end Loop

section Monotonic

/-- A token starts at the last block of the range directly before it. -/
def Touches (p q : String × (Int × Int)) : Prop :=
  '-' ∈ p.1.toList ∧ q.2.1 = p.2.2

/-- A token starts before the last block of the one before it, or repeats a single block. -/
def Descends (p q : String × (Int × Int)) : Prop :=
  q.2.1 < p.2.2 ∨ ('-' ∉ p.1.toList ∧ q.2.1 = p.2.2)

instance (p q : String × (Int × Int)) : Decidable (Touches p q) :=
  inferInstanceAs (Decidable (_ ∧ _))

instance (p q : String × (Int × Int)) : Decidable (Descends p q) :=
  inferInstanceAs (Decidable (_ ∨ _))

theorem nextStart_le_iff
    {p q : String × (Int × Int)} :
    nextStart p ≤ q.2.1 ↔ ¬ Descends p q := by
  unfold nextStart Descends
  split_ifs with hdash
  · simp [hdash]
  · simp only [hdash, not_false_eq_true, true_and]
    omega

theorem end_lt_iff
    {p q : String × (Int × Int)} :
    p.2.2 < q.2.1 ↔ ¬ Descends p q ∧ ¬ Touches p q := by
  unfold Descends Touches
  by_cases hdash : '-' ∈ p.1.toList
  · simp only [hdash, not_true_eq_false, false_and, or_false, true_and]
    omega
  · simp only [hdash, not_false_eq_true, true_and, false_and, and_true]
    omega

theorem isChain_and
    {α : Type} {R S : α → α → Prop} {l : List α} :
    l.IsChain (fun a b => R a b ∧ S a b) ↔ l.IsChain R ∧ l.IsChain S := by
  induction l with
  | nil => simp
  | cons a l ih =>
      cases l with
      | nil => simp
      | cons b l =>
          simp only [List.isChain_cons_cons, ih]
          tauto

theorem isChain_zip_right
    {ws : List String} {tokens : List (Int × Int)} (h : List.Forall₂ IsToken ws tokens)
    {R : Int × Int → Int × Int → Prop} :
    tokens.IsChain R ↔ (ws.zip tokens).IsChain (fun p q => R p.2 q.2) := by
  have hmap : (ws.zip tokens).map Prod.snd = tokens :=
    List.map_snd_zip (le_of_eq h.length_eq.symm)
  rw [← List.isChain_map (R := R) Prod.snd, hmap]

theorem tokens_nonneg
    {ws : List String} {tokens : List (Int × Int)} (h : List.Forall₂ IsToken ws tokens) :
    ∀ t ∈ tokens, 0 ≤ t.1 := by
  induction h with
  | nil => simp
  | cons hw _ ih =>
      refine List.forall_mem_cons.mpr ⟨?_, ih⟩
      cases hw with
      | single h => exact Int.natCast_nonneg _
      | range hs he hle => exact Int.natCast_nonneg _

/-- `monotonic` says that the listed blocks increase, except where a token repeats the last
block of the range before it and nothing else in the text descends. -/
theorem parse_monotonic
    (text : String) (tokens : List (Int × Int))
    (h : List.Forall₂ IsToken (words text) tokens) :
    ∃ r, parse text = some r ∧
      ((r.monotonic = true ↔ (listed tokens).Pairwise (· < ·)) ↔
        ((words text).zip tokens).IsChain (fun p q => ¬ Touches p q) ∨
        ¬ ((words text).zip tokens).IsChain (fun p q => ¬ Descends p q)) := by
  obtain ⟨st, hst, _⟩ := parseWords_tokens h {}
  refine ⟨_, by rw [parse, hst, Option.map_some], ?_⟩
  have hfirst : ∀ t ∈ tokens.head?, (-1 : Int) ≤ t.1 := by
    intro t ht
    have := tokens_nonneg h t (List.mem_of_mem_head? ht)
    omega
  have hmono := parseWords_monotonic h rfl hst
  simp only [nextStart_le_iff] at hmono
  rw [hmono, listed_strict (tokens_le h), isChain_zip_right h]
  simp only [end_lt_iff, isChain_and]
  tauto

/-- Blocks and ranges that increase. -/
theorem parse_monotonic_increasing :
    ∃ r, parse "2 4 9-12 13" = some r ∧
      (r.monotonic = true ↔
        (listed [(2, 2), (4, 4), (9, 12), (13, 13)]).Pairwise (· < ·)) := by
  have hnum : ∀ n : Nat, IsNumeral n.repr n := isNumeral_toString
  have hwords : words "2 4 9-12 13" = ["2", "4", "9-12", "13"] := by decide +kernel
  have htokens : List.Forall₂ IsToken (words "2 4 9-12 13")
      [(2, 2), (4, 4), (9, 12), (13, 13)] := by
    rw [hwords]
    exact .cons (.single (hnum 2)) (.cons (.single (hnum 4))
      (.cons (.range (hnum 9) (hnum 12) (by decide)) (.cons (.single (hnum 13)) .nil)))
  obtain ⟨r, hr, hiff⟩ := parse_monotonic _ _ htokens
  refine ⟨r, hr, hiff.mpr (Or.inl ?_)⟩
  rw [hwords]
  decide

/-- The last block of a range listed again directly after it. -/
theorem parse_monotonic_repeated :
    ∃ r, parse "0-5 5" = some r ∧ List.Forall₂ IsToken (words "0-5 5") [(0, 5), (5, 5)] ∧
      r.monotonic = true ∧ ¬ (listed [(0, 5), (5, 5)]).Pairwise (· < ·) := by
  have hnum : ∀ n : Nat, IsNumeral n.repr n := isNumeral_toString
  have hwords : words "0-5 5" = ["0-5", "5"] := by decide +kernel
  refine ⟨⟨[0, 5], true, {}⟩, by decide +kernel, ?_, rfl, by decide⟩
  rw [hwords]
  exact .cons (.range (hnum 0) (hnum 5) (by decide)) (.cons (.single (hnum 5)) .nil)

end Monotonic

end RangeSet

end RangeLib
end AndroidBuild
