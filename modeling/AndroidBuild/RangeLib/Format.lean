import AndroidBuild.Lib.Text
import AndroidBuild.RangeLib.Operations

/-!
# The text formats of `RangeSet`

`parse` reads blocks and inclusive ranges separated by spaces, in any order;
`to_string` writes them.  The raw format is the number of end points followed
by the end points of the half-open ranges, separated by commas.

An exception (a `ValueError`, or a failed assertion) is `none`.
-/

namespace AndroidBuild
namespace RangeLib

open Text

namespace RangeSet

/-- The variables of `_parse_internal`. -/
structure Parse where
  data : List Int := []
  last : Int := -1
  monotonic : Bool := true

/-- `s, e = (int(x) for x in p.split("-"))`. -/
def parsePair (p : String) : Option (Int × Int) :=
  match splitAt '-' p with
  | [a, b] => do
      let s ← parseInt a
      let e ← parseInt b
      pure (s, e)
  | _ => none

def parseWord (st : Parse) (p : String) : Option Parse :=
  if '-' ∈ p.toList then
    (parsePair p).map (fun q =>
      { data := st.data ++ [q.1, q.2 + 1]
        last := if st.last ≤ q.1 ∧ q.1 ≤ q.2 then q.2 else st.last
        monotonic := st.monotonic && decide (st.last ≤ q.1 ∧ q.1 ≤ q.2) })
  else
    (parseInt p).map (fun s =>
      { data := st.data ++ [s, s + 1]
        last := if st.last ≤ s then s + 1 else st.last
        monotonic := st.monotonic && decide (st.last ≤ s) })

/-- `RangeSet.parse`. -/
def parse (text : String) : Option RangeSet :=
  ((words text).foldlM parseWord {}).map (fun st =>
    { data := removePairs (st.data.insertionSort (· ≤ ·))
      monotonic := st.monotonic })

/-- `RangeSet.parse_raw`. -/
def parseRaw (text : String) : Option RangeSet :=
  match (splitAt ',' text).mapM parseInt with
  | some (count :: data) => if count = data.length then ofData data else none
  | _ => none

/-- One range of `to_string`. -/
def rangeText (p : Int × Int) : String :=
  if p.2 = p.1 + 1 then toString p.1
  else toString p.1 ++ "-" ++ toString (p.2 - 1)

def toText (a : RangeSet) : String :=
  join ' ' (a.pairs.map rangeText)

/-- `to_string_raw`, which asserts that there is a range. -/
def toTextRaw (a : RangeSet) : Option String :=
  if a.data = [] then none
  else some (toString (a.data.length : Int) ++ "," ++ join ',' (a.data.map (fun i : Int => toString i)))

/-- The loop of `extend` over the ranges of `self`. -/
def extendLoop (n : Int) : RangeSet → List (Int × Int) → Option RangeSet
  | out, [] => some out
  | out, (s, e) :: rest => do
      let r ← parse (toString (max 0 (s - n)) ++ "-" ++ toString (e + n - 1))
      let out ← out.union r
      extendLoop n out rest

def extend (a : RangeSet) (n : Int) : Option RangeSet :=
  extendLoop n a a.pairs

section Parse

/-- A word of the text and the inclusive range it lists. -/
inductive IsToken : String → Int × Int → Prop where
  | single {w : String} {n : Nat} (h : IsNumeral w n) : IsToken w (n, n)
  | range {v w : String} {s e : Nat} (hs : IsNumeral v s) (he : IsNumeral w e) (hle : s ≤ e) :
      IsToken (v ++ "-" ++ w) (s, e)

theorem IsToken.le
    {w : String} {t : Int × Int} (h : IsToken w t) :
    t.1 ≤ t.2 := by
  cases h with
  | single h => exact le_refl _
  | range hs he hle => exact Int.ofNat_le.mpr hle

theorem tokens_le
    {ws : List String} {tokens : List (Int × Int)} (h : List.Forall₂ IsToken ws tokens) :
    ∀ t ∈ tokens, t.1 ≤ t.2 := by
  induction h with
  | nil => simp
  | cons hw _ ih => exact List.forall_mem_cons.mpr ⟨hw.le, ih⟩

theorem not_mem_numeral
    {w : String} {n : Nat} (h : IsNumeral w n) {c : Char} (hc : c.toNat < 48) :
    c ∉ w.toList := by
  intro hmem
  exact ne_of_isDigit (h.digits c hmem) hc rfl

theorem parsePair_range
    {v w : String} {s e : Nat} (hs : IsNumeral v s) (he : IsNumeral w e) :
    parsePair (v ++ "-" ++ w) = some ((s : Int), (e : Int)) := by
  have hsplit : splitAt '-' (v ++ "-" ++ w) = [v, w] := by
    refine splitAt_join (List.cons_ne_nil v [w]) ?_
    intro p hp c hc hdash
    subst hdash
    simp only [List.mem_cons, List.not_mem_nil, or_false] at hp
    rcases hp with rfl | rfl
    · exact not_mem_numeral hs (by decide) hc
    · exact not_mem_numeral he (by decide) hc
  simp [parsePair, hsplit, hs.parseInt, he.parseInt]

/-- A token adds its two end points. -/
theorem parseWord_token
    {w : String} {t : Int × Int} (h : IsToken w t) (st : Parse) :
    ∃ st', parseWord st w = some st' ∧ st'.data = st.data ++ [t.1, t.2 + 1] := by
  cases h with
  | single h =>
      have hdash := not_mem_numeral h (c := '-') (by decide)
      rw [parseWord, if_neg hdash, h.parseInt]
      exact ⟨_, rfl, rfl⟩
  | range hs he hle =>
      rw [parseWord, if_pos (by simp), parsePair_range hs he]
      exact ⟨_, rfl, rfl⟩

def endPoints (tokens : List (Int × Int)) : List Int :=
  tokens.flatMap (fun t => [t.1, t.2 + 1])

theorem parseWords_tokens
    {ws : List String} {tokens : List (Int × Int)} (h : List.Forall₂ IsToken ws tokens)
    (st : Parse) :
    ∃ st', ws.foldlM parseWord st = some st' ∧ st'.data = st.data ++ endPoints tokens := by
  induction h generalizing st with
  | nil => exact ⟨st, rfl, by simp [endPoints]⟩
  | cons hw _ ih =>
      obtain ⟨st₁, hst₁, hdata₁⟩ := parseWord_token hw st
      obtain ⟨st₂, hst₂, hdata₂⟩ := ih st₁
      refine ⟨st₂, ?_, ?_⟩
      · rw [List.foldlM_cons, hst₁]
        exact hst₂
      · rw [hdata₂, hdata₁]
        simp [endPoints]

theorem length_endPoints (tokens : List (Int × Int)) :
    (endPoints tokens).length % 2 = 0 := by
  induction tokens with
  | nil => rfl
  | cons t tokens ih =>
      simp only [endPoints, List.flatMap_cons, List.length_append, List.length_cons,
        List.length_nil] at ih ⊢
      omega

/-- Up to `i`, a range that contains `i` has one end point and any other an even number. -/
theorem countP_endPoints
    {tokens : List (Int × Int)} (h : ∀ t ∈ tokens, t.1 ≤ t.2) (i : Int) :
    (endPoints tokens).countP (fun p => decide (p ≤ i)) % 2 =
      tokens.countP (fun t => decide (t.1 ≤ i ∧ i ≤ t.2)) % 2 := by
  induction tokens with
  | nil => rfl
  | cons t tokens ih =>
      rw [List.forall_mem_cons] at h
      have ih := ih h.2
      have hle := h.1
      simp only [endPoints, List.flatMap_cons, List.countP_append, List.countP_cons,
        List.countP_nil, decide_eq_true_eq] at ih ⊢
      split_ifs <;> omega

/-- `parse` on a text of tokens: the integers that lie in an odd number of them. -/
theorem parse_tokens
    {text : String} {tokens : List (Int × Int)}
    (h : List.Forall₂ IsToken (words text) tokens) :
    ∃ r, parse text = some r ∧ Canonical r.data ∧
      ∀ i, i ∈ r.blocks ↔ tokens.countP (fun t => decide (t.1 ≤ i ∧ i ≤ t.2)) % 2 = 1 := by
  obtain ⟨st, hst, hdata⟩ := parseWords_tokens h {}
  have hle := tokens_le h
  have hperm := List.perm_insertionSort (· ≤ ·) (endPoints tokens)
  have hsorted : ((endPoints tokens).insertionSort (· ≤ ·)).Pairwise (· ≤ ·) :=
    List.pairwise_insertionSort (· ≤ ·) _
  have heven : ((endPoints tokens).insertionSort (· ≤ ·)).length % 2 = 0 := by
    rw [hperm.length_eq]
    exact length_endPoints tokens
  obtain ⟨hcan, hblocks⟩ := removePairs_spec hsorted heven
  have hst_data : st.data = endPoints tokens := by simpa using hdata
  refine ⟨{ data := removePairs ((endPoints tokens).insertionSort (· ≤ ·))
            monotonic := st.monotonic }, ?_, hcan, ?_⟩
  · rw [parse, hst, Option.map_some, hst_data]
  · intro i
    unfold blocks
    rw [hblocks, mem_blocksOf i hsorted heven, hperm.countP_eq, countP_endPoints hle i]

theorem parseWords_even
    {ws : List String} {st st' : Parse} (hst : st.data.length % 2 = 0)
    (hrun : ws.foldlM parseWord st = some st') :
    st'.data.length % 2 = 0 := by
  induction ws generalizing st with
  | nil =>
      cases hrun
      exact hst
  | cons w ws ih =>
      rw [List.foldlM_cons] at hrun
      obtain ⟨st₁, hst₁, hrest⟩ := Option.bind_eq_some_iff.mp hrun
      refine ih ?_ hrest
      unfold parseWord at hst₁
      split_ifs at hst₁
      all_goals
        obtain ⟨_, _, rfl⟩ := Option.map_eq_some_iff.mp hst₁
        simpa using hst

theorem parse_canonical
    {text : String} {r : RangeSet} (h : parse text = some r) :
    Canonical r.data := by
  obtain ⟨st, hst, rfl⟩ := Option.map_eq_some_iff.mp h
  have hperm := List.perm_insertionSort (· ≤ ·) st.data
  refine (removePairs_spec (List.pairwise_insertionSort (· ≤ ·) st.data) ?_).1
  rw [hperm.length_eq]
  exact parseWords_even rfl hst

end Parse

section RoundTrip

theorem pairsOf_lt :
    ∀ {data : List Int}, data.Pairwise (· < ·) → ∀ p ∈ pairsOf data, p.1 < p.2
  | [], _ => by simp [pairsOf]
  | [_], _ => by simp [pairsOf]
  | s :: e :: rest, h => by
      have hs := List.pairwise_cons.mp h
      rw [pairsOf, List.forall_mem_cons]
      exact ⟨hs.1 e (by simp), pairsOf_lt (List.pairwise_cons.mp hs.2).2⟩

theorem mem_blocksOf_iff_pairs
    {data : List Int} {i : Int} :
    i ∈ blocksOf data ↔ ∃ p ∈ pairsOf data, p.1 ≤ i ∧ i < p.2 := by
  unfold blocksOf
  rw [List.mem_flatMap]
  simp only [mem_intRange]

theorem pairs_nonneg
    {a : RangeSet} (ha : Canonical a.data) (hnonneg : ∀ i ∈ a.blocks, 0 ≤ i) :
    ∀ p ∈ a.pairs, 0 ≤ p.1 := by
  intro p hp
  have hlt := pairsOf_lt ha.strict p hp
  exact hnonneg p.1 (mem_blocksOf_iff_pairs.mpr ⟨p, hp, le_refl _, hlt⟩)

theorem rangeText_token
    {p : Int × Int} (h₀ : 0 ≤ p.1) (hlt : p.1 < p.2) :
    IsToken (rangeText p) (p.1, p.2 - 1) := by
  have hs : ((p.1.toNat : Nat) : Int) = p.1 := Int.toNat_of_nonneg h₀
  have he : (((p.2 - 1).toNat : Nat) : Int) = p.2 - 1 := Int.toNat_of_nonneg (by omega)
  unfold rangeText
  split_ifs with hc
  · have hsingle := IsToken.single (isNumeral_toString_int h₀)
    rw [hs] at hsingle
    have hend : p.2 - 1 = p.1 := by omega
    rw [hend]
    exact hsingle
  · have hrange := IsToken.range (isNumeral_toString_int h₀)
      (isNumeral_toString_int (i := p.2 - 1) (by omega)) (by omega)
    rw [hs, he] at hrange
    exact hrange

theorem IsToken.chars
    {w : String} {t : Int × Int} (h : IsToken w t) :
    w.toList ≠ [] ∧ ∀ c ∈ w.toList, isSpace c = false := by
  have hnum : ∀ {w : String} {n : Nat}, IsNumeral w n →
      ∀ c ∈ w.toList, isSpace c = false := by
    intro w n h c hc
    exact isSpace_of_isDigit (h.digits c hc)
  cases h with
  | single h => exact ⟨h.nonempty, hnum h⟩
  | range hs he hle =>
      refine ⟨by simp, ?_⟩
      intro c hc
      simp only [String.toList_append, List.mem_append] at hc
      rcases hc with (hc | hc) | hc
      · exact hnum hs c hc
      · have hdash : c = '-' := by simpa using hc
        rw [hdash]
        decide
      · exact hnum he c hc

theorem forall₂_map_left
    {α : Type} {l : List α} {f : α → String} {g : α → Int × Int}
    (h : ∀ x ∈ l, IsToken (f x) (g x)) :
    List.Forall₂ IsToken (l.map f) (l.map g) := by
  rw [List.forall₂_map_left_iff, List.forall₂_map_right_iff]
  exact List.forall₂_same.mpr h

theorem words_join_tokens
    {ws : List String} {tokens : List (Int × Int)} (h : List.Forall₂ IsToken ws tokens) :
    words (join ' ' ws) = ws := by
  apply words_join
  induction h with
  | nil => simp
  | cons hw _ ih => exact List.forall_mem_cons.mpr ⟨hw.chars, ih⟩

/-- Of disjoint ranges at most one contains `i`. -/
theorem countP_of_disjoint
    {tokens : List (Int × Int)} {i : Int}
    (h : tokens.Pairwise (fun s t => ¬ ((s.1 ≤ i ∧ i ≤ s.2) ∧ t.1 ≤ i ∧ i ≤ t.2))) :
    tokens.countP (fun t => decide (t.1 ≤ i ∧ i ≤ t.2)) % 2 = 1 ↔
      ∃ t ∈ tokens, t.1 ≤ i ∧ i ≤ t.2 := by
  induction tokens with
  | nil => simp
  | cons t tokens ih =>
      rw [List.pairwise_cons] at h
      rw [List.countP_cons, List.exists_mem_cons_iff]
      by_cases ht : t.1 ≤ i ∧ i ≤ t.2
      · have hzero : tokens.countP (fun t => decide (t.1 ≤ i ∧ i ≤ t.2)) = 0 := by
          rw [List.countP_eq_zero]
          intro t' ht' hi
          exact h.1 t' ht' ⟨ht, of_decide_eq_true hi⟩
        rw [hzero, if_pos (by simpa using ht)]
        simp only [ht, and_self, true_or]
      · rw [if_neg (by simpa using ht), Nat.add_zero, ih h.2]
        simp only [ht, false_or]

theorem pairsOf_disjoint
    (i : Int) :
    ∀ {data : List Int}, data.Pairwise (· < ·) →
      (pairsOf data).Pairwise (fun p q => ¬ ((p.1 ≤ i ∧ i < p.2) ∧ q.1 ≤ i ∧ i < q.2))
  | [], _ => by simp [pairsOf]
  | [_], _ => by simp [pairsOf]
  | s :: e :: rest, h => by
      have hs := List.pairwise_cons.mp h
      have he := List.pairwise_cons.mp hs.2
      rw [pairsOf, List.pairwise_cons]
      refine ⟨?_, pairsOf_disjoint i he.2⟩
      rintro q hq ⟨⟨_, hie⟩, hqi, hiq⟩
      have hmem : i ∈ blocksOf rest := mem_blocksOf_iff_pairs.mpr ⟨q, hq, hqi, hiq⟩
      have := le_of_mem_blocksOf (fun p hp => le_of_lt (he.1 p hp)) hmem
      omega

/-- `parse` undoes `to_string`. -/
theorem parse_toText
    {a : RangeSet} (ha : Canonical a.data) (hnonneg : ∀ i ∈ a.blocks, 0 ≤ i) :
    ∃ r, parse a.toText = some r ∧ r.sameData a = true := by
  have htokens : List.Forall₂ IsToken (a.pairs.map rangeText)
      (a.pairs.map (fun p => (p.1, p.2 - 1))) := by
    apply forall₂_map_left
    intro p hp
    exact rangeText_token (pairs_nonneg ha hnonneg p hp) (pairsOf_lt ha.strict p hp)
  have hwords : words a.toText = a.pairs.map rangeText := words_join_tokens htokens
  rw [← hwords] at htokens
  obtain ⟨r, hr, hcan, hmem⟩ := parse_tokens htokens
  refine ⟨r, hr, (sameData_iff hcan ha).mpr ?_⟩
  intro i
  have hdisj : (a.pairs.map (fun p => (p.1, p.2 - 1))).Pairwise
      (fun s t => ¬ ((s.1 ≤ i ∧ i ≤ s.2) ∧ t.1 ≤ i ∧ i ≤ t.2)) := by
    rw [List.pairwise_map]
    refine (pairsOf_disjoint i ha.strict).imp ?_
    rintro p q hpq ⟨h₁, h₂⟩
    exact hpq ⟨⟨h₁.1, by omega⟩, h₂.1, by omega⟩
  rw [hmem i, countP_of_disjoint hdisj]
  unfold blocks
  rw [mem_blocksOf_iff_pairs]
  constructor
  · rintro ⟨t, ht, hi⟩
    obtain ⟨p, hp, rfl⟩ := List.mem_map.mp ht
    exact ⟨p, hp, hi.1, by simp only at hi; omega⟩
  · rintro ⟨p, hp, hi⟩
    exact ⟨_, List.mem_map_of_mem hp, hi.1, by simp only; omega⟩

theorem mapM_parseInt
    {data : List Int} (h : ∀ i ∈ data, 0 ≤ i) :
    (data.map (fun i : Int => toString i)).mapM parseInt = some data := by
  induction data with
  | nil => rfl
  | cons i data ih =>
      rw [List.forall_mem_cons] at h
      have hi : parseInt (toString i) = some i :=
        (isNumeral_toString_int h.1).parseInt.trans
          (congrArg some (Int.toNat_of_nonneg h.1))
      rw [List.map_cons, List.mapM_cons, hi, ih h.2]
      rfl

theorem data_nonneg
    {a : RangeSet} (ha : Canonical a.data) (hnonneg : ∀ i ∈ a.blocks, 0 ≤ i) :
    ∀ p ∈ a.data, 0 ≤ p := by
  intro p hp
  have hchange := (mem_data_iff ha p).mp hp
  by_cases hmem : p ∈ a.blocks
  · exact hnonneg p hmem
  · have := hnonneg (p - 1) (by tauto)
    omega

/-- `parse_raw` undoes `to_string_raw`. -/
theorem parseRaw_toTextRaw
    {a : RangeSet} (ha : Canonical a.data) (hnonneg : ∀ i ∈ a.blocks, 0 ≤ i)
    (hne : a.nonempty = true) :
    ∃ text r, a.toTextRaw = some text ∧ parseRaw text = some r ∧ r.sameData a = true := by
  have hdata : a.data ≠ [] := by simpa [nonempty] using hne
  obtain ⟨r, hr, hcan, hblocks⟩ := ofData_spec ha.weak ha.even
  refine ⟨_, r, by rw [toTextRaw, if_neg hdata], ?_, ?_⟩
  · have hall : ∀ i ∈ (a.data.length : Int) :: a.data, 0 ≤ i :=
      List.forall_mem_cons.mpr ⟨by omega, data_nonneg ha hnonneg⟩
    have hjoin : toString (a.data.length : Int) ++ "," ++
        join ',' (a.data.map (fun i : Int => toString i)) =
        join ',' (((a.data.length : Int) :: a.data).map (fun i : Int => toString i)) := by
      rw [List.map_cons, join.eq_3 ',' _ _ (by simpa using hdata)]
      rfl
    have hsplit : splitAt ',' (join ','
        (((a.data.length : Int) :: a.data).map (fun i : Int => toString i))) =
        ((a.data.length : Int) :: a.data).map (fun i : Int => toString i) := by
      apply splitAt_join (by simp)
      intro w hw c hc hcomma
      obtain ⟨i, hi, rfl⟩ := List.mem_map.mp hw
      subst hcomma
      exact not_mem_numeral (isNumeral_toString_int (hall i hi)) (by decide) hc
    rw [parseRaw, hjoin, hsplit, mapM_parseInt hall]
    simpa using hr
  · rw [sameData_iff hcan ha, hblocks]
    intro i
    rfl

end RoundTrip

section Extend

/-- The range that `extend` writes for one range of `self`. -/
theorem parse_extended
    {s e n : Int} (hs : 0 ≤ s) (hse : s < e) (hn : 0 ≤ n) :
    ∃ r, parse (toString (max 0 (s - n)) ++ "-" ++ toString (e + n - 1)) = some r ∧
      Canonical r.data ∧ ∀ i, i ∈ r.blocks ↔ max 0 (s - n) ≤ i ∧ i ≤ e + n - 1 := by
  have hlow : (0 : Int) ≤ max 0 (s - n) := le_max_left _ _
  have hhigh : 0 ≤ e + n - 1 := by omega
  have htoken := IsToken.range (isNumeral_toString_int hlow) (isNumeral_toString_int hhigh)
    (by omega)
  rw [Int.toNat_of_nonneg hlow, Int.toNat_of_nonneg hhigh] at htoken
  have htokens := List.Forall₂.cons htoken List.Forall₂.nil
  have hwords := words_join_tokens htokens
  rw [join] at hwords
  rw [← hwords] at htokens
  obtain ⟨r, hr, hcan, hmem⟩ := parse_tokens htokens
  refine ⟨r, hr, hcan, ?_⟩
  intro i
  rw [hmem i, List.countP_singleton]
  split_ifs with hi
  · simpa using hi
  · simpa using hi

/-- The loop of `extend` adds the extended ranges one by one. -/
theorem extendLoop_spec
    {n : Int} (hn : 0 ≤ n) {ranges : List (Int × Int)}
    (hranges : ∀ p ∈ ranges, 0 ≤ p.1 ∧ p.1 < p.2) {out : RangeSet} (hout : Canonical out.data) :
    ∃ r, extendLoop n out ranges = some r ∧ Canonical r.data ∧
      ∀ i, i ∈ r.blocks ↔
        i ∈ out.blocks ∨ ∃ p ∈ ranges, max 0 (p.1 - n) ≤ i ∧ i ≤ p.2 + n - 1 := by
  induction ranges generalizing out with
  | nil => exact ⟨out, rfl, hout, by simp⟩
  | cons p ranges ih =>
      rw [List.forall_mem_cons] at hranges
      obtain ⟨piece, hpiece, hcan, hmem⟩ := parse_extended hranges.1.1 hranges.1.2 hn
      obtain ⟨u, hu, hucan, humem⟩ := union_spec hout hcan
      obtain ⟨r, hr, hrcan, hrmem⟩ := ih hranges.2 hucan
      refine ⟨r, ?_, hrcan, ?_⟩
      · rw [extendLoop, hpiece, Option.bind_eq_bind, Option.bind_some, hu]
        exact hr
      · intro i
        rw [hrmem i, humem i, hmem i, List.exists_mem_cons_iff, or_assoc]

theorem extend_spec
    {a : RangeSet} {n : Int} (ha : Canonical a.data) (hnonneg : ∀ i ∈ a.blocks, 0 ≤ i)
    (hn : 0 ≤ n) :
    ∃ r, a.extend n = some r ∧ Canonical r.data ∧
      ∀ i, i ∈ r.blocks ↔ 0 ≤ i ∧ ∃ j ∈ a.blocks, |i - j| ≤ n := by
  have hpairs : ∀ p ∈ a.pairs, 0 ≤ p.1 ∧ p.1 < p.2 := by
    intro p hp
    exact ⟨pairs_nonneg ha hnonneg p hp, pairsOf_lt ha.strict p hp⟩
  obtain ⟨r, hr, hcan, hmem⟩ := extendLoop_spec hn hpairs ha
  refine ⟨r, hr, hcan, ?_⟩
  intro i
  rw [hmem i]
  constructor
  · rintro (hi | ⟨p, hp, h₁, h₂⟩)
    · exact ⟨hnonneg i hi, i, hi, by simpa using hn⟩
    · have hlt := (hpairs p hp).2
      -- the integer of the range that is closest to `i`
      refine ⟨by omega, max p.1 (min i (p.2 - 1)), ?_, ?_⟩
      · exact mem_blocksOf_iff_pairs.mpr ⟨p, hp, by omega, by omega⟩
      · rw [abs_le]
        omega
  · rintro ⟨h₀, j, hj, hij⟩
    obtain ⟨p, hp, h₁, h₂⟩ := mem_blocksOf_iff_pairs.mp hj
    rw [abs_le] at hij
    exact Or.inr ⟨p, hp, by omega, by omega⟩

end Extend

section Sets

def elements (a : RangeSet) : Finset Int :=
  a.blocks.toFinset

@[simp] theorem mem_elements
    {a : RangeSet} {i : Int} :
    i ∈ a.elements ↔ i ∈ a.blocks := by
  simp [elements]

theorem card_elements
    {a : RangeSet} (ha : Canonical a.data) :
    a.elements.card = a.blocks.length := by
  rw [elements, List.toFinset_card_of_nodup (blocks_nodup ha)]

/-- `first` keeps the smallest integers. -/
theorem first_elements
    {a : RangeSet} (ha : Canonical a.data) (n : Nat) :
    ∃ r, a.first n = some r ∧ Canonical r.data ∧ r.elements ⊆ a.elements ∧
      r.elements.card = min n a.elements.card ∧
      ∀ i ∈ r.elements, ∀ j ∈ a.elements, j ∉ r.elements → i < j := by
  obtain ⟨r, hr, hcan, hblocks⟩ := first_spec ha (n := n) (by omega)
  rw [Int.toNat_natCast] at hblocks
  refine ⟨r, hr, hcan, ?_, ?_, ?_⟩
  · intro i hi
    rw [mem_elements, hblocks] at hi
    exact mem_elements.mpr (List.mem_of_mem_take hi)
  · rw [card_elements hcan, card_elements ha, hblocks, List.length_take]
  · intro i hi j hj hnot
    rw [mem_elements, hblocks] at hi hnot
    rw [mem_elements, ← List.take_append_drop n a.blocks, List.mem_append] at hj
    have hsorted := blocks_strict ha
    rw [← List.take_append_drop n a.blocks, List.pairwise_append] at hsorted
    exact hsorted.2.2 i hi j (hj.resolve_left hnot)

/-- The operations of `RangeSet` compute the operations on the sets they denote. -/
theorem operations_denote
    (a b : RangeSet) (ha : Canonical a.data) (hb : Canonical b.data) :
    (∃ r, a.union b = some r ∧ Canonical r.data ∧ r.elements = a.elements ∪ b.elements) ∧
    (∃ r, a.intersect b = some r ∧ Canonical r.data ∧ r.elements = a.elements ∩ b.elements) ∧
    (∃ r, a.subtract b = some r ∧ Canonical r.data ∧ r.elements = a.elements \ b.elements) ∧
    (∀ n : Int, 0 ≤ n → (∀ i ∈ a.elements, 0 ≤ i) →
      ∃ r, a.extend n = some r ∧ Canonical r.data ∧
        ∀ i, i ∈ r.elements ↔ 0 ≤ i ∧ ∃ j ∈ a.elements, |i - j| ≤ n) ∧
    (a.overlaps b = true ↔ (a.elements ∩ b.elements).Nonempty) ∧
    a.size = a.elements.card ∧
    (∀ n : Nat, ∃ r, a.first n = some r ∧ Canonical r.data ∧ r.elements ⊆ a.elements ∧
      r.elements.card = min n a.elements.card ∧
      ∀ i ∈ r.elements, ∀ j ∈ a.elements, j ∉ r.elements → i < j) ∧
    (a.sameData b = true ↔ a.elements = b.elements) := by
  refine ⟨?_, ?_, ?_, ?_, ?_, ?_, first_elements ha, ?_⟩
  · obtain ⟨r, hr, hcan, hmem⟩ := union_spec ha hb
    refine ⟨r, hr, hcan, ?_⟩
    ext i
    simp [hmem i]
  · obtain ⟨r, hr, hcan, hmem⟩ := intersect_spec ha hb
    refine ⟨r, hr, hcan, ?_⟩
    ext i
    simp [hmem i]
  · obtain ⟨r, hr, hcan, hmem⟩ := subtract_spec ha hb
    refine ⟨r, hr, hcan, ?_⟩
    ext i
    simp [hmem i]
  · intro n hn hnonneg
    obtain ⟨r, hr, hcan, hmem⟩ :=
      extend_spec ha (fun i hi => hnonneg i (mem_elements.mpr hi)) hn
    refine ⟨r, hr, hcan, ?_⟩
    simpa using hmem
  · rw [overlaps_spec ha hb, Finset.Nonempty]
    simp
  · rw [size_eq_length ha, card_elements ha]
  · rw [sameData_iff ha hb, Finset.ext_iff]
    simp

/-- Two overlapping sets in canonical form. -/
theorem operations_denote_overlapping :
    Canonical [10, 20, 30, 35] ∧ Canonical [18, 33] ∧
      ∃ r, union ⟨[10, 20, 30, 35], true, {}⟩ ⟨[18, 33], true, {}⟩ = some r ∧
        Canonical r.data ∧
        r.elements = elements ⟨[10, 20, 30, 35], true, {}⟩ ∪ elements ⟨[18, 33], true, {}⟩ := by
  have ha : Canonical [10, 20, 30, 35] := ⟨by decide, by decide⟩
  have hb : Canonical [18, 33] := ⟨by decide, by decide⟩
  exact ⟨ha, hb, (operations_denote ⟨[10, 20, 30, 35], true, {}⟩ ⟨[18, 33], true, {}⟩ ha hb).1⟩

/-- `parse` reads what is written, in every format. -/
theorem formats_round_trip :
    (∀ (text : String) (tokens : List (Int × Int)),
      List.Forall₂ IsToken (words text) tokens →
      ∃ r, parse text = some r ∧ Canonical r.data ∧
        (∀ i, i ∈ r.elements ↔
          tokens.countP (fun t => decide (t.1 ≤ i ∧ i ≤ t.2)) % 2 = 1) ∧
        (tokens.Pairwise (fun s t => s.2 < t.1 ∨ t.2 < s.1) →
          ∀ i, i ∈ r.elements ↔ ∃ t ∈ tokens, t.1 ≤ i ∧ i ≤ t.2)) ∧
    (∀ a : RangeSet, Canonical a.data → (∀ i ∈ a.elements, 0 ≤ i) →
      (∃ r, parse a.toText = some r ∧ r.sameData a = true) ∧
      (a.nonempty = true → ∃ text r, a.toTextRaw = some text ∧ parseRaw text = some r ∧
        r.sameData a = true)) := by
  refine ⟨?_, ?_⟩
  · intro text tokens htokens
    obtain ⟨r, hr, hcan, hmem⟩ := parse_tokens htokens
    refine ⟨r, hr, hcan, ?_, ?_⟩
    · simpa using hmem
    · intro hdisj i
      have hi : tokens.Pairwise
          (fun s t => ¬ ((s.1 ≤ i ∧ i ≤ s.2) ∧ t.1 ≤ i ∧ i ≤ t.2)) := by
        refine hdisj.imp ?_
        intro s t hst
        omega
      rw [mem_elements, hmem i, countP_of_disjoint hi]
  · intro a ha hnonneg
    have hnonneg' : ∀ i ∈ a.blocks, 0 ≤ i := fun i hi => hnonneg i (mem_elements.mpr hi)
    exact ⟨parse_toText ha hnonneg', parseRaw_toTextRaw ha hnonneg'⟩

/-- A text of blocks and ranges out of order. -/
theorem formats_round_trip_unsorted :
    ∃ r, parse "15-20 30 10-14" = some r ∧ Canonical r.data ∧
      ∀ i, i ∈ r.elements ↔ ∃ t ∈ [((15 : Int), (20 : Int)), (30, 30), (10, 14)],
        t.1 ≤ i ∧ i ≤ t.2 := by
  have hnum : ∀ n : Nat, IsNumeral n.repr n := isNumeral_toString
  have htokens : List.Forall₂ IsToken (words "15-20 30 10-14")
      [(15, 20), (30, 30), (10, 14)] := by
    have hwords : words "15-20 30 10-14" = ["15-20", "30", "10-14"] := by decide +kernel
    rw [hwords]
    exact .cons (.range (hnum 15) (hnum 20) (by decide)) (.cons (.single (hnum 30))
      (.cons (.range (hnum 10) (hnum 14) (by decide)) .nil))
  obtain ⟨r, hr, hcan, _, hmem⟩ := formats_round_trip.1 _ _ htokens
  exact ⟨r, hr, hcan, hmem (by decide)⟩

end Sets

end RangeSet

end RangeLib
end AndroidBuild
