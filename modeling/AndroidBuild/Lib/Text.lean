import Mathlib.Tactic

/-!
# Python's text functions

`str.strip`, `str.split`, `str.join`, `str` and `int`, on the characters of a
text.  `int` reads ASCII digits only.
-/

namespace AndroidBuild
namespace Text

/-- The characters of a text. -/
abbrev Str :=
  List Char

instance : LawfulBEq Str :=
  inferInstance

/-- `str.isspace` of one character. -/
def isSpace (c : Char) : Bool :=
  let n := c.toNat
  (9 ≤ n && n ≤ 13) || (28 ≤ n && n ≤ 32) || n == 133 || n == 160 || n == 5760 ||
    (8192 ≤ n && n ≤ 8202) || n == 8232 || n == 8233 || n == 8239 || n == 8287 || n == 12288

/-- `s.strip()`, on characters. -/
def stripChars (cs : List Char) : List Char :=
  ((cs.dropWhile isSpace).reverse.dropWhile isSpace).reverse

/-- The words of a text, `word` being the part of the current word already read. -/
def wordsFrom (word : List Char) : List Char → List (List Char)
  | [] => if word = [] then [] else [word]
  | c :: cs =>
      if isSpace c then
        if word = [] then wordsFrom [] cs else word :: wordsFrom [] cs
      else wordsFrom (word ++ [c]) cs

/-- `s.split()`. -/
def words (s : String) : List String :=
  (wordsFrom [] s.toList).map String.ofList

/-- The parts of a text between the separators. -/
def partsFrom (sep : Char) (part : List Char) : List Char → List (List Char)
  | [] => [part]
  | c :: cs =>
      if c = sep then part :: partsFrom sep [] cs
      else partsFrom sep (part ++ [c]) cs

/-- `s.split(sep)`. -/
def splitAt (sep : Char) (s : String) : List String :=
  (partsFrom sep [] s.toList).map String.ofList

/-- `sep.join(parts)`. -/
def join (sep : Char) : List String → String
  | [] => ""
  | [part] => part
  | part :: parts => part ++ String.singleton sep ++ join sep parts

/-- Decimal digits, with single underscores between them. -/
def parseDigits : Nat → Bool → List Char → Option Nat
  | n, afterDigit, [] => if afterDigit then some n else none
  | n, afterDigit, c :: cs =>
      if c.isDigit then parseDigits (10 * n + (c.toNat - '0'.toNat)) true cs
      else if c = '_' ∧ afterDigit = true ∧ cs ≠ [] then parseDigits n false cs
      else none

/-- An optional sign and decimal digits. -/
def parseSigned : List Char → Option Int
  | [] => none
  | c :: cs =>
      if c = '+' then (parseDigits 0 false cs).map Int.ofNat
      else if c = '-' then (parseDigits 0 false cs).map (fun n => -(n : Int))
      else (parseDigits 0 false (c :: cs)).map Int.ofNat

/-- `int(s)`; `none` is its `ValueError`. -/
def parseInt (s : String) : Option Int :=
  parseSigned (stripChars s.toList)

section Numerals

/-- A decimal numeral and its value. -/
structure IsNumeral (s : String) (n : Nat) : Prop where
  nonempty : s.toList ≠ []
  digits : ∀ c ∈ s.toList, c.isDigit = true
  value : Nat.ofDigitChars 10 s.toList 0 = n

theorem toNat_of_isDigit
    {c : Char} (h : c.isDigit = true) :
    48 ≤ c.toNat ∧ c.toNat ≤ 57 := by
  have h' : c.val ≥ 48 ∧ c.val ≤ 57 := by
    simpa [Char.isDigit] using h
  exact ⟨UInt32.le_iff_toNat_le.mp h'.1, UInt32.le_iff_toNat_le.mp h'.2⟩

theorem isSpace_of_isDigit
    {c : Char} (h : c.isDigit = true) :
    isSpace c = false := by
  have hc := toNat_of_isDigit h
  simp only [isSpace, Bool.or_eq_false_iff, Bool.and_eq_false_iff, decide_eq_false_iff_not,
    beq_eq_false_iff_ne]
  omega

theorem ne_of_isDigit
    {c d : Char} (h : c.isDigit = true) (hd : d.toNat < 48) :
    c ≠ d := by
  rintro rfl
  have := toNat_of_isDigit h
  omega

theorem parseDigits_digits
    {cs : List Char} (h : ∀ c ∈ cs, c.isDigit = true) (n : Nat) (afterDigit : Bool)
    (hne : afterDigit = true ∨ cs ≠ []) :
    parseDigits n afterDigit cs = some (Nat.ofDigitChars 10 cs n) := by
  induction cs generalizing n afterDigit with
  | nil => simp [parseDigits, hne.resolve_right (by simp)]
  | cons c cs ih =>
      rw [List.forall_mem_cons] at h
      rw [parseDigits, if_pos h.1, ih h.2 _ _ (Or.inl rfl), Nat.ofDigitChars_cons]

theorem dropWhile_isSpace
    {cs : List Char} (h : ∀ c ∈ cs, isSpace c = false) :
    cs.dropWhile isSpace = cs := by
  cases cs with
  | nil => rfl
  | cons c cs => rw [List.dropWhile_cons_of_neg (by simp [h c])]

theorem stripChars_eq_self
    {cs : List Char} (h : ∀ c ∈ cs, isSpace c = false) :
    stripChars cs = cs := by
  unfold stripChars
  rw [dropWhile_isSpace h, dropWhile_isSpace (by simpa using h), List.reverse_reverse]

theorem IsNumeral.parseInt
    {s : String} {n : Nat} (h : IsNumeral s n) :
    parseInt s = some n := by
  unfold Text.parseInt
  rw [stripChars_eq_self (fun c hc => isSpace_of_isDigit (h.digits c hc))]
  obtain ⟨hne, hdigits, rfl⟩ := h
  generalize s.toList = cs at hne hdigits
  cases cs with
  | nil => exact absurd rfl hne
  | cons c cs =>
      have hc := hdigits c (by simp)
      rw [parseSigned, if_neg (ne_of_isDigit hc (by decide)),
        if_neg (ne_of_isDigit hc (by decide)), parseDigits_digits hdigits 0 false (by simp)]
      rfl

/-- `str(n)` is a numeral of `n`. -/
theorem isNumeral_toString (n : Nat) :
    IsNumeral (toString n) n := by
  rw [Nat.toString_eq_repr]
  refine ⟨?_, ?_, ?_⟩
  · rw [Nat.toList_repr]
    exact Nat.toDigits_ne_nil
  · intro c hc
    rw [Nat.toList_repr] at hc
    exact Nat.isDigit_of_mem_toDigits (by omega) (by omega) hc
  · rw [Nat.toList_repr, Nat.ofDigitChars_ten_toDigits]

theorem isNumeral_toString_int
    {i : Int} (h : 0 ≤ i) :
    IsNumeral (toString i) i.toNat := by
  obtain ⟨n, rfl⟩ := Int.eq_ofNat_of_zero_le h
  exact isNumeral_toString n

end Numerals

section Split

theorem partsFrom_append
    {sep : Char} {xs : List Char} (h : ∀ c ∈ xs, c ≠ sep) (part rest : List Char) :
    partsFrom sep part (xs ++ sep :: rest) = (part ++ xs) :: partsFrom sep [] rest := by
  induction xs generalizing part with
  | nil => simp [partsFrom]
  | cons x xs ih =>
      rw [List.forall_mem_cons] at h
      rw [List.cons_append, partsFrom, if_neg h.1, ih h.2]
      simp

theorem partsFrom_last
    {sep : Char} {xs : List Char} (h : ∀ c ∈ xs, c ≠ sep) (part : List Char) :
    partsFrom sep part xs = [part ++ xs] := by
  induction xs generalizing part with
  | nil => simp [partsFrom]
  | cons x xs ih =>
      rw [List.forall_mem_cons] at h
      rw [partsFrom, if_neg h.1, ih h.2]
      simp

/-- `s.split(sep)` undoes `sep.join(parts)`. -/
theorem splitAt_join
    {sep : Char} {parts : List String} (hne : parts ≠ [])
    (h : ∀ p ∈ parts, ∀ c ∈ p.toList, c ≠ sep) :
    splitAt sep (join sep parts) = parts := by
  induction parts with
  | nil => exact absurd rfl hne
  | cons p parts ih =>
      rw [List.forall_mem_cons] at h
      unfold splitAt at ih ⊢
      cases parts with
      | nil => simp [join, partsFrom_last h.1]
      | cons q parts =>
          have hrest := ih (by simp) h.2
          rw [join.eq_3 sep p (q :: parts) (by simp)]
          simp only [String.toList_append, String.toList_singleton, List.append_assoc,
            List.singleton_append]
          rw [partsFrom_append h.1, List.map_cons, hrest]
          simp

theorem wordsFrom_append
    {xs : List Char} (h : ∀ c ∈ xs, isSpace c = false) (word rest : List Char) :
    wordsFrom word (xs ++ rest) = wordsFrom (word ++ xs) rest := by
  induction xs generalizing word with
  | nil => simp
  | cons x xs ih =>
      rw [List.forall_mem_cons] at h
      rw [List.cons_append, wordsFrom, if_neg (by simp [h.1]), ih h.2]
      simp

/-- The words of a text are not empty and have no spaces. -/
theorem of_mem_wordsFrom
    {word cs w : Str} (h : ∀ c ∈ word, isSpace c = false) (hw : w ∈ wordsFrom word cs) :
    w ≠ [] ∧ ∀ c ∈ w, isSpace c = false := by
  induction cs generalizing word with
  | nil =>
      rw [wordsFrom] at hw
      split_ifs at hw with hne
      · cases hw
      · rw [List.mem_singleton.mp hw]
        exact ⟨hne, h⟩
  | cons c cs ih =>
      rw [wordsFrom] at hw
      split_ifs at hw with hspace hne
      · exact ih (by simp) hw
      · rcases List.mem_cons.mp hw with rfl | hw
        · exact ⟨hne, h⟩
        · exact ih (by simp) hw
      · refine ih ?_ hw
        intro d hd
        rcases List.mem_append.mp hd with hd | hd
        · exact h d hd
        · rw [List.mem_singleton.mp hd]
          simpa using hspace

/-- `s.split()` undoes `" ".join(parts)`, on characters. -/
theorem wordsFrom_intercalate
    {parts : List Str} (h : ∀ p ∈ parts, p ≠ [] ∧ ∀ c ∈ p, isSpace c = false) :
    wordsFrom [] ([' '].intercalate parts) = parts := by
  induction parts with
  | nil => rfl
  | cons p parts ih =>
      rw [List.forall_mem_cons] at h
      cases parts with
      | nil =>
          rw [List.intercalate_singleton, ← List.append_nil p, wordsFrom_append h.1.2, wordsFrom,
            List.nil_append, if_neg h.1.1, List.append_nil]
      | cons q parts =>
          have hspace : isSpace ' ' = true := by decide
          rw [List.intercalate_cons_cons, List.append_assoc, List.singleton_append,
            wordsFrom_append h.1.2, wordsFrom, if_pos hspace, List.nil_append, if_neg h.1.1,
            ih h.2]

theorem toList_join
    (parts : List String) :
    (join ' ' parts).toList = [' '].intercalate (parts.map String.toList) := by
  induction parts with
  | nil => rfl
  | cons p parts ih =>
      cases parts with
      | nil => simp [join]
      | cons q parts =>
          rw [join.eq_3 ' ' p (q :: parts) (by simp), String.toList_append, ih]
          simp [List.intercalate_cons_cons]

/-- `s.split()` undoes `" ".join(parts)`. -/
theorem words_join
    {parts : List String}
    (h : ∀ p ∈ parts, p.toList ≠ [] ∧ ∀ c ∈ p.toList, isSpace c = false) :
    words (join ' ' parts) = parts := by
  rw [words, toList_join, wordsFrom_intercalate (List.forall_mem_map.mpr h), List.map_map]
  simp [Function.comp_def]

end Split

end Text
end AndroidBuild
