import AndroidBuild.Lib.Text

/-!
# Integers with a base

`int(text, base)` on the characters of a text: spaces around the literal, a
sign, a base prefix, and digits with single underscores between them.  With
base 0 the prefix tells the base, and a decimal literal has no leading zeros.

The letters and digits beyond ASCII come from the interpreter's tables.
-/

namespace AndroidBuild

/-- The interpreter's character tables: `str.lower`, `str.upper`, and the value
of a decimal digit. -/
structure Unicode where
  lower : List Char → List Char
  upper : List Char → List Char
  decimal : Char → Option Nat

namespace Unicode

/-- The ASCII part of the tables. -/
def ascii : Unicode where
  lower := List.map Char.toLower
  upper := List.map Char.toUpper
  decimal c := if c.isDigit then some (c.toNat - '0'.toNat) else none

end Unicode

namespace IntLiteral

/-- The value of a digit; letters stand for ten and above. -/
def digitValue (c : Char) : Option Nat :=
  if '0' ≤ c ∧ c ≤ '9' then some (c.toNat - '0'.toNat)
  else if 'a' ≤ c ∧ c ≤ 'z' then some (c.toNat - 'a'.toNat + 10)
  else if 'A' ≤ c ∧ c ≤ 'Z' then some (c.toNat - 'A'.toNat + 10)
  else none

/-- The digits of a number whose value so far is `n`. -/
def digitsFrom (base : Nat) : Nat → Bool → List Char → Option Nat
  | n, afterDigit, [] => if afterDigit then some n else none
  | n, afterDigit, c :: cs =>
      if c = '_' then
        if afterDigit then digitsFrom base n false cs else none
      else
        match digitValue c with
        | some d => if d < base then digitsFrom base (base * n + d) true cs else none
        | none => none

/-- The base that the letter of a prefix tells. -/
def baseOfPrefix (c : Char) : Option Nat :=
  if c = 'x' ∨ c = 'X' then some 16
  else if c = 'o' ∨ c = 'O' then some 8
  else if c = 'b' ∨ c = 'B' then some 2
  else none

/-- The digits behind a base prefix; one underscore may stand before them. -/
def afterPrefix (base : Nat) : List Char → Option Nat
  | [] => none
  | c :: cs => digitsFrom base 0 false (if c = '_' then cs else c :: cs)

/-- A literal whose first digit is zero and that has no base prefix. -/
def leadingZero (base : Nat) (cs : List Char) : Option Nat :=
  if base = 0 then
    match digitsFrom 10 0 false cs with
    | some 0 => some 0
    | _ => none
  else digitsFrom base 0 false cs

/-- A literal without its sign. -/
def magnitude (base : Nat) : List Char → Option Nat
  | [] => none
  | [c] => digitsFrom (if base = 0 then 10 else base) 0 false [c]
  | c :: c' :: cs =>
      if c = '0' then
        match baseOfPrefix c' with
        | some b =>
            if base = 0 ∨ base = b then afterPrefix b cs
            else leadingZero base (c :: c' :: cs)
        | none => leadingZero base (c :: c' :: cs)
      else digitsFrom (if base = 0 then 10 else base) 0 false (c :: c' :: cs)

/-- A literal with an optional sign. -/
def signed (base : Nat) : List Char → Option Int
  | [] => none
  | c :: cs =>
      if c = '+' then (magnitude base cs).map Int.ofNat
      else if c = '-' then (magnitude base cs).map (fun n => -(n : Int))
      else (magnitude base (c :: cs)).map Int.ofNat

/-- Decimal digits beyond ASCII count as the ASCII ones. -/
def toAscii (U : Unicode) (c : Char) : Char :=
  match U.decimal c with
  | some d => Char.ofNat ('0'.toNat + d)
  | none => c

/-- `int(text, base)`; `none` is its `ValueError`. -/
def readInt (U : Unicode) (base : Nat) (text : List Char) : Option Int :=
  signed base ((Text.stripChars text).map (toAscii U))

example : readInt Unicode.ascii 0 "0x1f4".toList = some 500 := by decide

example : readInt Unicode.ascii 0 "0500".toList = none := by decide

section Decimals

/-- Decimal digits of base ten are read as their number. -/
theorem digitsFrom_digits
    {cs : List Char} (h : ∀ c ∈ cs, c.isDigit = true) (n : Nat) (afterDigit : Bool)
    (hne : afterDigit = true ∨ cs ≠ []) :
    digitsFrom 10 n afterDigit cs = some (Nat.ofDigitChars 10 cs n) := by
  induction cs generalizing n afterDigit with
  | nil => simp [digitsFrom, hne.resolve_right (by simp)]
  | cons c cs ih =>
      rw [List.forall_mem_cons] at h
      have hrange := Text.toNat_of_isDigit h.1
      have hunderscore : c ≠ '_' := by
        rintro rfl
        exact absurd h.1 (by decide)
      have hdigit : '0' ≤ c ∧ c ≤ '9' := by
        constructor
        · exact UInt32.le_iff_toNat_le.mpr hrange.1
        · exact UInt32.le_iff_toNat_le.mpr hrange.2
      have hvalue : digitValue c = some (c.toNat - '0'.toNat) := if_pos hdigit
      have hlt : c.toNat - '0'.toNat < 10 := by
        have hzero : '0'.toNat = 48 := rfl
        omega
      rw [digitsFrom, if_neg hunderscore, hvalue]
      dsimp only
      rw [if_pos hlt, ih h.2 _ _ (Or.inl rfl), Nat.ofDigitChars_cons]

theorem magnitude_digits
    {cs : List Char} (h : ∀ c ∈ cs, c.isDigit = true) (hne : cs ≠ []) :
    magnitude 10 cs = some (Nat.ofDigitChars 10 cs 0) := by
  have hdigits := digitsFrom_digits h 0 false (Or.inr hne)
  match cs with
  | [] => exact absurd rfl hne
  | [c] => exact hdigits
  | c :: c' :: cs =>
      have hc' : baseOfPrefix c' = none := by
        have hdigit := h c' (by simp)
        simp only [baseOfPrefix]
        split_ifs with hx ho hb
        · rcases hx with rfl | rfl <;> exact absurd hdigit (by decide)
        · rcases ho with rfl | rfl <;> exact absurd hdigit (by decide)
        · rcases hb with rfl | rfl <;> exact absurd hdigit (by decide)
        · rfl
      rw [magnitude]
      by_cases hzero : c = '0'
      · rw [if_pos hzero, hc']
        exact hdigits
      · rw [if_neg hzero]
        exact hdigits

/-- The tables tell of ASCII characters what ASCII tells of them. -/
def KeepsAscii (U : Unicode) : Prop :=
  ∀ c : Char, c.toNat < 128 → U.decimal c = Unicode.ascii.decimal c

variable {U : Unicode}

theorem map_toAscii_digits
    (hU : KeepsAscii U) {cs : List Char} (h : ∀ c ∈ cs, c.isDigit = true) :
    cs.map (toAscii U) = cs := by
  conv_rhs => rw [← List.map_id cs]
  refine List.map_congr_left fun c hc => ?_
  have hrange := Text.toNat_of_isDigit (h c hc)
  have hdecimal : U.decimal c = some (c.toNat - '0'.toNat) :=
    (hU c (by omega)).trans (if_pos (h c hc))
  rw [toAscii, hdecimal]
  have hzero : '0'.toNat = 48 := rfl
  have hsum : '0'.toNat + (c.toNat - '0'.toNat) = c.toNat := by omega
  dsimp only
  rw [hsum, Char.ofNat_toNat]
  rfl

/-- `int(str(i))` is the integer. -/
theorem readInt_toString
    (hU : KeepsAscii U) (i : Int) :
    readInt U 10 (toString i).toList = some i := by
  cases i with
  | ofNat n =>
      obtain ⟨hne, hdigits, hvalue⟩ := Text.isNumeral_toString n
      have hstring : (toString (Int.ofNat n)) = toString n := rfl
      rw [hstring, readInt, Text.stripChars_eq_self fun c hc =>
        Text.isSpace_of_isDigit (hdigits c hc), map_toAscii_digits hU hdigits]
      generalize (toString n).toList = cs at hne hdigits hvalue
      cases cs with
      | nil => exact absurd rfl hne
      | cons c cs =>
          have hc := hdigits c (by simp)
          rw [signed, if_neg (Text.ne_of_isDigit hc (by decide)),
            if_neg (Text.ne_of_isDigit hc (by decide)), magnitude_digits hdigits hne, hvalue]
          rfl
  | negSucc n =>
      obtain ⟨hne, hdigits, hvalue⟩ := Text.isNumeral_toString (n + 1)
      have hstring : (toString (Int.negSucc n)).toList = '-' :: (toString (n + 1)).toList := by
        have happend : toString (Int.negSucc n) = "-" ++ toString (n + 1) := rfl
        rw [happend, String.toList_append]
        rfl
      have hspace : ∀ c ∈ '-' :: (toString (n + 1)).toList, Text.isSpace c = false := by
        rw [List.forall_mem_cons]
        exact ⟨by decide, fun c hc => Text.isSpace_of_isDigit (hdigits c hc)⟩
      have hminus : toAscii U '-' = '-' := by
        rw [toAscii, hU '-' (by decide)]
        rfl
      rw [hstring, readInt, Text.stripChars_eq_self hspace, List.map_cons, hminus,
        map_toAscii_digits hU hdigits, signed, if_neg (by decide), if_pos rfl,
        magnitude_digits hdigits hne, hvalue]
      rfl

end Decimals

end IntLiteral
end AndroidBuild
