import AndroidBuild.Lib.Text
import Mathlib.Data.List.TakeWhile
import Mathlib.Data.Rat.Floor

/-!
# Floating-point literals

Decimal literals with an optional sign, fraction and exponent, and the names of
the special values, read into the number that they denote.  How the number is
rounded is a parameter, so exact arithmetic is one instance.
-/

namespace AndroidBuild
namespace FloatLiteral

open Text

/-- A floating-point value. -/
inductive Number where
  | nan
  | inf (negative : Bool)
  | finite (q : ℚ)
deriving DecidableEq

/-- The value of a non-empty sequence of digits. -/
def natural (ds : Str) : Option Nat :=
  if ds ≠ [] ∧ ds.all Char.isDigit then some (Nat.ofDigitChars 10 ds 0) else none

/-- The exponent behind the mantissa. -/
def exponent : Str → Option Int
  | [] => some 0
  | e :: rest =>
      if e = 'e' ∨ e = 'E' then
        match rest with
        | '-' :: ds => (natural ds).map fun n => -(n : Int)
        | '+' :: ds => (natural ds).map fun n => (n : Int)
        | ds => (natural ds).map fun n => (n : Int)
      else none

/-- The digits of the fraction, and what follows. -/
def fraction : Str → Str × Str
  | '.' :: rest => (rest.takeWhile Char.isDigit, rest.dropWhile Char.isDigit)
  | rest => ([], rest)

/-- A literal without a sign. -/
def decimal (s : Str) : Option ℚ :=
  let int := s.takeWhile Char.isDigit
  let (frac, rest) := fraction (s.dropWhile Char.isDigit)
  if int = [] ∧ frac = [] then none
  else (exponent rest).map fun e =>
    (Nat.ofDigitChars 10 (int ++ frac) 0 : ℚ) * (10 : ℚ) ^ (e - (frac.length : Int))

def special (negative : Bool) (s : Str) : Option Number :=
  let s := s.map Char.toLower
  if s = ['i', 'n', 'f'] ∨ s = ['i', 'n', 'f', 'i', 'n', 'i', 't', 'y'] then some (.inf negative)
  else if s = ['n', 'a', 'n'] then some .nan
  else none

def unsigned (round : ℚ → Number) (negative : Bool) (s : Str) : Option Number :=
  match special negative s with
  | some x => some x
  | none => (decimal s).map fun q => round (if negative then -q else q)

/-- Read a literal. -/
def parse (round : ℚ → Number) : Str → Option Number
  | '-' :: s => unsigned round true s
  | '+' :: s => unsigned round false s
  | s => unsigned round false s

/-- `x.fract() == 0.0`. -/
def Number.fractIsZero : Number → Bool
  | .finite q => q.den = 1
  | _ => false

/-- `x as u32`, which saturates. -/
def Number.toU32 : Number → Nat
  | .nan => 0
  | .inf negative => if negative then 0 else 2 ^ 32 - 1
  | .finite q => min ⌊q⌋.toNat (2 ^ 32 - 1)

section Digits

variable {ds es : Str}

theorem natural_digits
    (hne : ds ≠ []) (h : ∀ c ∈ ds, c.isDigit = true) :
    natural ds = some (Nat.ofDigitChars 10 ds 0) := by
  rw [natural, if_pos ⟨hne, List.all_eq_true.mpr h⟩]

theorem takeWhile_digits
    (h : ∀ c ∈ ds, c.isDigit = true) :
    ds.takeWhile Char.isDigit = ds := by
  exact List.takeWhile_eq_self_iff.mpr h

theorem dropWhile_digits
    (h : ∀ c ∈ ds, c.isDigit = true) :
    ds.dropWhile Char.isDigit = [] := by
  exact List.dropWhile_eq_nil_iff.mpr h

theorem decimal_digits
    (hne : ds ≠ []) (h : ∀ c ∈ ds, c.isDigit = true) :
    decimal ds = some (Nat.ofDigitChars 10 ds 0 : ℚ) := by
  rw [decimal, takeWhile_digits h, dropWhile_digits h]
  simp [fraction, exponent, hne]

/-- A number with a fraction. -/
theorem decimal_fraction
    (hne : ds ≠ []) (h : ∀ c ∈ ds, c.isDigit = true) (h' : ∀ c ∈ es, c.isDigit = true) :
    decimal (ds ++ '.' :: es) =
      some ((Nat.ofDigitChars 10 (ds ++ es) 0 : ℚ) / (10 : ℚ) ^ es.length) := by
  have htake : (ds ++ '.' :: es).takeWhile Char.isDigit = ds := by
    rw [List.takeWhile_append_of_pos h, List.takeWhile_cons_of_neg (by decide), List.append_nil]
  have hdrop : (ds ++ '.' :: es).dropWhile Char.isDigit = '.' :: es := by
    rw [List.dropWhile_append_of_pos h, List.dropWhile_cons_of_neg (by decide)]
  rw [decimal, htake, hdrop, fraction, takeWhile_digits h', dropWhile_digits h']
  simp [exponent, hne, div_eq_mul_inv]

/-- Digits are not the name of a special value. -/
theorem special_of_isDigit
    {c : Char} (h : c.isDigit = true) (negative : Bool) (s : Str) :
    special negative (c :: s) = none := by
  have hbounds := toNat_of_isDigit h
  have hlower : c.toLower = c := by
    unfold Char.toLower
    rw [dif_neg]
    rintro ⟨hA, _⟩
    have : 65 ≤ c.toNat := UInt32.le_iff_toNat_le.mp hA
    omega
  have hne : ∀ d : Char, 57 < d.toNat → c ≠ d := by
    rintro d hd rfl
    omega
  have hi := hne 'i' (by decide)
  have hn := hne 'n' (by decide)
  simp [special, hlower, hi, hn]

theorem parse_of_isDigit
    (round : ℚ → Number) {c : Char} (h : c.isDigit = true) (s : Str) :
    parse round (c :: s) = (decimal (c :: s)).map round := by
  have hneg := ne_of_isDigit h (d := '-') (by decide)
  have hpos := ne_of_isDigit h (d := '+') (by decide)
  have hparse : parse round (c :: s) = unsigned round false (c :: s) := by
    rw [parse]
    · rintro s' ⟨rfl, _⟩
      exact hneg rfl
    · rintro s' ⟨rfl, _⟩
      exact hpos rfl
  rw [hparse, unsigned, special_of_isDigit h]
  rfl

theorem ofDigitChars_lt
    (h : ∀ c ∈ ds, c.isDigit = true) :
    Nat.ofDigitChars 10 ds 0 < 10 ^ ds.length := by
  induction ds with
  | nil => decide
  | cons c ds ih =>
      rw [List.forall_mem_cons] at h
      have hc := toNat_of_isDigit h.1
      have hrest := ih h.2
      rw [Nat.ofDigitChars_cons, Nat.ofDigitChars_eq_ofDigitChars_zero, List.length_cons, pow_succ]
      have hdigit : 10 * 0 + (c.toNat - '0'.toNat) ≤ 9 := by
        change 10 * 0 + (c.toNat - 48) ≤ 9
        omega
      nlinarith [Nat.mul_le_mul_left (10 ^ ds.length) hdigit]

/-- A fraction is zero iff its digits are. -/
theorem fractIsZero_fraction
    (h : ∀ c ∈ es, c.isDigit = true) :
    (Number.finite
      ((Nat.ofDigitChars 10 (ds ++ es) 0 : ℚ) / (10 : ℚ) ^ es.length)).fractIsZero = true ↔
      Nat.ofDigitChars 10 es 0 = 0 := by
  have hlt := ofDigitChars_lt h
  have hpow : (10 : ℚ) ^ es.length = ((10 ^ es.length : Nat) : ℚ) := by norm_num
  rw [Number.fractIsZero, decide_eq_true_iff, hpow,
    Rat.den_div_natCast_eq_one_iff _ _ (by positivity), Nat.ofDigitChars_append,
    Nat.ofDigitChars_eq_ofDigitChars_zero, Nat.dvd_add_right (Nat.dvd_mul_right _ _)]
  constructor
  · intro hdvd
    exact Nat.eq_zero_of_dvd_of_lt hdvd hlt
  · intro hzero
    rw [hzero]
    exact Nat.dvd_zero _

/-- The value of a number whose fraction is zero. -/
theorem value_of_fraction_zero
    (h : Nat.ofDigitChars 10 es 0 = 0) :
    (Nat.ofDigitChars 10 (ds ++ es) 0 : ℚ) / (10 : ℚ) ^ es.length =
      (Nat.ofDigitChars 10 ds 0 : ℚ) := by
  rw [Nat.ofDigitChars_append, Nat.ofDigitChars_eq_ofDigitChars_zero, h, Nat.add_zero]
  push_cast
  field_simp

theorem toU32_natCast
    (n : Nat) :
    (Number.finite (n : ℚ)).toU32 = min n (2 ^ 32 - 1) := by
  rw [Number.toU32, Int.floor_natCast, Int.toNat_natCast]

theorem fractIsZero_natCast
    (n : Nat) :
    (Number.finite (n : ℚ)).fractIsZero = true := by
  rw [Number.fractIsZero, Rat.den_natCast]
  rfl

end Digits

end FloatLiteral
end AndroidBuild
