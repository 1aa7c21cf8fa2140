import AndroidBuild.Lib.FloatLiteral

/-!
# API levels

`ApiLevel` and `parse_full_version`: the level that the name of a directory
stands for, and the Java condition that compares it with a device.
-/

namespace AndroidBuild
namespace ConvertFinalizedFlags

open Text FloatLiteral

/-- An error of a `Result`, or a panic. -/
inductive Failure where
  | parseFloat
  | parseInt
  | err (message : String)
  | panicked (message : String)

def sdkIntMultiplier : Nat := 100000

def minSdkIntFull : Nat := sdkIntMultiplier * 36

/-- A level of one of the two scales. -/
structure ApiLevel where
  level : Nat
deriving DecidableEq

def fromSdkInt (level : Nat) : Except Failure ApiLevel :=
  if level > sdkIntMultiplier then .error (.panicked "SDK_INT value too large.")
  else .ok ⟨level⟩

def fromSdkIntFull (level : Nat) : Except Failure ApiLevel :=
  if level < minSdkIntFull then
    .error (.panicked "Cannot use SDK_INT_FULL below Baklava (36).")
  else .ok ⟨level⟩

/-- `s.parse::<u32>()`. -/
def parseU32 (s : Str) : Except Failure Nat :=
  let ds := match s with
    | '+' :: ds => ds
    | ds => ds
  match natural ds with
  | none => .error .parseInt
  | some n => if n < 2 ^ 32 then .ok n else .error .parseInt

def parseFullVersion (version : Str) : Except Failure Nat := do
  let (major, minor) ← match version.dropWhile (fun c => c ≠ '.') with
    | _ :: rest => do
        let major ← parseU32 (version.takeWhile fun c => c ≠ '.')
        let minor ← parseU32 rest
        pure (major, minor)
    | [] => do
        let major ← parseU32 version
        pure (major, 0)
  if major ≥ 21474 then
    .error (.err "Major version too large, must be less than 21474.")
  else if minor ≥ sdkIntMultiplier then
    .error (.err "Minor version too large, must be less than 100000.")
  else .ok (major * sdkIntMultiplier + minor)

/-- `ApiLevel::from_str`, with or without the feature for minor versions. -/
def fromStr (round : ℚ → Number) (supportMinorSdk : Bool) (s : Str) : Except Failure ApiLevel :=
  match parse round s with
  | none => .error .parseFloat
  | some x =>
      if x.fractIsZero then fromSdkInt x.toU32
      else if supportMinorSdk then do
        let level ← parseFullVersion s
        fromSdkIntFull level
      else .error (.err "Numeric string is float, can't parse to int.")

section Conditions

/-- The fields of `Build.VERSION`. -/
inductive VersionField where
  | sdkInt
  | sdkIntFull

/-- The Java conditions that are generated. -/
inductive Condition where
  | atLeast (field : VersionField) (level : Nat)
  | and (a b : Condition)

def VersionField.render : VersionField → String
  | .sdkInt => "Build.VERSION.SDK_INT"
  | .sdkIntFull => "Build.VERSION.SDK_INT_FULL"

def Condition.render : Condition → String
  | .atLeast field level => field.render ++ " >= " ++ toString level
  | .and a b => a.render ++ " && " ++ b.render

def ApiLevel.condition (l : ApiLevel) : Except Failure Condition :=
  if l.level < sdkIntMultiplier then .ok (.atLeast .sdkInt l.level)
  else if l.level < minSdkIntFull then
    .error (.panicked ("Invalid SDK level (" ++ toString l.level ++
      ") - greater than the multiplier but less than the supported level."))
  else .ok (.and (.atLeast .sdkInt 36) (.atLeast .sdkIntFull l.level))

/-- `conditional()`, the text of the condition. -/
def ApiLevel.conditional (l : ApiLevel) : Except Failure String :=
  l.condition.map Condition.render

/-- A device of a version. -/
structure Device where
  major : Nat
  minor : Nat

/-- The value of a field, which `SDK_INT_FULL` has from Baklava on. -/
def Device.read (d : Device) : VersionField → Option Nat
  | .sdkInt => some d.major
  | .sdkIntFull => if 36 ≤ d.major then some (sdkIntMultiplier * d.major + d.minor) else none

/-- The value of a condition, nothing when a field is read that is not there. -/
def Condition.eval (d : Device) : Condition → Option Bool
  | .atLeast field level => (d.read field).map fun n => decide (level ≤ n)
  | .and a b =>
      match a.eval d with
      | some true => b.eval d
      | r => r

end Conditions

section Versions

/-- The names of versions, a major number or both numbers. -/
inductive VersionName where
  | major (major : Nat)
  | full (major minor : Nat)

def VersionName.text : VersionName → Str
  | .major n => Nat.toDigits 10 n
  | .full n k => Nat.toDigits 10 n ++ '.' :: Nat.toDigits 10 k

def VersionName.version : VersionName → Nat × Nat
  | .major n => (n, 0)
  | .full n k => (n, k)

/-- The order of versions. -/
def VersionLe (v w : Nat × Nat) : Prop :=
  v.1 < w.1 ∨ v.1 = w.1 ∧ v.2 ≤ w.2

def Panics {α : Type} (r : Except Failure α) : Prop :=
  ∃ message, r = .error (.panicked message)

theorem isDigit_toDigits
    (n : Nat) :
    ∀ c ∈ Nat.toDigits 10 n, c.isDigit = true := by
  intro c hc
  exact Nat.isDigit_of_mem_toDigits (by omega) (by omega) hc

theorem parse_toDigits
    (round : ℚ → Number) (n : Nat) (rest : Str) :
    parse round (Nat.toDigits 10 n ++ rest) =
      (decimal (Nat.toDigits 10 n ++ rest)).map round := by
  have hdigits := isDigit_toDigits n
  cases hds : Nat.toDigits 10 n with
  | nil => exact absurd hds Nat.toDigits_ne_nil
  | cons c ds =>
      rw [hds, List.forall_mem_cons] at hdigits
      exact parse_of_isDigit round hdigits.1 (ds ++ rest)

theorem parseU32_toDigits
    (n : Nat) :
    parseU32 (Nat.toDigits 10 n) = if n < 2 ^ 32 then .ok n else .error .parseInt := by
  have hdigits := isDigit_toDigits n
  have hnatural := natural_digits Nat.toDigits_ne_nil hdigits
  rw [Nat.ofDigitChars_ten_toDigits] at hnatural
  unfold parseU32
  split
  next ds hplus =>
    rw [hplus, List.forall_mem_cons] at hdigits
    exact absurd hdigits.1 (by decide)
  next => simp only [hnatural]

theorem parseFullVersion_full
    (n k : Nat) :
    parseFullVersion (VersionName.full n k).text =
      if n < 2 ^ 32 ∧ k < 2 ^ 32 then
        if n ≥ 21474 then .error (.err "Major version too large, must be less than 21474.")
        else if k ≥ sdkIntMultiplier then
          .error (.err "Minor version too large, must be less than 100000.")
        else .ok (n * sdkIntMultiplier + k)
      else .error .parseInt := by
  have hpoint : ∀ c ∈ Nat.toDigits 10 n, decide (c ≠ '.') = true := by
    intro c hc
    exact decide_eq_true (ne_of_isDigit (isDigit_toDigits n c hc) (by decide))
  have htake : (VersionName.full n k).text.takeWhile (fun c => decide (c ≠ '.')) =
      Nat.toDigits 10 n := by
    rw [VersionName.text, List.takeWhile_append_of_pos hpoint,
      List.takeWhile_cons_of_neg (by decide), List.append_nil]
  have hdrop : (VersionName.full n k).text.dropWhile (fun c => decide (c ≠ '.')) =
      '.' :: Nat.toDigits 10 k := by
    rw [VersionName.text, List.dropWhile_append_of_pos hpoint,
      List.dropWhile_cons_of_neg (by decide)]
  rw [parseFullVersion, htake, hdrop]
  simp only [parseU32_toDigits]
  by_cases hn : n < 2 ^ 32
  · by_cases hk : k < 2 ^ 32
    · rw [if_pos hn, if_pos hk, if_pos ⟨hn, hk⟩]
      rfl
    · have hboth : ¬ (n < 2 ^ 32 ∧ k < 2 ^ 32) := fun h => hk h.2
      rw [if_pos hn, if_neg hk, if_neg hboth]
      rfl
  · have hboth : ¬ (n < 2 ^ 32 ∧ k < 2 ^ 32) := fun h => hn h.1
    rw [if_neg hn, if_neg hboth]
    rfl

/-- A version without a minor number. -/
theorem fromStr_of_minor_zero
    {v : VersionName} (h : v.version.2 = 0) (supportMinorSdk : Bool) :
    fromStr .finite supportMinorSdk v.text = fromSdkInt (min v.version.1 (2 ^ 32 - 1)) := by
  have hparse : parse .finite v.text = some (.finite (v.version.1 : ℚ)) := by
    cases v with
    | major n =>
        have hdecimal := decimal_digits (Nat.toDigits_ne_nil (b := 10) (n := n))
          (isDigit_toDigits n)
        rw [Nat.ofDigitChars_ten_toDigits] at hdecimal
        have := parse_toDigits .finite n []
        rw [List.append_nil, hdecimal] at this
        exact this
    | full n k =>
        replace h : k = 0 := h
        have hvalue :
            (Nat.ofDigitChars 10 (Nat.toDigits 10 n ++ Nat.toDigits 10 k) 0 : ℚ) /
                (10 : ℚ) ^ (Nat.toDigits 10 k).length =
              (Nat.ofDigitChars 10 (Nat.toDigits 10 n) 0 : ℚ) :=
          value_of_fraction_zero (by rw [Nat.ofDigitChars_ten_toDigits, h])
        rw [Nat.ofDigitChars_ten_toDigits (n := n)] at hvalue
        rw [VersionName.text, parse_toDigits,
          decimal_fraction Nat.toDigits_ne_nil (isDigit_toDigits n) (isDigit_toDigits k), hvalue]
        rfl
  rw [fromStr, hparse]
  simp only [fractIsZero_natCast, if_true, toU32_natCast]

theorem fromStr_full
    {n k : Nat} (h : k ≠ 0) :
    fromStr .finite true (VersionName.full n k).text =
      (parseFullVersion (VersionName.full n k).text >>= fromSdkIntFull) := by
  have hfract :
      (Number.finite ((Nat.ofDigitChars 10 (Nat.toDigits 10 n ++ Nat.toDigits 10 k) 0 : ℚ) /
        (10 : ℚ) ^ (Nat.toDigits 10 k).length)).fractIsZero = true ↔
          Nat.ofDigitChars 10 (Nat.toDigits 10 k) 0 = 0 :=
    fractIsZero_fraction (isDigit_toDigits k)
  rw [Nat.ofDigitChars_ten_toDigits] at hfract
  have hparse := parse_toDigits .finite n ('.' :: Nat.toDigits 10 k)
  rw [decimal_fraction Nat.toDigits_ne_nil (isDigit_toDigits n) (isDigit_toDigits k)] at hparse
  rw [fromStr, VersionName.text, hparse]
  simp only [Option.map_some]
  rw [if_neg (fun hzero => h (hfract.mp hzero)), if_pos trivial]

def VersionName.level (v : VersionName) : Nat :=
  if v.version.2 = 0 then v.version.1 else v.version.1 * sdkIntMultiplier + v.version.2

/-- The versions for which a constructor panics. -/
def VersionName.Refused (v : VersionName) : Prop :=
  v.version.2 = 0 ∧ sdkIntMultiplier < v.version.1 ∨
    0 < v.version.2 ∧ v.version.2 < sdkIntMultiplier ∧ v.version.1 < 36

theorem VersionName.eq_full
    {v : VersionName} (h : v.version.2 ≠ 0) :
    v = .full v.version.1 v.version.2 := by
  cases v with
  | major n => exact absurd rfl h
  | full n k => rfl

theorem fromStr_panics_iff
    (v : VersionName) :
    Panics (fromStr .finite true v.text) ↔ v.Refused := by
  unfold VersionName.Refused
  by_cases hminor : v.version.2 = 0
  · rw [fromStr_of_minor_zero hminor, fromSdkInt]
    unfold sdkIntMultiplier
    split_ifs with hlarge
    · exact iff_of_true ⟨_, rfl⟩ (Or.inl ⟨hminor, by omega⟩)
    · refine iff_of_false ?_ ?_
      · rintro ⟨message, hmessage⟩
        cases hmessage
      · omega
  · rw [VersionName.eq_full hminor, fromStr_full hminor, parseFullVersion_full]
    change _ ↔ v.version.2 = 0 ∧ sdkIntMultiplier < v.version.1 ∨
      0 < v.version.2 ∧ v.version.2 < sdkIntMultiplier ∧ v.version.1 < 36
    have herror : ∀ failure : Failure, (∀ message, failure ≠ .panicked message) →
        ¬ Panics ((.error failure : Except Failure Nat) >>= fromSdkIntFull) := by
      rintro failure hfailure ⟨message, hmessage⟩
      cases hmessage
      exact hfailure message rfl
    unfold sdkIntMultiplier
    split_ifs with hsmall hmajor hlarge
    · refine iff_of_false (herror _ (by simp)) ?_
      omega
    · refine iff_of_false (herror _ (by simp)) ?_
      omega
    · change Panics (fromSdkIntFull (v.version.1 * 100000 + v.version.2)) ↔ _
      unfold fromSdkIntFull minSdkIntFull sdkIntMultiplier
      split_ifs with hbelow
      · exact iff_of_true ⟨_, rfl⟩ (by omega)
      · refine iff_of_false ?_ ?_
        · rintro ⟨message, hmessage⟩
          cases hmessage
        · omega
    · refine iff_of_false (herror _ (by simp)) ?_
      omega

/-- The level of a version, and its bounds. -/
theorem fromStr_ok
    {v : VersionName} {l : ApiLevel} (h : fromStr .finite true v.text = .ok l) :
    l.level = v.level ∧ (v.version.2 = 0 ∧ v.version.1 ≤ sdkIntMultiplier ∨
      0 < v.version.2 ∧ v.version.2 < sdkIntMultiplier ∧ 36 ≤ v.version.1) := by
  unfold VersionName.level
  by_cases hminor : v.version.2 = 0
  · rw [fromStr_of_minor_zero hminor, fromSdkInt] at h
    rw [if_pos hminor]
    unfold sdkIntMultiplier at h ⊢
    split_ifs at h with hlarge
    cases h
    constructor
    · change min v.version.1 (2 ^ 32 - 1) = v.version.1
      omega
    · exact Or.inl ⟨hminor, by omega⟩
  · rw [VersionName.eq_full hminor, fromStr_full hminor, parseFullVersion_full] at h
    rw [if_neg hminor]
    unfold sdkIntMultiplier at h ⊢
    split_ifs at h with hsmall hmajor hlarge <;> try cases h
    change fromSdkIntFull (v.version.1 * 100000 + v.version.2) = .ok l at h
    unfold fromSdkIntFull minSdkIntFull sdkIntMultiplier at h
    split_ifs at h with hbelow
    cases h
    exact ⟨rfl, Or.inr (by omega)⟩

/-- Where `from_str` panics; and unless the major number is the multiplier itself, the condition
of the level compares the versions, for devices whose minor number is below the multiplier. -/
theorem fromStr_conditional
    (v : VersionName) :
    (Panics (fromStr .finite true v.text) ↔ v.Refused) ∧
    (v.version ≠ (sdkIntMultiplier, 0) → ∀ l, fromStr .finite true v.text = .ok l →
      ∃ c, l.condition = .ok c ∧ l.conditional = .ok c.render ∧
        ∀ d : Device, d.minor < sdkIntMultiplier →
          ∃ b, c.eval d = some b ∧ (b = true ↔ VersionLe v.version (d.major, d.minor))) := by
  refine ⟨fromStr_panics_iff v, fun hslip l hl => ?_⟩
  obtain ⟨hlevel, hbounds⟩ := fromStr_ok hl
  obtain ⟨hminor, hmajor⟩ | ⟨hminor, hsmall, hmajor⟩ := hbounds
  · have hne : v.version.1 ≠ sdkIntMultiplier := by
      intro heq
      exact hslip (Prod.ext heq hminor)
    have hcondition : l.condition = .ok (.atLeast .sdkInt l.level) := by
      rw [ApiLevel.condition, if_pos]
      rw [hlevel, VersionName.level, if_pos hminor]
      omega
    refine ⟨_, hcondition, by rw [ApiLevel.conditional, hcondition]; rfl, fun d _ => ⟨_, rfl, ?_⟩⟩
    rw [decide_eq_true_iff, hlevel, VersionName.level, if_pos hminor, VersionLe]
    omega
  · have hcondition : l.condition =
        .ok (.and (.atLeast .sdkInt 36) (.atLeast .sdkIntFull l.level)) := by
      rw [ApiLevel.condition, hlevel, VersionName.level, if_neg hminor.ne']
      unfold minSdkIntFull sdkIntMultiplier at *
      rw [if_neg (by omega), if_neg (by omega)]
    refine ⟨_, hcondition, by rw [ApiLevel.conditional, hcondition]; rfl, fun d hd => ?_⟩
    by_cases hbaklava : 36 ≤ d.major
    · refine ⟨decide (l.level ≤ sdkIntMultiplier * d.major + d.minor), ?_, ?_⟩
      · simp [Condition.eval, Device.read, hbaklava]
      · rw [decide_eq_true_iff, hlevel, VersionName.level, if_neg hminor.ne', VersionLe]
        unfold sdkIntMultiplier at *
        omega
    · refine ⟨false, ?_, ?_⟩
      · simp [Condition.eval, Device.read, hbaklava]
      · rw [VersionLe]
        exact iff_of_false Bool.false_ne_true (by omega)

/-- `35.1` panics instead of being refused with an error, and a minor number of the multiplier
is taken for the next major version. -/
theorem fromStr_panics :
    Panics (fromStr .finite true ['3', '5', '.', '1']) ∧
    (∃ l c, fromStr .finite true (VersionName.full 37 1).text = .ok l ∧ l.condition = .ok c ∧
      c.eval ⟨36, 100001⟩ = some true) ∧
    ¬ VersionLe (37, 1) (36, 100001) := by
  refine ⟨?_, ⟨⟨3700001⟩, .and (.atLeast .sdkInt 36) (.atLeast .sdkIntFull 3700001), ?_, rfl, ?_⟩,
    ?_⟩
  · exact (fromStr_panics_iff (.full 35 1)).mpr (Or.inr (by decide))
  · rw [fromStr_full (by decide), parseFullVersion_full]
    rfl
  · decide
  · unfold VersionLe
    decide

end Versions

end ConvertFinalizedFlags
end AndroidBuild
