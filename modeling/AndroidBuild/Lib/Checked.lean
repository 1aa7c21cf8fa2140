import Mathlib.Tactic

/-!
# Computations with errors and panics

A checked computation gives a value, returns an error to its caller, or
panics.  The arithmetic of 32-bit integers panics on overflow.
-/

namespace AndroidBuild

/-- How a computation ends that gives no value. -/
inductive Stop (ε : Type) where
  | err (e : ε)
  | panic
  deriving DecidableEq, Repr

/-- A computation with errors and panics. -/
abbrev Checked (ε : Type) :=
  Except (Stop ε)

namespace Checked

variable {ε α β : Type}

section Results

def mapErr (f : ε → ε) : Checked ε α → Checked ε α
  | .error (.err e) => .error (.err (f e))
  | x => x

def unwrap : Checked ε α → Checked ε α
  | .ok a => .ok a
  | .error _ => .error .panic

theorem mapErr_eq_ok
    {f : ε → ε} {x : Checked ε α} {a : α} :
    mapErr f x = .ok a ↔ x = .ok a := by
  rcases x with (e | _) | a <;> simp [mapErr]

theorem mapErr_eq_panic
    {f : ε → ε} {x : Checked ε α} :
    mapErr f x = .error .panic ↔ x = .error .panic := by
  rcases x with (e | _) | a <;> simp [mapErr]

theorem bind_eq_panic
    {x : Checked ε α} {f : α → Checked ε β} :
    (x >>= f) = .error .panic ↔ x = .error .panic ∨ ∃ a, x = .ok a ∧ f a = .error .panic := by
  cases x with
  | error e => simp [bind, Except.bind]
  | ok a => simp [bind, Except.bind]

end Results

section Arithmetic

/-- `a + b`. -/
def add (a b : UInt32) : Checked ε UInt32 :=
  if a.toNat + b.toNat < 2 ^ 32 then .ok (a + b) else .error .panic

/-- `a - b`. -/
def sub (a b : UInt32) : Checked ε UInt32 :=
  if b.toNat ≤ a.toNat then .ok (a - b) else .error .panic

/-- `a * b`. -/
def mul (a b : UInt32) : Checked ε UInt32 :=
  if a.toNat * b.toNat < 2 ^ 32 then .ok (a * b) else .error .panic

theorem add_eq_ok
    {a b c : UInt32} :
    add (ε := ε) a b = .ok c ↔ c.toNat = a.toNat + b.toNat := by
  have hc := c.toNat_lt
  rw [add]
  split
  case isTrue h =>
      rw [Except.ok.injEq, ← UInt32.toNat_inj, UInt32.toNat_add, Nat.mod_eq_of_lt h]
      exact eq_comm
  case isFalse h =>
      constructor
      · rintro ⟨⟩
      · intro hsum
        omega

theorem sub_eq_ok
    {a b c : UInt32} :
    sub (ε := ε) a b = .ok c ↔ b.toNat ≤ a.toNat ∧ c.toNat = a.toNat - b.toNat := by
  rw [sub]
  split
  case isTrue h =>
      rw [Except.ok.injEq, ← UInt32.toNat_inj, UInt32.toNat_sub_of_le _ _ (UInt32.le_iff_toNat_le.mpr h),
        and_iff_right h]
      exact eq_comm
  case isFalse h => simp [h]

theorem mul_eq_ok
    {a b c : UInt32} :
    mul (ε := ε) a b = .ok c ↔ c.toNat = a.toNat * b.toNat := by
  have hc := c.toNat_lt
  rw [mul]
  split
  case isTrue h =>
      rw [Except.ok.injEq, ← UInt32.toNat_inj, UInt32.toNat_mul, Nat.mod_eq_of_lt h]
      exact eq_comm
  case isFalse h =>
      constructor
      · rintro ⟨⟩
      · intro hprod
        omega

theorem add_eq_panic
    {a b : UInt32} :
    add (ε := ε) a b = .error .panic ↔ 2 ^ 32 ≤ a.toNat + b.toNat := by
  rw [add]
  split <;> simp <;> omega

theorem mul_eq_panic
    {a b : UInt32} :
    mul (ε := ε) a b = .error .panic ↔ 2 ^ 32 ≤ a.toNat * b.toNat := by
  rw [mul]
  split <;> simp <;> omega

/-- An addition gives the sum or panics. -/
theorem add_cases
    (a b : UInt32) :
    (∃ c, add (ε := ε) a b = .ok c ∧ c.toNat = a.toNat + b.toNat) ∨
      (add (ε := ε) a b = .error .panic ∧ 2 ^ 32 ≤ a.toNat + b.toNat) := by
  rcases lt_or_ge (a.toNat + b.toNat) (2 ^ 32) with hlt | hge
  · have hadd : add (ε := ε) a b = .ok (a + b) := if_pos hlt
    exact .inl ⟨a + b, hadd, add_eq_ok.mp hadd⟩
  · exact .inr ⟨add_eq_panic.mpr hge, hge⟩

/-- A multiplication gives the product or panics. -/
theorem mul_cases
    (a b : UInt32) :
    (∃ c, mul (ε := ε) a b = .ok c ∧ c.toNat = a.toNat * b.toNat) ∨
      (mul (ε := ε) a b = .error .panic ∧ 2 ^ 32 ≤ a.toNat * b.toNat) := by
  rcases lt_or_ge (a.toNat * b.toNat) (2 ^ 32) with hlt | hge
  · have hmul : mul (ε := ε) a b = .ok (a * b) := if_pos hlt
    exact .inl ⟨a * b, hmul, mul_eq_ok.mp hmul⟩
  · exact .inr ⟨mul_eq_panic.mpr hge, hge⟩

end Arithmetic

end Checked
end AndroidBuild
