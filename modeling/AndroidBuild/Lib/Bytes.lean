import Mathlib.Tactic

/-!
# Bytes of files

Fixed-width integers with the lowest byte first, and the bytes of a file at a
position.
-/

namespace AndroidBuild
namespace Bytes

section LittleEndian

/-- The `w` lowest bytes of an integer, the lowest first. -/
def ofNat : Nat → Nat → List UInt8
  | 0, _ => []
  | w + 1, n => UInt8.ofNat n :: ofNat w (n / 256)

/-- The integer with the given bytes, the lowest first. -/
def toNat : List UInt8 → Nat
  | [] => 0
  | b :: l => b.toNat + 256 * toNat l

@[simp] theorem length_ofNat
    (w n : Nat) :
    (ofNat w n).length = w := by
  induction w generalizing n with
  | zero => rfl
  | succ w ih => rw [ofNat, List.length_cons, ih]

theorem toNat_ofNat
    {w n : Nat} (h : n < 256 ^ w) :
    toNat (ofNat w n) = n := by
  induction w generalizing n with
  | zero =>
      rw [pow_zero] at h
      have hn : n = 0 := by omega
      rw [hn]
      rfl
  | succ w ih =>
      have hdiv : n / 256 < 256 ^ w := by
        rw [Nat.div_lt_iff_lt_mul (by decide)]
        rwa [pow_succ] at h
      rw [ofNat, toNat, ih hdiv, UInt8.toNat_ofNat']
      omega

theorem toNat_lt
    (l : List UInt8) :
    toNat l < 256 ^ l.length := by
  induction l with
  | nil => simp [toNat]
  | cons b l ih =>
      have hb := b.toNat_lt
      rw [toNat, List.length_cons, pow_succ]
      omega

end LittleEndian

section Slices

/-- The bytes `p`, ..., `p + n - 1` of a file, fewer at its end. -/
def slice (file : List UInt8) (p n : Nat) : List UInt8 :=
  (file.drop p).take n

theorem length_slice
    {file : List UInt8} {p n : Nat} (h : p + n ≤ file.length) :
    (slice file p n).length = n := by
  rw [slice, List.length_take, List.length_drop]
  omega

/-- A part of a file, behind what is before it. -/
theorem slice_mid
    {file a b c : List UInt8} (h : file = a ++ (b ++ c)) {p n : Nat} (hp : p = a.length)
    (hn : n = b.length) :
    slice file p n = b := by
  rw [slice, h, hp, hn, List.drop_left, List.take_left]

/-- A part of the start of a file. -/
theorem slice_append_left
    {a : List UInt8} {p n : Nat} (h : p + n ≤ a.length) (b : List UInt8) :
    slice (a ++ b) p n = slice a p n := by
  unfold slice
  rw [List.drop_append_of_le_length (by omega), List.take_append_of_le_length]
  rw [List.length_drop]
  omega

theorem slice_slice
    (file : List UInt8) (p : Nat) {n q m : Nat} (h : q + m ≤ n) :
    slice (slice file p n) q m = slice file (p + q) m := by
  unfold slice
  rw [List.drop_take, List.take_take, List.drop_drop, min_eq_left (by omega)]

theorem slice_add
    (file : List UInt8) (p n m : Nat) :
    slice file p (n + m) = slice file p n ++ slice file (p + n) m := by
  unfold slice
  rw [List.take_add, List.drop_drop]

/-- Integers one after the other, each given with its width. -/
def fields (l : List (Nat × Nat)) : List UInt8 :=
  l.flatMap (fun f => ofNat f.1 f.2)

@[simp] theorem length_fields
    (l : List (Nat × Nat)) :
    (fields l).length = (l.map Prod.fst).sum := by
  simp [fields, List.length_flatMap]

/-- The field at the sum of the widths before it. -/
theorem toNat_slice_fields
    (l : List (Nat × Nat)) (i : Nat) (p : Nat) {w n : Nat} (hi : l[i]? = some (w, n))
    (hn : n < 256 ^ w) (hp : p = ((l.take i).map Prod.fst).sum) :
    toNat (slice (fields l) p w) = n := by
  obtain ⟨hlt, hget⟩ := List.getElem?_eq_some_iff.mp hi
  have hsplit : fields l = fields (l.take i) ++ (ofNat w n ++ fields (l.drop (i + 1))) := by
    have hl : l = l.take i ++ (w, n) :: l.drop (i + 1) := by
      rw [← hget, List.getElem_cons_drop, List.take_append_drop]
    conv_lhs => rw [hl]
    simp [fields]
  rw [slice_mid hsplit (by rw [hp, length_fields]) (by simp), toNat_ofNat hn]

end Slices

end Bytes
end AndroidBuild
