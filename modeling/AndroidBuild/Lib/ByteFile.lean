import AndroidBuild.Lib.Bytes

/-!
# Files that are changed in place

`write` puts bytes at a position of a file.  A write behind the end extends the
file, with zeros up to the position.
-/

namespace AndroidBuild
namespace ByteFile

open Bytes

/-- The file after bytes have been written at `p`. -/
def write (file : List UInt8) (p : Nat) (bs : List UInt8) : List UInt8 :=
  if bs = [] then file
  else
    let padded := file ++ List.replicate (p - file.length) 0
    padded.take p ++ bs ++ padded.drop (p + bs.length)

variable {file bs : List UInt8} {p q n i : Nat}

theorem write_eq
    (h : p + bs.length ≤ file.length) :
    write file p bs = file.take p ++ bs ++ file.drop (p + bs.length) := by
  rw [write]
  split
  · rename_i hbs
    rw [hbs, List.append_nil, List.length_nil, Nat.add_zero, List.take_append_drop]
  · rw [Nat.sub_eq_zero_of_le (by omega), List.replicate_zero, List.append_nil]

theorem length_write
    (h : p + bs.length ≤ file.length) :
    (write file p bs).length = file.length := by
  rw [write_eq h]
  simp only [List.length_append, List.length_take, List.length_drop]
  omega

/-- The bytes after a write. -/
theorem getElem?_write
    (h : p + bs.length ≤ file.length) (i : Nat) :
    (write file p bs)[i]? = if p ≤ i ∧ i < p + bs.length then bs[i - p]? else file[i]? := by
  have htake : (file.take p).length = p := by
    rw [List.length_take]
    omega
  rw [write_eq h, List.append_assoc, List.getElem?_append, htake]
  by_cases hp : i < p
  · rw [if_pos hp, if_neg (by omega), List.getElem?_take, if_pos hp]
  · rw [if_neg hp, List.getElem?_append]
    by_cases hbs : i < p + bs.length
    · rw [if_pos (by omega), if_pos ⟨by omega, hbs⟩]
    · rw [if_neg (by omega), if_neg (by omega), List.getElem?_drop]
      congr 1
      omega

theorem getElem?_slice
    (i : Nat) :
    (slice file p n)[i]? = if i < n then file[p + i]? else none := by
  rw [slice, List.getElem?_take]
  split
  · rw [List.getElem?_drop]
  · rfl

/-- Equal bytes make equal parts. -/
theorem slice_congr
    {file' : List UInt8} (h : ∀ i < n, file'[p + i]? = file[p + i]?) :
    slice file' p n = slice file p n := by
  refine List.ext_getElem? ?_
  intro i
  rw [getElem?_slice, getElem?_slice]
  split
  · rename_i hi
    exact h i hi
  · rfl

/-- What has been written is read back. -/
theorem slice_write
    (h : p + bs.length ≤ file.length) (hn : n = bs.length) :
    slice (write file p bs) p n = bs := by
  subst hn
  refine List.ext_getElem? ?_
  intro i
  rw [getElem?_slice]
  split
  · rename_i hi
    rw [getElem?_write h, if_pos ⟨by omega, by omega⟩]
    congr 1
    omega
  · rename_i hi
    exact (List.getElem?_eq_none (by omega)).symm

/-- A write leaves what it does not overlap. -/
theorem slice_write_of_disjoint
    (h : p + bs.length ≤ file.length) (hdisjoint : q + n ≤ p ∨ p + bs.length ≤ q) :
    slice (write file p bs) q n = slice file q n := by
  refine List.ext_getElem? ?_
  intro i
  rw [getElem?_slice, getElem?_slice]
  split
  · rw [getElem?_write h, if_neg (by omega)]
  · rfl

section Growing

theorem length_write_of_ne
    (hbs : bs ≠ []) :
    (write file p bs).length = max file.length (p + bs.length) := by
  rw [write, if_neg hbs]
  simp only [List.length_append, List.length_take, List.length_drop, List.length_replicate]
  omega

theorem le_length_write (file : List UInt8) (p : Nat) (bs : List UInt8) :
    file.length ≤ (write file p bs).length := by
  by_cases hbs : bs = []
  · rw [write, if_pos hbs]
  · rw [length_write_of_ne hbs]
    exact Nat.le_max_left _ _

theorem slice_write_self :
    slice (write file p bs) p bs.length = bs := by
  by_cases hbs : bs = []
  · rw [hbs]
    rfl
  · rw [write, if_neg hbs]
    have htake : ((file ++ List.replicate (p - file.length) 0).take p).length = p := by
      simp only [List.length_append, List.length_take, List.length_replicate]
      omega
    rw [slice, List.append_assoc, List.drop_left' htake, List.take_left]

/-- A write leaves what the file has elsewhere. -/
theorem slice_write_of_le
    (hq : q + n ≤ file.length) (hdisjoint : q + n ≤ p ∨ p + bs.length ≤ q) :
    slice (write file p bs) q n = slice file q n := by
  by_cases hfits : p + bs.length ≤ file.length
  · exact slice_write_of_disjoint hfits hdisjoint
  have hp : q + n ≤ p := by omega
  rw [write]
  split
  · rfl
  · refine slice_congr ?_
    intro i hi
    rw [List.append_assoc, List.getElem?_append_left (by
        simp only [List.length_take, List.length_append, List.length_replicate]
        omega),
      List.getElem?_take, if_pos (by omega), List.getElem?_append_left (by omega)]

end Growing

end ByteFile
end AndroidBuild
