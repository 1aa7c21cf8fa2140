import AndroidBuild.Lib.Bytes
import AndroidBuild.Lib.Checked
import Mathlib

/-!
# Reading records at a moving head

A reader takes the bytes of a file and the position of the head.  It gives a
value and moves the head, refuses the bytes with an error, or panics when a
slice goes beyond the end.

* `Decodes`: the reader gives back what an encoder wrote, wherever that
  stands.  The rules follow the steps of the reader.
* `Reads`: where a reader stops, and how, is a matter of the layout of the
  record alone.
-/

namespace AndroidBuild

/-- A computation that reads the bytes of a file at a moving head. -/
abbrev Cursor (ε α : Type) :=
  ReaderT (List UInt8) (StateT Nat (Checked ε)) α

namespace Cursor

variable {ε α β : Type}

section Steps

/-- `buf[head..head + n]`, and the head moves on. -/
def bytes (n : Nat) : Cursor ε (List UInt8) :=
  fun buf head =>
    if head + n ≤ buf.length then .ok (Bytes.slice buf head n, head + n) else .error .panic

/-- An unsigned integer of `w` bytes. -/
def uint (w : Nat) : Cursor ε Nat := do
  let b ← bytes w
  pure (Bytes.toNat b)

/-- A computation that leaves the head where it is. -/
def lift (x : Checked ε α) : Cursor ε α :=
  fun _ head => x.map (fun a => (a, head))

theorem bind_ok
    {r : Cursor ε α} {f : α → Cursor ε β} {buf : List UInt8} {p q : Nat} {a : α}
    (h : r buf p = .ok (a, q)) :
    (r >>= f) buf p = f a buf q := by
  change (r buf p >>= fun x => f x.1 buf x.2) = _
  rw [h]
  rfl

theorem bind_error
    {r : Cursor ε α} {f : α → Cursor ε β} {buf : List UInt8} {p : Nat} {e : Stop ε}
    (h : r buf p = .error e) :
    (r >>= f) buf p = .error e := by
  change (r buf p >>= fun x => f x.1 buf x.2) = _
  rw [h]
  rfl

theorem bind_eq_ok
    {r : Cursor ε α} {f : α → Cursor ε β} {buf : List UInt8} {p q : Nat} {b : β} :
    (r >>= f) buf p = .ok (b, q) ↔ ∃ a m, r buf p = .ok (a, m) ∧ f a buf m = .ok (b, q) := by
  cases hr : r buf p with
  | ok x =>
      obtain ⟨a, m⟩ := x
      simp [bind_ok hr]
  | error e => simp [bind_error hr]

theorem map_eq_ok
    {r : Cursor ε α} {f : α → β} {buf : List UInt8} {p q : Nat} {b : β} :
    (do let x ← r; pure (f x) : Cursor ε β) buf p = .ok (b, q) ↔
      ∃ a, r buf p = .ok (a, q) ∧ f a = b := by
  rw [bind_eq_ok]
  constructor
  · rintro ⟨a, m, ha, hb⟩
    cases hb
    exact ⟨a, ha, rfl⟩
  · rintro ⟨a, ha, rfl⟩
    exact ⟨a, q, ha, rfl⟩

theorem lift_eq_ok
    {x : Checked ε α} {buf : List UInt8} {p q : Nat} {a : α} :
    lift x buf p = .ok (a, q) ↔ x = .ok a ∧ q = p := by
  cases x with
  | ok b =>
      simp only [lift, Except.map, Except.ok.injEq, Prod.mk.injEq]
      exact and_congr_right (fun _ => eq_comm)
  | error e => simp [lift, Except.map]

theorem bytes_eq_ok
    {n : Nat} {buf : List UInt8} {p q : Nat} {l : List UInt8} :
    bytes (ε := ε) n buf p = .ok (l, q) ↔
      p + n ≤ buf.length ∧ l = Bytes.slice buf p n ∧ q = p + n := by
  rw [bytes]
  split
  case isTrue h =>
      simp only [Except.ok.injEq, Prod.mk.injEq, h, true_and]
      exact and_congr eq_comm eq_comm
  case isFalse h => simp [h]

theorem uint_eq_ok
    {w : Nat} {buf : List UInt8} {p q n : Nat} :
    uint (ε := ε) w buf p = .ok (n, q) ↔
      p + w ≤ buf.length ∧ n = Bytes.toNat (Bytes.slice buf p w) ∧ q = p + w := by
  rw [uint, map_eq_ok]
  constructor
  · rintro ⟨l, hl, rfl⟩
    obtain ⟨hle, rfl, rfl⟩ := bytes_eq_ok.mp hl
    exact ⟨hle, rfl, rfl⟩
  · rintro ⟨hle, rfl, rfl⟩
    exact ⟨_, bytes_eq_ok.mpr ⟨hle, rfl, rfl⟩, rfl⟩

end Steps

section Decoding

/-- Behind `l` the reader has read `a`, whatever stands before and behind it. -/
def Decodes (r : Cursor ε α) (l : List UInt8) (a : α) : Prop :=
  ∀ before after : List UInt8,
    r (before ++ (l ++ after)) before.length = .ok (a, before.length + l.length)

theorem decodes_pure
    (a : α) :
    Decodes (pure a : Cursor ε α) [] a := by
  intro before after
  rfl

theorem Decodes.bind
    {r : Cursor ε α} {f : α → Cursor ε β} {l m : List UInt8} {a : α} {b : β}
    (hr : Decodes r l a) (hf : Decodes (f a) m b) :
    Decodes (r >>= f) (l ++ m) b := by
  intro before after
  have hfirst := hr before (m ++ after)
  have hsecond := hf (before ++ l) after
  rw [List.append_assoc, bind_ok hfirst]
  rw [List.append_assoc, List.length_append] at hsecond
  rw [hsecond, List.length_append, Nat.add_assoc]

/-- The value of a reader, changed by a function. -/
theorem Decodes.map
    {r : Cursor ε α} {l : List UInt8} {a : α} (f : α → β) (hr : Decodes r l a) :
    Decodes (do let x ← r; pure (f x)) l (f a) := by
  have h := hr.bind (f := fun x => pure (f x)) (decodes_pure (f a))
  rwa [List.append_nil] at h

theorem decodes_lift
    {x : Checked ε α} {a : α} (h : x = .ok a) :
    Decodes (lift x) [] a := by
  intro before after
  rw [h]
  rfl

theorem decodes_bytes
    (l : List UInt8) :
    Decodes (ε := ε) (bytes l.length) l l := by
  intro before after
  have hslice : Bytes.slice (before ++ (l ++ after)) before.length l.length = l :=
    Bytes.slice_mid rfl rfl rfl
  rw [bytes, if_pos (by simp), hslice]

theorem decodes_uint
    {w n : Nat} (h : n < 256 ^ w) :
    Decodes (ε := ε) (uint w) (Bytes.ofNat w n) n := by
  have hbytes := decodes_bytes (ε := ε) (Bytes.ofNat w n)
  rw [Bytes.length_ofNat] at hbytes
  have hread := hbytes.map Bytes.toNat
  rwa [Bytes.toNat_ofNat h] at hread

theorem Decodes.run
    {r : Cursor ε α} {l : List UInt8} {a : α} (hr : Decodes r l a) (after : List UInt8) :
    r (l ++ after) 0 = .ok (a, l.length) := by
  simpa using hr [] after

end Decoding

section Layout

/-- One field of a record. -/
inductive Field where
  /-- an integer of `w` bytes -/
  | uint (w : Nat) (accepts : Nat → Bool)
  /-- as many bytes as an integer of `w` bytes before them says -/
  | block (w : Nat) (accepts : List UInt8 → Bool)
  /-- the record is refused here -/
  | never

/-- How far a record goes. -/
inductive Extent where
  /-- the bytes end within the record -/
  | short
  /-- a field has a value that is not accepted -/
  | refused
  /-- the record ends at `p` -/
  | upTo (p : Nat)
  deriving DecidableEq, Repr

/-- How far a field at `p` goes. -/
def Field.extent (buf : List UInt8) (p : Nat) : Field → Extent
  | .uint w accepts =>
      if buf.length < p + w then .short
      else if accepts (Bytes.toNat (Bytes.slice buf p w)) then .upTo (p + w) else .refused
  | .block w accepts =>
      let n := Bytes.toNat (Bytes.slice buf p w)
      if buf.length < p + w then .short
      else if buf.length < p + w + n then .short
      else if accepts (Bytes.slice buf (p + w) n) then .upTo (p + w + n) else .refused
  | .never => .refused

/-- How far a record at `p` goes. -/
def extent (buf : List UInt8) : Nat → List Field → Extent
  | p, [] => .upTo p
  | p, f :: fields =>
      match f.extent buf p with
      | .upTo q => extent buf q fields
      | e => e

/-- Where a reader stopped. -/
def extentOf : Checked ε (α × Nat) → Extent
  | .ok (_, p) => .upTo p
  | .error (.err _) => .refused
  | .error .panic => .short

/-- The reader reads a record with the given fields. -/
def Reads (r : Cursor ε α) (fields : List Field) : Prop :=
  ∀ buf p, extentOf (r buf p) = extent buf p fields

theorem extent_append
    (buf : List UInt8) (p : Nat) (fields more : List Field) :
    extent buf p (fields ++ more) =
      match extent buf p fields with
      | .upTo q => extent buf q more
      | e => e := by
  induction fields generalizing p with
  | nil => rfl
  | cons f fields ih =>
      rw [List.cons_append, extent, extent]
      cases f.extent buf p with
      | short => rfl
      | refused => rfl
      | upTo q => exact ih q

theorem field_extent_drop
    {buf : List UInt8} {k : Nat} (hk : k ≤ buf.length) (p : Nat) (f : Field) :
    f.extent buf (k + p) =
      match f.extent (buf.drop k) p with
      | .upTo q => .upTo (k + q)
      | e => e := by
  have hslice : ∀ p n, Bytes.slice (buf.drop k) p n = Bytes.slice buf (k + p) n := by
    intro p n
    rw [Bytes.slice, Bytes.slice, List.drop_drop]
  cases f with
  | uint w accepts =>
      simp only [Field.extent, hslice, List.length_drop]
      split_ifs <;> first | rfl | omega | simp [Nat.add_assoc]
  | block w accepts =>
      simp only [Field.extent, hslice, List.length_drop, Nat.add_assoc]
      split_ifs <;> first | rfl | omega
  | never => rfl

/-- A record in the rest of the bytes. -/
theorem extent_drop
    {buf : List UInt8} {k : Nat} (hk : k ≤ buf.length) (p : Nat) (fields : List Field) :
    extent buf (k + p) fields =
      match extent (buf.drop k) p fields with
      | .upTo q => .upTo (k + q)
      | e => e := by
  induction fields generalizing p with
  | nil => rfl
  | cons f fields ih =>
      rw [extent, extent, field_extent_drop hk]
      cases f.extent (buf.drop k) p with
      | short => rfl
      | refused => rfl
      | upTo q => exact ih q

theorem field_extent_le
    {buf : List UInt8} {p q : Nat} {f : Field} (h : f.extent buf p = .upTo q) :
    q ≤ buf.length := by
  cases f with
  | uint w accepts =>
      simp only [Field.extent] at h
      split_ifs at h
      cases h
      omega
  | block w accepts =>
      simp only [Field.extent] at h
      split_ifs at h
      cases h
      omega
  | never => cases h

/-- A record ends within the bytes. -/
theorem extent_le
    {buf : List UInt8} {p q : Nat} {fields : List Field} (hp : p ≤ buf.length)
    (h : extent buf p fields = .upTo q) :
    q ≤ buf.length := by
  induction fields generalizing p with
  | nil =>
      cases h
      exact hp
  | cons f fields ih =>
      rw [extent] at h
      cases hf : f.extent buf p with
      | short =>
          rw [hf] at h
          cases h
      | refused =>
          rw [hf] at h
          cases h
      | upTo m =>
          rw [hf] at h
          exact ih (field_extent_le hf) h

theorem extentOf_eq_short
    {x : Checked ε (α × Nat)} :
    extentOf x = .short ↔ x = .error .panic := by
  rcases x with (e | _) | x <;> simp [extentOf]

theorem reads_pure
    (a : α) :
    Reads (pure a : Cursor ε α) [] := by
  intro buf p
  rfl

theorem Reads.bind
    {r : Cursor ε α} {f : α → Cursor ε β} {fields more : List Field}
    (hr : Reads r fields) (hf : ∀ a, Reads (f a) more) :
    Reads (r >>= f) (fields ++ more) := by
  intro buf p
  have hfirst := hr buf p
  rw [extent_append, ← hfirst]
  cases hrun : r buf p with
  | ok x => rw [bind_ok hrun, extentOf, hf x.1 buf x.2]
  | error e =>
      rw [bind_error hrun]
      cases e with
      | err e => rfl
      | panic => rfl

theorem Reads.map
    {r : Cursor ε α} {fields : List Field} (f : α → β) (hr : Reads r fields) :
    Reads (do let x ← r; pure (f x)) fields := by
  have h := hr.bind (f := fun x => pure (f x)) (fun a => reads_pure (f a))
  rwa [List.append_nil] at h

theorem reads_uint
    (w : Nat) :
    Reads (ε := ε) (uint w) [.uint w (fun _ => true)] := by
  intro buf p
  by_cases h : p + w ≤ buf.length
  · have hrun : bytes (ε := ε) w buf p = .ok (Bytes.slice buf p w, p + w) := if_pos h
    rw [uint, bind_ok hrun]
    simp [extent, Field.extent, Nat.not_lt.mpr h, extentOf, pure, ReaderT.pure, StateT.pure,
      Except.pure]
  · have hrun : bytes (ε := ε) w buf p = .error .panic := if_neg h
    rw [uint, bind_error hrun]
    simp [extent, Field.extent, Nat.lt_of_not_le h, extentOf]

end Layout

end Cursor
end AndroidBuild
