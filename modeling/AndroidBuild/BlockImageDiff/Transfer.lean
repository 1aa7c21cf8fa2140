import AndroidBuild.Lib.Loop
import AndroidBuild.Lib.OrderedDict
import AndroidBuild.RangeLib.BlockSet

/-!
# Transfers of `blockimgdiff`

`Transfer` objects are mutable and compared by identity.  The model keeps them
in a store indexed by `Transfer.id`; `self.transfers` is a list of such
indices, and the dictionaries `goes_before` and `goes_after`, whose keys are
transfers, have indices as keys.
-/

namespace AndroidBuild
namespace BlockImageDiff

open RangeLib

/-- The exceptions the modelled code can raise. -/
inductive PyError
  | assertionError
  | keyError
  | indexError
  | typeError
  | valueError
  | zeroDivisionError
  /-- The assertion of `WriteTransfers` on the stash size. -/
  | stashLimitExceeded
  /-- A `while` loop took more rounds than the model grants it. -/
  | exhausted
deriving DecidableEq

/-- The computation ends with the exception `e`. -/
def raises {α : Type} (r : Except PyError α) (e : PyError) : Bool :=
  match r with
  | .error e' => decide (e' = e)
  | .ok _ => false

theorem eq_error_of_raises
    {α : Type} {r : Except PyError α} {e : PyError} (h : raises r e = true) :
    r = .error e := by
  cases r with
  | error e' =>
      rw [of_decide_eq_true h]
  | ok a => cases h

theorem exists_eq_ok
    {α : Type} {r : Except PyError α} (h : r.isOk = true) :
    ∃ a, r = .ok a := by
  cases r with
  | error e => cases h
  | ok a => exact ⟨a, rfl⟩

inductive Style
  | diff
  | new
  | zero
  | move
  | bsdiff
  | imgdiff
deriving DecidableEq

/-- `PatchInfo`: the style and the bytes of a patch. -/
structure PatchInfo where
  imgdiff : Bool
  content : List UInt8
deriving DecidableEq

/-- A stash: `(stash_raw_id, range)`. -/
abbrev Stash := Nat × BlockSet

instance : LawfulBEq Stash :=
  inferInstance

/-- Weight of an edge; the reversed edges carry `None`. -/
abbrev Edges := OrderedDict Nat (Option Int)

structure Transfer where
  tgtName : String
  srcName : Option String
  tgtRanges : BlockSet
  srcRanges : BlockSet
  tgtSha1 : String
  srcSha1 : String
  style : Style
  goesBefore : Edges := .empty
  goesAfter : Edges := .empty
  stashBefore : List Stash := []
  useStash : List Stash := []
  patchInfo : Option PatchInfo := none
  order : Nat := 0
  patchStart : Nat := 0
  patchLen : Nat := 0

namespace Transfer

def netStashChange (t : Transfer) : Int :=
  (t.stashBefore.map (fun p => p.2.size)).sum - (t.useStash.map (fun p => p.2.size)).sum

def convertToNew (t : Transfer) : Except PyError Transfer :=
  if t.style = .new then .error .assertionError
  else .ok { t with useStash := [], style := .new, srcRanges := .empty, patchInfo := none }

end Transfer

/-- The transfer objects and `self.transfers`. -/
structure State where
  xf : Nat → Transfer
  transfers : List Nat

namespace State

/-- Assignment to attributes of the transfer `i`. -/
def modify (st : State) (i : Nat) (f : Transfer → Transfer) : State :=
  { st with xf := Function.update st.xf i (f (st.xf i)) }

theorem modify_xf
    (st : State) (i j : Nat) (f : Transfer → Transfer) :
    (st.modify i f).xf j = if j = i then f (st.xf i) else st.xf j := by
  unfold modify
  simp only [Function.update_apply]

@[simp] theorem modify_xf_self
    (st : State) (i : Nat) (f : Transfer → Transfer) :
    (st.modify i f).xf i = f (st.xf i) := by
  simp [modify_xf]

theorem modify_xf_of_ne
    (st : State) {i j : Nat} (f : Transfer → Transfer) (h : j ≠ i) :
    (st.modify i f).xf j = st.xf j := by
  simp [modify_xf, h]

end State

/-- `x` comes before `y` in the sequence `ts`. -/
def Precedes (ts : List Nat) (x y : Nat) : Prop :=
  ts.idxOf x < ts.idxOf y

instance (ts : List Nat) (x y : Nat) : Decidable (Precedes ts x y) :=
  inferInstanceAs (Decidable (ts.idxOf x < ts.idxOf y))

def insertKey (l : List Nat) (k : Nat) : List Nat :=
  if k ∈ l then l else l ++ [k]

@[simp] theorem mem_insertKey
    {l : List Nat} {k x : Nat} :
    x ∈ insertKey l k ↔ x ∈ l ∨ x = k := by
  unfold insertKey
  split_ifs with h
  · constructor
    · exact Or.inl
    · rintro (hx | rfl)
      · exact hx
      · exact h
  · simp

end BlockImageDiff
end AndroidBuild
