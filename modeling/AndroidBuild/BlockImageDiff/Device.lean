import AndroidBuild.BlockImageDiff.WriteTransfers

/-!
# The device

The meaning of the commands in a transfer list, as the comments of
`WriteTransfers` give it: a stash slot is named by the hash of its blocks; the
source of `move`, `bsdiff` and `imgdiff` is put together from `<src ranges>`,
placed at `<src locs>`, and from stash slots; `new` takes its blocks from the
stream `.new.dat`; erased blocks hold anything.  A command fails when a slot is
missing, when the stream is too short or when data do not have the hash that
the command gives.
-/

namespace AndroidBuild
namespace BlockImageDiff

open RangeLib

variable {Block : Type}

/-- The programs and data an update is installed with. -/
structure Updater (Block : Type) where
  sha1 : List Block → String
  /-- Apply a patch of `bsdiff`, or of `imgdiff` when the flag is set. -/
  applyPatch : Bool → List UInt8 → List Block → Option (List Block)
  patchDat : List UInt8
  zeroBlock : Block
  /-- What the blocks hold that the `n`-th command erases. -/
  erased : Nat → Int → Block

structure Device (Block : Type) where
  blocks : Int → Block
  stashes : String → Option (List Block)
  /-- The part of `.new.dat` that has not been consumed. -/
  newDat : List Block
  /-- The number of commands executed. -/
  executed : Nat

/-- Assignment to the places `is`, one after the other. -/
def overwrite {α : Type} (f : Int → α) (is : List Int) (data : List α) : Int → α :=
  (is.zip data).foldl (fun g p => Function.update g p.1 p.2) f

/-- Assignment to the places `is`, if there is one datum for each. -/
def place {α : Type} (f : Int → α) (is : List Int) (data : List α) : Option (Int → α) :=
  if is.length = data.length then some (overwrite f is data) else none

namespace Device

def read (d : Device Block) (s : BlockSet) : List Block :=
  s.blocks.map d.blocks

def write (d : Device Block) (s : BlockSet) (data : List Block) : Option (Device Block) := do
  let blocks ← place d.blocks s.blocks data
  some { d with blocks := blocks }

def loadStash (d : Device Block) (buffer : Int → Option Block) (ref : String × RangeSet) :
    Option (Int → Option Block) := do
  let data ← d.stashes ref.1
  place buffer ref.2.blocks (data.map some)

/-- The source of a `move`, `bsdiff` or `imgdiff` command. -/
def loadSource (d : Device Block) (arg : SourceArg) : Option (List Block) := do
  let data := (arg.ranges.getD .empty).blocks.map d.blocks
  let locs := (arg.locs.map RangeSet.blocks).getD (RangeSet.intRange 0 data.length)
  let buffer ← place (fun _ => none) locs (data.map some)
  let buffer ← arg.refs.foldlM d.loadStash buffer
  (RangeSet.intRange 0 arg.size).mapM buffer

end Device

namespace Updater

variable (u : Updater Block)

def verify (hash : String) (data : List Block) : Option (List Block) :=
  if u.sha1 data = hash then some data else none

/-- `bsdiff` and `imgdiff`. -/
def patch (imgdiff : Bool) (patchStart patchLen : Nat) (srcSha1 tgtSha1 : String)
    (tgt : BlockSet) (arg : SourceArg) (d : Device Block) : Option (Device Block) := do
  let source ← d.loadSource arg
  let source ← u.verify srcSha1 source
  let data ← u.applyPatch imgdiff ((u.patchDat.drop patchStart).take patchLen) source
  let data ← u.verify tgtSha1 data
  d.write tgt data

/-- The effect of a command. -/
def perform (d : Device Block) : Command → Option (Device Block)
  | .stash hash ranges => do
      let data ← u.verify hash (d.read ranges)
      some { d with stashes := Function.update d.stashes hash (some data) }
  | .free hash => some { d with stashes := Function.update d.stashes hash none }
  | .new tgt => do
      let d' ← d.write tgt (d.newDat.take tgt.blocks.length)
      some { d' with newDat := d.newDat.drop tgt.blocks.length }
  | .zero tgt => d.write tgt (tgt.blocks.map (fun _ => u.zeroBlock))
  | .erase ranges => d.write ranges (ranges.blocks.map (u.erased d.executed))
  | .move tgtSha1 tgt arg => do
      let source ← d.loadSource arg
      let data ← u.verify tgtSha1 source
      d.write tgt data
  | .bsdiff patchStart patchLen srcSha1 tgtSha1 tgt arg =>
      u.patch false patchStart patchLen srcSha1 tgtSha1 tgt arg d
  | .imgdiff patchStart patchLen srcSha1 tgtSha1 tgt arg =>
      u.patch true patchStart patchLen srcSha1 tgtSha1 tgt arg d

def execute (d : Device Block) (c : Command) : Option (Device Block) :=
  (u.perform d c).map (fun d' => { d' with executed := d.executed + 1 })

def run (d : Device Block) (cs : List Command) : Option (Device Block) :=
  cs.foldlM u.execute d

end Updater

section Overwrite

variable {α : Type}

theorem overwrite_map
    (f c : Int → α) (is : List Int) (i : Int) :
    overwrite f is (is.map c) i = if i ∈ is then c i else f i := by
  unfold overwrite
  induction is generalizing f with
  | nil => simp
  | cons j is ih =>
      rw [List.map_cons, List.zip_cons_cons, List.foldl_cons, ih]
      by_cases hi : i ∈ is
      · rw [if_pos hi, if_pos (List.mem_cons_of_mem j hi)]
      · rw [if_neg hi]
        by_cases hij : i = j
        · subst hij
          simp
        · rw [if_neg (by simp [hij, hi])]
          simp [hij]

/-- Places that carry a label `r j` each, with data that depend on `j`. -/
theorem overwrite_map_map
    (f : Int → α) (r : Int → Int) (c : Int → α) (js : List Int) (i : Int)
    (hinj : ∀ j ∈ js, r j = r i → j = i) :
    overwrite f (js.map r) (js.map c) (r i) = if i ∈ js then c i else f (r i) := by
  unfold overwrite
  induction js generalizing f with
  | nil => simp
  | cons j js ih =>
      rw [List.map_cons, List.map_cons, List.zip_cons_cons, List.foldl_cons,
        ih _ (fun k hk => hinj k (List.mem_cons_of_mem j hk))]
      by_cases hi : i ∈ js
      · rw [if_pos hi, if_pos (List.mem_cons_of_mem j hi)]
      · rw [if_neg hi]
        by_cases hij : i = j
        · subst hij
          simp
        · have hne : r i ≠ r j := fun h => hij (hinj j List.mem_cons_self h.symm).symm
          rw [if_neg (by simp [hij, hi])]
          simp [hne]

end Overwrite

section Write

variable {d : Device Block}

theorem write_map
    (d : Device Block) (s : BlockSet) (c : Int → Block) :
    d.write s (s.blocks.map c) =
      some { d with blocks := fun i => if i ∈ s then c i else d.blocks i } := by
  unfold Device.write place
  rw [if_pos (by rw [List.length_map])]
  have : overwrite d.blocks s.blocks (s.blocks.map c) =
      fun i => if i ∈ s then c i else d.blocks i := by
    funext i
    rw [overwrite_map]
    rfl
  rw [this]
  rfl

theorem run_append
    {u : Updater Block} {d d' : Device Block} {cs : List Command} (h : u.run d cs = some d')
    (cs' : List Command) :
    u.run d (cs ++ cs') = u.run d' cs' := by
  unfold Updater.run at h ⊢
  rw [List.foldlM_append, h]
  rfl

theorem run_singleton
    {u : Updater Block} {d d' : Device Block} {c : Command} (h : u.perform d c = some d') :
    u.run d [c] = some { d' with executed := d.executed + 1 } := by
  unfold Updater.run
  rw [List.foldlM_cons]
  unfold Updater.execute
  rw [h]
  rfl

end Write

end BlockImageDiff
end AndroidBuild
