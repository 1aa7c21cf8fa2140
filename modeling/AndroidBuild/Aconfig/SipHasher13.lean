import Mathlib.Tactic

/-!
# `SipHasher13`

The hasher keeps the bytes that do not fill a block of eight in `tail`.  What
it computes depends on the bytes that have been written, not on how they were
split into calls.
-/

namespace AndroidBuild
namespace Aconfig

/-- The integer with the given bytes, the lowest first. -/
def leBytes : List UInt8 → BitVec 64
  | [] => 0
  | b :: l => b.toBitVec.setWidth 64 ||| (leBytes l <<< 8)

theorem leBytes_append
    (a b : List UInt8) :
    leBytes (a ++ b) = leBytes a ||| leBytes b <<< (a.length * 8) := by
  induction a with
  | nil => simp [leBytes]
  | cons x a ih =>
      rw [List.cons_append, leBytes, leBytes, ih, BitVec.shiftLeft_or_distrib, BitVec.or_assoc,
        ← BitVec.shiftLeft_add, List.length_cons, Nat.add_mul, Nat.one_mul]

theorem leBytes_take_add
    {l : List UInt8} {i : Nat} (hi : i ≤ l.length) (j : Nat) :
    leBytes (l.take (i + j)) = leBytes (l.take i) ||| leBytes ((l.drop i).take j) <<< (i * 8) := by
  rw [List.take_add, leBytes_append, List.length_take, min_eq_left hi]

structure SipState where
  v0 : BitVec 64
  v1 : BitVec 64
  v2 : BitVec 64
  v3 : BitVec 64
  deriving DecidableEq

def SipState.compress (s : SipState) : SipState :=
  let v0 := s.v0 + s.v1
  let v1 := s.v1.rotateLeft 13
  let v1 := v1 ^^^ v0
  let v0 := v0.rotateLeft 32
  let v2 := s.v2 + s.v3
  let v3 := s.v3.rotateLeft 16
  let v3 := v3 ^^^ v2
  let v0 := v0 + v3
  let v3 := v3.rotateLeft 21
  let v3 := v3 ^^^ v0
  let v2 := v2 + v1
  let v1 := v1.rotateLeft 17
  let v1 := v1 ^^^ v2
  let v2 := v2.rotateLeft 32
  ⟨v0, v1, v2, v3⟩

def SipState.cRounds (s : SipState) : SipState :=
  s.compress

def SipState.dRounds (s : SipState) : SipState :=
  s.compress.compress.compress

/-- One block: `v3 ^= m`, the rounds, `v0 ^= m`. -/
def SipState.block (s : SipState) (m : BitVec 64) : SipState :=
  let s := { s with v3 := s.v3 ^^^ m }
  let s := s.cRounds
  { s with v0 := s.v0 ^^^ m }

structure SipHasher13 where
  k0 : BitVec 64
  k1 : BitVec 64
  length : Nat
  state : SipState
  tail : BitVec 64
  ntail : Nat
  deriving DecidableEq

/-- `load_int_le!`, for an integer of `size` bytes. -/
def loadIntLe (buf : List UInt8) (i size : Nat) : BitVec 64 :=
  leBytes ((buf.drop i).take size)

def u8to64Le (buf : List UInt8) (start len : Nat) : BitVec 64 :=
  let r := if 0 + 3 < len then (4, loadIntLe buf (start + 0) 4) else (0, 0)
  let r := if r.1 + 1 < len then (r.1 + 2, r.2 ||| (loadIntLe buf (start + r.1) 2 <<< (r.1 * 8)))
    else r
  if r.1 < len then r.2 ||| (loadIntLe buf (start + r.1) 1 <<< (r.1 * 8)) else r.2

namespace SipHasher13

/-- `new_with_keys`, with `reset`. -/
def newWithKeys (key0 key1 : BitVec 64) : SipHasher13 where
  k0 := key0
  k1 := key1
  length := 0
  state :=
    { v0 := key0 ^^^ 0x736f6d6570736575
      v1 := key1 ^^^ 0x646f72616e646f6d
      v2 := key0 ^^^ 0x6c7967656e657261
      v3 := key1 ^^^ 0x7465646279746573 }
  tail := 0
  ntail := 0

def new : SipHasher13 :=
  newWithKeys 0 0

/-- `short_write`, for at most eight bytes. -/
def shortWrite (h : SipHasher13) (msg : List UInt8) : SipHasher13 :=
  let length := msg.length
  let h := { h with length := h.length + length }
  let needed := 8 - h.ntail
  let fill := min length needed
  let tail := if fill = 8 then loadIntLe msg 0 8
    else h.tail ||| (u8to64Le msg 0 fill <<< (8 * h.ntail))
  if fill ≠ 8 ∧ length < needed then { h with tail := tail, ntail := h.ntail + length }
  else
    { h with
      state := h.state.block tail
      ntail := length - needed
      tail := u8to64Le msg needed (length - needed) }

def writeU8 (h : SipHasher13) (i : UInt8) : SipHasher13 :=
  h.shortWrite [i]

/-- The `while` loop of `write`; the number of rounds is bounded by `fuel`. -/
def writeBlocks (msg : List UInt8) (stop : Nat) : Nat → Nat → SipState → Nat × SipState
  | 0, i, state => (i, state)
  | fuel + 1, i, state =>
      if i < stop then writeBlocks msg stop fuel (i + 8) (state.block (loadIntLe msg i 8))
      else (i, state)

/-- The part of `write` after the tail has been flushed. -/
def writeRest (h : SipHasher13) (msg : List UInt8) (needed : Nat) : SipHasher13 :=
  let len := msg.length - needed
  let left := len % 8
  let r := writeBlocks msg (len - left) msg.length needed h.state
  { h with state := r.2, tail := u8to64Le msg r.1 left, ntail := left }

def write (h : SipHasher13) (msg : List UInt8) : SipHasher13 :=
  let length := msg.length
  let h := { h with length := h.length + length }
  if h.ntail ≠ 0 then
    let needed := 8 - h.ntail
    let tail := h.tail ||| (u8to64Le msg 0 (min length needed) <<< (8 * h.ntail))
    if length < needed then { h with tail := tail, ntail := h.ntail + length }
    else writeRest { h with state := h.state.block tail, tail := tail, ntail := 0 } msg needed
  else writeRest h msg 0

def finish (h : SipHasher13) : BitVec 64 :=
  let b := ((BitVec.ofNat 64 h.length &&& 0xff) <<< 56) ||| h.tail
  let state := h.state.block b
  let state := { state with v2 := state.v2 ^^^ 0xff }
  let state := state.dRounds
  state.v0 ^^^ state.v1 ^^^ state.v2 ^^^ state.v3

end SipHasher13

section Blocks

/-- `n` blocks. -/
def SipState.blocks : Nat → List UInt8 → SipState → SipState
  | 0, _, s => s
  | n + 1, l, s => blocks n (l.drop 8) (s.block (leBytes (l.take 8)))

theorem blocks_append
    {n : Nat} {a : List UInt8} (ha : n * 8 ≤ a.length) (b : List UInt8) (s : SipState) :
    SipState.blocks n (a ++ b) s = SipState.blocks n a s := by
  induction n generalizing a s with
  | zero => rfl
  | succ n ih =>
      have htake : (a ++ b).take 8 = a.take 8 := List.take_append_of_le_length (by omega)
      have hdrop : (a ++ b).drop 8 = a.drop 8 ++ b := List.drop_append_of_le_length (by omega)
      rw [SipState.blocks, SipState.blocks, htake, hdrop, ih (by rw [List.length_drop]; omega)]

theorem blocks_add
    (n m : Nat) (l : List UInt8) (s : SipState) :
    SipState.blocks (n + m) l s = SipState.blocks m (l.drop (n * 8)) (SipState.blocks n l s) := by
  induction n generalizing l s with
  | zero => simp [SipState.blocks]
  | succ n ih =>
      rw [Nat.succ_add, SipState.blocks, SipState.blocks, ih, List.drop_drop]
      congr 2
      omega

theorem u8to64Le_eq
    {buf : List UInt8} {start len : Nat} (hlen : len < 8) (hbuf : start + len ≤ buf.length) :
    u8to64Le buf start len = leBytes ((buf.drop start).take len) := by
  have hl : len ≤ (buf.drop start).length := by
    rw [List.length_drop]
    omega
  have hload : ∀ i size, loadIntLe buf (start + i) size =
      leBytes (((buf.drop start).drop i).take size) := by
    intro i size
    rw [loadIntLe, List.drop_drop]
  unfold u8to64Le
  simp only [hload, List.drop_zero]
  generalize buf.drop start = l at hl ⊢
  have hsplit := fun i j hi => leBytes_take_add (l := l) (i := i) hi j
  interval_cases len
  · simp [leBytes]
  · simp
  · simp
  · simpa using (hsplit 2 1 (by omega)).symm
  · simp
  · simpa using (hsplit 4 1 (by omega)).symm
  · simpa using (hsplit 4 2 (by omega)).symm
  · have h6 := hsplit 4 2 (by omega)
    have h7 := hsplit 6 1 (by omega)
    simp only [Nat.reduceAdd] at h6 h7
    rw [h7, h6]
    simp

theorem writeBlocks_eq
    {msg : List UInt8} {n i fuel : Nat} (hi : i < 8) (hfuel : n ≤ fuel) (state : SipState) :
    SipHasher13.writeBlocks msg (n * 8) fuel i state =
      (i + n * 8, SipState.blocks n (msg.drop i) state) := by
  have hloop : ∀ (m j fuel : Nat) (state : SipState), m ≤ fuel → j + m * 8 = i + n * 8 →
      SipHasher13.writeBlocks msg (n * 8) fuel j state =
        (i + n * 8, SipState.blocks m (msg.drop j) state) := by
    intro m
    induction m with
    | zero =>
        intro j fuel state _ hj
        have hstop : ¬ j < n * 8 := by omega
        have hji : j = i + n * 8 := by omega
        cases fuel with
        | zero => simp [SipHasher13.writeBlocks, SipState.blocks, hji]
        | succ fuel =>
            rw [SipHasher13.writeBlocks, if_neg hstop, SipState.blocks, hji]
    | succ m ih =>
        intro j fuel state hm hj
        obtain ⟨f, rfl⟩ : ∃ f, fuel = f + 1 := ⟨fuel - 1, by omega⟩
        have hstop : j < n * 8 := by omega
        rw [SipHasher13.writeBlocks, if_pos hstop, ih (j + 8) f _ (by omega) (by omega),
          SipState.blocks, List.drop_drop]
        rfl
  exact hloop n i fuel state hfuel rfl

end Blocks

section Streaming

/-- The hasher that has read `l` from the state `start`. -/
def SipHasher13.readFrom (h : SipHasher13) (start : SipState) (l : List UInt8) : SipHasher13 :=
  { h with
    state := SipState.blocks (l.length / 8) l start
    tail := leBytes (l.drop (l.length / 8 * 8))
    ntail := l.length % 8 }

/-- The hasher after the bytes of `l`. -/
def SipHasher13.ofBytes (key0 key1 : BitVec 64) (l : List UInt8) : SipHasher13 :=
  let h := SipHasher13.newWithKeys key0 key1
  SipHasher13.readFrom { h with length := l.length } h.state l

variable {key0 key1 : BitVec 64} {l msg : List UInt8}

/-- Only the bytes after the last full block are read again. -/
theorem readFrom_append
    (h : SipHasher13) (start : SipState) (l msg : List UInt8) :
    h.readFrom start (l ++ msg) =
      h.readFrom (SipState.blocks (l.length / 8) l start)
        (l.drop (l.length / 8 * 8) ++ msg) := by
  have hq : l.length / 8 * 8 ≤ l.length := Nat.div_mul_le_self _ _
  have hlength : (l.drop (l.length / 8 * 8) ++ msg).length =
      l.length - l.length / 8 * 8 + msg.length := by
    rw [List.length_append, List.length_drop]
  have hblocks : (l ++ msg).length / 8 =
      l.length / 8 + (l.drop (l.length / 8 * 8) ++ msg).length / 8 := by
    rw [hlength, List.length_append]
    omega
  have hdrop : (l ++ msg).drop (l.length / 8 * 8) = l.drop (l.length / 8 * 8) ++ msg :=
    List.drop_append_of_le_length hq
  unfold SipHasher13.readFrom
  rw [hblocks, blocks_add, hdrop, blocks_append hq, Nat.add_mul, ← List.drop_drop, hdrop]
  congr 1
  rw [hlength, List.length_append]
  omega

theorem leBytes_tail
    {t : List UInt8} {fill : Nat} (hfill : fill < 8) (hmsg : fill ≤ msg.length) :
    leBytes t ||| (u8to64Le msg 0 fill <<< (8 * t.length)) = leBytes (t ++ msg.take fill) := by
  rw [u8to64Le_eq hfill (by omega), List.drop_zero, leBytes_append, Nat.mul_comm]

theorem writeRest_eq
    (h : SipHasher13) {needed : Nat} (hneeded : needed < 8) (hmsg : needed ≤ msg.length) :
    h.writeRest msg needed = h.readFrom h.state (msg.drop needed) := by
  have hlength : (msg.drop needed).length = msg.length - needed := List.length_drop
  have hstop : msg.length - needed - (msg.length - needed) % 8 = (msg.length - needed) / 8 * 8 := by
    omega
  unfold SipHasher13.writeRest SipHasher13.readFrom
  simp only [hlength, hstop]
  rw [writeBlocks_eq hneeded (by omega), u8to64Le_eq (by omega) (by simp only; omega),
    List.drop_drop]
  congr 2
  refine List.take_of_length_le ?_
  rw [List.length_drop]
  omega

/-- The hasher stands behind the whole blocks with fewer than eight bytes left. -/
theorem exists_tail
    (h : SipHasher13) (start : SipState) (l : List UInt8) :
    ∃ (state : SipState) (t : List UInt8), t.length < 8 ∧
      h.readFrom start l = { h with state := state, tail := leBytes t, ntail := t.length } ∧
      ∀ (h' : SipHasher13) (msg : List UInt8),
        h'.readFrom start (l ++ msg) = h'.readFrom state (t ++ msg) := by
  have htlen : (l.drop (l.length / 8 * 8)).length = l.length % 8 := by
    rw [List.length_drop]
    omega
  refine ⟨SipState.blocks (l.length / 8) l start, l.drop (l.length / 8 * 8), by omega, ?_,
    fun h' msg => readFrom_append ..⟩
  rw [htlen]
  rfl

theorem readFrom_short
    (h : SipHasher13) (state : SipState) {t msg : List UInt8} (hlt : t.length + msg.length < 8) :
    h.readFrom state (t ++ msg) = { h with
      state := state, tail := leBytes (t ++ msg), ntail := t.length + msg.length } := by
  have hdiv : (t ++ msg).length / 8 = 0 := by
    rw [List.length_append]
    omega
  have hmod : (t ++ msg).length % 8 = t.length + msg.length := by
    rw [List.length_append]
    omega
  unfold SipHasher13.readFrom
  rw [hdiv, hmod]
  rfl

theorem write_readFrom
    (h : SipHasher13) (start : SipState) (l msg : List UInt8) :
    (h.readFrom start l).write msg =
      SipHasher13.readFrom { h with length := h.length + msg.length } start (l ++ msg) := by
  obtain ⟨state, t, hlt, hread, happend⟩ := exists_tail h start l
  rw [happend, hread, SipHasher13.write]
  by_cases hnone : t.length = 0
  · rw [if_neg (by simpa using hnone), writeRest_eq _ (by omega) (by omega)]
    rw [List.length_eq_zero_iff.mp hnone]
    rfl
  · rw [if_pos hnone]
    simp only
    by_cases hshort : msg.length < 8 - t.length
    · rw [if_pos hshort, min_eq_left hshort.le, leBytes_tail (by omega) le_rfl, List.take_length,
        readFrom_short _ _ (by omega)]
    · have hneeded : 8 - t.length ≤ msg.length := by omega
      rw [if_neg hshort, min_eq_right hneeded, leBytes_tail (by omega) hneeded,
        writeRest_eq _ (by omega) hneeded]
      have htake : (t ++ msg).take 8 = t ++ msg.take (8 - t.length) := by
        rw [List.take_append, List.take_of_length_le (by omega)]
      have hdrop : (t ++ msg).drop 8 = msg.drop (8 - t.length) := by
        rw [List.drop_append, List.drop_of_length_le (by omega), List.nil_append]
      have hrest : (msg.drop (8 - t.length)).length = msg.length - (8 - t.length) :=
        List.length_drop
      have hdiv : (t ++ msg).length / 8 = (msg.drop (8 - t.length)).length / 8 + 1 := by
        rw [List.length_append, hrest]
        omega
      have hmod : (t ++ msg).length % 8 = (msg.drop (8 - t.length)).length % 8 := by
        rw [List.length_append, hrest]
        omega
      unfold SipHasher13.readFrom
      rw [hdiv, hmod, SipState.blocks, htake, hdrop, Nat.add_mul, Nat.one_mul, Nat.add_comm _ 8,
        ← List.drop_drop, hdrop]

theorem write_ofBytes :
    (SipHasher13.ofBytes key0 key1 l).write msg = SipHasher13.ofBytes key0 key1 (l ++ msg) := by
  unfold SipHasher13.ofBytes
  rw [write_readFrom, List.length_append]

theorem new_eq_ofBytes :
    SipHasher13.new = SipHasher13.ofBytes 0 0 [] := by
  rfl

theorem foldl_write
    (msgs : List (List UInt8)) :
    msgs.foldl SipHasher13.write SipHasher13.new = SipHasher13.ofBytes 0 0 msgs.flatten := by
  have hloop : ∀ (msgs : List (List UInt8)) (l : List UInt8),
      msgs.foldl SipHasher13.write (SipHasher13.ofBytes 0 0 l) =
        SipHasher13.ofBytes 0 0 (l ++ msgs.flatten) := by
    intro msgs
    induction msgs with
    | nil =>
        intro l
        simp
    | cons msg msgs ih =>
        intro l
        rw [List.foldl_cons, write_ofBytes, ih, List.flatten_cons, List.append_assoc]
  rw [new_eq_ofBytes, hloop, List.nil_append]

end Streaming

end Aconfig
end AndroidBuild
