import AndroidBuild.Aconfig.SipHasher13
import AndroidBuild.Lib.SipHash

/-!
# `SipHasher13` and SipHash-1-3

Whatever calls of `write`, `write_u8` and `write_usize` bring the bytes to the
hasher, `finish` gives the SipHash-1-3 of all of them, and no access goes
beyond the message of its call.  The accesses are those of the `debug_assert!`s
of the source: a computation that fails one of them has no result.
-/

namespace AndroidBuild
namespace Aconfig

section Reference

def SipState.words (s : SipState) : SipHash.State :=
  ⟨s.v0, s.v1, s.v2, s.v3⟩

theorem words_block
    (s : SipState) (m : BitVec 64) :
    (s.block m).words = SipHash.absorb 1 s.words m := by
  rfl

theorem toNat_leBytes
    {l : List UInt8} (h : l.length ≤ 8) :
    (leBytes l).toNat = Bytes.toNat l := by
  induction l with
  | nil => rfl
  | cons b l ih =>
      rw [List.length_cons] at h
      have hrest := ih (by omega)
      have hlt : Bytes.toNat l < 256 ^ 7 :=
        lt_of_lt_of_le (Bytes.toNat_lt l) (Nat.pow_le_pow_right (by decide) (by omega))
      have hb := b.toNat_lt
      have hshift : ((leBytes l) <<< 8).toNat = Bytes.toNat l <<< 8 := by
        rw [BitVec.toNat_shiftLeft, hrest, Nat.mod_eq_of_lt]
        rw [Nat.shiftLeft_eq]
        omega
      have hlow : (b.toBitVec.setWidth 64).toNat = b.toNat := by
        rw [BitVec.toNat_setWidth, Nat.mod_eq_of_lt]
        · rfl
        · exact lt_trans b.toBitVec.isLt (by decide)
      rw [leBytes, BitVec.toNat_or, hshift, hlow, Nat.or_comm,
        ← Nat.shiftLeft_add_eq_or_of_lt hb, Nat.shiftLeft_eq, Bytes.toNat]
      omega

theorem ofNat_toNat_leBytes
    {l : List UInt8} (h : l.length ≤ 8) :
    BitVec.ofNat 64 (Bytes.toNat l) = leBytes l := by
  rw [← toNat_leBytes h, BitVec.ofNat_toNat, BitVec.setWidth_eq]

theorem words_blocks
    (n : Nat) (l : List UInt8) (s : SipState) :
    (SipState.blocks n l s).words = (SipHash.words n l).foldl (SipHash.absorb 1) s.words := by
  induction n generalizing l s with
  | zero => rfl
  | succ n ih =>
      have htake : (l.take 8).length ≤ 8 := by
        rw [List.length_take]
        omega
      rw [SipState.blocks, ih, SipHash.words, List.foldl_cons, words_block,
        ofNat_toNat_leBytes htake]

theorem leBytes_padding
    (k : Nat) (x : UInt8) :
    leBytes (List.replicate k 0 ++ [x]) = x.toBitVec.setWidth 64 <<< (k * 8) := by
  induction k with
  | zero => simp [leBytes]
  | succ k ih =>
      rw [List.replicate_succ, List.cons_append, leBytes, ih, ← BitVec.shiftLeft_add, Nat.add_mul,
        Nat.one_mul]
      simp

/-- The last word is the tail with the length above it. -/
theorem lastWord_eq
    (l : List UInt8) :
    ((BitVec.ofNat 64 l.length &&& 0xff) <<< 56) ||| leBytes (l.drop (l.length / 8 * 8)) =
      leBytes ((SipHash.padded l).drop (l.length / 8 * 8)) := by
  have hle : l.length / 8 * 8 ≤ l.length := Nat.div_mul_le_self _ _
  have hlength : (l.drop (l.length / 8 * 8)).length = l.length % 8 := by
    rw [List.length_drop]
    omega
  have hlow : BitVec.ofNat 64 l.length &&& 0xff =
      (UInt8.ofNat l.length).toBitVec.setWidth 64 := by
    apply BitVec.eq_of_toNat_eq
    rw [BitVec.toNat_and, BitVec.toNat_ofNat, BitVec.toNat_setWidth]
    change l.length % 2 ^ 64 &&& 2 ^ 8 - 1 = (UInt8.ofNat l.length).toNat % 2 ^ 64
    rw [Nat.and_two_pow_sub_one_eq_mod, UInt8.toNat_ofNat']
    omega
  have hshift : (7 - l.length % 8) * 8 + l.length % 8 * 8 = 56 := by omega
  rw [SipHash.padded, List.drop_append_of_le_length hle, leBytes_append, leBytes_padding, hlow,
    hlength, ← BitVec.shiftLeft_add, hshift, BitVec.or_comm]

theorem finish_ofBytes
    (key0 key1 : BitVec 64) (l : List UInt8) :
    (SipHasher13.ofBytes key0 key1 l).finish = SipHash.sipHash 1 3 key0 key1 l := by
  have hle : l.length / 8 * 8 ≤ l.length := Nat.div_mul_le_self _ _
  have hpadded : (SipHash.padded l).length = (l.length / 8 + 1) * 8 := SipHash.length_padded l
  have hlast : ((SipHash.padded l).drop (l.length / 8 * 8)).take 8 =
      (SipHash.padded l).drop (l.length / 8 * 8) := by
    refine List.take_of_length_le ?_
    rw [List.length_drop]
    omega
  have hblocks : SipState.blocks (l.length / 8 + 1) (SipHash.padded l)
      (SipHasher13.newWithKeys key0 key1).state =
      (SipState.blocks (l.length / 8) l (SipHasher13.newWithKeys key0 key1).state).block
        (leBytes ((SipHash.padded l).drop (l.length / 8 * 8))) := by
    rw [blocks_add, SipState.blocks, SipState.blocks, hlast, SipHash.padded, blocks_append hle]
  have hwords := words_blocks (l.length / 8 + 1) (SipHash.padded l)
    (SipHasher13.newWithKeys key0 key1).state
  rw [hblocks, ← lastWord_eq] at hwords
  rw [SipHash.sipHash, ← show (SipHasher13.newWithKeys key0 key1).state.words =
    SipHash.start key0 key1 from rfl, ← hwords]
  rfl

end Reference

section Accesses

/-- `load_int_le!`, with its assertion. -/
def loadIntLe? (buf : List UInt8) (i size : Nat) : Option (BitVec 64) :=
  if i + size ≤ buf.length then some (loadIntLe buf i size) else none

/-- `u8to64_le`, with its assertions. -/
def u8to64Le? (buf : List UInt8) (start len : Nat) : Option (BitVec 64) := do
  guard (len < 8)
  let r ← if 0 + 3 < len then do
      let out ← loadIntLe? buf (start + 0) 4
      pure (4, out)
    else pure (0, 0)
  let r ← if r.1 + 1 < len then do
      let out ← loadIntLe? buf (start + r.1) 2
      pure (r.1 + 2, r.2 ||| (out <<< (r.1 * 8)))
    else pure r
  let r ← if r.1 < len then do
      let out ← loadIntLe? buf (start + r.1) 1
      pure (r.1 + 1, r.2 ||| (out <<< (r.1 * 8)))
    else pure r
  guard (r.1 = len)
  pure r.2

namespace SipHasher13

/-- `short_write`, with its assertions. -/
def shortWrite? (h : SipHasher13) (msg : List UInt8) : Option SipHasher13 := do
  guard (msg.length ≤ 8)
  let length := msg.length
  let h := { h with length := h.length + length }
  guard (h.ntail ≤ 8)
  let needed := 8 - h.ntail
  let fill := min length needed
  let tail ← if fill = 8 then loadIntLe? msg 0 8
    else do
      let out ← u8to64Le? msg 0 fill
      pure (h.tail ||| (out <<< (8 * h.ntail)))
  if fill ≠ 8 ∧ length < needed then pure { h with tail := tail, ntail := h.ntail + length }
  else do
    let rest ← u8to64Le? msg needed (length - needed)
    pure { h with state := h.state.block tail, ntail := length - needed, tail := rest }

def writeU8? (h : SipHasher13) (i : UInt8) : Option SipHasher13 :=
  h.shortWrite? [i]

/-- `write_usize`, of eight bytes with the lowest first. -/
def writeUsize? (h : SipHasher13) (i : UInt64) : Option SipHasher13 :=
  h.shortWrite? (Bytes.ofNat 8 i.toNat)

/-- The loop of `write`, with its assertions. -/
def writeBlocks? (msg : List UInt8) (stop : Nat) : Nat → Nat → SipState → Option (Nat × SipState)
  | 0, i, state => some (i, state)
  | fuel + 1, i, state =>
      if i < stop then do
        let mi ← loadIntLe? msg i 8
        writeBlocks? msg stop fuel (i + 8) (state.block mi)
      else some (i, state)

/-- The part of `write` after the tail has been flushed. -/
def writeRest? (h : SipHasher13) (msg : List UInt8) (needed : Nat) : Option SipHasher13 := do
  let len := msg.length - needed
  let left := len % 8
  let r ← writeBlocks? msg (len - left) msg.length needed h.state
  let tail ← u8to64Le? msg r.1 left
  pure { h with state := r.2, tail := tail, ntail := left }

/-- `write`, with its assertions. -/
def write? (h : SipHasher13) (msg : List UInt8) : Option SipHasher13 :=
  let length := msg.length
  let h := { h with length := h.length + length }
  if h.ntail ≠ 0 then do
    guard (h.ntail ≤ 8)
    let needed := 8 - h.ntail
    let out ← u8to64Le? msg 0 (min length needed)
    let tail := h.tail ||| (out <<< (8 * h.ntail))
    if length < needed then pure { h with tail := tail, ntail := h.ntail + length }
    else writeRest? { h with state := h.state.block tail, tail := tail, ntail := 0 } msg needed
  else writeRest? h msg 0

end SipHasher13

theorem loadIntLe?_eq
    {buf : List UInt8} {i size : Nat} (h : i + size ≤ buf.length) :
    loadIntLe? buf i size = some (loadIntLe buf i size) :=
  if_pos h

theorem u8to64Le?_eq
    {buf : List UInt8} {start len : Nat} (hlen : len < 8) (hbuf : start + len ≤ buf.length) :
    u8to64Le? buf start len = some (u8to64Le buf start len) := by
  have hload : ∀ i size, i + size ≤ len →
      loadIntLe? buf (start + i) size = some (loadIntLe buf (start + i) size) :=
    fun i size hi => loadIntLe?_eq (by omega)
  have hfirst : ∀ size, size ≤ len → loadIntLe? buf start size = some (loadIntLe buf start size) :=
    fun size hsize => loadIntLe?_eq (by omega)
  unfold u8to64Le? u8to64Le
  rw [show (guard (len < 8) : Option Unit) = some () from if_pos hlen]
  interval_cases len <;> simp [hload, hfirst, guard]

variable {h : SipHasher13} {msg : List UInt8}

theorem writeBlocks?_eq
    {n i : Nat} (hmsg : i + n * 8 ≤ msg.length) (hi : i < 8) (fuel : Nat) (state : SipState) :
    SipHasher13.writeBlocks? msg (n * 8) fuel i state =
      some (SipHasher13.writeBlocks msg (n * 8) fuel i state) := by
  -- a round at `j` is before the end, so its eight bytes are there
  have hloop : ∀ (fuel j : Nat) (state : SipState), j % 8 = i →
      SipHasher13.writeBlocks? msg (n * 8) fuel j state =
        some (SipHasher13.writeBlocks msg (n * 8) fuel j state) := by
    intro fuel
    induction fuel with
    | zero =>
        intro j state _
        rfl
    | succ fuel ih =>
        intro j state hj
        rw [SipHasher13.writeBlocks?, SipHasher13.writeBlocks]
        split
        · rw [loadIntLe?_eq (by omega)]
          exact ih (j + 8) _ (by omega)
        · rfl
  exact hloop fuel i state (by omega)

theorem writeRest?_eq
    {needed : Nat} (hneeded : needed < 8) (hmsg : needed ≤ msg.length) :
    h.writeRest? msg needed = some (h.writeRest msg needed) := by
  have hstop : msg.length - needed - (msg.length - needed) % 8 = (msg.length - needed) / 8 * 8 := by
    omega
  unfold SipHasher13.writeRest? SipHasher13.writeRest
  simp only [hstop]
  have hblocks : SipHasher13.writeBlocks msg ((msg.length - needed) / 8 * 8) msg.length needed
      h.state = (needed + (msg.length - needed) / 8 * 8,
        SipState.blocks ((msg.length - needed) / 8) (msg.drop needed) h.state) :=
    writeBlocks_eq hneeded (by omega) h.state
  rw [writeBlocks?_eq (by omega) hneeded, hblocks]
  change (u8to64Le? msg (needed + (msg.length - needed) / 8 * 8) ((msg.length - needed) % 8) >>= _)
    = _
  rw [u8to64Le?_eq (by omega) (by omega)]
  rfl

/-- `write` stays within its message. -/
theorem write?_eq
    (hn : h.ntail < 8) :
    h.write? msg = some (h.write msg) := by
  unfold SipHasher13.write? SipHasher13.write
  simp only
  by_cases hzero : h.ntail ≠ 0
  · rw [if_pos hzero, if_pos hzero,
      show (guard (h.ntail ≤ 8) : Option Unit) = some () from if_pos hn.le,
      u8to64Le?_eq (by omega) (by omega)]
    change (if _ then _ else _) = _
    split
    · rfl
    · exact writeRest?_eq (by omega) (by omega)
  · rw [if_neg hzero, if_neg hzero]
    exact writeRest?_eq (by omega) (by omega)

/-- `short_write` stays within its message. -/
theorem shortWrite?_eq
    (hn : h.ntail < 8) (hmsg : msg.length ≤ 8) :
    h.shortWrite? msg = some (h.shortWrite msg) := by
  have hguards : (guard (msg.length ≤ 8) : Option Unit) = some () ∧
      (guard (h.ntail ≤ 8) : Option Unit) = some () := ⟨if_pos hmsg, if_pos hn.le⟩
  unfold SipHasher13.shortWrite? SipHasher13.shortWrite
  simp only [hguards.1, hguards.2, Option.bind_eq_bind, Option.bind_some]
  by_cases hfill : min msg.length (8 - h.ntail) = 8
  · have hskip : ¬ (min msg.length (8 - h.ntail) ≠ 8 ∧ msg.length < 8 - h.ntail) :=
      fun hboth => hboth.1 hfill
    rw [if_pos hfill, if_pos hfill, if_neg hskip, loadIntLe?_eq (by omega), Option.bind_some,
      if_neg hskip, u8to64Le?_eq (by omega) (by omega)]
    rfl
  · rw [if_neg hfill, if_neg hfill, u8to64Le?_eq (by omega) (by omega), Option.bind_some]
    simp only [Option.pure_def, Option.bind_some]
    split
    · rfl
    · rw [u8to64Le?_eq (by omega) (by omega)]
      rfl

end Accesses

section Calls

/-- A call on the hasher. -/
inductive SipCall where
  | write (msg : List UInt8)
  | writeU8 (i : UInt8)
  | writeUsize (i : UInt64)

def SipCall.bytes : SipCall → List UInt8
  | .write msg => msg
  | .writeU8 i => [i]
  | .writeUsize i => Bytes.ofNat 8 i.toNat

/-- A call, with the assertions on its accesses. -/
def SipHasher13.call? (h : SipHasher13) : SipCall → Option SipHasher13
  | .write msg => h.write? msg
  | .writeU8 i => h.writeU8? i
  | .writeUsize i => h.writeUsize? i

variable {key0 key1 : BitVec 64}

/-- `short_write` reads the bytes of its message. -/
theorem shortWrite_readFrom
    (h : SipHasher13) (start : SipState) (l : List UInt8) {msg : List UInt8}
    (hmsg : msg.length ≤ 8) :
    (h.readFrom start l).shortWrite msg =
      SipHasher13.readFrom { h with length := h.length + msg.length } start (l ++ msg) := by
  obtain ⟨state, t, hlt, hread, happend⟩ := exists_tail h start l
  rw [happend, hread, SipHasher13.shortWrite]
  simp only
  by_cases hshort : msg.length < 8 - t.length
  · have hfill : min msg.length (8 - t.length) = msg.length := min_eq_left hshort.le
    rw [hfill, if_pos ⟨by omega, hshort⟩, if_neg (by omega), leBytes_tail (by omega) le_rfl,
      List.take_length, readFrom_short _ _ (by omega)]
  · have hneeded : 8 - t.length ≤ msg.length := by omega
    have hfill : min msg.length (8 - t.length) = 8 - t.length := min_eq_right hneeded
    have htake : (t ++ msg).take 8 = t ++ msg.take (8 - t.length) := by
      rw [List.take_append, List.take_of_length_le (by omega)]
    have hdrop : (t ++ msg).drop 8 = msg.drop (8 - t.length) := by
      rw [List.drop_append, List.drop_of_length_le (by omega), List.nil_append]
    have hdiv : (t ++ msg).length / 8 = 1 := by
      rw [List.length_append]
      omega
    have hmod : (t ++ msg).length % 8 = msg.length - (8 - t.length) := by
      rw [List.length_append]
      omega
    have hblock : (if 8 - t.length = 8 then loadIntLe msg 0 8
        else leBytes t ||| u8to64Le msg 0 (8 - t.length) <<< (8 * t.length)) =
        leBytes ((t ++ msg).take 8) := by
      rw [htake]
      split
      case isTrue hempty =>
          have hnil : t = [] := List.length_eq_zero_iff.mp (by omega)
          rw [hnil, loadIntLe]
          rfl
      case isFalse hempty => exact leBytes_tail (by omega) hneeded
    have hrest : u8to64Le msg (8 - t.length) (msg.length - (8 - t.length)) =
        leBytes ((t ++ msg).drop 8) := by
      rw [hdrop, u8to64Le_eq (by omega) (by omega), List.take_of_length_le]
      rw [List.length_drop]
    rw [hfill, if_neg (by omega), hblock, hrest]
    unfold SipHasher13.readFrom
    rw [hdiv, hmod]
    rfl

theorem call?_ofBytes
    (l : List UInt8) (call : SipCall) :
    (SipHasher13.ofBytes key0 key1 l).call? call =
      some (SipHasher13.ofBytes key0 key1 (l ++ call.bytes)) := by
  have hn : (SipHasher13.ofBytes key0 key1 l).ntail < 8 := Nat.mod_lt _ (by decide)
  have hshort : ∀ msg : List UInt8, msg.length ≤ 8 →
      (SipHasher13.ofBytes key0 key1 l).shortWrite? msg =
        some (SipHasher13.ofBytes key0 key1 (l ++ msg)) := by
    intro msg hmsg
    rw [shortWrite?_eq hn hmsg]
    unfold SipHasher13.ofBytes
    rw [shortWrite_readFrom _ _ _ hmsg, List.length_append]
  cases call with
  | write msg =>
      rw [SipHasher13.call?, write?_eq hn, write_ofBytes]
      rfl
  | writeU8 i => exact hshort [i] (by simp)
  | writeUsize i => exact hshort (Bytes.ofNat 8 i.toNat) (by simp)

def SipHasher13.calls? (h : SipHasher13) (calls : List SipCall) : Option SipHasher13 :=
  calls.foldlM SipHasher13.call? h

theorem calls?_ofBytes
    (l : List UInt8) (calls : List SipCall) :
    (SipHasher13.ofBytes key0 key1 l).calls? calls =
      some (SipHasher13.ofBytes key0 key1 (l ++ calls.flatMap SipCall.bytes)) := by
  induction calls generalizing l with
  | nil =>
      rw [List.flatMap_nil, List.append_nil]
      rfl
  | cons call calls ih =>
      rw [SipHasher13.calls?, List.foldlM_cons, call?_ofBytes]
      change (SipHasher13.ofBytes key0 key1 (l ++ call.bytes)).calls? calls = _
      rw [ih, List.flatMap_cons, List.append_assoc]

/-- Every sequence of calls hashes the concatenation of its bytes. -/
theorem sipHasher13_calls
    (key0 key1 : BitVec 64) (calls : List SipCall) :
    ∃ h, (SipHasher13.newWithKeys key0 key1).calls? calls = some h ∧
      h.finish = SipHash.sipHash 1 3 key0 key1 (calls.flatMap SipCall.bytes) ∧
      h.length = (calls.flatMap SipCall.bytes).length ∧ h.ntail = h.length % 8 ∧
      h.tail.toNat =
        Bytes.toNat ((calls.flatMap SipCall.bytes).drop (h.length - h.ntail)) ∧
      h.tail.toNat < 256 ^ h.ntail := by
  set l := calls.flatMap SipCall.bytes with hl
  have hdrop : l.length - l.length % 8 = l.length / 8 * 8 := by omega
  have hlength : (l.drop (l.length / 8 * 8)).length = l.length % 8 := by
    rw [List.length_drop]
    omega
  have htail : (leBytes (l.drop (l.length / 8 * 8))).toNat =
      Bytes.toNat (l.drop (l.length / 8 * 8)) := toNat_leBytes (by omega)
  refine ⟨SipHasher13.ofBytes key0 key1 l, calls?_ofBytes [] calls, finish_ofBytes key0 key1 l, rfl,
    rfl, ?_, ?_⟩
  · change (leBytes (l.drop (l.length / 8 * 8))).toNat =
      Bytes.toNat (l.drop (l.length - l.length % 8))
    rw [hdrop, htail]
  · change (leBytes (l.drop (l.length / 8 * 8))).toNat < 256 ^ (l.length % 8)
    rw [htail, ← hlength]
    exact Bytes.toNat_lt _

end Calls

end Aconfig
end AndroidBuild
