import AndroidBuild.Lib.Bytes

/-!
# SipHash

The keyed hash SipHash-c-d.  The message is padded with zeros and with its
length in the last byte, so that it is a sequence of words of eight bytes.
There are `c` rounds for each word and `d` rounds at the end.
-/

namespace AndroidBuild
namespace SipHash

/-- The four words of the state. -/
structure State where
  v0 : BitVec 64
  v1 : BitVec 64
  v2 : BitVec 64
  v3 : BitVec 64
  deriving DecidableEq

/-- One round. -/
def sipRound (s : State) : State :=
  let a0 := s.v0 + s.v1
  let a1 := s.v1.rotateLeft 13 ^^^ a0
  let a2 := s.v2 + s.v3
  let a3 := s.v3.rotateLeft 16 ^^^ a2
  let b0 := a0.rotateLeft 32 + a3
  let b3 := a3.rotateLeft 21 ^^^ b0
  let b2 := a2 + a1
  let b1 := a1.rotateLeft 17 ^^^ b2
  ⟨b0, b1, b2.rotateLeft 32, b3⟩

def start (k0 k1 : BitVec 64) : State :=
  ⟨k0 ^^^ 0x736f6d6570736575, k1 ^^^ 0x646f72616e646f6d, k0 ^^^ 0x6c7967656e657261,
    k1 ^^^ 0x7465646279746573⟩

/-- The message, zeros up to a multiple of eight less one, and the length modulo 256. -/
def padded (message : List UInt8) : List UInt8 :=
  message ++ (List.replicate (7 - message.length % 8) 0 ++ [UInt8.ofNat message.length])

/-- The first `n` words. -/
def words : Nat → List UInt8 → List (BitVec 64)
  | 0, _ => []
  | n + 1, l => BitVec.ofNat 64 (Bytes.toNat (l.take 8)) :: words n (l.drop 8)

/-- One word of the message. -/
def absorb (c : Nat) (s : State) (m : BitVec 64) : State :=
  let s := sipRound^[c] { s with v3 := s.v3 ^^^ m }
  { s with v0 := s.v0 ^^^ m }

def finalize (d : Nat) (s : State) : BitVec 64 :=
  let s := sipRound^[d] { s with v2 := s.v2 ^^^ 0xff }
  s.v0 ^^^ s.v1 ^^^ s.v2 ^^^ s.v3

/-- SipHash-c-d. -/
def sipHash (c d : Nat) (k0 k1 : BitVec 64) (message : List UInt8) : BitVec 64 :=
  finalize d ((words (message.length / 8 + 1) (padded message)).foldl (absorb c) (start k0 k1))

theorem length_padded
    (message : List UInt8) :
    (padded message).length = (message.length / 8 + 1) * 8 := by
  simp only [padded, List.length_append, List.length_replicate, List.length_singleton]
  omega

end SipHash
end AndroidBuild
