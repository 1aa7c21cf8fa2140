import Mathlib.Tactic

/-!
# SHA-1

The digest of a byte string, block by block.
-/

namespace AndroidBuild
namespace Sha1

section Blocks

def rotateLeft (x : UInt32) (n : UInt32) : UInt32 :=
  (x <<< n) ||| (x >>> (32 - n))

/-- The bytes of a number, the highest first. -/
def bigEndian (width n : Nat) : List UInt8 :=
  (List.range width).reverse.map fun i => UInt8.ofNat (n / 256 ^ i)

/-- The message with its padding and its length in bits. -/
def pad (message : List UInt8) : List UInt8 :=
  message ++ 128 :: List.replicate ((119 - message.length % 64) % 64) 0 ++
    bigEndian 8 (8 * message.length)

def words : List UInt8 → List UInt32
  | a :: b :: c :: d :: rest =>
      UInt32.ofNat (((a.toNat * 256 + b.toNat) * 256 + c.toNat) * 256 + d.toNat) :: words rest
  | _ => []

structure State where
  a : UInt32
  b : UInt32
  c : UInt32
  d : UInt32
  e : UInt32

def init : State :=
  ⟨0x67452301, 0xEFCDAB89, 0x98BADCFE, 0x10325476, 0xC3D2E1F0⟩

/-- The function and the constant of a round. -/
def mix (round : Nat) (s : State) : UInt32 × UInt32 :=
  if round < 20 then ((s.b &&& s.c) ||| (~~~s.b &&& s.d), 0x5A827999)
  else if round < 40 then (s.b ^^^ s.c ^^^ s.d, 0x6ED9EBA1)
  else if round < 60 then ((s.b &&& s.c) ||| (s.b &&& s.d) ||| (s.c &&& s.d), 0x8F1BBCDC)
  else (s.b ^^^ s.c ^^^ s.d, 0xCA62C1D6)

def round (i : Nat) (w : UInt32) (s : State) : State :=
  let (f, k) := mix i s
  ⟨rotateLeft s.a 5 + f + s.e + k + w, s.a, rotateLeft s.b 30, s.c, s.d⟩

/-- The next word of the schedule, from the last sixteen. -/
def extend (ws : List UInt32) : UInt32 :=
  rotateLeft (ws.getD 13 0 ^^^ ws.getD 8 0 ^^^ ws.getD 2 0 ^^^ ws.getD 0 0) 1

/-- The remaining rounds of a block. -/
def rounds (i : Nat) : Nat → List UInt32 → State → State
  | 0, _, s => s
  | n + 1, ws, s =>
      match ws with
      | [] => s
      | w :: rest => rounds (i + 1) n (rest ++ [extend ws]) (round i w s)

def compress (s : State) (ws : List UInt32) : State :=
  let t := rounds 0 80 ws s
  ⟨s.a + t.a, s.b + t.b, s.c + t.c, s.d + t.d, s.e + t.e⟩

/-- The state after all blocks of sixteen words. -/
def blocks (s : State) : Nat → List UInt32 → State
  | 0, _ => s
  | n + 1, ws => blocks (compress s (ws.take 16)) n (ws.drop 16)

end Blocks

/-- The digest of a message. -/
def sum (message : List UInt8) : List UInt8 :=
  let ws := words (pad message)
  let s := blocks init (ws.length / 16) ws
  [s.a, s.b, s.c, s.d, s.e].flatMap fun w => bigEndian 4 w.toNat

theorem length_sum
    (message : List UInt8) :
    (sum message).length = 20 := by
  simp [sum, bigEndian]

/-- The digest of `abc`. -/
example :
    sum [97, 98, 99] = [0xa9, 0x99, 0x3e, 0x36, 0x47, 0x06, 0x81, 0x6a, 0xba, 0x3e, 0x25, 0x71,
      0x78, 0x50, 0xc2, 0x6c, 0x9c, 0xd0, 0xd8, 0x9d] := by
  decide +kernel

end Sha1
end AndroidBuild
