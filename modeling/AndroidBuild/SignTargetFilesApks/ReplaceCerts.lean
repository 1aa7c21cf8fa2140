import AndroidBuild.Lib.OrderedDict
import AndroidBuild.Lib.Text
import AndroidBuild.Lib.WholeWords

/-!
# Certificates in a text

`ReplaceCerts` with the parser of certificate files that it calls.
-/

namespace AndroidBuild
namespace SignTargetFilesApks

open Text

section Certificates

/-- The value of a character of the base64 alphabet. -/
def b64Value (c : Char) : Option Nat :=
  if 'A' ≤ c ∧ c ≤ 'Z' then some (c.toNat - 'A'.toNat)
  else if 'a' ≤ c ∧ c ≤ 'z' then some (c.toNat - 'a'.toNat + 26)
  else if '0' ≤ c ∧ c ≤ '9' then some (c.toNat - '0'.toNat + 52)
  else if c = '+' then some 62
  else if c = '/' then some 63
  else none

/-- `binascii.a2b_base64`: `quad` characters of a group have been read, `left` are the bits
that are left of them.  Other characters are passed over. -/
def a2bBase64 (quad left pads : Nat) : Str → Option (List UInt8)
  | [] => if quad = 0 then some [] else none
  | c :: rest =>
      if c = '=' then
        if quad < 2 then a2bBase64 quad left pads rest
        else if 4 ≤ quad + (pads + 1) then some []
        else a2bBase64 quad left (pads + 1) rest
      else match b64Value c with
        | none => a2bBase64 quad left pads rest
        | some v =>
            if quad = 0 then a2bBase64 1 v 0 rest
            else if quad = 1 then
              (a2bBase64 2 (v % 16) 0 rest).map (UInt8.ofNat (left * 4 + v / 16) :: ·)
            else if quad = 2 then
              (a2bBase64 3 (v % 4) 0 rest).map (UInt8.ofNat (left * 16 + v / 4) :: ·)
            else (a2bBase64 0 0 0 rest).map (UInt8.ofNat (left * 64 + v) :: ·)

/-- `base64.b64decode`, nothing when it raises an exception. -/
def b64decode (s : Str) : Option (List UInt8) :=
  if s.all fun c => c.toNat < 128 then a2bBase64 0 0 0 s else none

def certBuffer (save : Bool) : List Str → List Str
  | [] => []
  | line :: rest =>
      if "--END CERTIFICATE--".toList <:+: line then []
      else
        let buffer :=
          certBuffer (save || decide ("--BEGIN CERTIFICATE--".toList <:+: line)) rest
        if save then line :: buffer else buffer

/-- `common.ParseCertificate`. -/
def parseCertificate (data : Str) : Option (List UInt8) :=
  b64decode (certBuffer false (partsFrom '\n' [] data)).flatten

/-- `base64.b16encode`. -/
def b16encode (bytes : List UInt8) : Str :=
  bytes.flatMap fun b =>
    [(Nat.digitChar (b.toNat / 16)).toUpper, (Nat.digitChar (b.toNat % 16)).toUpper]

def cert16 (bytes : List UInt8) : Str :=
  (b16encode bytes).map Char.toLower

end Certificates

section ReplaceCerts

/-- The exceptions of `ReplaceCerts`. -/
inductive ReplaceError where
  | certificate
  | xml
  | duplicate
deriving DecidableEq

/-- `files` is what can be read, `isWord` the class `\w`, and `signatures` the attributes of
the signers in an XML document, when it is one. -/
structure World where
  files : Str → Option Str
  isWord : Char → Bool
  signatures : Str → Option (List Str)

variable (world : World)

def certFile (key : Str) : Option Str :=
  world.files (key ++ ".x509.pem".toList)

def replaceCert (data : Str) (e : Str × Str) : Except ReplaceError Str :=
  match certFile world e.1 with
  | none => .ok data
  | some oldText =>
      match parseCertificate oldText with
      | none => .error .certificate
      | some oldCert =>
          match certFile world e.2 with
          | none => .ok data
          | some newText =>
              match parseCertificate newText with
              | none => .error .certificate
              | some newCert =>
                  .ok (WholeWords.replaceWords world.isWord Char.toLower (cert16 oldCert)
                    (cert16 newCert) data)

def replaceCerts (key_map : OrderedDict Str Str) (data : Str) : Except ReplaceError Str := do
  let data ← key_map.entries.foldlM (replaceCert world) data
  match world.signatures data with
  | none => .error .xml
  | some signatures => if signatures.Nodup then .ok data else .error .duplicate

end ReplaceCerts

end SignTargetFilesApks
end AndroidBuild
