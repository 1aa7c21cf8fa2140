import AndroidBuild.Lib.Bytes
import AndroidBuild.Lib.KeySort
import AndroidBuild.Lib.Text
import Mathlib.Data.List.Lex

/-!
# Copying the entries of a JAR

`SignApk.copyFiles`.  The stored entries are copied first, in the order of
their names.  The offset at which the data of the next one will begin is kept
apart from the bytes that are written, and its alignment field is sized by that
offset.

A Java string is a list of characters here, with the code units that
`String.length` and `compareTo` see.
-/

namespace AndroidBuild
namespace SignApk

open Text

section Strings

def codeUnits (c : Char) : List Nat :=
  if c.toNat < 0x10000 then [c.toNat]
  else [0xD800 + (c.toNat - 0x10000) / 0x400, 0xDC00 + (c.toNat - 0x10000) % 0x400]

def utf16 (s : Str) : List Nat :=
  s.flatMap codeUnits

/-- `s.length()`. -/
def javaLength (s : Str) : Nat :=
  (utf16 s).length

def utf8 (s : Str) : List UInt8 :=
  s.flatMap String.utf8EncodeChar

/-- `s.endsWith(suffix)`. -/
def endsWith (s suffix : Str) : Bool :=
  suffix.isSuffixOf s

end Strings

/-- The methods of `JarEntry`. -/
inductive Method where
  | stored
  | deflated
deriving DecidableEq

/-- An entry with its uncompressed data. -/
structure JarEntry where
  name : Str
  method : Method
  data : List UInt8

def JarEntry.isDirectory (e : JarEntry) : Bool :=
  endsWith e.name ['/']

/-- The entries of a JAR in the order of its central directory. -/
structure JarFile where
  entries : List JarEntry
  nodup : (entries.map JarEntry.name).Nodup

def JarFile.getJarEntry (jar : JarFile) (name : Str) : Option JarEntry :=
  jar.entries.find? (fun e => e.name = name)

/-- An entry of the output, with the numbers of bytes written before its local header and
before its data. -/
structure Placed where
  entry : JarEntry
  entryHeaderStart : Nat
  entryDataStart : Nat

/-- The code around `copyFiles`: the headers and the compression of the zip writer, the
pattern of the names to ignore, the policy of the signer, and the pin hints. -/
structure Library where
  localHeader : JarEntry → List UInt8 → List UInt8
  length_localHeader : ∀ e extra, (localHeader e extra).length = 30
  compressed : List UInt8 → List UInt8
  ignored : Str → Bool
  shouldOutputApkEntry : JarEntry → Bool
  pinByteRangeEntryName : Str
  pinByteRanges : Option (List Placed → List UInt8)

/-- `JarOutputStream`, with the bytes that have been written. -/
structure JarOutputStream where
  written : List UInt8
  firstEntry : Bool

/-- `JAR_MAGIC` and a size of zero. -/
def jarMagic : List UInt8 :=
  Bytes.ofNat 2 0xCAFE ++ Bytes.ofNat 2 0

def lochdr : Nat := 30

def alignmentMinSize : Nat := 6

def getStoredEntryDataAlignment (entryName : Str) (defaultAlignment : Int) : Nat :=
  if defaultAlignment ≤ 0 then 0
  else if endsWith entryName ['.', 's', 'o'] then 16384
  else defaultAlignment.toNat

/-- The bytes of padding that are needed when the field would begin at the given offset. -/
def extraPaddingSizeBytes (offset alignment : Nat) : Nat :=
  if 0 < alignment then
    (alignment - (offset + alignmentMinSize) % alignment) % alignment
  else 0

def alignmentExtra (padding alignment : Nat) : List UInt8 :=
  Bytes.ofNat 2 0xd935 ++ Bytes.ofNat 2 (2 + padding) ++ Bytes.ofNat 2 alignment ++
    List.replicate padding 0

section Copy

variable (lib : Library)

/-- `putNextEntry`.  The first entry gets the magic in front of its extra field. -/
def JarOutputStream.putNextEntry (out : JarOutputStream) (e : JarEntry) (extra : List UInt8) :
    JarOutputStream :=
  let extra := if out.firstEntry then jarMagic ++ extra else extra
  ⟨out.written ++ lib.localHeader e extra ++ utf8 e.name ++ extra, false⟩

def JarOutputStream.write (out : JarOutputStream) (data : List UInt8) : JarOutputStream :=
  { out with written := out.written ++ data }

/-- What the first loop keeps. -/
structure CopyState where
  offset : Nat
  firstEntry : Bool
  out : JarOutputStream
  placed : List Placed

def CopyState.init : CopyState :=
  ⟨0, true, ⟨[], true⟩, []⟩

/-- The body of the first loop, for a stored entry that is output. -/
def copyStored (defaultAlignment : Int) (s : CopyState) (e : JarEntry) : CopyState :=
  let alignment := getStoredEntryDataAlignment e.name defaultAlignment
  let offset := s.offset + lochdr + javaLength e.name + if s.firstEntry then 4 else 0
  let extra := alignmentExtra (extraPaddingSizeBytes offset alignment) alignment
  let out := s.out.putNextEntry lib e extra
  { offset := offset + extra.length + e.data.length
    firstEntry := false
    out := out.write e.data
    placed := s.placed ++ [⟨e, s.out.written.length, out.written.length⟩] }

def copyCompressed (s : JarOutputStream × List Placed) (e : JarEntry) :
    JarOutputStream × List Placed :=
  let out := s.1.putNextEntry lib e []
  (out.write (lib.compressed e.data),
    s.2 ++ [⟨e, s.1.written.length, out.written.length⟩])

def entryNames (jar : JarFile) : List Str :=
  KeySort.sortByKey utf16 ((jar.entries.filter fun e =>
    !e.isDirectory && !lib.ignored e.name && !decide (e.name = lib.pinByteRangeEntryName)).map
      JarEntry.name)

/-- The entries with the given method that are output, in the order of their names. -/
def entriesToOutput (jar : JarFile) (stored : Bool) : List JarEntry :=
  ((entryNames lib jar).filterMap jar.getJarEntry).filter fun e =>
    decide (e.method = .stored) == stored && lib.shouldOutputApkEntry e

def copyStoredEntries (jar : JarFile) (defaultAlignment : Int) : CopyState :=
  (entriesToOutput lib jar true).foldl (copyStored lib defaultAlignment) CopyState.init

def addPinByteRanges (out : JarOutputStream) (placed : List Placed) : JarOutputStream :=
  match lib.pinByteRanges with
  | none => out
  | some encode =>
      let e : JarEntry := ⟨lib.pinByteRangeEntryName, .deflated, encode placed⟩
      (out.putNextEntry lib e []).write (lib.compressed e.data)

structure Output where
  bytes : List UInt8
  stored : List Placed

def copyFiles (jar : JarFile) (defaultAlignment : Int) : Output :=
  let s := copyStoredEntries lib jar defaultAlignment
  let r := (entriesToOutput lib jar false).foldl (copyCompressed lib) (s.out, s.placed)
  ⟨(addPinByteRanges lib r.1 r.2).written, s.placed⟩

end Copy

end SignApk
end AndroidBuild
