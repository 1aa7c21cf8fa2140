import AndroidBuild.Fat16Copy.Image
import AndroidBuild.Lib.Loop

/-!
# `fat16copy.py`: directory entries and `commit`

A directory is a file of records of 32 bytes.  It is either the root directory,
which has a fixed size, or a chain of clusters.  `commit` puts the records of an
entry into the first run of free records that is long enough.
-/

namespace AndroidBuild
namespace Fat16Copy

open Bytes ByteFile Loop

def delMarker : UInt8 :=
  0xE5

def lfnAttributes : UInt8 :=
  0xF

inductive DirError where
  | fat (error : FatError)
  | unicodeDecodeError
  deriving DecidableEq, Repr

/-- An exception, and the image at this point.  There is none for an exception
inside `write_file`, which may have written a part. -/
structure Raised where
  error : DirError
  image : Option Fat
  deriving DecidableEq, Repr

/-- `dentry`.  A chain that could not be allocated has no first cluster. -/
structure Dentry where
  attributes : Nat
  shortname : List UInt8
  ext : List UInt8
  longname : Option (List UInt8)
  firstCluster : Option Nat
  size : Nat
  deriving DecidableEq, Repr

section Records

/-- `s.ljust(n)`. -/
def ljust (n : Nat) (s : List UInt8) : List UInt8 :=
  s ++ List.replicate (n - s.length) 0x20

def lfnChecksum (nameData : List UInt8) : Except DirError UInt8 :=
  if nameData.length = 11 then
    .ok (nameData.foldl (fun result char => (result >>> 1 ||| (result &&& 1) <<< 7) + char) 0)
  else .error (.fat (.assertionError "Name data should be exactly 11 characters"))

/-- `s.encode('utf-16-le')`: the bytes of `s` are read as ASCII first. -/
def encodeUtf16 (s : List UInt8) : Except DirError (List UInt8) :=
  if s.all (· < 0x80) then .ok (s.flatMap fun c => [c, 0]) else .error .unicodeDecodeError

def longnameRecord (checksum : UInt8) (sequenceNumber : Nat) (c : List UInt8) :
    Except DirError (List UInt8) :=
  if sequenceNumber ≤ 0xFF then
    .ok (UInt8.ofNat sequenceNumber :: (slice c 0 10 ++ [lfnAttributes, 0, checksum] ++
      slice c 10 12 ++ [0, 0] ++ slice c 22 4))
  else .error (.fat .structError)

def markLast : List (List UInt8) → Except DirError (List (List UInt8))
  | (seq :: last) :: records => .ok (((seq ||| 0x40) :: last) :: records)
  | _ => .error (.fat .indexError)

def Dentry.longnameRecords (d : Dentry) (checksum : UInt8) :
    Except DirError (List (List UInt8)) :=
  match d.longname with
  | none => .ok []
  | some longname =>
      if longname = [] then .ok []
      else do
        let encoded ← encodeUtf16 longname
        let padded := encoded ++ List.replicate (26 - encoded.length % 26) 0
        let records ← (List.range (padded.length / 26)).mapM fun i =>
          longnameRecord checksum (i + 1) (slice padded (26 * i) 26)
        markLast records.reverse

def Dentry.shortRecord (d : Dentry) (nameData : List UInt8) : Except DirError (List UInt8) :=
  match d.firstCluster with
  | none => .error (.fat .structError)
  | some firstCluster =>
      if d.attributes ≤ 0xFF ∧ firstCluster ≤ 0xFFFF ∧ d.size ≤ 0xFFFFFFFF then
        .ok (nameData ++ [UInt8.ofNat d.attributes] ++ List.replicate 14 0 ++
          Bytes.ofNat 2 firstCluster ++ Bytes.ofNat 4 d.size)
      else .error (.fat .structError)

def Dentry.nameData (d : Dentry) : List UInt8 :=
  ljust 8 d.shortname ++ ljust 3 d.ext

def Dentry.records (d : Dentry) : Except DirError (List (List UInt8)) := do
  let checksum ← lfnChecksum d.nameData
  let longnameRecordData ← d.longnameRecords checksum
  let record ← d.shortRecord d.nameData
  pure (longnameRecordData ++ [record])

end Records

section Files

/-- The files that hold a directory. -/
inductive Backing where
  | rootDentryFile
  | fatFile (startCluster : Nat)
  deriving DecidableEq, Repr

structure FakeFile where
  fs : Fat
  backing : Backing
  idx : Nat
  size : Nat
  deriving DecidableEq, Repr

namespace FakeFile

variable (f : FakeFile)

/-- `seek`, with `os.SEEK_CUR`. -/
def seekCur (amount : Int) : FakeFile :=
  { f with idx := min f.size (f.idx + amount).toNat }

def read (size : Nat) : Except Raised (List UInt8 × FakeFile) :=
  let size := if f.idx + size > f.size then f.size - f.idx else size
  match f.backing with
  | .rootDentryFile =>
      let ret := slice f.fs.file (f.fs.dataStart + f.idx) size
      .ok (ret, { f with idx := f.idx + ret.length })
  | .fatFile startCluster =>
      match f.fs.readFile startCluster f.idx size with
      | .ok got => .ok (got, { f with idx := f.idx + got.length })
      | .error e => .error ⟨.fat e, some f.fs⟩

def write (order : List Zone → List Zone) (data : List UInt8) : Except Raised FakeFile :=
  match f.backing with
  | .rootDentryFile =>
      let data := if f.idx + data.length > f.size then data.take (f.size - f.idx) else data
      let idx := f.idx + data.length
      .ok { f with
        fs := f.fs.writeAt (f.fs.dataStart + f.idx) data, idx := idx, size := max f.size idx }
  | .fatFile startCluster =>
      match writeFile order f.fs startCluster f.idx data with
      | .ok fs =>
          let idx := f.idx + data.length
          .ok { f with fs := fs, idx := idx, size := max f.size idx }
      | .error e => .error ⟨.fat e, none⟩

end FakeFile

end Files

section Commit

variable (order : List Zone → List Zone)

/-- A record, from behind the end in a new cluster if need be. -/
def readRecord (f : FakeFile) : Except Raised (List UInt8 × FakeFile) := do
  let (record, f) ← f.read 32
  if record.length = 32 then pure (record, f)
  else do
    let f ← f.write order (List.replicate f.fs.bytesPerCluster 0)
    (f.seekCur (-f.fs.bytesPerCluster)).read 32

/-- One round of the loop of `commit`: the file and `found_count`. -/
def searchRound (s : FakeFile × Nat) : Except Raised (FakeFile × Nat) := do
  let (record, f) ← readRecord order s.1
  match record with
  | [] => .error ⟨.fat .indexError, some f.fs⟩
  | marker :: _ => pure (f, if marker = delMarker ∨ marker = 0 then s.2 + 1 else 0)

/-- The loop of `commit`. -/
def search (fuel recordCount : Nat) (f : FakeFile) : Except Raised (FakeFile × Nat) :=
  whileLoop ⟨.fat .outOfFuel, none⟩ (fun s => decide (s.2 < recordCount)) (searchRound order) fuel
    (f, 0)

end Commit

section RecordTheorems

variable {d : Dentry} {records : List (List UInt8)}

end RecordTheorems

end Fat16Copy
end AndroidBuild
