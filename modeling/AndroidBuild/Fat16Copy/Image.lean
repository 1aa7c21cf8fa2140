import AndroidBuild.Lib.ByteFile
import Mathlib.Data.List.Sort

/-!
# `fat16copy.py`: the image and its clusters

A FAT16 image is a file: a reserved sector, two tables with an entry of two
bytes for every cluster, the root directory, and the clusters from number 2 on.

The zones of `allocate` are collected in a dictionary, whose order is not
specified; it is the parameter `order`.
-/

namespace AndroidBuild
namespace Fat16Copy

open Bytes ByteFile

def fatTableStart : Nat :=
  0x200

def maxClusterId : Nat :=
  0x7FFF

inductive FatError where
  | structError
  | assertionError (message : String)
  | indexError
  | outOfFuel
  deriving DecidableEq, Repr

/-- `fat`, with the contents of its file. -/
structure Fat where
  bytesPerCluster : Nat
  rootEntries : Nat
  /-- The bytes of one table. -/
  fatSize : Nat
  file : List UInt8
  deriving DecidableEq, Repr

namespace Fat

variable (fs : Fat)

/-- `read_le_short`, at a position. -/
def readLeShort (p : Nat) : Except FatError Nat :=
  if p + 2 ≤ fs.file.length then .ok (Bytes.toNat (slice fs.file p 2)) else .error .structError

/-- `f.write`, at a position. -/
def writeAt (p : Nat) (data : List UInt8) : Fat :=
  { fs with file := ByteFile.write fs.file p data }

def dataStart : Nat :=
  fatTableStart + fs.fatSize * 2

def clusterStart (cluster : Nat) : Nat :=
  fs.dataStart + fs.rootEntries * 32 + cluster * fs.bytesPerCluster - 2 * fs.bytesPerCluster

/-- The loop of `get_chain_size`. -/
def countChain : Nat → Nat → Nat → Except FatError Nat
  | 0, _, _ => .error .outOfFuel
  | fuel + 1, headCluster, clusterCount =>
      if headCluster ≤ maxClusterId then do
        let next ← fs.readLeShort (fatTableStart + headCluster * 2)
        countChain fuel next (clusterCount + 1)
      else .ok clusterCount

def getChainSize (fuel headCluster : Nat) : Except FatError Nat :=
  if headCluster = 0 then .ok 0
  else do
    let clusterCount ← fs.countChain fuel headCluster 0
    pure (clusterCount * fs.bytesPerCluster)

/-- The loop of `read_file`. -/
def readClusters : Nat → Nat → Nat → Nat → List UInt8 → Except FatError (List UInt8)
  | 0, _, _, _, _ => .error .outOfFuel
  | fuel + 1, headCluster, startByte, size, gotData =>
      let sizeNow :=
        if startByte + size > fs.bytesPerCluster then fs.bytesPerCluster - startByte else size
      let got :=
        if startByte < fs.bytesPerCluster then
          gotData ++ slice fs.file (fs.clusterStart headCluster + startByte) sizeNow
        else gotData
      let left := if startByte < fs.bytesPerCluster then size - sizeNow else size
      if startByte < fs.bytesPerCluster ∧ left = 0 then .ok got
      else if maxClusterId < headCluster then .error (.assertionError "Out-of-bounds read")
      else do
        let next ← fs.readLeShort (fatTableStart + headCluster * 2)
        if next = 0 then .error (.assertionError "Read free cluster")
        else readClusters fuel next (startByte - fs.bytesPerCluster) left got

def readFile (headCluster startByte size : Nat) : Except FatError (List UInt8) :=
  if size = 0 then .ok [] else fs.readClusters (startByte + size) headCluster startByte size []

/-- `write_cluster_entry`, at the position `p` in the first table. -/
def writeClusterEntry (p entry : Nat) : Fat :=
  (fs.writeAt p (Bytes.ofNat 2 entry)).writeAt (p + fs.fatSize) (Bytes.ofNat 2 entry)

end Fat

/-- Entries one after the other, the first at the position `p`. -/
def Fat.writeClusterEntries : Fat → Nat → List Nat → Fat
  | fs, _, [] => fs
  | fs, p, entry :: entries => (fs.writeClusterEntry p entry).writeClusterEntries (p + 2) entries

section Allocate

/-- The first cluster and the number of clusters of a free zone. -/
abbrev Zone :=
  Nat × Nat

/-- The loop of `allocate` over the first table. -/
structure Scan where
  current : Option Nat
  currentSize : Nat
  freeZones : List Zone
  deriving DecidableEq, Repr

def Scan.step (s : Scan) (pos data : Nat) : Scan :=
  match s.current with
  | some current =>
      if data = 0 then { s with currentSize := s.currentSize + 1 }
      else { s with current := none, freeZones := s.freeZones ++ [(current, s.currentSize)] }
  | none => if data = 0 then { s with current := some pos, currentSize := 1 } else s

def Scan.finish (s : Scan) : List Zone :=
  match s.current with
  | some current => s.freeZones ++ [(current, s.currentSize)]
  | none => s.freeZones

/-- `free_zones`: the entries from 2 up to the end of the first table. -/
def freeZones (fs : Fat) : Except FatError (List Zone) := do
  let scan ← (List.range' 2 (fs.fatSize / 2 - 2)).foldlM (fun s pos => do
    let data ← fs.readLeShort (fatTableStart + pos * 2)
    pure (Scan.step s pos data)) ⟨none, 0, []⟩
  pure scan.finish

/-- The zones are taken until they are large enough, the largest first. -/
def grabZones (bytesPerCluster amount : Nat) : List Zone → Nat → List Zone → Nat × List Zone
  | [], grabbed, grabbedZones => (grabbed, grabbedZones)
  | zone :: zones, grabbed, grabbedZones =>
      if grabbed < amount then
        grabZones bytesPerCluster amount zones (grabbed + zone.2 * bytesPerCluster)
          (grabbedZones ++ [zone])
      else (grabbed, grabbedZones)

/-- The last zone without its last `excess` clusters. -/
def trimLast (excess : Nat) : List Zone → List Zone
  | [] => []
  | [zone] => [(zone.1, zone.2 - excess)]
  | zone :: zones => zone :: trimLast excess zones

def linkZone (s : Fat × Option Nat) (zone : Zone) : Fat × Option Nat :=
  let entries := List.range' (zone.1 + 1) (zone.2 - 1) ++ [s.2.getD 0xFFFF]
  (s.1.writeClusterEntries (fatTableStart + zone.1 * 2) entries, some zone.1)

/-- `free_zones.sort(key=lambda x: x[1])`. -/
def sortZones (zones : List Zone) : List Zone :=
  zones.insertionSort (fun x y => x.2 ≤ y.2)

variable (order : List Zone → List Zone)

/-- `allocate`: the first cluster of the chain, and the image. -/
def allocate (fs : Fat) (amount : Nat) : Except FatError (Option Nat × Fat) :=
  if amount = 0 then .error (.assertionError "Must allocate a non-zero amount.")
  else do
    let zones ← freeZones fs
    let (grabbed, grabbedZones) :=
      grabZones fs.bytesPerCluster amount (sortZones (order zones)).reverse 0 []
    if grabbed < amount then pure (none, fs)
    else
      let excess := (grabbed - amount) / fs.bytesPerCluster
      let (linked, out) := (trimLast excess grabbedZones).reverse.foldl linkZone (fs, none)
      pure (out, linked)

def extendCluster (fs : Fat) (cluster amount : Nat) : Except FatError (Option Nat × Fat) :=
  if amount = 0 then .ok (none, fs)
  else do
    let entryOffset := fatTableStart + cluster * 2
    let entry ← fs.readLeShort entryOffset
    if entry ≠ 0xFFFF then .error (.assertionError "Extending from middle of chain")
    else do
      let (returnCluster, fs) ← allocate order fs amount
      match returnCluster with
      | none => .error .structError
      | some returnCluster =>
          pure (some returnCluster, fs.writeClusterEntry entryOffset returnCluster)

/-- The loop of `write_file`. -/
def writeClusters (startByte : Nat) (data : List UInt8) :
    Nat → Fat → Nat → Nat → Except FatError Fat
  | 0, _, _, _ => .error .outOfFuel
  | fuel + 1, fs, currentCluster, currentOffset =>
      if startByte + data.length ≤ currentOffset then .ok fs
      else
        let dataBegin := currentOffset - startByte
        let dataEnd := min data.length (currentOffset + fs.bytesPerCluster - startByte)
        let fs :=
          if dataBegin < dataEnd then
            fs.writeAt (fs.clusterStart currentCluster + (startByte - currentOffset))
              (slice data dataBegin (dataEnd - dataBegin))
          else fs
        let currentOffset := currentOffset + fs.bytesPerCluster
        if currentOffset < startByte + data.length then do
          let next ← fs.readLeShort (fatTableStart + currentCluster * 2)
          if next ≤ maxClusterId then
            if next = 0 then .error (.assertionError "Cannot write free cluster")
            else writeClusters startByte data fuel fs next currentOffset
          else do
            let (extended, fs) ← extendCluster order fs currentCluster data.length
            match extended with
            | none => .error (.assertionError "Cannot write free cluster")
            | some next =>
                if next = 0 then .error (.assertionError "Cannot write free cluster")
                else writeClusters startByte data fuel fs next currentOffset
        else .ok fs

def writeFile (fs : Fat) (headCluster startByte : Nat) (data : List UInt8) :
    Except FatError Fat :=
  writeClusters order startByte data (startByte + data.length + 1) fs headCluster 0

end Allocate

end Fat16Copy
end AndroidBuild
