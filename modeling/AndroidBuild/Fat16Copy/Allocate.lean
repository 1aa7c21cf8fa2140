import AndroidBuild.Fat16Copy.Image
import AndroidBuild.Lib.Loop
import Mathlib.Data.List.SplitBy
import Mathlib.Data.List.Range

/-!
# What `allocate` links

The scan finds the free entries of the table as zones, one after the other.
The zones that are taken, the last of them trimmed, are linked to a chain of
free clusters, in both tables.
-/

namespace AndroidBuild
namespace Fat16Copy

open Bytes ByteFile Loop

section Tables

/-- An image with `clusters` clusters, whose tables may have more entries. -/
structure Valid (fs : Fat) (clusters : Nat) : Prop where
  bytesPerCluster : 0 < fs.bytesPerCluster
  even : fs.fatSize % 2 = 0
  entries : fs.fatSize / 2 ≤ 65536
  clusters_le : clusters ≤ 65524
  table : clusters + 2 ≤ fs.fatSize / 2
  length : fs.dataStart + fs.rootEntries * 32 + clusters * fs.bytesPerCluster ≤ fs.file.length

def Fat.entry (fs : Fat) (i : Nat) : Nat :=
  Bytes.toNat (slice fs.file (fatTableStart + i * 2) 2)

def Fat.entryCopy (fs : Fat) (i : Nat) : Nat :=
  Bytes.toNat (slice fs.file (fatTableStart + i * 2 + fs.fatSize) 2)

/-- `fs'` has the entries `new` in its tables, and is like `fs` elsewhere. -/
structure Relinked (fs fs' : Fat) (new : Nat → Option Nat) : Prop where
  bytesPerCluster : fs'.bytesPerCluster = fs.bytesPerCluster
  rootEntries : fs'.rootEntries = fs.rootEntries
  fatSize : fs'.fatSize = fs.fatSize
  length : fs'.file.length = fs.file.length
  data : fs'.file.drop fs.dataStart = fs.file.drop fs.dataStart
  entry : ∀ i < fs.fatSize / 2, fs'.entry i = (new i).getD (fs.entry i)
  entryCopy : ∀ i < fs.fatSize / 2, fs'.entryCopy i = (new i).getD (fs.entryCopy i)

variable {fs fs' fs'' : Fat} {clusters : Nat} {new new' : Nat → Option Nat}

theorem Relinked.refl (fs : Fat) :
    Relinked fs fs (fun _ => none) :=
  ⟨rfl, rfl, rfl, rfl, rfl, fun _ _ => rfl, fun _ _ => rfl⟩

theorem Relinked.dataStart
    (h : Relinked fs fs' new) :
    fs'.dataStart = fs.dataStart := by
  rw [Fat.dataStart, Fat.dataStart, h.fatSize]

theorem Relinked.trans
    (h : Relinked fs fs' new) (h' : Relinked fs' fs'' new') :
    Relinked fs fs'' (fun i => (new' i).or (new i)) := by
  refine ⟨h'.bytesPerCluster.trans h.bytesPerCluster, h'.rootEntries.trans h.rootEntries,
    h'.fatSize.trans h.fatSize, h'.length.trans h.length, ?_, ?_, ?_⟩
  · have hdata := h'.data
    rw [h.dataStart] at hdata
    rw [hdata, h.data]
  · intro i hi
    rw [h'.entry i (by rw [h.fatSize]; exact hi), h.entry i hi]
    cases new' i <;> rfl
  · intro i hi
    rw [h'.entryCopy i (by rw [h.fatSize]; exact hi), h.entryCopy i hi]
    cases new' i <;> rfl

theorem Relinked.congr
    (h : Relinked fs fs' new) (hnew : ∀ i < fs.fatSize / 2, new' i = new i) :
    Relinked fs fs' new' :=
  ⟨h.bytesPerCluster, h.rootEntries, h.fatSize, h.length, h.data,
    fun i hi => by rw [hnew i hi, h.entry i hi],
    fun i hi => by rw [hnew i hi, h.entryCopy i hi]⟩

theorem Valid.relinked
    (hv : Valid fs clusters) (h : Relinked fs fs' new) :
    Valid fs' clusters := by
  refine ⟨?_, ?_, ?_, hv.clusters_le, ?_, ?_⟩
  · rw [h.bytesPerCluster]
    exact hv.bytesPerCluster
  · rw [h.fatSize]
    exact hv.even
  · rw [h.fatSize]
    exact hv.entries
  · rw [h.fatSize]
    exact hv.table
  · rw [h.dataStart, h.rootEntries, h.bytesPerCluster, h.length]
    exact hv.length

theorem Valid.dataStart_le
    (hv : Valid fs clusters) :
    fs.dataStart ≤ fs.file.length := by
  have := hv.length
  omega

theorem Valid.readLeShort
    (hv : Valid fs clusters) {i : Nat} (hi : i < fs.fatSize / 2) :
    fs.readLeShort (fatTableStart + i * 2) = .ok (fs.entry i) := by
  have hlength := hv.dataStart_le
  rw [Fat.dataStart] at hlength
  rw [Fat.readLeShort, if_pos (by omega)]
  rfl

/-- One entry is written into both tables. -/
theorem relinked_writeClusterEntry
    (hv : Valid fs clusters) {i v : Nat} (hi : i < fs.fatSize / 2) (hentry : v < 65536) :
    Relinked fs (fs.writeClusterEntry (fatTableStart + i * 2) v)
      (fun j => if j = i then some v else none) := by
  have hlength := hv.dataStart_le
  have heven := hv.even
  have hbytes : (Bytes.ofNat 2 v).length = 2 := Bytes.length_ofNat 2 v
  rw [Fat.dataStart] at hlength
  have hfirst : fatTableStart + i * 2 + (Bytes.ofNat 2 v).length ≤ fs.file.length := by omega
  have hsecond : fatTableStart + i * 2 + fs.fatSize + (Bytes.ofNat 2 v).length ≤
      (ByteFile.write fs.file (fatTableStart + i * 2) (Bytes.ofNat 2 v)).length := by
    rw [length_write hfirst]
    omega
  have htoNat : Bytes.toNat (Bytes.ofNat 2 v) = v := Bytes.toNat_ofNat (by omega)
  have hslice : ∀ q n, (q + n ≤ fatTableStart + i * 2 ∨ fatTableStart + i * 2 + 2 ≤ q) →
      (q + n ≤ fatTableStart + i * 2 + fs.fatSize ∨
        fatTableStart + i * 2 + fs.fatSize + 2 ≤ q) →
      slice (fs.writeClusterEntry (fatTableStart + i * 2) v).file q n = slice fs.file q n := by
    intro q n h₁ h₂
    rw [Fat.writeClusterEntry, Fat.writeAt, Fat.writeAt]
    dsimp only
    rw [slice_write_of_disjoint hsecond (by omega), slice_write_of_disjoint hfirst (by omega)]
  refine ⟨rfl, rfl, rfl, ?_, ?_, ?_, ?_⟩
  · rw [Fat.writeClusterEntry, Fat.writeAt, Fat.writeAt]
    dsimp only
    rw [length_write hsecond, length_write hfirst]
  · have hall : ∀ file : List UInt8, file.drop fs.dataStart =
        slice file fs.dataStart file.length := by
      intro file
      rw [slice, List.take_of_length_le (by rw [List.length_drop]; omega)]
    have hlen : (fs.writeClusterEntry (fatTableStart + i * 2) v).file.length = fs.file.length := by
      rw [Fat.writeClusterEntry, Fat.writeAt, Fat.writeAt]
      dsimp only
      rw [length_write hsecond, length_write hfirst]
    rw [hall, hall, hlen]
    exact hslice _ _ (by rw [Fat.dataStart]; omega) (by rw [Fat.dataStart]; omega)
  · intro j hj
    by_cases hji : j = i
    · subst hji
      rw [if_pos rfl, Option.getD_some, Fat.entry, Fat.writeClusterEntry, Fat.writeAt, Fat.writeAt]
      dsimp only
      rw [slice_write_of_disjoint hsecond (by omega)]
      rw [slice_write hfirst hbytes.symm, htoNat]
    · rw [if_neg hji, Option.getD_none, Fat.entry, Fat.entry, hslice]
      · omega
      · omega
  · intro j hj
    by_cases hji : j = i
    · subst hji
      rw [if_pos rfl, Option.getD_some, Fat.entryCopy, Fat.writeClusterEntry, Fat.writeAt,
        Fat.writeAt]
      dsimp only
      rw [slice_write hsecond hbytes.symm, htoNat]
    · rw [if_neg hji, Option.getD_none, Fat.entryCopy, Fat.entryCopy]
      change Bytes.toNat (slice (fs.writeClusterEntry (fatTableStart + i * 2) v).file
        (fatTableStart + j * 2 + fs.fatSize) 2) = _
      rw [hslice]
      · omega
      · omega

theorem relinked_writeClusterEntries
    (hv : Valid fs clusters) {i : Nat} {entries : List Nat}
    (hi : i + entries.length ≤ fs.fatSize / 2) (hentries : ∀ v ∈ entries, v < 65536) :
    Relinked fs (fs.writeClusterEntries (fatTableStart + i * 2) entries)
      (fun j => if i ≤ j then entries[j - i]? else none) := by
  induction entries generalizing fs i with
  | nil =>
      refine (Relinked.refl fs).congr ?_
      intro j _
      split
      · rfl
      · rfl
  | cons v entries ih =>
      rw [List.length_cons] at hi
      rw [List.forall_mem_cons] at hentries
      have hone := relinked_writeClusterEntry hv (show i < fs.fatSize / 2 by omega) hentries.1
      have hrest := ih (hv.relinked hone) (i := i + 1) (by rw [hone.fatSize]; omega) hentries.2
      have hpos : fatTableStart + (i + 1) * 2 = fatTableStart + i * 2 + 2 := by omega
      rw [hpos] at hrest
      rw [Fat.writeClusterEntries]
      refine (hone.trans hrest).congr ?_
      intro j _
      by_cases hlt : j < i
      · rw [if_neg (by omega), if_neg (by omega), if_neg (by omega)]
        rfl
      · by_cases hji : j = i
        · subst hji
          rw [if_pos le_rfl, if_neg (by omega), if_pos rfl, Nat.sub_self]
          rfl
        · rw [if_pos (by omega), if_pos (by omega), if_neg hji, Option.or_none,
            show j - i = (j - (i + 1)) + 1 by omega, List.getElem?_cons_succ]

end Tables

section Zones

variable {fs : Fat} {clusters : Nat}

def zoneClusters (zone : Zone) : List Nat :=
  List.range' zone.1 zone.2

def freeClusters (fs : Fat) : List Nat :=
  (List.range' 2 (fs.fatSize / 2 - 2)).filter (fun i => fs.entry i = 0)

/-- The runs of consecutive numbers. -/
def runs (numbers : List Nat) : List Zone :=
  (numbers.splitBy fun i j => j == i + 1).map fun run => (run.headI, run.length)

/-- The numbers run by run, the longest run first; of two runs of one length, the one that `order`
has behind the other. -/
def longestFirst (order : List Zone → List Zone) (numbers : List Nat) : List Nat :=
  ((order (runs numbers)).insertionSort fun x y => x.2 ≤ y.2).reverse.flatMap zoneClusters

/-- Zones that do not touch are the runs of their clusters. -/
theorem runs_flatMap
    {zones : List Zone} (hsizes : ∀ zone ∈ zones, 0 < zone.2)
    (hgaps : zones.Pairwise fun x y => x.1 + x.2 < y.1) :
    runs (zones.flatMap zoneClusters) = zones := by
  have hne : ∀ zone ∈ zones, zoneClusters zone ≠ [] := by
    intro zone hzone hnil
    exact (hsizes zone hzone).ne' (List.range'_eq_nil_iff.mp hnil)
  rw [runs, List.flatMap_def, List.splitBy_flatten, List.map_map]
  · refine (List.map_congr_left ?_).trans (List.map_id zones)
    rintro ⟨c, size⟩ hzone
    obtain ⟨k, rfl⟩ := Nat.exists_eq_succ_of_ne_zero (hsizes _ hzone).ne'
    simp [zoneClusters, List.range'_succ]
  · intro hnil
    obtain ⟨zone, hzone, hzoneNil⟩ := List.mem_map.mp hnil
    exact hne zone hzone hzoneNil
  · rw [List.forall_mem_map]
    intro zone _
    exact (List.isChain_range' zone.1 zone.2 1).imp fun i j hij => beq_iff_eq.mpr hij
  · refine (List.pairwise_map.mpr (hgaps.imp_of_mem ?_)).isChain
    intro x y hx hy hgap
    refine ⟨hne x hx, hne y hy, beq_false_of_ne ?_⟩
    have hsize := hsizes x hx
    simp only [zoneClusters, List.getLast_range', List.head_range']
    omega

theorem mem_freeClusters
    {i : Nat} :
    i ∈ freeClusters fs ↔ (2 ≤ i ∧ i < fs.fatSize / 2) ∧ fs.entry i = 0 := by
  rw [freeClusters, List.mem_filter, List.mem_range'_1, decide_eq_true_iff]
  refine and_congr_left fun _ => ?_
  omega

/-- What the scan has found in the entries before `pos`. -/
structure Scanned (fs : Fat) (pos : Nat) (s : Scan) : Prop where
  found : s.finish.flatMap zoneClusters =
    (List.range' 2 (pos - 2)).filter (fun i => fs.entry i = 0)
  sizes : ∀ zone ∈ s.finish, 0 < zone.2
  current : ∀ c, s.current = some c → c + s.currentSize = pos ∧ 0 < s.currentSize
  gaps : s.freeZones.Pairwise fun x y => x.1 + x.2 < y.1
  before : ∀ zone ∈ s.freeZones, zone.1 + zone.2 < s.current.getD pos

theorem Scanned.finish_gaps
    {pos : Nat} {s : Scan} (h : Scanned fs pos s) :
    s.finish.Pairwise fun x y => x.1 + x.2 < y.1 := by
  obtain ⟨_, _, _, hgaps, hbefore⟩ := h
  rw [Scan.finish]
  cases hs : s.current with
  | none => exact hgaps
  | some c =>
      rw [hs] at hbefore
      exact List.pairwise_append.mpr ⟨hgaps, List.pairwise_singleton _ _,
        fun zone hzone current hcurrent => List.mem_singleton.mp hcurrent ▸ hbefore zone hzone⟩

theorem Scanned.step
    {pos : Nat} {s : Scan} (hpos : 2 ≤ pos) (h : Scanned fs pos s) :
    Scanned fs (pos + 1) (s.step pos (fs.entry pos)) := by
  have hrange : (List.range' 2 (pos + 1 - 2)).filter (fun i => fs.entry i = 0) =
      (List.range' 2 (pos - 2)).filter (fun i => fs.entry i = 0) ++
        if fs.entry pos = 0 then [pos] else [] := by
    rw [show pos + 1 - 2 = (pos - 2) + 1 by omega, List.range'_concat, List.filter_append,
      show 2 + 1 * (pos - 2) = pos by omega]
    congr 1
    by_cases hfree : fs.entry pos = 0
    · simp [hfree]
    · simp [hfree]
  have hfinish := h.finish_gaps
  obtain ⟨hfound, hsizes, hcurrent, hgaps, hbefore⟩ := h
  rw [Scan.finish] at hfound hsizes hfinish
  rw [Scan.step]
  cases hs : s.current with
  | none =>
      rw [hs] at hfound hsizes hbefore
      dsimp only at hfound hsizes ⊢
      by_cases hfree : fs.entry pos = 0
      · rw [if_pos hfree]
        refine ⟨?_, ?_, ?_, hgaps, hbefore⟩
        · rw [hrange, if_pos hfree, ← hfound, Scan.finish, List.flatMap_append]
          simp [zoneClusters]
        · rw [Scan.finish]
          intro zone hzone
          rcases List.mem_append.mp hzone with hzone | hzone
          · exact hsizes zone hzone
          · rw [List.mem_singleton.mp hzone]
            exact Nat.one_pos
        · rintro c ⟨⟩
          exact ⟨rfl, Nat.one_pos⟩
      · rw [if_neg hfree]
        refine ⟨?_, ?_, ?_, hgaps, ?_⟩
        · rw [hrange, if_neg hfree, List.append_nil, ← hfound, Scan.finish, hs]
        · rw [Scan.finish, hs]
          exact hsizes
        · intro c hc
          rw [hs] at hc
          cases hc
        · rw [hs]
          exact fun zone hzone => Nat.lt_succ_of_lt (hbefore zone hzone)
  | some c =>
      obtain ⟨hc, hsize⟩ := hcurrent c hs
      rw [hs] at hfound hsizes hbefore hfinish
      dsimp only at hfound hsizes ⊢
      by_cases hfree : fs.entry pos = 0
      · rw [if_pos hfree]
        refine ⟨?_, ?_, ?_, hgaps, hbefore⟩
        · rw [hrange, if_pos hfree, ← hfound, Scan.finish]
          dsimp only
          rw [List.flatMap_append, List.flatMap_append, List.append_assoc]
          congr 1
          simp only [List.flatMap_cons, List.flatMap_nil, List.append_nil, zoneClusters]
          rw [List.range'_concat, Nat.one_mul, hc]
        · rw [Scan.finish]
          dsimp only
          intro zone hzone
          rcases List.mem_append.mp hzone with hzone | hzone
          · exact hsizes zone (List.mem_append_left _ hzone)
          · rw [List.mem_singleton.mp hzone]
            exact Nat.succ_pos _
        · intro d hd
          have hdc : c = d := Option.some.inj hd
          dsimp only
          omega
      · rw [if_neg hfree]
        refine ⟨?_, ?_, ?_, hfinish, ?_⟩
        · rw [hrange, if_neg hfree, List.append_nil, ← hfound, Scan.finish]
        · rw [Scan.finish]
          exact hsizes
        · rintro d ⟨⟩
        · rw [List.forall_mem_append, List.forall_mem_singleton]
          refine ⟨fun zone hzone => ?_, by dsimp only [Option.getD_none]; omega⟩
          have hlt := hbefore zone hzone
          dsimp only [Option.getD_some, Option.getD_none] at hlt ⊢
          omega

/-- The zones are the runs of the free clusters. -/
theorem freeZones_spec
    (hv : Valid fs clusters) :
    freeZones fs = .ok (runs (freeClusters fs)) ∧
      (runs (freeClusters fs)).flatMap zoneClusters = freeClusters fs ∧
      ∀ zone ∈ runs (freeClusters fs), 0 < zone.2 := by
  obtain ⟨scan, hscan, h⟩ := forLoop_total
    (fun (s : Scan) pos => do
      let data ← fs.readLeShort (fatTableStart + pos * 2)
      pure (Scan.step s pos data))
    (fun done s => Scanned fs (2 + done.length) s) (List.range' 2 (fs.fatSize / 2 - 2))
    ⟨none, 0, []⟩
    ⟨rfl, by simp [Scan.finish], nofun, .nil, nofun⟩
    (by
      intro done pos rest s hsplit hs
      have hpos : pos = 2 + done.length := by
        have hget := congrArg (fun l => l[done.length]?) hsplit
        simp only [List.getElem?_append_right (Nat.le_refl _), Nat.sub_self,
          List.getElem?_cons_zero] at hget
        rw [List.getElem?_eq_some_iff] at hget
        obtain ⟨hlt, hget⟩ := hget
        rw [List.getElem_range'] at hget
        omega
      have hlength := congrArg List.length hsplit
      rw [List.length_range', List.length_append, List.length_cons] at hlength
      rw [← hpos] at hs
      have hread := hv.readLeShort (show pos < fs.fatSize / 2 by omega)
      refine ⟨_, by rw [hread]; rfl, ?_⟩
      rw [List.length_append, List.length_singleton, show 2 + (done.length + 1) = pos + 1 by omega]
      exact hs.step (by omega))
  have hfound := h.found
  rw [List.length_range', Nat.add_sub_cancel_left] at hfound
  have hruns : runs (freeClusters fs) = scan.finish := by
    rw [freeClusters, ← hfound, runs_flatMap h.sizes h.finish_gaps]
  rw [hruns]
  refine ⟨?_, hfound, h.sizes⟩
  rw [freeZones, hscan]
  rfl

/-- The clusters of the zones that are taken. -/
theorem grabZones_spec
    (bytesPerCluster amount : Nat) (zones : List Zone) (grabbed : Nat) (before : List Zone) :
    ∃ taken rest, zones = taken ++ rest ∧
      grabZones bytesPerCluster amount zones grabbed before =
        (grabbed + (taken.map Prod.snd).sum * bytesPerCluster, before ++ taken) ∧
      (grabbed + (taken.map Prod.snd).sum * bytesPerCluster < amount → rest = []) ∧
      ∀ front last, taken = front ++ [last] →
        grabbed + (front.map Prod.snd).sum * bytesPerCluster < amount := by
  induction zones generalizing grabbed before with
  | nil =>
      refine ⟨[], [], rfl, by simp [grabZones], fun _ => rfl, ?_⟩
      intro front last h
      simp at h
  | cons zone zones ih =>
      rw [grabZones]
      by_cases hlt : grabbed < amount
      · rw [if_pos hlt]
        obtain ⟨taken, rest, hsplit, hgrab, hall, hlast⟩ :=
          ih (grabbed + zone.2 * bytesPerCluster) (before ++ [zone])
        have hsum : grabbed + zone.2 * bytesPerCluster + (taken.map Prod.snd).sum * bytesPerCluster =
            grabbed + ((zone :: taken).map Prod.snd).sum * bytesPerCluster := by
          rw [List.map_cons, List.sum_cons, Nat.add_mul, Nat.add_assoc]
        refine ⟨zone :: taken, rest, by rw [hsplit]; rfl, ?_, ?_, ?_⟩
        · rw [hgrab, hsum, List.append_assoc]
          rfl
        · rw [← hsum]
          exact hall
        · intro front last h
          cases front with
          | nil => simpa using hlt
          | cons first front =>
              rw [List.cons_append, List.cons.injEq] at h
              have hfront := hlast front last h.2
              rw [← h.1, List.map_cons, List.sum_cons, Nat.add_mul, ← Nat.add_assoc]
              exact hfront
      · rw [if_neg hlt]
        refine ⟨[], zone :: zones, rfl, by simp, ?_, ?_⟩
        · intro h
          exact absurd (by simpa using h) hlt
        · intro front last h
          simp at h

theorem trimLast_append
    (excess : Nat) (front : List Zone) (last : Zone) :
    trimLast excess (front ++ [last]) = front ++ [(last.1, last.2 - excess)] := by
  induction front with
  | nil => rfl
  | cons zone front ih =>
      rw [List.cons_append, List.cons_append, ← ih]
      cases hfront : front ++ [last] with
      | nil => simp at hfront
      | cons z zs => rfl

end Zones

section Links

variable {fs : Fat} {clusters : Nat}

/-- The entry of a cluster of the chain: the next cluster, or the end. -/
def nextOf : List Nat → Nat → Option Nat
  | [], _ => none
  | c :: rest, i => if i = c then some (rest.head?.getD 0xFFFF) else nextOf rest i

/-- The entries of a zone in front of a chain. -/
theorem nextOf_range'
    (s size : Nat) (rest : List Nat) (hsize : 0 < size) (i : Nat) :
    nextOf (List.range' s size ++ rest) i =
      (if s ≤ i then (List.range' (s + 1) (size - 1) ++ [rest.head?.getD 0xFFFF])[i - s]?
        else none).or (nextOf rest i) := by
  obtain ⟨k, rfl⟩ : ∃ k, size = k + 1 := ⟨size - 1, by omega⟩
  rw [Nat.add_sub_cancel]
  clear hsize
  induction k generalizing s with
  | zero =>
      rw [show List.range' s (0 + 1) = [s] from rfl, List.singleton_append, nextOf]
      by_cases hi : i = s
      · subst hi
        simp
      · rw [if_neg hi]
        by_cases hlt : s ≤ i
        · rw [if_pos hlt, List.getElem?_eq_none (by simp; omega)]
          rfl
        · rw [if_neg hlt]
          rfl
  | succ k ih =>
      rw [List.range'_succ, List.cons_append, nextOf, ih (s + 1)]
      by_cases hi : i = s
      · subst hi
        simp [List.range'_succ]
      · rw [if_neg hi]
        congr 1
        by_cases hlt : s ≤ i
        · rw [if_pos hlt, if_pos (by omega), List.range'_succ, List.cons_append,
            show i - s = (i - (s + 1)) + 1 by omega, List.getElem?_cons_succ]
        · rw [if_neg hlt, if_neg (by omega)]

theorem linkZones_spec
    (hv : Valid fs clusters) {zones : List Zone} (hsizes : ∀ zone ∈ zones, 0 < zone.2)
    (hclusters : ∀ c ∈ zones.flatMap zoneClusters, c < fs.fatSize / 2) :
    Relinked fs (zones.reverse.foldl linkZone (fs, none)).1 (nextOf (zones.flatMap zoneClusters)) ∧
      (zones.reverse.foldl linkZone (fs, none)).2 = (zones.flatMap zoneClusters).head? := by
  induction zones with
  | nil => exact ⟨Relinked.refl fs, rfl⟩
  | cons zone zones ih =>
      rw [List.forall_mem_cons] at hsizes
      rw [List.flatMap_cons, List.forall_mem_append] at hclusters
      obtain ⟨hrest, hout⟩ := ih hsizes.2 hclusters.2
      rw [List.reverse_cons, List.foldl_append, List.foldl_cons, List.foldl_nil]
      generalize zones.reverse.foldl linkZone (fs, none) = s at hrest hout
      obtain ⟨s, start⟩ := s
      dsimp only at hrest hout
      have hlast : zone.1 + zone.2 ≤ fs.fatSize / 2 := by
        have hmem : zone.1 + zone.2 - 1 ∈ zoneClusters zone := by
          rw [zoneClusters, List.mem_range'_1]
          omega
        have := hclusters.1 _ hmem
        omega
      have hentries := hv.entries
      have hbound : ∀ v ∈ List.range' (zone.1 + 1) (zone.2 - 1) ++ [start.getD 0xFFFF],
          v < 65536 := by
        intro v hv'
        rcases List.mem_append.mp hv' with hv' | hv'
        · rw [List.mem_range'_1] at hv'
          omega
        · rw [List.mem_singleton.mp hv', hout]
          cases hhead : (zones.flatMap zoneClusters).head? with
          | none => decide
          | some c =>
              have := hclusters.2 c (List.mem_of_head? hhead)
              rw [Option.getD_some]
              omega
      have hlength : (List.range' (zone.1 + 1) (zone.2 - 1) ++ [start.getD 0xFFFF]).length =
          zone.2 := by
        rw [List.length_append, List.length_range', List.length_singleton]
        omega
      have hzone := relinked_writeClusterEntries (hv.relinked hrest)
        (show zone.1 + _ ≤ s.fatSize / 2 by rw [hlength, hrest.fatSize]; exact hlast) hbound
      rw [linkZone]
      refine ⟨(hrest.trans hzone).congr ?_, ?_⟩
      · intro i _
        rw [List.flatMap_cons, zoneClusters, nextOf_range' _ _ _ hsizes.1, hout]
      · obtain ⟨k, hk⟩ : ∃ k, zone.2 = k + 1 := ⟨zone.2 - 1, by omega⟩
        rw [List.flatMap_cons, zoneClusters, hk, List.range'_succ]
        rfl

end Links

section Allocate

variable {fs : Fat} {clusters : Nat} {order : List Zone → List Zone}

/-- A chain of free clusters that `fs'` links in both tables. -/
structure NewChain (fs fs' : Fat) (amount : Nat) (chain : List Nat) : Prop where
  length : chain.length = (amount + fs.bytesPerCluster - 1) / fs.bytesPerCluster
  nodup : chain.Nodup
  free : ∀ c ∈ chain, c ∈ freeClusters fs
  linked : Relinked fs fs' (nextOf chain)

/-- The clusters that are left of `total` after the excess has been trimmed. -/
theorem trimmed_eq
    {b amount front last : Nat} (hb : 0 < b) (hfront : front * b < amount)
    (htotal : amount ≤ (front + last) * b) :
    ((front + last) * b - amount) / b < last ∧
      front + (last - ((front + last) * b - amount) / b) = (amount + b - 1) / b := by
  have hdiv := Nat.div_add_mod ((front + last) * b - amount) b
  have hmod := Nat.mod_lt ((front + last) * b - amount) hb
  generalize hexcess : ((front + last) * b - amount) / b = excess at hdiv ⊢
  generalize ((front + last) * b - amount) % b = r at hdiv hmod
  have hsplit : (front + last) * b = front * b + last * b := Nat.add_mul front last b
  have hlt : excess < last := by
    by_contra hle
    have hmul : last * b ≤ b * excess := by
      rw [Nat.mul_comm b excess]
      exact Nat.mul_le_mul_right b (by omega)
    omega
  refine ⟨hlt, ?_⟩
  obtain ⟨k, rfl⟩ := Nat.exists_eq_add_of_lt hlt
  rw [show excess + k + 1 - excess = k + 1 by omega]
  symm
  have hk : (excess + k + 1) * b = b * excess + (k + 1) * b := by
    rw [Nat.add_assoc, Nat.add_mul, Nat.mul_comm excess b]
  have hsum : (front + (k + 1)) * b = front * b + (k + 1) * b := Nat.add_mul _ _ _
  have hnext : (front + (k + 1) + 1) * b = (front + (k + 1)) * b + b := Nat.succ_mul _ _
  exact Nat.div_eq_of_lt_le (by omega) (by omega)

theorem sum_sizes
    (zones : List Zone) :
    (zones.map Prod.snd).sum = (zones.flatMap zoneClusters).length := by
  rw [List.length_flatMap]
  congr 1
  refine List.map_congr_left ?_
  intro zone _
  exact List.length_range'.symm

theorem allocate_spec
    (hv : Valid fs clusters) (horder : ∀ zones, (order zones).Perm zones) {amount : Nat}
    (hamount : 0 < amount) :
    allocate order fs amount = .ok (none, fs) ∧
        (freeClusters fs).length * fs.bytesPerCluster < amount ∨
      ∃ c rest fs', allocate order fs amount = .ok (some c, fs') ∧
        NewChain fs fs' amount (c :: rest) ∧
        amount ≤ (freeClusters fs).length * fs.bytesPerCluster ∧
        c :: rest <+: longestFirst order (freeClusters fs) := by
  obtain ⟨hzones, hfree, hsizes⟩ := freeZones_spec hv
  obtain ⟨taken, rest, hsplit, hgrab, hall, hlast⟩ := grabZones_spec fs.bytesPerCluster amount
    (sortZones (order (runs (freeClusters fs)))).reverse 0 []
  have hperm : (taken ++ rest).Perm (runs (freeClusters fs)) := by
    rw [← hsplit]
    exact (List.reverse_perm _).trans ((List.perm_insertionSort _ _).trans (horder _))
  have hclusters : ((taken ++ rest).flatMap zoneClusters).Perm (freeClusters fs) := by
    have hflat := hperm.flatMap_right zoneClusters
    rwa [hfree] at hflat
  have hnodup : ((taken ++ rest).flatMap zoneClusters).Nodup :=
    hclusters.nodup_iff.mpr (List.Nodup.filter _ List.nodup_range')
  rw [Nat.zero_add, List.nil_append] at hgrab
  rw [Nat.zero_add] at hall
  have halloc : allocate order fs amount =
      if (taken.map Prod.snd).sum * fs.bytesPerCluster < amount then .ok (none, fs)
      else .ok (((trimLast (((taken.map Prod.snd).sum * fs.bytesPerCluster - amount) /
        fs.bytesPerCluster) taken).reverse.foldl linkZone (fs, none)).2,
        ((trimLast (((taken.map Prod.snd).sum * fs.bytesPerCluster - amount) /
        fs.bytesPerCluster) taken).reverse.foldl linkZone (fs, none)).1) := by
    rw [allocate, if_neg (by omega), hzones]
    simp only [bind, Except.bind, hgrab]
    split
    · rfl
    · rfl
  rw [halloc]
  by_cases hlt : (taken.map Prod.snd).sum * fs.bytesPerCluster < amount
  · rw [if_pos hlt]
    refine Or.inl ⟨rfl, ?_⟩
    rw [← hclusters.length_eq, hall hlt, List.append_nil, ← sum_sizes]
    exact hlt
  · rw [if_neg hlt]
    refine Or.inr ?_
    have henough : amount ≤ (freeClusters fs).length * fs.bytesPerCluster := by
      refine (Nat.le_of_not_lt hlt).trans (Nat.mul_le_mul_right _ ?_)
      rw [← hclusters.length_eq, sum_sizes, List.flatMap_append, List.length_append]
      exact Nat.le_add_right _ _
    rcases List.eq_nil_or_concat taken with hnil | ⟨front, last, hconcat⟩
    · rw [hnil] at hlt
      simp at hlt
      omega
    rw [List.concat_eq_append] at hconcat
    have hfront := hlast front last hconcat
    rw [Nat.zero_add] at hfront
    have hsum : (taken.map Prod.snd).sum = (front.map Prod.snd).sum + last.2 := by
      rw [hconcat, List.map_append, List.sum_append]
      simp
    rw [hsum] at hlt ⊢
    obtain ⟨hexcess, hlength⟩ := trimmed_eq hv.bytesPerCluster hfront (Nat.le_of_not_lt hlt)
    generalize (((front.map Prod.snd).sum + last.2) * fs.bytesPerCluster - amount) /
      fs.bytesPerCluster = excess at hexcess hlength
    rw [hconcat, trimLast_append]
    have hprefix : (front ++ [(last.1, last.2 - excess)]).flatMap zoneClusters <+:
        (taken ++ rest).flatMap zoneClusters := by
      rw [hconcat, List.flatMap_append, List.flatMap_append, List.flatMap_append,
        List.append_assoc, List.prefix_append_right_inj]
      simp only [List.flatMap_cons, List.flatMap_nil, List.append_nil, zoneClusters]
      refine List.IsPrefix.trans ?_ (List.prefix_append _ _)
      rw [List.prefix_iff_eq_take, List.length_range',
        List.take_range'_of_length_ge (Nat.sub_le _ _)]
    have hsub := hprefix.sublist
    have hmem : ∀ c ∈ (front ++ [(last.1, last.2 - excess)]).flatMap zoneClusters,
        c ∈ freeClusters fs :=
      fun c hc => hclusters.mem_iff.mp (hsub.subset hc)
    have hpos : ∀ zone ∈ front ++ [(last.1, last.2 - excess)], 0 < zone.2 := by
      intro zone hzone
      rcases List.mem_append.mp hzone with hzone | hzone
      · refine hsizes zone (hperm.mem_iff.mp ?_)
        rw [hconcat]
        simp [hzone]
      · rw [List.mem_singleton.mp hzone]
        dsimp only
        omega
    obtain ⟨hlinked, hout⟩ := linkZones_spec hv hpos
      (fun c hc => (mem_freeClusters.mp (hmem c hc)).1.2)
    have hchain : ((front ++ [(last.1, last.2 - excess)]).flatMap zoneClusters).length =
        (amount + fs.bytesPerCluster - 1) / fs.bytesPerCluster := by
      rw [← sum_sizes, List.map_append, List.sum_append, ← hlength]
      simp
    generalize hall : (front ++ [(last.1, last.2 - excess)]).flatMap zoneClusters = chain at *
    cases chain with
    | nil =>
        have hone : 0 < (amount + fs.bytesPerCluster - 1) / fs.bytesPerCluster :=
          Nat.div_pos (by omega) hv.bytesPerCluster
        rw [List.length_nil] at hchain
        omega
    | cons c more =>
        rw [← hsplit] at hprefix
        refine ⟨c, more, _, ?_, ⟨hchain, hsub.nodup hnodup, hmem, hlinked⟩, henough, hprefix⟩
        rw [hout]
        rfl

end Allocate

end Fat16Copy
end AndroidBuild
