import AndroidBuild.Fat16Copy.Allocation
import AndroidBuild.Fat16Copy.Extension
import AndroidBuild.Fat16Copy.Dentry

/-!
# Where `commit` puts an entry

In a chain of clusters `commit` finds a run of free records or appends one.  The
root directory cannot be extended: without a run of free records the search goes
back by one cluster again and again, and never raises.
-/

namespace AndroidBuild
namespace Fat16Copy

open Bytes ByteFile Loop

section Records

def recordAt (contents : List UInt8) (i : Nat) : List UInt8 :=
  slice contents (32 * i) 32

/-- A record that is deleted, or has never been used. -/
def FreeRecord (contents : List UInt8) (i : Nat) : Prop :=
  contents[32 * i]? = some delMarker ∨ contents[32 * i]? = some 0

/-- `n` free records from number `i` on. -/
def FreeRun (contents : List UInt8) (i n : Nat) : Prop :=
  ∀ j, i ≤ j → j < i + n → FreeRecord contents j

variable {old : List UInt8} {records : List (List UInt8)}

end Records

section Directories

/-- A directory of an image: the root directory, or a chain of clusters up to the
end mark `last`. -/
inductive Directory where
  | root
  | chain (last : Nat) (clusters : List Nat)
  deriving DecidableEq, Repr

def Directory.contents (fs : Fat) : Directory → List UInt8
  | .root => slice fs.file fs.dataStart (fs.rootEntries * 32)
  | .chain _ clusters => fs.contents clusters

/-- The file is a view of the directory. -/
def Directory.Opened (f : FakeFile) : Directory → Prop
  | .root => f.backing = .rootDentryFile ∧ f.size = f.fs.rootEntries * 32
  | .chain last clusters => Chain f.fs last clusters ∧
      f.size = clusters.length * f.fs.bytesPerCluster ∧
      ∃ c, clusters.head? = some c ∧ f.backing = .fatFile c

/-- The clusters that a chain gets one by one, until it has one that cannot be followed. -/
def appendedClusters (order : List Zone → List Zone) : Nat → List Nat → List Nat
  | 0, _ => []
  | k + 1, free =>
      match (longestFirst order free).head? with
      | none => []
      | some c => c :: if c ≤ maxClusterId then appendedClusters order k (free.erase c) else []

/-- From record number `m` on, the search for `n` free records finds a run, or it appends clusters
for those that are missing behind the `t` free records at the end, and none of these clusters has
the number of the end mark. -/
def SparesMark (order : List Zone → List Zone) (fs : Fat) (contents : List UInt8) (n m : Nat) :
    Prop :=
  (∃ r, m ≤ r + n ∧ FreeRun contents r n ∧ 32 * (r + n) ≤ contents.length) ∨
    ∃ t k, 32 * t ≤ contents.length ∧ FreeRun contents (contents.length / 32 - t) t ∧
      32 * (n - t) ≤ k * fs.bytesPerCluster ∧
      0xFFFF ∉ appendedClusters order k (freeClusters fs)

end Directories

section Rounds

variable {order : List Zone → List Zone} {f f' : FakeFile} {found : Nat}

/-- A round that reads a record of the file. -/
theorem searchRound_read
    {record : List UInt8} {marker : UInt8} (hread : readRecord order f = .ok (record, f'))
    (hmarker : record.head? = some marker) :
    searchRound order (f, found) =
      .ok (f', if marker = delMarker ∨ marker = 0 then found + 1 else 0) := by
  cases record with
  | nil => cases hmarker
  | cons m record =>
      cases hmarker
      rw [searchRound, hread]
      rfl

theorem readRecord_inside
    {record : List UInt8} (hread : f.read 32 = .ok (record, f')) (hlength : record.length = 32) :
    readRecord order f = .ok (record, f') := by
  rw [readRecord, hread]
  simp only [bind, Except.bind]
  rw [if_pos hlength]
  rfl

theorem readRecord_behind
    (order : List Zone → List Zone) (hread : f.read 32 = .ok ([], f')) :
    readRecord order f = (do
      let f ← f'.write order (List.replicate f'.fs.bytesPerCluster 0)
      (f.seekCur (-f.fs.bytesPerCluster)).read 32) := by
  rw [readRecord, hread]
  rfl

instance (contents : List UInt8) (i : Nat) : Decidable (FreeRecord contents i) :=
  inferInstanceAs (Decidable (_ ∨ _))

theorem head?_slice
    {contents : List UInt8} {p n : Nat} (hn : 0 < n) :
    (slice contents p n).head? = contents[p]? := by
  rw [List.head?_eq_getElem?, getElem?_slice, if_pos hn, Nat.add_zero]

theorem searchRound_record
    (found : Nat) {contents : List UInt8} {m : Nat}
    (hread : readRecord order f = .ok (recordAt contents m, f')) (hm : 32 * m < contents.length) :
    searchRound order (f, found) =
      .ok (f', if FreeRecord contents m then found + 1 else 0) := by
  have hmarker : contents[32 * m]? = some contents[32 * m] := List.getElem?_eq_getElem hm
  rw [searchRound_read hread ((head?_slice (by omega)).trans hmarker)]
  simp only [FreeRecord, hmarker, Option.some.injEq]

end Rounds

section Runs

variable {contents : List UInt8} {m found : Nat}

/-- The `found` records in front of number `m` are free, and the one in front of them is not. -/
structure FoundRun (contents : List UInt8) (m found : Nat) : Prop where
  le : found ≤ m
  free : FreeRun contents (m - found) found
  stop : found < m → ¬ FreeRecord contents (m - found - 1)

theorem FoundRun.zero (contents : List UInt8) :
    FoundRun contents 0 0 :=
  ⟨le_rfl, fun _ _ _ => by omega, fun h => by omega⟩

/-- One more record is read. -/
theorem FoundRun.succ
    (h : FoundRun contents m found) :
    FoundRun contents (m + 1) (if FreeRecord contents m then found + 1 else 0) := by
  have hle := h.le
  split
  · rename_i hfree
    refine ⟨by omega, ?_, ?_⟩
    · intro j hj hlt
      rcases Nat.lt_or_ge j m with hjm | hjm
      · exact h.free j (by omega) (by omega)
      · rw [show j = m by omega]
        exact hfree
    · intro hlt
      rw [show m + 1 - (found + 1) - 1 = m - found - 1 by omega]
      exact h.stop (by omega)
  · rename_i hfree
    exact ⟨Nat.zero_le _, fun _ _ _ => by omega, fun _ => hfree⟩

theorem FoundRun.le_found
    (h : FoundRun contents m found) {r n : Nat} (hrun : FreeRun contents r n) (hm : m = r + n) :
    n ≤ found := by
  have hle := h.le
  by_contra hlt
  exact h.stop (by omega) (hrun _ (by omega) (by omega))

end Runs

section Root

variable {f : FakeFile} {order : List Zone → List Zone} {clusters : Nat}

theorem read_root
    (hv : Valid f.fs clusters) (hopen : Directory.root.Opened f) {n : Nat}
    (hin : f.idx + n ≤ f.size) :
    f.read n = .ok (slice (Directory.root.contents f.fs) f.idx n, { f with idx := f.idx + n }) := by
  obtain ⟨hbacking, hsize⟩ := hopen
  have hlength := hv.length
  have hslice : slice (Directory.root.contents f.fs) f.idx n =
      slice f.fs.file (f.fs.dataStart + f.idx) n := by
    rw [Directory.contents, slice_slice _ _ (by omega)]
  have hn : (slice f.fs.file (f.fs.dataStart + f.idx) n).length = n := length_slice (by omega)
  rw [FakeFile.read, if_neg (by omega), hbacking, hslice]
  dsimp only
  rw [hn]

theorem Directory.Opened.seek_root
    (hopen : Directory.root.Opened f) (idx : Nat) :
    Directory.root.Opened { f with idx := idx } :=
  hopen

theorem length_contents_root
    (hv : Valid f.fs clusters) (hopen : Directory.root.Opened f) :
    (Directory.root.contents f.fs).length = f.size := by
  have hlength := hv.length
  rw [Directory.contents, length_slice (by omega), hopen.2]

theorem searchRound_root
    (order : List Zone → List Zone) (hv : Valid f.fs clusters) (hopen : Directory.root.Opened f)
    (hbytes : 32 ∣ f.fs.bytesPerCluster) (hidx : 32 ∣ f.idx) (hle : f.idx ≤ f.size)
    (hsize : 0 < f.size) (found : Nat) :
    ∃ m, 32 * (m + 1) ≤ f.size ∧ (f.idx < f.size → 32 * m = f.idx) ∧
      searchRound order (f, found) = .ok ({ f with idx := 32 * (m + 1) },
        if FreeRecord (Directory.root.contents f.fs) m then found + 1 else 0) := by
  have hpos := hv.bytesPerCluster
  have hlength := length_contents_root hv hopen
  obtain ⟨b, hb⟩ := hbytes
  obtain ⟨m, hm⟩ := hidx
  have hentries := hopen.2
  by_cases hend : f.idx < f.size
  · refine ⟨m, by omega, fun _ => hm.symm, ?_⟩
    refine searchRound_record _ (readRecord_inside ?_ (length_slice (by omega))) (by omega)
    rw [read_root hv hopen (by omega), hm, recordAt]
    rfl
  · have hidx : f.idx = f.size := by omega
    refine ⟨(f.size - f.fs.bytesPerCluster) / 32, by omega, fun h => absurd h hend, ?_⟩
    generalize hback : (f.size - f.fs.bytesPerCluster) / 32 = k
    have hk : 32 * k = f.size - f.fs.bytesPerCluster := by omega
    have hread : f.read 32 = .ok ([], f) := by
      have hsame : { f with idx := f.size } = f := by
        cases f
        cases hidx
        rfl
      rw [FakeFile.read, if_pos (by omega), hidx, Nat.sub_self, hopen.1]
      dsimp only
      rw [slice, List.take_zero, List.length_nil, Nat.add_zero, ← hopen.1, hsame]
    have hwrite : f.write order (List.replicate f.fs.bytesPerCluster 0) = .ok f := by
      have hsame : { f with idx := f.size, size := f.size } = f := by
        cases f
        cases hidx
        rfl
      rw [FakeFile.write, hopen.1]
      dsimp only
      rw [List.length_replicate, if_pos (by omega), hidx, Nat.sub_self, List.take_zero,
        List.length_nil, Nat.add_zero, max_self, Fat.writeAt, ByteFile.write, if_pos rfl,
        ← hopen.1]
      exact congrArg Except.ok hsame
    have hseek : f.seekCur (-f.fs.bytesPerCluster) = { f with idx := 32 * k } := by
      rw [FakeFile.seekCur, hk, hidx]
      congr 1
      omega
    have hagain := read_root (f := { f with idx := 32 * k }) hv (hopen.seek_root (32 * k))
      (n := 32) (show 32 * k + 32 ≤ f.size by omega)
    refine searchRound_record _ ?_ (show 32 * k < _ by omega)
    rw [readRecord_behind order hread, hwrite]
    simp only [bind, Except.bind]
    rw [hseek, hagain]
    rfl

/-- The states of the search through the root directory. -/
structure RootSearch (f : FakeFile) (s : FakeFile × Nat) (m : Nat) : Prop where
  file : s.1 = { f with idx := 32 * m }
  le : 32 * m ≤ f.size

theorem RootSearch.round
    (order : List Zone → List Zone) (hv : Valid f.fs clusters) (hopen : Directory.root.Opened f)
    (hbytes : 32 ∣ f.fs.bytesPerCluster) (hsize : 0 < f.size) {s : FakeFile × Nat}
    (h : ∃ m, RootSearch f s m) :
    ∃ s', searchRound order s = .ok s' ∧ ∃ m, RootSearch f s' m := by
  obtain ⟨s, found⟩ := s
  obtain ⟨m, hfile, hle⟩ := h
  cases hfile
  obtain ⟨m', hle', _, hround⟩ := searchRound_root order
    (f := { f with idx := 32 * m }) hv (hopen.seek_root _) hbytes (Nat.dvd_mul_right 32 m) hle hsize
    found
  exact ⟨_, hround, m' + 1, rfl, hle'⟩

end Root

section Chains

variable {f : FakeFile} {order : List Zone → List Zone} {clusters last : Nat} {chain : List Nat}

theorem read_chain
    (hv : Valid f.fs clusters) (hopen : (Directory.chain last chain).Opened f) {n : Nat}
    (hin : f.idx + n ≤ f.size) :
    f.read n = .ok (slice (f.fs.contents chain) f.idx n, { f with idx := f.idx + n }) := by
  obtain ⟨hchain, hsize, c, hc, hbacking⟩ := hopen
  cases chain with
  | nil => cases hc
  | cons c' rest =>
      cases hc
      have hlength := hchain.length_contents
      rw [List.length_cons] at hsize hlength
      have hread := readFile_eq hv hchain (show f.idx + n ≤ _ by omega)
      rw [FakeFile.read, if_neg (by omega), hbacking]
      dsimp only
      rw [hread]
      dsimp only
      rw [length_slice (by omega)]

theorem read_end
    {c : Nat} (hbacking : f.backing = .fatFile c) (hend : f.idx = f.size) :
    f.read 32 = .ok ([], f) := by
  have hsame : { f with idx := f.size } = f := by
    cases f
    cases hend
    rfl
  rw [FakeFile.read, if_pos (by omega), hbacking]
  dsimp only
  rw [hend, Nat.sub_self, Fat.readFile, if_pos rfl]
  dsimp only
  rw [List.length_nil, Nat.add_zero, ← hbacking, hsame]

theorem freeRecord_zeros
    {old : List UInt8} {n i : Nat} (hi : old.length ≤ 32 * i)
    (hlt : 32 * i < (old ++ List.replicate n 0).length) :
    FreeRecord (old ++ List.replicate n 0) i := by
  rw [List.length_append, List.length_replicate] at hlt
  right
  rw [List.getElem?_append_right hi, List.getElem?_replicate, if_pos (by omega)]

theorem freeRecord_append
    {contents : List UInt8} {i : Nat} (hi : 32 * i < contents.length) (more : List UInt8) :
    FreeRecord (contents ++ more) i ↔ FreeRecord contents i := by
  rw [FreeRecord, FreeRecord, List.getElem?_append_left hi]

theorem FoundRun.append
    {contents : List UInt8} {m found : Nat} (h : FoundRun contents m found)
    (hm : 32 * m ≤ contents.length) (more : List UInt8) :
    FoundRun (contents ++ more) m found := by
  have hle := h.le
  refine ⟨h.le, fun j hj hlt => ?_, fun hlt => ?_⟩
  · rw [freeRecord_append (by omega)]
    exact h.free j hj hlt
  · rw [freeRecord_append (by omega)]
    exact h.stop hlt

section Marks

variable {fs : Fat} {contents : List UInt8} {n m found : Nat}

theorem SparesMark.succ
    (h : SparesMark order fs contents n m) (hrun : FoundRun contents m found) (hlt : found < n) :
    SparesMark order fs contents n (m + 1) := by
  refine h.imp_left ?_
  rintro ⟨r, hle, hfree, hend⟩
  refine ⟨r, Nat.lt_of_le_of_ne hle ?_, hfree, hend⟩
  intro hm
  exact absurd (hrun.le_found hfree hm) (Nat.not_le_of_lt hlt)

/-- At the end of the directory, the next cluster does not have the number of the end mark, and
neither have the others behind it. -/
theorem SparesMark.next
    (h : SparesMark order fs contents n m) (hrun : FoundRun contents m found) (hlt : found < n)
    (hend : contents.length = 32 * m) {d : Nat}
    (hd : (longestFirst order (freeClusters fs)).head? = some d) :
    d ≠ 0xFFFF ∧ (d ≤ maxClusterId → ∃ k, 32 * (n - found) ≤ (k + 1) * fs.bytesPerCluster ∧
      0xFFFF ∉ appendedClusters order k ((freeClusters fs).erase d)) := by
  rcases h with ⟨r, hle, hfree, hin⟩ | ⟨t, k, ht, hfree, hk, hspared⟩
  · exact absurd (hrun.le_found hfree (by omega)) (Nat.not_le_of_lt hlt)
  · have hfound := hrun.le_found hfree (by omega)
    cases k with
    | zero => omega
    | succ k =>
        rw [appendedClusters, hd, List.mem_cons, not_or] at hspared
        refine ⟨Ne.symm hspared.1, fun hle => ⟨k, by omega, ?_⟩⟩
        rw [if_pos hle] at hspared
        exact hspared.2

theorem SparesMark.append
    {fs' : Fat} (hrun : FoundRun contents m found) (hend : contents.length = 32 * m) {b k : Nat}
    (hb : fs'.bytesPerCluster = 32 * b) (hk : 32 * (n - found) ≤ (k + 1) * (32 * b))
    (hspared : 0xFFFF ∉ appendedClusters order k (freeClusters fs')) (m' : Nat) :
    SparesMark order fs' (contents ++ List.replicate (32 * b) 0) n m' := by
  have hle := hrun.le
  have hlength : (contents ++ List.replicate (32 * b) (0 : UInt8)).length = 32 * (m + b) := by
    rw [List.length_append, List.length_replicate]
    omega
  refine Or.inr ⟨found + b, k, by omega, ?_, ?_, hspared⟩
  · intro j hj hlt
    rcases Nat.lt_or_ge j m with hjm | hjm
    · rw [freeRecord_append (by omega)]
      exact hrun.free j (by omega) (by omega)
    · exact freeRecord_zeros (by omega) (by omega)
  · have hroom : (k + 1) * (32 * b) = k * (32 * b) + 32 * b := Nat.succ_mul _ _
    rw [hb]
    omega

end Marks

/-- The search through `chain`, extended by the clusters `added` of zeros, in front of
record number `m`. -/
structure Extending (order : List Zone → List Zone) (n : Nat) (f : FakeFile) (clusters last : Nat)
    (chain added : List Nat) (s : FakeFile × Nat) (m : Nat) : Prop where
  valid : Valid s.1.fs clusters
  opened : (Directory.chain last (chain ++ added)).Opened s.1
  bytesPerCluster : s.1.fs.bytesPerCluster = f.fs.bytesPerCluster
  contents : s.1.fs.contents (chain ++ added) =
    f.fs.contents chain ++ List.replicate (added.length * f.fs.bytesPerCluster) 0
  spares : last = 0xFFFF → SparesMark order s.1.fs (s.1.fs.contents (chain ++ added)) n m
  idx : s.1.idx = 32 * m
  le : s.1.idx ≤ s.1.size
  run : FoundRun (s.1.fs.contents (chain ++ added)) m s.2

/-- The search in a new cluster that the end mark of the chain does not allow to write. -/
structure Behind (clusters : Nat) (s : FakeFile × Nat) : Prop where
  valid : Valid s.1.fs clusters
  opened : ∃ last c rest, Chain s.1.fs last (c :: rest) ∧ last ≠ 0xFFFF ∧
    s.1.backing = .fatFile c ∧ (rest.length + 1) * s.1.fs.bytesPerCluster < s.1.idx
  le : s.1.idx ≤ s.1.size

/-- An exception other than the end of the rounds. -/
abbrev NotExhausted (raised : Raised) : Prop :=
  raised.error ≠ .fat .outOfFuel

/-- Whatever the tables hold, a read ends. -/
theorem read_yields
    (hpos : 0 < f.fs.bytesPerCluster) {c : Nat} (hbacking : f.backing = .fatFile c)
    (hle : f.idx ≤ f.size) :
    Yields NotExhausted (fun r : List UInt8 × FakeFile =>
      r.2 = { f with idx := f.idx + r.1.length } ∧ r.2.idx ≤ f.size) (f.read 32) := by
  rw [FakeFile.read, hbacking]
  dsimp only
  generalize hn : (if f.idx + 32 > f.size then f.size - f.idx else 32) = n
  have hin : f.idx + n ≤ f.size := by
    split at hn <;> omega
  have hread : Yields (· ≠ FatError.outOfFuel) (fun out => out.length ≤ n)
      (f.fs.readFile c f.idx n) := by
    rw [Fat.readFile]
    split
    · exact Nat.zero_le _
    · refine (readClusters_yields hpos [] (by omega) le_rfl).mono ?_
      intro out hout
      rwa [List.length_nil, Nat.zero_add] at hout
  cases hrun : f.fs.readFile c f.idx n with
  | error e =>
      rw [hrun] at hread
      intro he
      cases he
      exact hread rfl
  | ok out =>
      rw [hrun] at hread
      exact ⟨by rw [← hbacking], Nat.le_trans (Nat.add_le_add_left hread _) hin⟩

theorem Behind.round
    {s : FakeFile × Nat} (h : Behind clusters s) :
    Yields NotExhausted (fun s' => Behind clusters s' ∧ s'.1.size - s'.1.idx < s.1.size - s.1.idx)
      (searchRound order s) := by
  obtain ⟨f, found⟩ := s
  obtain ⟨hv, ⟨last, c, rest, hchain, hlast, hbacking, hbehind⟩, hle⟩ := h
  dsimp only at hv hchain hbacking hbehind hle ⊢
  have hpos := hv.bytesPerCluster
  have hrecord : Yields NotExhausted (fun r : List UInt8 × FakeFile =>
      r.2 = { f with idx := f.idx + 32 } ∧ f.idx + 32 ≤ f.size) (readRecord order f) := by
    refine (read_yields hpos hbacking hle).bind ?_
    rintro ⟨record, f'⟩ ⟨hf', hle'⟩
    dsimp only at hf' hle' ⊢
    subst hf'
    split
    · rename_i hlength
      rw [hlength] at hle' ⊢
      exact ⟨rfl, hle'⟩
    · have hwrite : ({ f with idx := f.idx + record.length } : FakeFile).write order
          (List.replicate f.fs.bytesPerCluster 0) =
          .error ⟨.fat (.assertionError "Extending from middle of chain"), none⟩ := by
        rw [FakeFile.write, hbacking]
        dsimp only
        rw [writeFile_behind order hv hlast hchain
          (List.ne_nil_of_length_pos (by rw [List.length_replicate]; exact hpos)) (by omega)]
      rw [hwrite]
      exact fun he => by cases he
  refine hrecord.bind ?_
  rintro ⟨record, f'⟩ ⟨hf', hle'⟩
  dsimp only at hf' hle' ⊢
  subst hf'
  split
  · exact fun he => by cases he
  · refine ⟨⟨hv, ⟨last, c, rest, hchain, hlast, hbacking, ?_⟩, hle'⟩, ?_⟩
    · exact Nat.lt_add_right 32 hbehind
    · change f.size - (f.idx + 32) < f.size - f.idx
      omega

theorem Extending.round
    {added : List Nat} {s : FakeFile × Nat} {m n : Nat}
    (h : Extending order n f clusters last chain added s m) (hfound : s.2 < n)
    (hlt : s.1.idx < s.1.size) (hbytes : 32 ∣ f.fs.bytesPerCluster) :
    ∃ s', searchRound order s = .ok s' ∧ Extending order n f clusters last chain added s' (m + 1) ∧
      s'.1.size = s.1.size ∧
      s'.2 = if FreeRecord (s.1.fs.contents (chain ++ added)) m then s.2 + 1 else 0 := by
  have hopen := h.opened
  have hsize := hopen.2.1
  have hidx := h.idx
  obtain ⟨b, hb⟩ := hbytes
  have hdvd : 32 ∣ s.1.size := by
    rw [hsize, h.bytesPerCluster, hb]
    exact Dvd.dvd.mul_left (Nat.dvd_mul_right 32 b) _
  obtain ⟨a, ha⟩ := hdvd
  have hread := read_chain h.valid hopen (show s.1.idx + 32 ≤ s.1.size by omega)
  have hlength := hopen.1.length_contents
  rw [← hsize] at hlength
  have hrecord : readRecord order s.1 = .ok (recordAt (s.1.fs.contents (chain ++ added)) m,
      { s.1 with idx := s.1.idx + 32 }) :=
    readRecord_inside (by rw [hread, hidx]; rfl) (length_slice (by omega))
  have hround := searchRound_record s.2 hrecord (by omega)
  refine ⟨_, hround, ⟨h.valid, ⟨hopen.1, hsize, hopen.2.2⟩, h.bytesPerCluster, h.contents,
    fun hlast => (h.spares hlast).succ h.run hfound, ?_, ?_, h.run.succ⟩, rfl, rfl⟩
  · change s.1.idx + 32 = 32 * (m + 1)
    omega
  · change s.1.idx + 32 ≤ s.1.size
    omega

/-- A record behind the end of a chain is read from a new cluster, if the chain can get one. -/
theorem readRecord_end
    (horder : ∀ zones, (order zones).Perm zones) {g : FakeFile} (hv : Valid g.fs clusters)
    {c : Nat} {rest : List Nat} (hchain : Chain g.fs last (c :: rest))
    (hbacking : g.backing = .fatFile c) (hidx : g.idx = (rest.length + 1) * g.fs.bytesPerCluster)
    (hend : g.idx = g.size) :
    (∃ raised, NotExhausted raised ∧ readRecord order g = .error raised) ∨
      last = 0xFFFF ∧ ∃ d fs', readRecord order g =
          ({ g with fs := fs', size := g.size + g.fs.bytesPerCluster } : FakeFile).read 32 ∧
        (longestFirst order (freeClusters g.fs)).head? = some d ∧
        Extended g.fs fs' clusters (c :: rest) d := by
  have hpos := hv.bytesPerCluster
  have hread := readRecord_behind order (read_end hbacking hend)
  have hdata : (List.replicate g.fs.bytesPerCluster (0 : UInt8)).length = g.fs.bytesPerCluster :=
    List.length_replicate
  by_cases hlast : last = 0xFFFF
  · subst hlast
    rcases writeFile_extend hv horder hchain with herror | ⟨d, fs', hwrite, hfirst, hext⟩
    · have hwrite : g.write order (List.replicate g.fs.bytesPerCluster 0) =
          .error ⟨.fat .structError, none⟩ := by
        rw [FakeFile.write, hbacking]
        dsimp only
        rw [hidx, herror]
      rw [hread, hwrite]
      exact Or.inl ⟨_, (fun he => by cases he), rfl⟩
    · have hwrite' : g.write order (List.replicate g.fs.bytesPerCluster 0) = .ok { g with
          fs := fs', idx := g.idx + g.fs.bytesPerCluster,
          size := g.size + g.fs.bytesPerCluster } := by
        rw [FakeFile.write, hbacking]
        dsimp only
        rw [hidx, hwrite]
        dsimp only
        rw [hdata, ← hidx, Nat.max_eq_right (by omega), hend]
      refine Or.inr ⟨rfl, d, fs', ?_, hfirst, hext⟩
      rw [hread, hwrite']
      simp only [bind, Except.bind]
      rw [FakeFile.seekCur]
      dsimp only
      rw [hext.bytesPerCluster]
      congr 2
      omega
  · have hne : List.replicate g.fs.bytesPerCluster (0 : UInt8) ≠ [] :=
      List.ne_nil_of_length_pos (by omega)
    have hwrite : g.write order (List.replicate g.fs.bytesPerCluster 0) =
        .error ⟨.fat (.assertionError "Extending from middle of chain"), none⟩ := by
      rw [FakeFile.write, hbacking]
      dsimp only
      rw [writeFile_behind order hv hlast hchain hne (by omega)]
    rw [hread, hwrite]
    exact Or.inl ⟨_, (fun he => by cases he), rfl⟩

/-- A cluster that is too high for the chain is never written. -/
theorem searchRound_above
    {g : FakeFile} {fs' : Fat} {c d : Nat} {rest : List Nat} (hpos : 0 < g.fs.bytesPerCluster)
    (hchain : Chain g.fs 0xFFFF (c :: rest)) (hbacking : g.backing = .fatFile c)
    (hidx : g.idx = (rest.length + 1) * g.fs.bytesPerCluster) (hend : g.idx = g.size)
    (hrecord : readRecord order g =
      ({ g with fs := fs', size := g.size + g.fs.bytesPerCluster } : FakeFile).read 32)
    (hext : Extended g.fs fs' clusters (c :: rest) d) (hd : maxClusterId < d) (hmark : d ≠ 0xFFFF)
    (found : Nat) :
    Yields NotExhausted
      (fun s' => Behind clusters s' ∧ s'.1.size - s'.1.idx < g.fs.bytesPerCluster)
      (searchRound order (g, found)) := by
  rw [searchRound, hrecord]
  refine (read_yields
    (f := { g with fs := fs', size := g.size + g.fs.bytesPerCluster })
    (show 0 < fs'.bytesPerCluster by rw [hext.bytesPerCluster]; exact hpos) hbacking
    (show g.idx ≤ g.size + g.fs.bytesPerCluster by omega)).bind ?_
  rintro ⟨record, f'⟩ ⟨hf', hle'⟩
  dsimp only at hf' hle' ⊢
  subst hf'
  split
  · exact fun he => by cases he
  · rename_i marker record
    refine ⟨⟨hext.valid, ⟨d, c, rest, hext.chain_above hchain (List.cons_ne_nil c rest) hd, hmark,
      hbacking, ?_⟩, hle'⟩, ?_⟩
    · change (rest.length + 1) * fs'.bytesPerCluster < g.idx + (record.length + 1)
      rw [hext.bytesPerCluster, ← hidx]
      omega
    · change g.size + g.fs.bytesPerCluster - (g.idx + (record.length + 1)) < _
      omega

/-- At the end of the chain, the search appends a cluster or raises.  A cluster that is
too high for the chain is never written. -/
theorem Extending.extend
    {added : List Nat} {s : FakeFile × Nat} {m n : Nat}
    (horder : ∀ zones, (order zones).Perm zones)
    (h : Extending order n f clusters last chain added s m) (hfound : s.2 < n)
    (hend : s.1.idx = s.1.size)
    (hold : (f.fs.contents chain).length ≤ 32 * m) (hbytes : 32 ∣ f.fs.bytesPerCluster) :
    Yields NotExhausted (fun s' =>
      (∃ d, Extending order n f clusters last chain (added ++ [d]) s' (m + 1) ∧ s'.2 = s.2 + 1) ∨
        Behind clusters s' ∧ s'.1.size - s'.1.idx < f.fs.bytesPerCluster)
      (searchRound order s) := by
  obtain ⟨g, found⟩ := s
  obtain ⟨hv, ⟨hchain, hsize, c, hc, hbacking⟩, hb, hcontents, hspares, hidx, hle, hrun⟩ := h
  dsimp only at hv hchain hsize hbacking hb hcontents hspares hidx hle hrun hfound hend ⊢
  have hfull : (g.fs.contents (chain ++ added)).length = 32 * m := by
    rw [hchain.length_contents, ← hsize, ← hend, hidx]
  have hpos := hv.bytesPerCluster
  obtain ⟨rest, hcl⟩ : ∃ rest, chain ++ added = c :: rest := by
    cases hcl : chain ++ added with
    | nil => rw [hcl] at hc; cases hc
    | cons c' rest => rw [hcl] at hc; cases hc; exact ⟨rest, rfl⟩
  have hidx' : g.idx = (rest.length + 1) * g.fs.bytesPerCluster := by
    rw [hend, hsize, hcl, List.length_cons]
  rcases readRecord_end horder hv (hcl ▸ hchain) hbacking hidx' hend with
    ⟨raised, hraised, hread⟩ | ⟨rfl, d, fs', hrecord, hfirst, hext⟩
  · rw [searchRound, hread]
    exact hraised
  · have habove := searchRound_above hpos (hcl ▸ hchain) hbacking hidx' hend hrecord hext
    rw [← hcl] at hext
    have hcl' : chain ++ (added ++ [d]) = c :: (rest ++ [d]) := by
      rw [← List.append_assoc, hcl, List.cons_append]
    have hcontents' : fs'.contents (chain ++ (added ++ [d])) = f.fs.contents chain ++
        List.replicate ((added ++ [d]).length * f.fs.bytesPerCluster) 0 := by
      rw [← List.append_assoc, hext.contents_concat, hcontents, List.append_assoc, hb,
        List.replicate_append_replicate, List.length_append, List.length_singleton, Nat.succ_mul]
    have hb32 := Nat.le_of_dvd (hb ▸ hpos) hbytes
    have hsize₂ : g.size + g.fs.bytesPerCluster =
        (chain ++ (added ++ [d])).length * fs'.bytesPerCluster := by
      rw [hext.bytesPerCluster, hcl', List.length_cons, List.length_append,
        List.length_singleton, Nat.succ_mul, ← hidx', hend]
    have hne' : chain ++ added ≠ [] := by
      rw [hcl]
      exact List.cons_ne_nil c rest
    obtain ⟨hmark, hnext⟩ := (hspares rfl).next hrun hfound hfull hfirst
    by_cases hd : d ≤ maxClusterId
    · have hchain' : Chain fs' 0xFFFF (chain ++ (added ++ [d])) := by
        rw [← List.append_assoc]
        exact hext.chain hchain hne' hd
      have hopen' : (Directory.chain 0xFFFF (chain ++ (added ++ [d]))).Opened
          { g with fs := fs', size := g.size + g.fs.bytesPerCluster } :=
        ⟨hchain', hsize₂, c, by rw [hcl']; rfl, hbacking⟩
      have hlength := hchain'.length_contents
      rw [← hsize₂] at hlength
      have hread₂ := read_chain hext.valid hopen' (n := 32)
        (show g.idx + 32 ≤ g.size + g.fs.bytesPerCluster by omega)
      have hrecord₂ : readRecord order g =
          .ok (recordAt (fs'.contents (chain ++ (added ++ [d]))) m, { g with
            fs := fs', idx := g.idx + 32, size := g.size + g.fs.bytesPerCluster }) := by
        rw [hrecord, hread₂, recordAt, ← hidx]
      have hround := searchRound_record found hrecord₂ (by omega)
      have hzero : FreeRecord (fs'.contents (chain ++ (added ++ [d]))) m := by
        rw [hcontents'] at hlength ⊢
        exact freeRecord_zeros hold (by omega)
      rw [hround, if_pos hzero]
      obtain ⟨k, hk, hspared⟩ := hnext hd
      refine Or.inl ⟨d, ⟨hext.valid, hopen', hext.bytesPerCluster.trans hb, hcontents',
        fun _ => ?_, ?_, ?_, ?_⟩, rfl⟩
      · obtain ⟨b, hb'⟩ := hbytes
        rw [← hext.freeClusters hchain hne'] at hspared
        rw [← List.append_assoc, hext.contents_concat, hb, hb']
        rw [hb, hb'] at hk
        exact SparesMark.append hrun hfull ((hext.bytesPerCluster.trans hb).trans hb') hk hspared _
      · change g.idx + 32 = 32 * (m + 1)
        omega
      · change g.idx + 32 ≤ g.size + g.fs.bytesPerCluster
        omega
      · have hrun' := (hrun.append hfull.ge (List.replicate g.fs.bytesPerCluster 0)).succ
        rw [← hext.contents_concat, List.append_assoc, if_pos hzero] at hrun'
        exact hrun'
    · exact (habove (Nat.lt_of_not_le hd) hmark found).mono fun s' h' => Or.inr (hb ▸ h')

end Chains

section Iff

variable {f : FakeFile} {order : List Zone → List Zone} {clusters : Nat} {d : Dentry}

end Iff

end Fat16Copy
end AndroidBuild
