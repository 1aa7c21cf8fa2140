import AndroidBuild.Fat16Copy.Allocate

/-!
# Following a chain

`get_chain_size`, `read_file` and `write_file` follow the entries of a chain,
as long as its clusters are not above `MAX_CLUSTER_ID`.
-/

namespace AndroidBuild
namespace Fat16Copy

open Bytes ByteFile

section Linked

variable {fs fs' : Fat} {clusters last : Nat}

/-- Each cluster has the next one in its entry, and the last has `last`. -/
def Linked (fs : Fat) (last : Nat) : List Nat → Prop
  | [] => True
  | c :: rest => fs.entry c = rest.head?.getD last ∧ Linked fs last rest

theorem linked_of_entries
    {chain : List Nat} (hnodup : chain.Nodup)
    (hentries : ∀ c ∈ chain, fs.entry c = (nextOf chain c).getD 0) :
    Linked fs 0xFFFF chain := by
  induction chain with
  | nil => trivial
  | cons c rest ih =>
      rw [List.nodup_cons] at hnodup
      rw [List.forall_mem_cons, nextOf, if_pos rfl] at hentries
      refine ⟨hentries.1, ih hnodup.2 ?_⟩
      intro d hd
      have hentry := hentries.2 d hd
      rw [nextOf, if_neg (by rintro rfl; exact hnodup.1 hd)] at hentry
      exact hentry

theorem Linked.congr
    {chain : List Nat} (h : Linked fs last chain)
    (hentries : ∀ c ∈ chain, fs'.entry c = fs.entry c) :
    Linked fs' last chain := by
  induction chain with
  | nil => trivial
  | cons c rest ih =>
      rw [List.forall_mem_cons] at hentries
      exact ⟨hentries.1.trans h.1, ih h.2 hentries.2⟩

/-- A chain that can be followed, up to the end mark `last`. -/
structure Chain (fs : Fat) (last : Nat) (chain : List Nat) : Prop where
  linked : Linked fs last chain
  last_gt : maxClusterId < last
  nodup : chain.Nodup
  ge : ∀ c ∈ chain, 2 ≤ c
  le : ∀ c ∈ chain, c ≤ maxClusterId
  table : ∀ c ∈ chain, c < fs.fatSize / 2
  inside : ∀ c ∈ chain, fs.clusterStart c + fs.bytesPerCluster ≤ fs.file.length

theorem Chain.tail
    {c : Nat} {rest : List Nat} (h : Chain fs last (c :: rest)) :
    Chain fs last rest :=
  ⟨h.linked.2, h.last_gt, (List.nodup_cons.mp h.nodup).2, fun d hd => h.ge d (List.mem_cons_of_mem _ hd),
    fun d hd => h.le d (List.mem_cons_of_mem _ hd),
    fun d hd => h.table d (List.mem_cons_of_mem _ hd),
    fun d hd => h.inside d (List.mem_cons_of_mem _ hd)⟩

def Fat.clusterData (fs : Fat) (c : Nat) : List UInt8 :=
  slice fs.file (fs.clusterStart c) fs.bytesPerCluster

def Fat.contents (fs : Fat) (chain : List Nat) : List UInt8 :=
  chain.flatMap fs.clusterData

theorem Chain.length_clusterData
    {chain : List Nat} (h : Chain fs last chain) {c : Nat} (hc : c ∈ chain) :
    (fs.clusterData c).length = fs.bytesPerCluster :=
  length_slice (h.inside c hc)

theorem Chain.length_contents
    {chain : List Nat} (h : Chain fs last chain) :
    (fs.contents chain).length = chain.length * fs.bytesPerCluster := by
  rw [Fat.contents, List.length_flatMap,
    List.map_congr_left (fun c hc => h.length_clusterData hc), List.map_const', List.sum_replicate,
    smul_eq_mul]

theorem contents_cons (c : Nat) (rest : List Nat) :
    fs.contents (c :: rest) = fs.clusterData c ++ fs.contents rest :=
  List.flatMap_cons

end Linked

section ChainSize

variable {fs : Fat} {clusters last : Nat}

theorem countChain_eq
    (hv : Valid fs clusters) {c : Nat} {rest : List Nat} (h : Chain fs last (c :: rest)) (count : Nat) :
    fs.countChain (rest.length + 2) c count = .ok (count + rest.length + 1) := by
  induction rest generalizing c count with
  | nil =>
      have hentry : fs.entry c = last := h.linked.1
      rw [List.length_nil, Fat.countChain, if_pos (h.le c List.mem_cons_self),
        hv.readLeShort (h.table c List.mem_cons_self), hentry]
      simp only [bind, Except.bind, Fat.countChain]
      rw [if_neg (Nat.not_le_of_lt h.last_gt)]
  | cons d rest ih =>
      have hentry : fs.entry c = d := h.linked.1
      rw [List.length_cons, Fat.countChain, if_pos (h.le c List.mem_cons_self),
        hv.readLeShort (h.table c List.mem_cons_self), hentry]
      refine (ih h.tail (count + 1)).trans ?_
      congr 1
      omega

theorem getChainSize_eq
    (hv : Valid fs clusters) {c : Nat} {rest : List Nat} (h : Chain fs last (c :: rest)) :
    fs.getChainSize (rest.length + 2) c = .ok ((rest.length + 1) * fs.bytesPerCluster) := by
  have hc := h.ge c List.mem_cons_self
  rw [Fat.getChainSize, if_neg (by omega), countChain_eq hv h]
  simp only [bind, Except.bind, Nat.zero_add]
  rfl

/-- A cluster above `MAX_CLUSTER_ID` ends the walk. -/
theorem countChain_le
    (hv : Valid fs clusters) {front back : List Nat} {x : Nat} (hx : maxClusterId < x)
    (htable : ∀ c ∈ front, c < fs.fatSize / 2) (hlinked : Linked fs last (front ++ x :: back))
    {head : Nat} (hhead : (front ++ x :: back).head? = some head) {fuel count n : Nat}
    (hcount : fs.countChain fuel head count = .ok n) :
    n ≤ count + front.length := by
  induction front generalizing head fuel count with
  | nil =>
      cases hhead
      cases fuel with
      | zero => cases hcount
      | succ fuel =>
          rw [Fat.countChain, if_neg (Nat.not_le_of_lt hx)] at hcount
          cases hcount
          exact Nat.le_refl _
  | cons c front ih =>
      cases hhead
      rw [List.forall_mem_cons] at htable
      cases fuel with
      | zero => cases hcount
      | succ fuel =>
          rw [Fat.countChain] at hcount
          split at hcount
          · obtain ⟨next, hnext⟩ : ∃ next, (front ++ x :: back).head? = some next := by
              cases front with
              | nil => exact ⟨x, rfl⟩
              | cons d front => exact ⟨d, rfl⟩
            have hentry : fs.entry c = next := by
              refine hlinked.1.trans ?_
              change ((front ++ x :: back).head?).getD last = next
              rw [hnext]
              rfl
            rw [hv.readLeShort htable.1, hentry] at hcount
            have hle := ih htable.2 hlinked.2 hnext hcount
            rw [List.length_cons]
            omega
          · cases hcount
            exact Nat.le_add_right _ _

end ChainSize

section Read

variable {fs : Fat} {clusters last : Nat}

theorem slice_append_left
    {a b : List UInt8} {p n : Nat} (h : p + n ≤ a.length) :
    slice (a ++ b) p n = slice a p n := by
  rw [slice, List.drop_append_of_le_length (by omega), List.take_append_of_le_length
    (by rw [List.length_drop]; omega)]
  rfl

theorem slice_append_right
    {a b : List UInt8} {p n : Nat} (h : a.length ≤ p) :
    slice (a ++ b) p n = slice b (p - a.length) n := by
  rw [slice, List.drop_append, List.drop_eq_nil_of_le h, List.nil_append]
  rfl

theorem slice_append_both
    {a b : List UInt8} {p n : Nat} (hp : p ≤ a.length) (hn : a.length ≤ p + n) :
    slice (a ++ b) p n = slice a p (a.length - p) ++ slice b 0 (n - (a.length - p)) := by
  rw [show n = (a.length - p) + (n - (a.length - p)) by omega, slice_add,
    slice_append_left (by omega), slice_append_right (by omega)]
  congr 2
  · omega
  · omega

theorem readClusters_eq
    (hv : Valid fs clusters) {c : Nat} {rest : List Nat} (h : Chain fs last (c :: rest))
    {startByte size : Nat} (hsize : 0 < size)
    (hend : startByte + size ≤ (rest.length + 1) * fs.bytesPerCluster) {fuel : Nat}
    (hfuel : startByte + size ≤ fuel) (got : List UInt8) :
    fs.readClusters fuel c startByte size got =
      .ok (got ++ slice (fs.contents (c :: rest)) startByte size) := by
  have hpos := hv.bytesPerCluster
  induction rest generalizing c startByte size fuel got with
  | nil =>
      obtain ⟨fuel, rfl⟩ : ∃ k, fuel = k + 1 := ⟨fuel - 1, by omega⟩
      rw [List.length_nil, Nat.zero_add, Nat.one_mul] at hend
      have hdata := h.length_clusterData List.mem_cons_self
      simp only [Fat.readClusters, if_neg (show ¬ startByte + size > fs.bytesPerCluster by omega),
        if_pos (show startByte < fs.bytesPerCluster by omega), Nat.sub_self, and_true]
      rw [contents_cons, slice_append_left (by omega), Fat.clusterData, slice_slice _ _ hend]
  | cons d rest ih =>
      obtain ⟨fuel, rfl⟩ : ∃ k, fuel = k + 1 := ⟨fuel - 1, by omega⟩
      have hdata := h.length_clusterData List.mem_cons_self
      have hentry : fs.entry c = d := h.linked.1
      have hd : d ≠ 0 := by
        have := h.ge d (by simp)
        omega
      have hread := hv.readLeShort (h.table c List.mem_cons_self)
      rw [hentry] at hread
      have hnotAbove : ¬ maxClusterId < c := Nat.not_lt_of_le (h.le c List.mem_cons_self)
      have hlength : (d :: rest).length + 1 = rest.length + 1 + 1 := rfl
      rw [hlength, Nat.succ_mul] at hend
      by_cases hstart : startByte < fs.bytesPerCluster
      · by_cases hinside : startByte + size ≤ fs.bytesPerCluster
        · simp only [Fat.readClusters,
            if_neg (show ¬ startByte + size > fs.bytesPerCluster by omega), if_pos hstart,
            Nat.sub_self, and_true]
          rw [contents_cons, slice_append_left (by omega), Fat.clusterData, slice_slice _ _ hinside]
        · have hleft : ¬ (startByte < fs.bytesPerCluster ∧
              size - (fs.bytesPerCluster - startByte) = 0) := by omega
          simp only [Fat.readClusters,
            if_pos (show startByte + size > fs.bytesPerCluster by omega), if_pos hstart,
            if_neg hleft, if_neg hnotAbove, hread, bind, Except.bind, if_neg hd]
          rw [ih h.tail (by omega) (by omega) (by omega), contents_cons c,
            slice_append_both (by omega) (by omega), hdata, List.append_assoc,
            Nat.sub_eq_zero_of_le hstart.le]
          congr 3
          rw [Fat.clusterData, slice_slice _ _ (by omega)]
      · have hleft : ¬ (startByte < fs.bytesPerCluster ∧ size = 0) := by omega
        simp only [Fat.readClusters, if_neg hstart, if_neg hleft, if_neg hnotAbove, hread, bind,
          Except.bind, if_neg hd]
        rw [ih h.tail hsize (by omega) (by omega), contents_cons c,
          slice_append_right (by omega), hdata]

theorem readFile_eq
    (hv : Valid fs clusters) {c : Nat} {rest : List Nat} (h : Chain fs last (c :: rest))
    {startByte size : Nat} (hend : startByte + size ≤ (rest.length + 1) * fs.bytesPerCluster) :
    fs.readFile c startByte size = .ok (slice (fs.contents (c :: rest)) startByte size) := by
  rw [Fat.readFile]
  by_cases hsize : size = 0
  · rw [if_pos hsize, hsize, slice, List.take_zero]
  · rw [if_neg hsize, readClusters_eq hv h (by omega) hend le_rfl, List.nil_append]

end Read

section Write

variable {fs fs' : Fat} {clusters last : Nat} {order : List Zone → List Zone}

/-- Only the bytes of the clusters in `chain` have changed. -/
structure Written (fs fs' : Fat) (chain : List Nat) : Prop where
  bytesPerCluster : fs'.bytesPerCluster = fs.bytesPerCluster
  rootEntries : fs'.rootEntries = fs.rootEntries
  fatSize : fs'.fatSize = fs.fatSize
  length : fs'.file.length = fs.file.length
  frame : ∀ p, (∀ c ∈ chain, p < fs.clusterStart c ∨
    fs.clusterStart c + fs.bytesPerCluster ≤ p) → fs'.file[p]? = fs.file[p]?

theorem clusterStart_ge
    {c : Nat} (hc : 2 ≤ c) :
    fs.dataStart + fs.rootEntries * 32 ≤ fs.clusterStart c := by
  have hle : 2 * fs.bytesPerCluster ≤ c * fs.bytesPerCluster := Nat.mul_le_mul_right _ hc
  rw [Fat.clusterStart]
  omega

theorem clusterStart_disjoint
    {c d : Nat} (hc : 2 ≤ c) (hd : 2 ≤ d) (hne : c ≠ d) :
    fs.clusterStart c + fs.bytesPerCluster ≤ fs.clusterStart d ∨
      fs.clusterStart d + fs.bytesPerCluster ≤ fs.clusterStart c := by
  have hc' : 2 * fs.bytesPerCluster ≤ c * fs.bytesPerCluster := Nat.mul_le_mul_right _ hc
  have hd' : 2 * fs.bytesPerCluster ≤ d * fs.bytesPerCluster := Nat.mul_le_mul_right _ hd
  rw [Fat.clusterStart, Fat.clusterStart]
  rcases Nat.lt_or_gt_of_ne hne with hlt | hlt
  · have hle : (c + 1) * fs.bytesPerCluster ≤ d * fs.bytesPerCluster :=
      Nat.mul_le_mul_right _ hlt
    rw [Nat.succ_mul] at hle
    omega
  · have hle : (d + 1) * fs.bytesPerCluster ≤ c * fs.bytesPerCluster :=
      Nat.mul_le_mul_right _ hlt
    rw [Nat.succ_mul] at hle
    omega

namespace Written

variable {chain : List Nat}

theorem refl (fs : Fat) (chain : List Nat) :
    Written fs fs chain :=
  ⟨rfl, rfl, rfl, rfl, fun _ _ => rfl⟩

theorem clusterStart
    (h : Written fs fs' chain) (c : Nat) :
    fs'.clusterStart c = fs.clusterStart c := by
  rw [Fat.clusterStart, Fat.clusterStart, Fat.dataStart, Fat.dataStart, h.fatSize, h.rootEntries,
    h.bytesPerCluster]

theorem trans
    {fs'' : Fat} {chain' : List Nat} (h : Written fs fs' chain) (h' : Written fs' fs'' chain') :
    Written fs fs'' (chain ++ chain') := by
  refine ⟨h'.bytesPerCluster.trans h.bytesPerCluster, h'.rootEntries.trans h.rootEntries,
    h'.fatSize.trans h.fatSize, h'.length.trans h.length, ?_⟩
  intro p hp
  rw [List.forall_mem_append] at hp
  rw [h'.frame p ?_, h.frame p hp.1]
  intro c hc
  rw [h.clusterStart, h.bytesPerCluster]
  exact hp.2 c hc

/-- The tables are in front of the clusters. -/
theorem entries
    (h : Written fs fs' chain) (hge : ∀ c ∈ chain, 2 ≤ c) {i : Nat} (hi : i < fs.fatSize / 2) :
    fs'.entry i = fs.entry i ∧ fs'.entryCopy i = fs.entryCopy i := by
  have hframe : ∀ p < fs.dataStart, fs'.file[p]? = fs.file[p]? := by
    intro p hp
    refine h.frame p ?_
    intro c hc
    have hstart : fs.dataStart + fs.rootEntries * 32 ≤ fs.clusterStart c :=
      clusterStart_ge (hge c hc)
    exact Or.inl (by omega)
  rw [Fat.dataStart] at hframe
  constructor
  · rw [Fat.entry, Fat.entry, slice_congr]
    intro k hk
    exact hframe _ (by omega)
  · rw [Fat.entryCopy, Fat.entryCopy, h.fatSize, slice_congr]
    intro k hk
    exact hframe _ (by omega)

theorem valid
    (h : Written fs fs' chain) (hv : Valid fs clusters) :
    Valid fs' clusters := by
  obtain ⟨hbytes, heven, hentries, hclusters, htable, hlength⟩ := hv
  refine ⟨?_, ?_, ?_, hclusters, ?_, ?_⟩
  · rw [h.bytesPerCluster]
    exact hbytes
  · rw [h.fatSize]
    exact heven
  · rw [h.fatSize]
    exact hentries
  · rw [h.fatSize]
    exact htable
  · rw [Fat.dataStart, h.fatSize, h.rootEntries, h.bytesPerCluster, h.length]
    exact hlength

theorem clusterData
    (h : Written fs fs' chain) (hge : ∀ c ∈ chain, 2 ≤ c) {d : Nat} (hd : 2 ≤ d)
    (hmem : d ∉ chain) :
    fs'.clusterData d = fs.clusterData d := by
  rw [Fat.clusterData, Fat.clusterData, h.clusterStart, h.bytesPerCluster]
  refine slice_congr ?_
  intro i hi
  refine h.frame _ ?_
  intro c hc
  have hdisjoint : fs.clusterStart c + fs.bytesPerCluster ≤ fs.clusterStart d ∨
      fs.clusterStart d + fs.bytesPerCluster ≤ fs.clusterStart c :=
    clusterStart_disjoint (hge c hc) hd (fun heq => hmem (heq ▸ hc))
  omega

theorem contents
    (h : Written fs fs' chain) (hge : ∀ c ∈ chain, 2 ≤ c) {other : List Nat}
    (hother : ∀ d ∈ other, 2 ≤ d ∧ d ∉ chain) :
    fs'.contents other = fs.contents other :=
  List.flatMap_congr fun d hd => h.clusterData hge (hother d hd).1 (hother d hd).2

theorem toChain
    (h : Written fs fs' chain) (hge : ∀ c ∈ chain, 2 ≤ c) {other : List Nat}
    (hother : Chain fs last other) :
    Chain fs' last other := by
  refine ⟨?_, hother.last_gt, hother.nodup, hother.ge, hother.le, ?_, ?_⟩
  · exact hother.linked.congr fun c hc => (h.entries hge (hother.table c hc)).1
  · intro c hc
    rw [h.fatSize]
    exact hother.table c hc
  · intro c hc
    rw [h.clusterStart, h.bytesPerCluster, h.length]
    exact hother.inside c hc

end Written

theorem writeCluster_spec
    (hpos : 0 < fs.bytesPerCluster) {c : Nat}
    (hinside : fs.clusterStart c + fs.bytesPerCluster ≤ fs.file.length) {startByte off : Nat}
    {data : List UInt8} (hoff : off < startByte + data.length) :
    ∃ fs₁, (if off - startByte < min data.length (off + fs.bytesPerCluster - startByte) then
          fs.writeAt (fs.clusterStart c + (startByte - off))
            (slice data (off - startByte)
              (min data.length (off + fs.bytesPerCluster - startByte) - (off - startByte)))
        else fs) = fs₁ ∧ Written fs fs₁ [c] ∧
      ∀ i < fs.bytesPerCluster, (fs₁.clusterData c)[i]? =
        if startByte ≤ off + i ∧ off + i < startByte + data.length then data[off + i - startByte]?
        else (fs.clusterData c)[i]? := by
  by_cases hwrite : off - startByte < min data.length (off + fs.bytesPerCluster - startByte)
  · rw [if_pos hwrite]
    generalize hpiece : slice data (off - startByte)
      (min data.length (off + fs.bytesPerCluster - startByte) - (off - startByte)) = piece
    have hlength : piece.length =
        min data.length (off + fs.bytesPerCluster - startByte) - (off - startByte) := by
      rw [← hpiece]
      exact length_slice (by omega)
    have hfits : fs.clusterStart c + (startByte - off) + piece.length ≤ fs.file.length := by omega
    refine ⟨_, rfl, ⟨rfl, rfl, rfl, length_write hfits, ?_⟩, ?_⟩
    · intro p hp
      have hp := hp c (List.mem_singleton_self c)
      rw [Fat.writeAt]
      dsimp only
      rw [getElem?_write hfits, if_neg (by omega)]
    · intro i hi
      rw [Fat.clusterData, Fat.clusterData, getElem?_slice, getElem?_slice]
      change (if i < fs.bytesPerCluster then
        (ByteFile.write fs.file (fs.clusterStart c + (startByte - off)) piece)[
          fs.clusterStart c + i]? else none) = _
      rw [if_pos hi, if_pos hi, getElem?_write hfits]
      by_cases hrange : startByte ≤ off + i ∧ off + i < startByte + data.length
      · rw [if_pos (by omega), if_pos hrange, ← hpiece, getElem?_slice, if_pos (by omega)]
        congr 1
        omega
      · rw [if_neg (by omega), if_neg hrange]
  · rw [if_neg hwrite]
    refine ⟨fs, rfl, Written.refl fs [c], ?_⟩
    intro i hi
    rw [if_neg (by omega)]

/-- The bytes of a chain after `data` has been written, `off` being the offset of the chain. -/
def Overwritten (startByte : Nat) (data : List UInt8) (off : Nat) (old new : List UInt8) : Prop :=
  ∀ i < old.length, new[i]? =
    if startByte ≤ off + i ∧ off + i < startByte + data.length then data[off + i - startByte]?
    else old[i]?

theorem Overwritten.append
    {startByte off : Nat} {data a a' b b' : List UInt8}
    (ha : Overwritten startByte data off a a')
    (hb : Overwritten startByte data (off + a.length) b b') (hlength : a'.length = a.length) :
    Overwritten startByte data off (a ++ b) (a' ++ b') := by
  intro i hi
  rw [List.length_append] at hi
  rw [List.getElem?_append, List.getElem?_append, hlength]
  by_cases hia : i < a.length
  · rw [if_pos hia, if_pos hia]
    exact ha i hia
  · rw [if_neg hia, if_neg hia, hb (i - a.length) (by omega),
      show off + a.length + (i - a.length) = off + i by omega]

theorem Overwritten.refl
    {startByte off : Nat} {data : List UInt8} (old : List UInt8)
    (hend : startByte + data.length ≤ off) :
    Overwritten startByte data off old old := by
  intro i _
  rw [if_neg (by omega)]

/-- One round of the loop of `write_file`. -/
theorem writeClusters_step
    (order : List Zone → List Zone) (hv : Valid fs clusters) {c : Nat} {rest : List Nat} (h : Chain fs last (c :: rest))
    {startByte off : Nat} {data : List UInt8} (hoff : off < startByte + data.length) :
    ∃ fs₁, Written fs fs₁ [c] ∧
      Overwritten startByte data off (fs.clusterData c) (fs₁.clusterData c) ∧
      (startByte + data.length ≤ off + fs.bytesPerCluster → ∀ fuel,
        writeClusters order startByte data (fuel + 1) fs c off = .ok fs₁) ∧
      ∀ d rest', rest = d :: rest' → off + fs.bytesPerCluster < startByte + data.length →
        ∀ fuel, writeClusters order startByte data (fuel + 1) fs c off =
          writeClusters order startByte data fuel fs₁ d (off + fs.bytesPerCluster) := by
  have hc := h.ge c List.mem_cons_self
  obtain ⟨fs₁, hfs₁, hwritten, hfirst⟩ :=
    writeCluster_spec hv.bytesPerCluster (h.inside c List.mem_cons_self) hoff
  have hge : ∀ e ∈ [c], 2 ≤ e := by
    intro e he
    rw [List.mem_singleton.mp he]
    exact hc
  refine ⟨fs₁, hwritten, ?_, ?_, ?_⟩
  · intro i hi
    rw [h.length_clusterData List.mem_cons_self] at hi
    exact hfirst i hi
  · intro hlast fuel
    rw [writeClusters, if_neg (Nat.not_le_of_lt hoff)]
    simp only [hfs₁]
    rw [if_neg (by rw [hwritten.bytesPerCluster]; omega)]
  · rintro d rest' rfl hmore fuel
    have hentry : fs₁.entry c = d :=
      (hwritten.entries hge (h.table c List.mem_cons_self)).1.trans h.linked.1
    have hd := h.ge d (by simp)
    have hread := (hwritten.valid hv).readLeShort
      (show c < fs₁.fatSize / 2 by rw [hwritten.fatSize]; exact h.table c List.mem_cons_self)
    rw [hentry] at hread
    rw [writeClusters, if_neg (Nat.not_le_of_lt hoff)]
    simp only [hfs₁]
    rw [hwritten.bytesPerCluster, if_pos hmore, hread]
    simp only [bind, Except.bind]
    rw [if_pos (h.le d (by simp)), if_neg (by omega)]

theorem writeClusters_eq
    (order : List Zone → List Zone) (hv : Valid fs clusters) {c : Nat} {rest : List Nat}
    (h : Chain fs last (c :: rest)) {startByte : Nat} (off : Nat) {data : List UInt8}
    (hend : startByte + data.length ≤ off + (rest.length + 1) * fs.bytesPerCluster) (fuel : Nat)
    (hfuel : startByte + data.length < off + (fuel + 1)) :
    ∃ fs', writeClusters order startByte data (fuel + 1) fs c off = .ok fs' ∧
      Written fs fs' (c :: rest) ∧
      Overwritten startByte data off (fs.contents (c :: rest)) (fs'.contents (c :: rest)) := by
  induction rest generalizing fs c off fuel with
  | nil =>
      by_cases hdone : startByte + data.length ≤ off
      · refine ⟨fs, ?_, Written.refl fs _, Overwritten.refl _ hdone⟩
        rw [writeClusters, if_pos hdone]
      obtain ⟨fs₁, hwritten, hcluster, hlast, _⟩ :=
        writeClusters_step order hv h (Nat.lt_of_not_le hdone)
      refine ⟨fs₁, hlast (by simpa using hend) fuel, hwritten, ?_⟩
      rw [contents_cons, contents_cons, Fat.contents, Fat.contents, List.flatMap_nil,
        List.flatMap_nil, List.append_nil, List.append_nil]
      exact hcluster
  | cons d rest ih =>
      by_cases hdone : startByte + data.length ≤ off
      · refine ⟨fs, ?_, Written.refl fs _, Overwritten.refl _ hdone⟩
        rw [writeClusters, if_pos hdone]
      obtain ⟨fs₁, hwritten, hcluster, hlast, hnext⟩ :=
        writeClusters_step order hv h (Nat.lt_of_not_le hdone)
      have hc : ∀ e ∈ [c], 2 ≤ e := by
        intro e he
        rw [List.mem_singleton.mp he]
        exact h.ge c List.mem_cons_self
      have hrest : ∀ e ∈ d :: rest, 2 ≤ e ∧ e ∉ [c] := by
        intro e he
        refine ⟨h.ge e (List.mem_cons_of_mem _ he), ?_⟩
        rw [List.mem_singleton]
        rintro rfl
        exact (List.nodup_cons.mp h.nodup).1 he
      have hchain₁ := hwritten.toChain hc h
      have hdata := h.length_clusterData List.mem_cons_self
      have hdata₁ := hchain₁.length_clusterData List.mem_cons_self
      rw [hwritten.bytesPerCluster] at hdata₁
      have hcontents : fs₁.contents (d :: rest) = fs.contents (d :: rest) :=
        hwritten.contents hc hrest
      by_cases hmore : off + fs.bytesPerCluster < startByte + data.length
      · obtain ⟨fuel, rfl⟩ : ∃ k, fuel = k + 1 := ⟨fuel - 1, by
          have := hv.bytesPerCluster
          omega⟩
        obtain ⟨fs', hrun, hwritten', hover⟩ := ih (hwritten.valid hv) hchain₁.tail
          (off + fs.bytesPerCluster)
          (by
            rw [hwritten.bytesPerCluster]
            rw [List.length_cons, Nat.succ_mul] at hend
            omega)
          fuel
          (by
            have := hv.bytesPerCluster
            omega)
        rw [hcontents] at hover
        have hsame : fs'.clusterData c = fs₁.clusterData c :=
          hwritten'.clusterData (fun e he => h.ge e (List.mem_cons_of_mem _ he))
            (h.ge c List.mem_cons_self) (List.nodup_cons.mp h.nodup).1
        refine ⟨fs', (hnext d rest rfl hmore _).trans hrun, hwritten.trans hwritten', ?_⟩
        rw [contents_cons c, contents_cons c, hsame]
        refine hcluster.append ?_ (hdata₁.trans hdata.symm)
        rw [hdata]
        exact hover
      · refine ⟨fs₁, hlast (Nat.le_of_not_lt hmore) fuel, ?_, ?_⟩
        · exact hwritten.trans (Written.refl fs₁ (d :: rest))
        · rw [contents_cons c, contents_cons c, hcontents]
          refine hcluster.append (Overwritten.refl _ ?_) (hdata₁.trans hdata.symm)
          rw [hdata]
          omega

theorem writeFile_eq
    (order : List Zone → List Zone) (hv : Valid fs clusters) {c : Nat} {rest : List Nat} (h : Chain fs last (c :: rest))
    {startByte : Nat} {data : List UInt8}
    (hend : startByte + data.length ≤ (rest.length + 1) * fs.bytesPerCluster) :
    ∃ fs', writeFile order fs c startByte data = .ok fs' ∧ Written fs fs' (c :: rest) ∧
      fs'.contents (c :: rest) = ByteFile.write (fs.contents (c :: rest)) startByte data := by
  obtain ⟨fs', hrun, hwritten, hover⟩ := writeClusters_eq order hv h 0
    (show startByte + data.length ≤ 0 + _ by omega) (startByte + data.length) (by omega)
  refine ⟨fs', hrun, hwritten, ?_⟩
  have hlength := h.length_contents
  have hlength' := (hwritten.toChain h.ge h).length_contents
  rw [List.length_cons] at hlength hlength'
  rw [hwritten.bytesPerCluster] at hlength'
  have hfits : startByte + data.length ≤ (fs.contents (c :: rest)).length := by omega
  refine List.ext_getElem? ?_
  intro i
  rw [getElem?_write hfits]
  by_cases hi : i < (fs.contents (c :: rest)).length
  · rw [hover i hi, Nat.zero_add]
  · rw [List.getElem?_eq_none (by omega), if_neg (by omega), List.getElem?_eq_none (by omega)]

end Write

end Fat16Copy
end AndroidBuild
