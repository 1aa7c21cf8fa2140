import AndroidBuild.Fat16Copy.Chains

/-!
# When `allocate` is right

`allocate` takes every free entry of the table for a cluster.  The table may
have more entries than the image has clusters, and the walkers stop above
`MAX_CLUSTER_ID`, so a chain is right as long as the entries that the amount
takes, of the longest runs first, are below both bounds.
-/

namespace AndroidBuild
namespace Fat16Copy

open Bytes ByteFile

variable {fs fs' : Fat} {clusters : Nat} {order : List Zone → List Zone}

/-- `chain` is a new chain from `head` for `amount` bytes: free clusters inside
the image, linked in both tables up to the end, where nothing else has changed,
and followed by `get_chain_size`, `read_file` and `write_file`. -/
structure Allocated (order : List Zone → List Zone) (fs fs' : Fat) (clusters amount head : Nat)
    (chain : List Nat) : Prop where
  starts : chain.head? = some head
  length : chain.length = (amount + fs.bytesPerCluster - 1) / fs.bytesPerCluster
  nodup : chain.Nodup
  free : ∀ c ∈ chain, fs.entry c = 0
  inside : ∀ c ∈ chain, 2 ≤ c ∧ c < clusters + 2
  entry : ∀ i < fs.fatSize / 2, fs'.entry i = (nextOf chain i).getD (fs.entry i)
  entryCopy : ∀ i < fs.fatSize / 2, fs'.entryCopy i = (nextOf chain i).getD (fs.entryCopy i)
  size : ∃ fuel, fs'.getChainSize fuel head = .ok (chain.length * fs.bytesPerCluster)
  read : ∀ startByte size, startByte + size ≤ chain.length * fs.bytesPerCluster →
    fs'.readFile head startByte size = .ok (slice (fs'.contents chain) startByte size)
  write : ∀ startByte data, startByte + data.length ≤ chain.length * fs.bytesPerCluster →
    ∃ fs'', writeFile order fs' head startByte data = .ok fs'' ∧
      (∀ i < fs.fatSize / 2, fs''.entry i = fs'.entry i ∧ fs''.entryCopy i = fs'.entryCopy i) ∧
      fs''.contents chain = ByteFile.write (fs'.contents chain) startByte data

theorem nextOf_ne_zero
    {chain : List Nat} (hge : ∀ c ∈ chain, 2 ≤ c) {i : Nat} (hi : i ∈ chain) :
    (nextOf chain i).getD 0 ≠ 0 := by
  induction chain with
  | nil => cases hi
  | cons c rest ih =>
      rw [nextOf]
      split
      · cases rest with
        | nil => decide
        | cons d rest =>
            have hd := hge d (by simp)
            exact (Nat.lt_of_lt_of_le Nat.two_pos hd).ne'
      · rename_i hic
        exact ih (fun d hd => hge d (List.mem_cons_of_mem c hd))
          ((List.mem_cons.mp hi).resolve_left hic)

theorem nextOf_eq_none
    {chain : List Nat} {i : Nat} (hi : i ∉ chain) :
    nextOf chain i = none := by
  induction chain with
  | nil => rfl
  | cons c rest ih =>
      rw [List.mem_cons, not_or] at hi
      rw [nextOf, if_neg hi.1, ih hi.2]

theorem NewChain.entry_eq
    {amount : Nat} {chain : List Nat} (h : NewChain fs fs' amount chain) {c : Nat}
    (hc : c ∈ chain) :
    fs'.entry c = (nextOf chain c).getD 0 := by
  obtain ⟨⟨_, hlt⟩, hfree⟩ := mem_freeClusters.mp (h.free c hc)
  rw [h.linked.entry c hlt, hfree]

/-- A new chain can be followed if its clusters are inside the image and not too high. -/
theorem NewChain.chain
    (hv : Valid fs clusters) {amount : Nat} {chain : List Nat} (h : NewChain fs fs' amount chain)
    (hinside : ∀ c ∈ chain, c < clusters + 2 ∧ c ≤ maxClusterId) :
    Chain fs' 0xFFFF chain := by
  have hmem : ∀ c ∈ chain, (2 ≤ c ∧ c < fs.fatSize / 2) ∧ fs.entry c = 0 :=
    fun c hc => mem_freeClusters.mp (h.free c hc)
  refine ⟨linked_of_entries h.nodup (fun c hc => h.entry_eq hc), by decide, h.nodup,
    fun c hc => (hmem c hc).1.1, fun c hc => (hinside c hc).2, ?_, ?_⟩
  · intro c hc
    rw [h.linked.fatSize]
    exact (hmem c hc).1.2
  · intro c hc
    have hv' := (hv.relinked h.linked).length
    have hge := (hmem c hc).1.1
    have hlt := (hinside c hc).1
    have hlow : 2 * fs'.bytesPerCluster ≤ c * fs'.bytesPerCluster := Nat.mul_le_mul_right _ hge
    have hhigh : (c + 1) * fs'.bytesPerCluster ≤ (clusters + 2) * fs'.bytesPerCluster :=
      Nat.mul_le_mul_right _ hlt
    rw [Nat.succ_mul, Nat.add_mul] at hhigh
    rw [Fat.clusterStart]
    omega

theorem NewChain.allocated
    (hv : Valid fs clusters) {amount c : Nat} {rest : List Nat}
    (h : NewChain fs fs' amount (c :: rest))
    (hinside : ∀ d ∈ c :: rest, d < clusters + 2 ∧ d ≤ maxClusterId) :
    Allocated order fs fs' clusters amount c (c :: rest) := by
  have hchain := h.chain hv hinside
  have hv' := hv.relinked h.linked
  have hbytes := h.linked.bytesPerCluster
  refine ⟨rfl, h.length, h.nodup, fun d hd => (mem_freeClusters.mp (h.free d hd)).2,
    fun d hd => ⟨hchain.ge d hd, (hinside d hd).1⟩, h.linked.entry, h.linked.entryCopy, ?_, ?_, ?_⟩
  · refine ⟨rest.length + 2, ?_⟩
    rw [getChainSize_eq hv' hchain, hbytes]
    rfl
  · intro startByte size hend
    rw [← hbytes] at hend
    exact readFile_eq hv' hchain hend
  · intro startByte data hend
    rw [← hbytes] at hend
    obtain ⟨fs'', hrun, hwritten, hcontents⟩ := writeFile_eq order hv' hchain hend
    refine ⟨fs'', hrun, ?_, hcontents⟩
    intro i hi
    rw [← h.linked.fatSize] at hi
    exact hwritten.entries hchain.ge hi

theorem Allocated.mem
    {amount head : Nat} {chain taken : List Nat}
    (h : Allocated order fs fs' clusters amount head chain) (hnew : NewChain fs fs' amount taken)
    {i : Nat} (hi : i ∈ taken) :
    i ∈ chain := by
  by_contra hout
  obtain ⟨⟨_, hlt⟩, hfree⟩ := mem_freeClusters.mp (hnew.free i hi)
  have hentry := h.entry i hlt
  rw [nextOf_eq_none hout, Option.getD_none, hfree, hnew.entry_eq hi] at hentry
  exact nextOf_ne_zero (fun c hc => (mem_freeClusters.mp (hnew.free c hc)).1.1) hi hentry

/-- No cluster of a chain that can be followed is above `MAX_CLUSTER_ID`. -/
theorem Allocated.le_maxClusterId
    (hv : Valid fs clusters) {amount head : Nat} {chain taken : List Nat}
    (h : Allocated order fs fs' clusters amount head chain) (hnew : NewChain fs fs' amount taken)
    {i : Nat} (hi : i ∈ chain) :
    i ≤ maxClusterId := by
  by_contra hx
  have hx : maxClusterId < i := Nat.lt_of_not_le hx
  have hv' := hv.relinked hnew.linked
  have htable : ∀ d ∈ chain, d < fs.fatSize / 2 := by
    intro d hd
    have htable := hv.table
    have hlt := (h.inside d hd).2
    omega
  have hlinked : Linked fs' 0xFFFF chain := by
    refine linked_of_entries h.nodup fun d hd => ?_
    rw [h.entry d (htable d hd), h.free d hd]
  obtain ⟨front, back, rfl⟩ := List.append_of_mem hi
  obtain ⟨fuel, hsize⟩ := h.size
  have hhead := (h.inside head (List.mem_of_head? h.starts)).1
  rw [Fat.getChainSize, if_neg (by omega)] at hsize
  obtain ⟨n, hcount, hn⟩ := Loop.bind_eq_ok.mp hsize
  have hn := Except.ok.inj hn
  rw [hnew.linked.bytesPerCluster] at hn
  have hn := Nat.eq_of_mul_eq_mul_right hv.bytesPerCluster hn
  have hfront : ∀ d ∈ front, d < fs'.fatSize / 2 := by
    intro d hd
    rw [hnew.linked.fatSize]
    exact htable d (List.mem_append_left _ hd)
  have hle := countChain_le hv' hx hfront hlinked h.starts hcount
  rw [hn, List.length_append, List.length_cons] at hle
  omega

/-- `allocate` is right for an amount iff the free entries are too few for it, or those that it
takes, the longest runs first, are in the image and not above `MAX_CLUSTER_ID`. -/
theorem allocate_iff
    (hv : Valid fs clusters) (horder : ∀ zones, (order zones).Perm zones) {amount : Nat}
    (hamount : 0 < amount) :
    (∃ out fs', allocate order fs amount = .ok (out, fs') ∧
      (out = none ∧ fs' = fs ∨
        ∃ head chain, out = some head ∧ Allocated order fs fs' clusters amount head chain)) ↔
      (amount ≤ (freeClusters fs).length * fs.bytesPerCluster →
        ∀ i ∈ (longestFirst order (freeClusters fs)).take
          ((amount + fs.bytesPerCluster - 1) / fs.bytesPerCluster),
          i < clusters + 2 ∧ i ≤ maxClusterId) := by
  rcases allocate_spec hv horder hamount with
    ⟨halloc, hfew⟩ | ⟨c, rest, fs', halloc, hnew, henough, hprefix⟩
  · exact iff_of_true ⟨none, fs, halloc, Or.inl ⟨rfl, rfl⟩⟩ fun hle => by omega
  rw [← hnew.length, ← List.prefix_iff_eq_take.mp hprefix]
  constructor
  · rintro ⟨out, fs₁, halloc₁, hout⟩ _ i hi
    rw [halloc, Except.ok.injEq, Prod.mk.injEq] at halloc₁
    obtain ⟨rfl, rfl⟩ := halloc₁
    rcases hout with ⟨hnone, _⟩ | ⟨head, chain, _, h⟩
    · cases hnone
    have hmem := h.mem hnew hi
    exact ⟨(h.inside i hmem).2, h.le_maxClusterId hv hnew hmem⟩
  · intro hinside
    exact ⟨some c, fs', halloc, Or.inr ⟨c, c :: rest, rfl, hnew.allocated hv (hinside henough)⟩⟩

/-- An empty image with tables of one sector and no root directory, with `clusters`
clusters of one sector. -/
def emptyImage (clusters : Nat) : Fat where
  bytesPerCluster := 512
  rootEntries := 0
  fatSize := 512
  file := List.replicate (512 + 512 * 2 + clusters * 512) 0

theorem emptyImage_valid
    (clusters : Nat) (hclusters : clusters ≤ 254) :
    Valid (emptyImage clusters) clusters := by
  have heven : 512 % 2 = 0 := by omega
  have hentries : 512 / 2 ≤ 65536 := by omega
  refine ⟨Nat.succ_pos 511, heven, hentries, by omega, ?_, ?_⟩
  · change clusters + 2 ≤ 512 / 2
    omega
  · rw [emptyImage, List.length_replicate]
    change 0x200 + 512 * 2 + 0 * 32 + clusters * 512 ≤ _
    omega

theorem toNat_replicate (n : Nat) :
    Bytes.toNat (List.replicate n 0) = 0 := by
  induction n with
  | zero => rfl
  | succ n ih => rw [List.replicate_succ, Bytes.toNat, ih]; rfl

theorem emptyImage_entry (clusters i : Nat) :
    (emptyImage clusters).entry i = 0 := by
  rw [Fat.entry, slice, emptyImage, List.drop_replicate, List.take_replicate, toNat_replicate]

theorem emptyImage_freeClusters (clusters : Nat) :
    freeClusters (emptyImage clusters) = List.range' 2 254 := by
  rw [freeClusters, List.filter_eq_self.mpr fun i _ => decide_eq_true (emptyImage_entry clusters i)]
  exact congrArg (List.range' 2) (show 512 / 2 - 2 = 254 by omega)

/-- Two of four clusters are allocated, with free entries behind the clusters. -/
theorem allocate_inside :
    ∃ out fs', allocate id (emptyImage 4) 1000 = .ok (out, fs') ∧
      (out = none ∧ fs' = emptyImage 4 ∨
        ∃ head chain, out = some head ∧
          Allocated id (emptyImage 4) fs' 4 1000 head chain) := by
  refine (allocate_iff (emptyImage_valid 4 (by omega)) ?_ (by omega)).mpr ?_
  · exact fun zones => List.Perm.refl zones
  · intro _ i hi
    rw [emptyImage_freeClusters] at hi
    have hruns : longestFirst id (List.range' 2 254) = List.range' 2 254 := by decide +kernel
    rw [hruns] at hi
    change i ∈ [2, 3] at hi
    have hmax : maxClusterId = 0x7FFF := rfl
    rw [List.mem_pair] at hi
    omega

/-- Of four clusters, five are allocated. -/
theorem allocate_outside :
    ¬ ∃ out fs', allocate id (emptyImage 4) 2560 = .ok (out, fs') ∧
      (out = none ∧ fs' = emptyImage 4 ∨
        ∃ head chain, out = some head ∧
          Allocated id (emptyImage 4) fs' 4 2560 head chain) := by
  rintro ⟨out, fs', halloc, hout⟩
  have hfree : (freeClusters (emptyImage 4)).length = 254 := by
    rw [emptyImage_freeClusters, List.length_range']
  have hspec : allocate id (emptyImage 4) 2560 = .ok (none, emptyImage 4) ∧
        (freeClusters (emptyImage 4)).length * (emptyImage 4).bytesPerCluster < 2560 ∨
      ∃ c rest fs', allocate id (emptyImage 4) 2560 = .ok (some c, fs') ∧
        NewChain (emptyImage 4) fs' 2560 (c :: rest) ∧ _ :=
    allocate_spec (emptyImage_valid 4 (by omega)) (fun zones => List.Perm.refl zones) (by omega)
  rcases hspec with ⟨_, hlt⟩ | ⟨c, rest, fs₁, halloc₁, _⟩
  · rw [hfree] at hlt
    change 254 * 512 < 2560 at hlt
    omega
  · rw [halloc₁, Except.ok.injEq, Prod.mk.injEq] at halloc
    obtain ⟨rfl, rfl⟩ := halloc
    rcases hout with ⟨hnone, _⟩ | ⟨head, chain, _, h⟩
    · cases hnone
    · have hsub : chain ⊆ List.range' 2 4 := by
        intro d hd
        have hd := h.inside d hd
        rw [List.mem_range'_1]
        omega
      have hlength : chain.length = 5 := h.length
      have hle := (List.subperm_of_subset h.nodup hsub).length_le
      rw [hlength, List.length_range'] at hle
      omega

end Fat16Copy
end AndroidBuild
