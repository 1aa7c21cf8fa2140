import AndroidBuild.Fat16Copy.Chains

/-!
# Writing behind the end of a chain

`write_file` extends a chain whose end mark is `0xFFFF` by a free cluster, and
does not write behind any other end mark.
-/

namespace AndroidBuild
namespace Fat16Copy

open Bytes ByteFile

section Linked

variable {fs fs' : Fat} {last last' : Nat}

theorem Linked.relast
    {chain : List Nat} {x : Nat} (h : Linked fs last chain) (hnodup : chain.Nodup)
    (hx : chain.getLast? = some x) (hentry : fs'.entry x = last')
    (hother : ∀ d ∈ chain, d ≠ x → fs'.entry d = fs.entry d) :
    Linked fs' last' chain := by
  induction chain with
  | nil => trivial
  | cons c rest ih =>
      rw [List.nodup_cons] at hnodup
      rw [List.forall_mem_cons] at hother
      cases rest with
      | nil =>
          cases hx
          exact ⟨hentry, trivial⟩
      | cons d rest =>
          rw [List.getLast?_cons_cons] at hx
          have hne : c ≠ x := by
            rintro rfl
            exact hnodup.1 (List.mem_of_getLast? hx)
          exact ⟨(hother.1 hne).trans h.1, ih h.2 hnodup.2 hx hother.2⟩

theorem Linked.entry_getLast
    {chain : List Nat} {x : Nat} (h : Linked fs last chain) (hx : chain.getLast? = some x) :
    fs.entry x = last := by
  induction chain with
  | nil => cases hx
  | cons c rest ih =>
      cases rest with
      | nil =>
          cases hx
          exact h.1
      | cons d rest =>
          rw [List.getLast?_cons_cons] at hx
          exact ih h.2 hx

theorem Chain.entry_ne_zero
    {chain : List Nat} (h : Chain fs last chain) {c : Nat} (hc : c ∈ chain) :
    fs.entry c ≠ 0 := by
  induction chain with
  | nil => cases hc
  | cons d rest ih =>
      rcases List.mem_cons.mp hc with rfl | hc
      · have hlast := h.last_gt
        rw [h.linked.1]
        cases rest with
        | nil =>
            rw [List.head?_nil, Option.getD_none]
            omega
        | cons e rest =>
            have := h.ge e (by simp)
            rw [List.head?_cons, Option.getD_some]
            omega
      · exact ih h.tail hc

theorem linked_concat
    {chain : List Nat} {c : Nat} (h : Linked fs c chain) (hc : fs.entry c = last) :
    Linked fs last (chain ++ [c]) := by
  induction chain with
  | nil => exact ⟨hc, trivial⟩
  | cons d rest ih =>
      refine ⟨?_, ih h.2⟩
      rw [h.1]
      cases rest with
      | nil => rfl
      | cons e rest => rfl

end Linked

section Walk

variable {fs : Fat} {clusters last : Nat} (order : List Zone → List Zone)

/-- The loop of `write_file` passes the clusters in front of `start_byte`. -/
theorem writeClusters_walk
    (hv : Valid fs clusters) {c : Nat} {rest : List Nat} (h : Chain fs last (c :: rest))
    {startByte off : Nat} {data : List UInt8} (hdata : data ≠ [])
    (hoff : off + rest.length * fs.bytesPerCluster ≤ startByte) (fuel : Nat) :
    ∃ x, (c :: rest).getLast? = some x ∧
      writeClusters order startByte data (fuel + rest.length) fs c off =
        writeClusters order startByte data fuel fs x (off + rest.length * fs.bytesPerCluster) := by
  have hpos := List.length_pos_of_ne_nil hdata
  induction rest generalizing c off with
  | nil =>
      refine ⟨c, rfl, ?_⟩
      rw [List.length_nil, Nat.zero_mul]
      rfl
  | cons d rest ih =>
      rw [List.length_cons, Nat.succ_mul] at hoff
      obtain ⟨x, hx, hrun⟩ := ih h.tail (show off + fs.bytesPerCluster + _ ≤ startByte by omega)
      refine ⟨x, by rw [List.getLast?_cons_cons, hx], ?_⟩
      have hentry : fs.entry c = d := h.linked.1
      have hread := hv.readLeShort (h.table c List.mem_cons_self)
      rw [hentry] at hread
      have hd := h.ge d (by simp)
      rw [List.length_cons, ← Nat.add_assoc, writeClusters, if_neg (by omega)]
      simp only [if_neg (show ¬ off - startByte <
        min data.length (off + fs.bytesPerCluster - startByte) by omega)]
      rw [if_pos (by omega), hread]
      simp only [bind, Except.bind]
      rw [if_pos (h.le d (by simp)), if_neg (by omega), hrun, Nat.succ_mul]
      congr 1
      omega

theorem extendCluster_behind
    {c entry amount : Nat} (hread : fs.readLeShort (fatTableStart + c * 2) = .ok entry)
    (hentry : entry ≠ 0xFFFF) (hamount : 0 < amount) :
    extendCluster order fs c amount =
      .error (.assertionError "Extending from middle of chain") := by
  rw [extendCluster, if_neg hamount.ne']
  dsimp only
  rw [hread]
  simp only [bind, Except.bind]
  rw [if_pos hentry]

/-- Behind an end mark other than `0xFFFF` nothing is written. -/
theorem writeClusters_behind
    (hv : Valid fs clusters) (hlast : last ≠ 0xFFFF) {c : Nat} {rest : List Nat}
    (h : Chain fs last (c :: rest)) {startByte off : Nat} {data : List UInt8} (hdata : data ≠ [])
    (hoff : off + (rest.length + 1) * fs.bytesPerCluster < startByte + data.length) (fuel : Nat) :
    writeClusters order startByte data (fuel + rest.length + 1) fs c off =
      .error (.assertionError "Extending from middle of chain") := by
  have hpos := hv.bytesPerCluster
  have hge : ∀ e ∈ [c], 2 ≤ e := List.forall_mem_singleton.mpr (h.ge c List.mem_cons_self)
  induction rest generalizing fs c off with
  | nil =>
      rw [List.length_nil, Nat.zero_add, Nat.one_mul] at hoff
      obtain ⟨fs₁, hfs₁, hwritten, _⟩ :=
        writeCluster_spec hpos (h.inside c List.mem_cons_self)
          (show off < startByte + data.length by omega)
      have hentry : fs₁.entry c = last :=
        (hwritten.entries hge (h.table c List.mem_cons_self)).1.trans h.linked.1
      have hread := (hwritten.valid hv).readLeShort
        (show c < fs₁.fatSize / 2 by rw [hwritten.fatSize]; exact h.table c List.mem_cons_self)
      rw [hentry] at hread
      rw [writeClusters, if_neg (by omega)]
      simp only [hfs₁]
      rw [hwritten.bytesPerCluster, if_pos hoff, hread]
      simp only [bind, Except.bind]
      rw [if_neg (Nat.not_le_of_lt h.last_gt),
        extendCluster_behind order hread hlast (List.length_pos_of_ne_nil hdata)]
  | cons d rest ih =>
      rw [List.length_cons, Nat.succ_mul] at hoff
      obtain ⟨fs₁, hwritten, _, _, hnext⟩ :=
        writeClusters_step order hv h (show off < startByte + data.length by omega)
      have hchain₁ := hwritten.toChain hge h
      rw [List.length_cons, ← Nat.add_assoc, hnext d rest rfl (by omega)]
      refine ih (hwritten.valid hv) hchain₁.tail ?_ (by rw [hwritten.bytesPerCluster]; exact hpos)
        (List.forall_mem_singleton.mpr (hchain₁.ge d (by simp)))
      rw [hwritten.bytesPerCluster]
      omega

theorem writeFile_behind
    (hv : Valid fs clusters) (hlast : last ≠ 0xFFFF) {c : Nat} {rest : List Nat}
    (h : Chain fs last (c :: rest)) {startByte : Nat} {data : List UInt8} (hdata : data ≠ [])
    (hend : (rest.length + 1) * fs.bytesPerCluster < startByte + data.length) :
    writeFile order fs c startByte data =
      .error (.assertionError "Extending from middle of chain") := by
  have hle : (rest.length + 1) * 1 ≤ (rest.length + 1) * fs.bytesPerCluster :=
    Nat.mul_le_mul_left _ hv.bytesPerCluster
  obtain ⟨fuel, hfuel⟩ : ∃ fuel, startByte + data.length + 1 = fuel + rest.length + 1 :=
    ⟨startByte + data.length - rest.length, by omega⟩
  rw [writeFile, hfuel]
  exact writeClusters_behind order hv hlast h hdata (by omega) fuel

end Walk

section Extend

variable {fs fs' : Fat} {clusters : Nat} {order : List Zone → List Zone}

theorem Relinked.clusterStart
    {new : Nat → Option Nat} (h : Relinked fs fs' new) (c : Nat) :
    fs'.clusterStart c = fs.clusterStart c := by
  rw [Fat.clusterStart, Fat.clusterStart, h.dataStart, h.rootEntries, h.bytesPerCluster]

theorem Relinked.clusterData
    {new : Nat → Option Nat} (h : Relinked fs fs' new) {c : Nat} (hc : 2 ≤ c) :
    fs'.clusterData c = fs.clusterData c := by
  have hstart : fs.dataStart + fs.rootEntries * 32 ≤ fs.clusterStart c := clusterStart_ge hc
  have hslice : ∀ file : List UInt8, slice file (fs.clusterStart c) fs.bytesPerCluster =
      slice (file.drop fs.dataStart) (fs.clusterStart c - fs.dataStart) fs.bytesPerCluster := by
    intro file
    rw [slice, slice, List.drop_drop, Nat.add_sub_cancel' (by omega)]
  rw [Fat.clusterData, Fat.clusterData, h.clusterStart, h.bytesPerCluster, hslice, h.data,
    ← hslice]

theorem extendCluster_eq
    (hv : Valid fs clusters) (horder : ∀ zones, (order zones).Perm zones) {x : Nat}
    (hx : x < fs.fatSize / 2) (hentry : fs.entry x = 0xFFFF) :
    extendCluster order fs x fs.bytesPerCluster = .error .structError ∨
      ∃ c fs', extendCluster order fs x fs.bytesPerCluster = .ok (some c, fs') ∧
        c ∈ freeClusters fs ∧ (longestFirst order (freeClusters fs)).head? = some c ∧
        Relinked fs fs' (fun i => if i = x then some c else if i = c then some 0xFFFF else none)
    := by
  have hpos := hv.bytesPerCluster
  have hread := hv.readLeShort hx
  rw [hentry] at hread
  have hrun : extendCluster order fs x fs.bytesPerCluster = (do
      let r ← allocate order fs fs.bytesPerCluster
      r.1.elim (.error .structError) fun returnCluster =>
        pure (some returnCluster, r.2.writeClusterEntry (fatTableStart + x * 2) returnCluster)) :=
    by
    rw [extendCluster, if_neg hpos.ne']
    dsimp only
    rw [hread]
    change (allocate order fs fs.bytesPerCluster >>= _) = _
    refine bind_congr fun r => ?_
    cases r.1 <;> rfl
  rcases allocate_spec hv horder hpos with
    ⟨hnone, _⟩ | ⟨c, rest, fs₁, halloc, hnew, _, more, hmore⟩
  · left
    rw [hrun, hnone]
    rfl
  · right
    have hlength := hnew.length
    rw [List.length_cons, Nat.add_sub_assoc hpos, Nat.add_div_left _ hpos,
      Nat.div_eq_of_lt (Nat.sub_one_lt_of_lt hpos)] at hlength
    obtain rfl : rest = [] := List.eq_nil_of_length_eq_zero (by omega)
    have hfree := hnew.free c List.mem_cons_self
    have hlt := (mem_freeClusters.mp hfree).1.2
    have hentries := hv.entries
    have hlinked := relinked_writeClusterEntry (hv.relinked hnew.linked) (v := c)
      (show x < fs₁.fatSize / 2 by rw [hnew.linked.fatSize]; exact hx) (by omega)
    refine ⟨c, _, ?_, hfree, by rw [← hmore]; rfl, (hnew.linked.trans hlinked).congr ?_⟩
    · rw [hrun, halloc]
      rfl
    · intro i _
      by_cases hi : i = x
      · rw [if_pos hi, if_pos hi]
        rfl
      · rw [if_neg hi, if_neg hi]
        rfl

/-- `chain` has been extended by the cluster `c`, which is zero. -/
structure Extended (fs fs' : Fat) (clusters : Nat) (chain : List Nat) (c : Nat) : Prop where
  valid : Valid fs' clusters
  bytesPerCluster : fs'.bytesPerCluster = fs.bytesPerCluster
  fatSize : fs'.fatSize = fs.fatSize
  free : c ∈ freeClusters fs
  entry : ∀ x, chain.getLast? = some x → ∀ i < fs.fatSize / 2,
    fs'.entry i = if i = x then c else if i = c then 0xFFFF else fs.entry i
  inside : fs'.clusterStart c + fs'.bytesPerCluster ≤ fs'.file.length
  grown : ∀ d ∈ chain, fs'.clusterStart d + fs'.bytesPerCluster ≤ fs'.file.length
  contents : fs'.contents chain = fs.contents chain
  clusterData : fs'.clusterData c = List.replicate fs.bytesPerCluster 0

theorem Valid.writeAt
    (hv : Valid fs clusters) (p : Nat) (data : List UInt8) :
    Valid (fs.writeAt p data) clusters :=
  ⟨hv.bytesPerCluster, hv.even, hv.entries, hv.clusters_le, hv.table,
    hv.length.trans (le_length_write fs.file p data)⟩

/-- A cluster is written whole, perhaps behind the end of the image. -/
theorem writeAt_clusterStart
    (fs : Fat) {c : Nat} {data : List UInt8} (hc : 2 ≤ c) (hdata : data.length = fs.bytesPerCluster)
    (hpos : 0 < fs.bytesPerCluster) :
    (fs.writeAt (fs.clusterStart c) data).clusterData c = data ∧
      fs.clusterStart c + fs.bytesPerCluster ≤ (fs.writeAt (fs.clusterStart c) data).file.length ∧
      (∀ i, fatTableStart + i * 2 + 2 ≤ fs.dataStart → fs.dataStart ≤ fs.file.length →
        (fs.writeAt (fs.clusterStart c) data).entry i = fs.entry i) ∧
      ∀ d, 2 ≤ d → d ≠ c → fs.clusterStart d + fs.bytesPerCluster ≤ fs.file.length →
        (fs.writeAt (fs.clusterStart c) data).clusterData d = fs.clusterData d := by
  have hne : data ≠ [] := List.ne_nil_of_length_pos (by omega)
  have hstart : fs.dataStart + fs.rootEntries * 32 ≤ fs.clusterStart c := clusterStart_ge hc
  refine ⟨?_, ?_, ?_, ?_⟩
  · change slice (ByteFile.write fs.file (fs.clusterStart c) data) (fs.clusterStart c)
      fs.bytesPerCluster = data
    rw [← hdata]
    exact slice_write_self
  · change _ ≤ (ByteFile.write fs.file (fs.clusterStart c) data).length
    rw [length_write_of_ne hne, hdata]
    exact Nat.le_max_right _ _
  · intro i hi hlength
    change Bytes.toNat (slice (ByteFile.write fs.file (fs.clusterStart c) data) _ _) = _
    rw [slice_write_of_le (by omega) (by omega)]
    rfl
  · intro d hd hdc hinside
    change slice (ByteFile.write fs.file (fs.clusterStart c) data) (fs.clusterStart d)
      fs.bytesPerCluster = _
    rw [slice_write_of_le hinside (by rw [hdata]; exact clusterStart_disjoint hd hc hdc)]
    rfl

/-- `write_file` of a cluster of zeros at the end of a chain. -/
theorem writeFile_extend
    (hv : Valid fs clusters) (horder : ∀ zones, (order zones).Perm zones) {c : Nat}
    {rest : List Nat} (h : Chain fs 0xFFFF (c :: rest)) :
    writeFile order fs c ((rest.length + 1) * fs.bytesPerCluster)
        (List.replicate fs.bytesPerCluster 0) = .error .structError ∨
      ∃ d fs', writeFile order fs c ((rest.length + 1) * fs.bytesPerCluster)
          (List.replicate fs.bytesPerCluster 0) = .ok fs' ∧
        (longestFirst order (freeClusters fs)).head? = some d ∧
        Extended fs fs' clusters (c :: rest) d := by
  have hpos := hv.bytesPerCluster
  have hdata : (List.replicate fs.bytesPerCluster (0 : UInt8)).length = fs.bytesPerCluster :=
    List.length_replicate
  have hne : List.replicate fs.bytesPerCluster (0 : UInt8) ≠ [] :=
    List.ne_nil_of_length_pos (by omega)
  generalize hzeros : List.replicate fs.bytesPerCluster (0 : UInt8) = data at hdata hne ⊢
  have hend : (rest.length + 1) * fs.bytesPerCluster =
      rest.length * fs.bytesPerCluster + fs.bytesPerCluster := Nat.succ_mul _ _
  have hle : rest.length * 1 ≤ rest.length * fs.bytesPerCluster := Nat.mul_le_mul_left _ hpos
  obtain ⟨fuel, hfuel⟩ : ∃ fuel, (rest.length + 1) * fs.bytesPerCluster + data.length + 1 =
      fuel + 2 + rest.length :=
    ⟨(rest.length + 1) * fs.bytesPerCluster + data.length - (rest.length + 1), by omega⟩
  obtain ⟨x, hx, hwalk⟩ := writeClusters_walk order hv h hne
    (show 0 + rest.length * fs.bytesPerCluster ≤ (rest.length + 1) * fs.bytesPerCluster by omega)
    (fuel + 2)
  have hxmem : x ∈ c :: rest := List.mem_of_getLast? hx
  have hxtable := h.table x hxmem
  have hentry := h.linked.entry_getLast hx
  have hread := hv.readLeShort hxtable
  rw [hentry] at hread
  have hround : ∀ fuel, writeClusters order ((rest.length + 1) * fs.bytesPerCluster) data
      (fuel + 1) fs x (0 + rest.length * fs.bytesPerCluster) = (do
        let r ← extendCluster order fs x fs.bytesPerCluster
        r.1.elim (.error (.assertionError "Cannot write free cluster")) fun next =>
          if next = 0 then .error (.assertionError "Cannot write free cluster")
          else
            writeClusters order ((rest.length + 1) * fs.bytesPerCluster) data fuel r.2 next
              ((rest.length + 1) * fs.bytesPerCluster)) := by
    intro fuel
    have hoff : 0 + rest.length * fs.bytesPerCluster + fs.bytesPerCluster =
        (rest.length + 1) * fs.bytesPerCluster := by omega
    rw [writeClusters, if_neg (by omega)]
    simp only [hoff, Nat.sub_self, Nat.min_zero, Nat.not_lt_zero, if_false]
    rw [if_pos (by omega), hread, hdata]
    change (extendCluster order fs x fs.bytesPerCluster >>= _) = _
    refine bind_congr fun r => ?_
    cases r.1 <;> rfl
  rw [writeFile, hfuel, hwalk, hround]
  rcases extendCluster_eq hv horder hxtable hentry with
    herror | ⟨d, fs₁, hextend, hfree, hfirst, hlinked⟩
  · left
    rw [herror]
    rfl
  · right
    obtain ⟨⟨hd, hdtable⟩, hdfree⟩ := mem_freeClusters.mp hfree
    have hdmem : d ∉ c :: rest := by
      intro hmem
      exact h.entry_ne_zero hmem hdfree
    have hv₁ := hv.relinked hlinked
    have hbytes := hlinked.bytesPerCluster
    refine ⟨d, fs₁.writeAt (fs₁.clusterStart d) data, ?_, hfirst, ?_⟩
    · rw [hextend]
      simp only [bind, Except.bind, Option.elim_some]
      rw [if_neg (by omega), writeClusters, if_neg (by omega)]
      simp only [hbytes, Nat.sub_self, Nat.add_sub_cancel_left, Nat.add_zero, Nat.sub_zero]
      rw [hdata, Nat.min_self, if_pos hpos, if_neg (by change ¬ _ + fs₁.bytesPerCluster < _; omega),
        ← hdata, slice, List.drop_zero, List.take_length]
    · obtain ⟨hdata₁, hinside₁, hentries₁, hclusters₁⟩ :=
        writeAt_clusterStart fs₁ hd (hdata.trans hbytes.symm) (hbytes ▸ hpos)
      have hstart₁ := hv₁.dataStart_le
      refine ⟨hv₁.writeAt _ _, hbytes, hlinked.fatSize, hfree, ?_, ?_, ?_, ?_, ?_⟩
      · intro y hy i hi
        cases hy.symm.trans hx
        rw [hentries₁ i (by rw [Fat.dataStart, hlinked.fatSize]; omega) hstart₁,
          hlinked.entry i hi]
        split
        · rfl
        · split
          · rfl
          · rfl
      · exact hinside₁
      · intro e he
        have hinside := h.inside e he
        have hgrown := le_length_write fs₁.file (fs₁.clusterStart d) data
        rw [← hlinked.length, ← hlinked.clusterStart, ← hbytes] at hinside
        exact hinside.trans hgrown
      · refine List.flatMap_congr ?_
        intro e he
        have hinside := h.inside e he
        rw [← hlinked.length, ← hlinked.clusterStart, ← hbytes] at hinside
        rw [hclusters₁ e (h.ge e he) (by rintro rfl; exact hdmem he) hinside,
          hlinked.clusterData (h.ge e he)]
      · exact hdata₁.trans hzeros.symm

/-- The new cluster is taken from the free ones. -/
theorem Extended.freeClusters
    {chain : List Nat} {c : Nat} (h : Extended fs fs' clusters chain c)
    (hchain : Chain fs 0xFFFF chain) (hne : chain ≠ []) :
    Fat16Copy.freeClusters fs' = (Fat16Copy.freeClusters fs).erase c := by
  obtain ⟨⟨hge, _⟩, hfree⟩ := mem_freeClusters.mp h.free
  have hx := List.getLast?_eq_getLast_of_ne_nil hne
  have hnodup : (Fat16Copy.freeClusters fs).Nodup := List.Nodup.filter _ List.nodup_range'
  rw [hnodup.erase_eq_filter, Fat16Copy.freeClusters, Fat16Copy.freeClusters, List.filter_filter,
    h.fatSize]
  refine List.filter_congr fun i hi => ?_
  rw [List.mem_range'_1] at hi
  have hlast := hchain.entry_ne_zero (List.mem_of_getLast? hx)
  rw [h.entry _ hx i (by omega)]
  split
  · rename_i hix
    subst hix
    simp [hlast]
    omega
  · split
    · simp [*]
    · simp [*]

theorem Extended.chain
    {chain : List Nat} {c : Nat} (h : Extended fs fs' clusters chain c)
    (hchain : Chain fs 0xFFFF chain) (hne : chain ≠ []) (hc : c ≤ maxClusterId) :
    Chain fs' 0xFFFF (chain ++ [c]) := by
  obtain ⟨⟨hge, htable⟩, hfree⟩ := mem_freeClusters.mp h.free
  obtain ⟨x, hx⟩ : ∃ x, chain.getLast? = some x :=
    ⟨_, List.getLast?_eq_getLast_of_ne_nil hne⟩
  have hxmem := List.mem_of_getLast? hx
  have hmem : c ∉ chain := fun hmem => hchain.entry_ne_zero hmem hfree
  have hentry := h.entry x hx
  have hlinked : Linked fs' c chain := by
    refine hchain.linked.relast hchain.nodup hx ?_ ?_
    · rw [hentry x (hchain.table x hxmem), if_pos rfl]
    · intro d hd hdx
      rw [hentry d (hchain.table d hd), if_neg hdx, if_neg (by rintro rfl; exact hmem hd)]
  refine ⟨linked_concat hlinked ?_, hchain.last_gt, ?_, ?_, ?_, ?_, ?_⟩
  · rw [hentry c htable, if_neg (by rintro rfl; exact hmem hxmem), if_pos rfl]
  · exact List.nodup_append.mpr ⟨hchain.nodup, List.nodup_singleton c, by
      intro a ha b hb
      rw [List.mem_singleton.mp hb]
      rintro rfl
      exact hmem ha⟩
  · exact List.forall_mem_append.mpr ⟨hchain.ge, List.forall_mem_singleton.mpr hge⟩
  · exact List.forall_mem_append.mpr ⟨hchain.le, List.forall_mem_singleton.mpr hc⟩
  · rw [h.fatSize]
    exact List.forall_mem_append.mpr ⟨hchain.table, List.forall_mem_singleton.mpr htable⟩
  · exact List.forall_mem_append.mpr ⟨h.grown, List.forall_mem_singleton.mpr h.inside⟩

/-- A new cluster above `MAX_CLUSTER_ID` becomes the end mark of the old chain. -/
theorem Extended.chain_above
    {chain : List Nat} {c : Nat} (h : Extended fs fs' clusters chain c)
    (hchain : Chain fs 0xFFFF chain) (hne : chain ≠ []) (hc : maxClusterId < c) :
    Chain fs' c chain := by
  obtain ⟨x, hx⟩ : ∃ x, chain.getLast? = some x :=
    ⟨_, List.getLast?_eq_getLast_of_ne_nil hne⟩
  have hxmem := List.mem_of_getLast? hx
  have hle := hchain.le
  refine ⟨?_, hc, hchain.nodup, hchain.ge, hchain.le, ?_, h.grown⟩
  · refine hchain.linked.relast hchain.nodup hx ?_ ?_
    · rw [h.entry x hx x (hchain.table x hxmem), if_pos rfl]
    · intro d hd hdx
      have hdle := hle d hd
      rw [h.entry x hx d (hchain.table d hd), if_neg hdx, if_neg (by omega)]
  · rw [h.fatSize]
    exact hchain.table

theorem Extended.contents_concat
    {chain : List Nat} {c : Nat} (h : Extended fs fs' clusters chain c) :
    fs'.contents (chain ++ [c]) =
      fs.contents chain ++ List.replicate fs.bytesPerCluster 0 := by
  rw [Fat.contents, List.flatMap_append, List.flatMap_singleton, h.clusterData]
  exact congrArg (· ++ _) h.contents

end Extend

section Read

variable {fs : Fat}

theorem readLeShort_yields (p : Nat) :
    Loop.Yields (· ≠ FatError.outOfFuel) (fun _ => True) (fs.readLeShort p) := by
  rw [Fat.readLeShort]
  split
  · trivial
  · exact FatError.noConfusion

theorem readClusters_yields
    (hpos : 0 < fs.bytesPerCluster) {fuel headCluster startByte size : Nat} (got : List UInt8)
    (hsize : 0 < size) (hfuel : startByte + size ≤ fuel) :
    Loop.Yields (· ≠ FatError.outOfFuel) (fun out => out.length ≤ got.length + size)
      (fs.readClusters fuel headCluster startByte size got) := by
  induction fuel generalizing headCluster startByte size got with
  | zero => omega
  | succ fuel ih =>
      rw [Fat.readClusters]
      generalize hnow : (if startByte + size > fs.bytesPerCluster then
        fs.bytesPerCluster - startByte else size) = sizeNow
      have hslice : (slice fs.file (fs.clusterStart headCluster + startByte) sizeNow).length ≤
          sizeNow := by
        rw [slice, List.length_take]
        exact Nat.min_le_left _ _
      by_cases hstart : startByte < fs.bytesPerCluster
      · simp only [if_pos hstart]
        by_cases hleft : size - sizeNow = 0
        · rw [if_pos ⟨hstart, hleft⟩]
          change (got ++ _).length ≤ _
          rw [List.length_append]
          split at hnow <;> omega
        · rw [if_neg (fun h => hleft h.2)]
          split
          · exact FatError.noConfusion
          · refine (readLeShort_yields _).bind ?_
            intro next _
            split
            · exact FatError.noConfusion
            · refine (ih _ (by omega) (by split at hnow <;> omega)).mono ?_
              intro out hout
              rw [List.length_append] at hout
              split at hnow <;> omega
      · simp only [if_neg hstart]
        rw [if_neg (fun h => absurd h.1 hstart)]
        split
        · exact FatError.noConfusion
        · refine (readLeShort_yields _).bind ?_
          intro next _
          split
          · exact FatError.noConfusion
          · exact ih got hsize (by omega)

end Read

end Fat16Copy
end AndroidBuild
