import AndroidBuild.SignApk.CopyFiles

/-!
# The alignment of stored entries

The running offset counts the code units of a name where the output has its
UTF-8 bytes.  So the data of an entry begins behind the predicted offset by the
bytes that the names up to this one have in excess of their code units, and it
is aligned iff this number is a multiple of the alignment.
-/

namespace AndroidBuild
namespace SignApk

open Text

section Names

theorem length_codeUnits_le
    (c : Char) :
    (codeUnits c).length ≤ c.utf8Size := by
  have hpos := c.utf8Size_pos
  unfold codeUnits
  split_ifs with h
  · exact hpos
  · have hsize : c.utf8Size = 4 := by
      rw [Char.utf8Size_eq_four_iff]
      rw [Char.toNat, not_lt] at h
      exact h
    rw [hsize, List.length_cons, List.length_singleton]
    decide

theorem length_utf8
    (s : Str) :
    (utf8 s).length = (s.map Char.utf8Size).sum := by
  rw [utf8, List.length_flatMap]
  simp only [String.length_utf8EncodeChar]

theorem javaLength_le
    (s : Str) :
    javaLength s ≤ (utf8 s).length := by
  rw [length_utf8, javaLength, utf16, List.length_flatMap]
  exact List.sum_le_sum fun c _ => length_codeUnits_le c

/-- The UTF-8 bytes of a name in excess of its code units. -/
def excess (name : Str) : Nat :=
  (utf8 name).length - javaLength name

theorem javaLength_add_excess
    (s : Str) :
    javaLength s + excess s = (utf8 s).length := by
  have := javaLength_le s
  unfold excess
  omega

def totalExcess (entries : List JarEntry) : Nat :=
  (entries.map fun e => excess e.name).sum

theorem totalExcess_concat
    (entries : List JarEntry) (e : JarEntry) :
    totalExcess (entries ++ [e]) = totalExcess entries + excess e.name := by
  simp [totalExcess]

end Names

section Padding

/-- The data behind a field of the predicted size is aligned. -/
theorem dvd_padding
    {alignment : Nat} (h : 0 < alignment) (offset : Nat) :
    alignment ∣ offset + alignmentMinSize + extraPaddingSizeBytes offset alignment := by
  rw [extraPaddingSizeBytes, if_pos h, Nat.dvd_iff_mod_eq_zero, Nat.add_mod, Nat.mod_mod,
    ← Nat.add_mod]
  have hlt := Nat.mod_lt (offset + alignmentMinSize) h
  have hdiv := Nat.div_add_mod (offset + alignmentMinSize) alignment
  have hsum : offset + alignmentMinSize +
      (alignment - (offset + alignmentMinSize) % alignment) =
      alignment * ((offset + alignmentMinSize) / alignment + 1) := by
    rw [Nat.mul_add]
    omega
  rw [hsum, Nat.mul_mod_right]

theorem extraPaddingSizeBytes_lt
    {alignment : Nat} (h : 0 < alignment) (offset : Nat) :
    extraPaddingSizeBytes offset alignment < alignment := by
  rw [extraPaddingSizeBytes, if_pos h]
  exact Nat.mod_lt _ h

theorem length_alignmentExtra
    (padding alignment : Nat) :
    (alignmentExtra padding alignment).length = alignmentMinSize + padding := by
  simp [alignmentExtra, alignmentMinSize]
  omega

theorem getStoredEntryDataAlignment_bounds
    {defaultAlignment : Int} (hpos : 1 ≤ defaultAlignment) (hle : defaultAlignment ≤ 32768)
    (name : Str) :
    0 < getStoredEntryDataAlignment name defaultAlignment ∧
      getStoredEntryDataAlignment name defaultAlignment ≤ 32768 := by
  unfold getStoredEntryDataAlignment
  split_ifs <;> omega

/-- A field of `padding` zeros for the given alignment begins at `p`. -/
structure AlignmentField (bytes : List UInt8) (p padding alignment : Nat) : Prop where
  id : Bytes.toNat (Bytes.slice bytes p 2) = 0xd935
  size : Bytes.toNat (Bytes.slice bytes (p + 2) 2) = 2 + padding
  alignment : Bytes.toNat (Bytes.slice bytes (p + 4) 2) = alignment
  zeros : Bytes.slice bytes (p + 6) padding = List.replicate padding 0

theorem alignmentField_of_slice
    {bytes : List UInt8} {p padding alignment : Nat} (hpadding : padding < 32768)
    (halignment : alignment ≤ 32768)
    (h : Bytes.slice bytes p (alignmentMinSize + padding) = alignmentExtra padding alignment) :
    AlignmentField bytes p padding alignment := by
  have hpart : ∀ {q n}, q + n ≤ 6 + padding →
      Bytes.slice bytes (p + q) n = Bytes.slice (alignmentExtra padding alignment) q n := by
    intro q n hqn
    rw [← h]
    exact (Bytes.slice_slice bytes p hqn).symm
  have hid : Bytes.slice (alignmentExtra padding alignment) 0 2 = Bytes.ofNat 2 0xd935 :=
    Bytes.slice_mid (a := [])
      (c := Bytes.ofNat 2 (2 + padding) ++ Bytes.ofNat 2 alignment ++ List.replicate padding 0)
      (by simp [alignmentExtra]) rfl (by simp)
  have hsize : Bytes.slice (alignmentExtra padding alignment) 2 2 =
      Bytes.ofNat 2 (2 + padding) :=
    Bytes.slice_mid (a := Bytes.ofNat 2 0xd935)
      (c := Bytes.ofNat 2 alignment ++ List.replicate padding 0)
      (by simp [alignmentExtra]) (by simp) (by simp)
  have hvalue : Bytes.slice (alignmentExtra padding alignment) 4 2 = Bytes.ofNat 2 alignment :=
    Bytes.slice_mid (a := Bytes.ofNat 2 0xd935 ++ Bytes.ofNat 2 (2 + padding))
      (c := List.replicate padding 0) (by simp [alignmentExtra]) (by simp) (by simp)
  have hzeros : Bytes.slice (alignmentExtra padding alignment) 6 padding =
      List.replicate padding 0 :=
    Bytes.slice_mid
      (a := Bytes.ofNat 2 0xd935 ++ Bytes.ofNat 2 (2 + padding) ++ Bytes.ofNat 2 alignment)
      (c := []) (by simp [alignmentExtra]) (by simp) (by simp)
  refine ⟨?_, ?_, ?_, ?_⟩
  · rw [← Nat.add_zero p, hpart (by omega), hid]
    exact Bytes.toNat_ofNat (by decide)
  · rw [hpart (by omega), hsize]
    exact Bytes.toNat_ofNat (by omega)
  · rw [hpart (by omega), hvalue]
    exact Bytes.toNat_ofNat (by omega)
  · rw [hpart (by omega), hzeros]

end Padding

section Loop

variable (lib : Library) (defaultAlignment : Int)

/-- The running offset is behind the bytes written by the excess of the names. -/
structure Counted (entries : List JarEntry) (s : CopyState) : Prop where
  firstEntry : s.out.firstEntry = s.firstEntry
  length_written : s.out.written.length = s.offset + totalExcess entries

/-- The predicted offset of the extra field. -/
def extraOffset (s : CopyState) (e : JarEntry) : Nat :=
  s.offset + lochdr + javaLength e.name + if s.firstEntry then 4 else 0

def alignmentOf (e : JarEntry) : Nat :=
  getStoredEntryDataAlignment e.name defaultAlignment

def paddingOf (s : CopyState) (e : JarEntry) : Nat :=
  extraPaddingSizeBytes (extraOffset s e) (alignmentOf defaultAlignment e)

/-- The bytes before the alignment field of the next entry. -/
def beforeExtra (s : CopyState) (e : JarEntry) : List UInt8 :=
  let magic := if s.out.firstEntry then jarMagic else []
  let extra := alignmentExtra (paddingOf defaultAlignment s e) (alignmentOf defaultAlignment e)
  s.out.written ++ lib.localHeader e (magic ++ extra) ++ utf8 e.name ++ magic

theorem written_copyStored
    (s : CopyState) (e : JarEntry) :
    (copyStored lib defaultAlignment s e).out.written =
      beforeExtra lib defaultAlignment s e ++
        (alignmentExtra (paddingOf defaultAlignment s e) (alignmentOf defaultAlignment e) ++
          e.data) := by
  cases hfirst : s.out.firstEntry <;>
    simp [copyStored, JarOutputStream.write, JarOutputStream.putNextEntry, beforeExtra, hfirst,
      paddingOf, extraOffset, alignmentOf]

theorem length_beforeExtra
    {entries : List JarEntry} {s : CopyState} (h : Counted entries s) (e : JarEntry) :
    (beforeExtra lib defaultAlignment s e).length =
      extraOffset s e + totalExcess (entries ++ [e]) := by
  have hname := javaLength_add_excess e.name
  have hwritten := h.length_written
  have hmagic : (if s.out.firstEntry then jarMagic else []).length =
      if s.firstEntry then 4 else 0 := by
    rw [h.firstEntry]
    split_ifs <;> rfl
  rw [totalExcess_concat, beforeExtra, List.length_append, List.length_append, List.length_append,
    lib.length_localHeader, hmagic]
  unfold extraOffset lochdr
  omega

theorem counted_copyStored
    {entries : List JarEntry} {s : CopyState} (h : Counted entries s) (e : JarEntry) :
    Counted (entries ++ [e]) (copyStored lib defaultAlignment s e) := by
  refine ⟨rfl, ?_⟩
  rw [written_copyStored, List.length_append, List.length_append, length_beforeExtra _ _ h]
  change _ = extraOffset s e + (alignmentExtra _ _).length + e.data.length + _
  unfold paddingOf alignmentOf extraOffset
  omega

theorem counted_foldl
    (front : List JarEntry) :
    Counted front (front.foldl (copyStored lib defaultAlignment) CopyState.init) := by
  induction front using List.reverseRecOn with
  | nil => exact ⟨rfl, rfl⟩
  | append_singleton front e ih =>
      rw [List.foldl_append, List.foldl_cons, List.foldl_nil]
      exact counted_copyStored lib defaultAlignment ih e

def place (s : CopyState) (e : JarEntry) : Placed :=
  ⟨e, s.out.written.length,
    (beforeExtra lib defaultAlignment s e ++
      alignmentExtra (paddingOf defaultAlignment s e) (alignmentOf defaultAlignment e)).length⟩

theorem placed_copyStored
    (s : CopyState) (e : JarEntry) :
    (copyStored lib defaultAlignment s e).placed = s.placed ++ [place lib defaultAlignment s e] := by
  cases hfirst : s.out.firstEntry <;>
    simp [copyStored, JarOutputStream.putNextEntry, place, beforeExtra, hfirst, paddingOf,
      extraOffset, alignmentOf]

theorem mem_placed_foldl
    (entries : List JarEntry) {p : Placed} :
    p ∈ (entries.foldl (copyStored lib defaultAlignment) CopyState.init).placed ↔
      ∃ front e back, entries = front ++ e :: back ∧
        p = place lib defaultAlignment
          (front.foldl (copyStored lib defaultAlignment) CopyState.init) e := by
  induction entries using List.reverseRecOn with
  | nil =>
      simp [CopyState.init]
  | append_singleton entries e ih =>
      rw [List.foldl_append, List.foldl_cons, List.foldl_nil, placed_copyStored, List.mem_append,
        List.mem_singleton, ih]
      constructor
      · rintro (⟨front, d, back, rfl, hp⟩ | hp)
        · exact ⟨front, d, back ++ [e], by simp, hp⟩
        · exact ⟨entries, e, [], rfl, hp⟩
      · rintro ⟨front, d, back, hsplit, hp⟩
        induction back using List.reverseRecOn with
        | nil =>
            obtain ⟨rfl, hlast⟩ := List.append_inj' hsplit rfl
            cases hlast
            exact Or.inr hp
        | append_singleton back c _ =>
            rw [← List.cons_append, ← List.append_assoc] at hsplit
            obtain ⟨rfl, _⟩ := List.append_inj' hsplit rfl
            exact Or.inl ⟨front, d, back, rfl, hp⟩

theorem entries_placed_foldl
    (entries : List JarEntry) :
    (entries.foldl (copyStored lib defaultAlignment) CopyState.init).placed.map Placed.entry =
      entries := by
  induction entries using List.reverseRecOn with
  | nil => rfl
  | append_singleton entries e ih =>
      rw [List.foldl_append, List.foldl_cons, List.foldl_nil, placed_copyStored, List.map_append,
        ih]
      rfl

end Loop

section Output

variable (lib : Library)

theorem written_foldl_copyStored
    (defaultAlignment : Int) (entries : List JarEntry) (s : CopyState) :
    s.out.written <+: (entries.foldl (copyStored lib defaultAlignment) s).out.written := by
  induction entries generalizing s with
  | nil => exact List.prefix_rfl
  | cons e entries ih =>
      refine List.IsPrefix.trans ?_ (ih (copyStored lib defaultAlignment s e))
      rw [written_copyStored, beforeExtra, List.append_assoc, List.append_assoc,
        List.append_assoc]
      exact List.prefix_append _ _

theorem written_putNextEntry_write
    (out : JarOutputStream) (e : JarEntry) (extra data : List UInt8) :
    out.written <+: ((out.putNextEntry lib e extra).write data).written := by
  rw [JarOutputStream.write, JarOutputStream.putNextEntry, List.append_assoc, List.append_assoc,
    List.append_assoc]
  exact List.prefix_append _ _

theorem written_foldl_copyCompressed
    (entries : List JarEntry) (s : JarOutputStream × List Placed) :
    s.1.written <+: (entries.foldl (copyCompressed lib) s).1.written := by
  induction entries generalizing s with
  | nil => exact List.prefix_rfl
  | cons e entries ih =>
      refine List.IsPrefix.trans ?_ (ih (copyCompressed lib s e))
      exact written_putNextEntry_write lib s.1 e [] _

theorem written_addPinByteRanges
    (out : JarOutputStream) (placed : List Placed) :
    out.written <+: (addPinByteRanges lib out placed).written := by
  unfold addPinByteRanges
  cases lib.pinByteRanges with
  | none => exact List.prefix_rfl
  | some encode => exact written_putNextEntry_write lib out _ [] _

/-- Nothing before the compressed entries changes any more. -/
theorem written_copyFiles
    (jar : JarFile) (defaultAlignment : Int) :
    (copyStoredEntries lib jar defaultAlignment).out.written <+:
      (copyFiles lib jar defaultAlignment).bytes := by
  refine List.IsPrefix.trans ?_ (written_addPinByteRanges lib _ _)
  exact written_foldl_copyCompressed lib _
    ((copyStoredEntries lib jar defaultAlignment).out, _)

/-- An entry's data right behind a field for its alignment. -/
structure WellPlaced (bytes : List UInt8) (defaultAlignment : Int) (p : Placed) : Prop where
  field : ∃ start padding, p.entryHeaderStart + lochdr + (utf8 p.entry.name).length ≤ start ∧
    AlignmentField bytes start padding
      (getStoredEntryDataAlignment p.entry.name defaultAlignment) ∧
    start + alignmentMinSize + padding = p.entryDataStart
  data : Bytes.slice bytes p.entryDataStart p.entry.data.length = p.entry.data

variable {defaultAlignment : Int}

theorem wellPlaced_place
    (hpos : 1 ≤ defaultAlignment) (hle : defaultAlignment ≤ 32768) {s : CopyState} {e : JarEntry}
    {bytes : List UInt8} (h : (copyStored lib defaultAlignment s e).out.written <+: bytes) :
    WellPlaced bytes defaultAlignment (place lib defaultAlignment s e) := by
  obtain ⟨rest, rfl⟩ := h
  obtain ⟨halignment, hmax⟩ := getStoredEntryDataAlignment_bounds hpos hle e.name
  have hpadding := extraPaddingSizeBytes_lt halignment (extraOffset s e)
  rw [written_copyStored]
  refine ⟨⟨(beforeExtra lib defaultAlignment s e).length, paddingOf defaultAlignment s e,
    ?_, ?_, ?_⟩, ?_⟩
  · change s.out.written.length + lochdr + (utf8 e.name).length ≤ _
    rw [beforeExtra, List.length_append, List.length_append, List.length_append,
      lib.length_localHeader]
    unfold lochdr
    omega
  · refine alignmentField_of_slice (hpadding.trans_le hmax) hmax ?_
    refine Bytes.slice_mid (c := e.data ++ rest) ?_ rfl (length_alignmentExtra _ _).symm
    rw [List.append_assoc, List.append_assoc]
    rfl
  · change _ = (beforeExtra lib defaultAlignment s e ++ _).length
    rw [List.length_append, length_alignmentExtra, Nat.add_assoc]
  · refine Bytes.slice_mid (c := rest)
      (a := beforeExtra lib defaultAlignment s e ++ alignmentExtra (paddingOf defaultAlignment s e)
        (alignmentOf defaultAlignment e)) ?_ rfl rfl
    rw [List.append_assoc, List.append_assoc, List.append_assoc]
    rfl

/-- An entry is aligned iff the excess of the names up to it is a multiple of its alignment. -/
theorem dvd_place_iff
    (hpos : 1 ≤ defaultAlignment) (hle : defaultAlignment ≤ 32768) {front : List JarEntry}
    {s : CopyState} (h : Counted front s) (e : JarEntry) :
    getStoredEntryDataAlignment e.name defaultAlignment ∣
        (place lib defaultAlignment s e).entryDataStart ↔
      getStoredEntryDataAlignment e.name defaultAlignment ∣ totalExcess (front ++ [e]) := by
  obtain ⟨halignment, _⟩ := getStoredEntryDataAlignment_bounds hpos hle e.name
  have hdvd := dvd_padding halignment (extraOffset s e)
  have hstart : (place lib defaultAlignment s e).entryDataStart =
      extraOffset s e + alignmentMinSize + paddingOf defaultAlignment s e +
        totalExcess (front ++ [e]) := by
    change (beforeExtra lib defaultAlignment s e ++ _).length = _
    rw [List.length_append, length_beforeExtra lib defaultAlignment h, length_alignmentExtra]
    omega
  rw [hstart]
  exact Nat.dvd_add_right hdvd

/-- The stored entries of the output, each behind its alignment field.  They are all aligned iff
for each the names up to it have an excess that its alignment divides. -/
theorem copyFiles_aligned_iff
    (jar : JarFile) (hpos : 1 ≤ defaultAlignment) (hle : defaultAlignment ≤ 32768) :
    let out := copyFiles lib jar defaultAlignment
    let stored := entriesToOutput lib jar true
    out.stored.map Placed.entry = stored ∧
      (∀ p ∈ out.stored, WellPlaced out.bytes defaultAlignment p) ∧
      ((∀ p ∈ out.stored, getStoredEntryDataAlignment p.entry.name defaultAlignment ∣
          p.entryDataStart) ↔
        ∀ front e back, stored = front ++ e :: back →
          getStoredEntryDataAlignment e.name defaultAlignment ∣ totalExcess (front ++ [e])) := by
  intro out stored
  have hmem : ∀ {p}, p ∈ out.stored ↔ ∃ front e back, stored = front ++ e :: back ∧
      p = place lib defaultAlignment
        (front.foldl (copyStored lib defaultAlignment) CopyState.init) e :=
    mem_placed_foldl lib defaultAlignment stored
  refine ⟨entries_placed_foldl lib defaultAlignment stored, ?_, ?_, ?_⟩
  · intro p hp
    obtain ⟨front, e, back, hsplit, rfl⟩ := hmem.mp hp
    refine wellPlaced_place lib hpos hle
      (List.IsPrefix.trans ?_ (written_copyFiles lib jar defaultAlignment))
    have hrun : copyStoredEntries lib jar defaultAlignment =
        back.foldl (copyStored lib defaultAlignment) (copyStored lib defaultAlignment
          (front.foldl (copyStored lib defaultAlignment) CopyState.init) e) := by
      change stored.foldl _ _ = _
      rw [hsplit, List.foldl_append, List.foldl_cons]
    rw [hrun]
    exact written_foldl_copyStored lib defaultAlignment back _
  · intro haligned front e back hsplit
    rw [← dvd_place_iff lib hpos hle (counted_foldl lib defaultAlignment front)]
    exact haligned _ (hmem.mpr ⟨front, e, back, hsplit, rfl⟩)
  · intro hexcess p hp
    obtain ⟨front, e, back, hsplit, rfl⟩ := hmem.mp hp
    exact (dvd_place_iff lib hpos hle (counted_foldl lib defaultAlignment front) e).mpr
      (hexcess front e back hsplit)

def plainLibrary : Library where
  localHeader _ _ := List.replicate 30 0
  length_localHeader _ _ := by simp
  compressed data := data
  ignored _ := false
  shouldOutputApkEntry _ := true
  pinByteRangeEntryName := []
  pinByteRanges := none

/-- A JAR with one stored entry. -/
def singleJar (name : Str) : JarFile :=
  ⟨[⟨name, .stored, [1]⟩], by simp⟩

/-- A JAR with two stored entries, whose first has an odd length. -/
def pairJar : JarFile :=
  ⟨[⟨['a', '.', 's', 'o'], .stored, [1]⟩, ⟨['b', 'c'], .stored, [1, 2]⟩], by simp⟩

/-- Entries with names in ASCII are aligned. -/
theorem copyFiles_aligned_ascii :
    (∀ p ∈ (copyFiles plainLibrary pairJar 4).stored,
      getStoredEntryDataAlignment p.entry.name 4 ∣ p.entryDataStart) ∧
    totalExcess pairJar.entries = 0 := by
  refine ⟨(copyFiles_aligned_iff plainLibrary pairJar (by decide) (by decide)).2.2.mpr ?_,
    by decide +kernel⟩
  intro front e back hsplit
  have hexcess : ∀ k < 3, totalExcess (pairJar.entries.take k) = 0 := by decide +kernel
  have hstored : entriesToOutput plainLibrary pairJar true = pairJar.entries := by rfl
  rw [hstored] at hsplit
  have hlength := congrArg List.length hsplit
  rw [List.length_append, List.length_cons] at hlength
  have htake : pairJar.entries.take (front.length + 1) = front ++ [e] := by
    rw [hsplit, List.take_length_add_append, List.take_succ_cons, List.take_zero]
  rw [← htake, hexcess _ (show front.length + 1 < 2 + 1 by rw [show 2 = _ from hlength]; omega)]
  exact dvd_zero _

/-- The name `é` has two bytes and one code unit. -/
theorem copyFiles_misaligned :
    ¬ ∀ p ∈ (copyFiles plainLibrary (singleJar ['é']) 4).stored,
      getStoredEntryDataAlignment p.entry.name 4 ∣ p.entryDataStart := by
  decide +kernel

end Output

end SignApk
end AndroidBuild
