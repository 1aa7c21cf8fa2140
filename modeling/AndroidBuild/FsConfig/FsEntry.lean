import AndroidBuild.FsConfig.Generate

/-!
# Reading the binary output back

A record is read by its layout: the fixed header, the path up to its zero byte,
and the padding.  The records come back one for each entry; a field holds its
value when the value fits, and the mask of listed capabilities is right when
the repeated ones do not carry into it.
-/

namespace AndroidBuild
namespace FsConfig

open Text IntLiteral Bytes

section Records

/-- A record of the output, with the bytes it takes. -/
structure FsEntry where
  size : Nat
  length : Nat
  mode : Nat
  uid : Nat
  gid : Nat
  caps : Nat
  path : List UInt8
  deriving DecidableEq

/-- The size of a path with its zero byte, padded to 8 bytes. -/
def paddedLength (n : Nat) : Nat :=
  (n + 1 + 7) / 8 * 8

def readEntry (file : List UInt8) : Option (FsEntry × List UInt8) :=
  let path := (file.drop 16).takeWhile (fun b => b ≠ 0)
  let size := 16 + paddedLength path.length
  if size ≤ file.length then
    some
      ({ size := size
         length := toNat (slice file 0 2)
         mode := toNat (slice file 2 2)
         uid := toNat (slice file 4 2)
         gid := toNat (slice file 6 2)
         caps := toNat (slice file 8 8)
         path := path },
       file.drop size)
  else none

/-- The records of a file, at most `fuel` of them. -/
def readEntriesFrom : Nat → List UInt8 → Option (List FsEntry)
  | _, [] => some []
  | 0, _ :: _ => none
  | fuel + 1, b :: file =>
      (readEntry (b :: file)).bind (fun r => (readEntriesFrom fuel r.2).map (fun rs => r.1 :: rs))

def readEntries (file : List UInt8) : Option (List FsEntry) :=
  readEntriesFrom file.length file

end Records

section Capabilities

def repeated : List Nat → List Nat
  | [] => []
  | n :: ns => if n ∈ ns then n :: repeated ns else repeated ns

def powerSum (ns : List Nat) : Nat :=
  (ns.map (fun n => 2 ^ n)).sum

theorem powerSum_cons
    (n : Nat) (ns : List Nat) :
    powerSum (n :: ns) = 2 ^ n + powerSum ns := by
  simp [powerSum]

theorem powerSum_eq
    (ns : List Nat) :
    powerSum ns = powerSum ns.dedup + powerSum (repeated ns) := by
  induction ns with
  | nil => rfl
  | cons n ns ih =>
      rw [powerSum_cons, ih, repeated]
      split_ifs with h
      · rw [List.dedup_cons_of_mem h, powerSum_cons]
        omega
      · rw [List.dedup_cons_of_notMem h, powerSum_cons]
        omega

/-- The bits of a sum of distinct powers of two. -/
theorem testBit_powerSum
    {ns : List Nat} (h : ns.Nodup) (i : Nat) :
    (powerSum ns).testBit i = true ↔ i ∈ ns := by
  have hperm := ns.perm_insertionSort (fun a b => a ≤ b)
  have hsorted : (ns.insertionSort (fun a b => a ≤ b)).SortedLT :=
    ((ns.pairwise_insertionSort (fun a b => a ≤ b)).sortedLE).sortedLT_of_nodup
      (hperm.nodup_iff.mpr h)
  have hsum : powerSum ns = powerSum (ns.insertionSort (fun a b => a ≤ b)) :=
    ((hperm.map _).sum_eq).symm
  rw [hsum, ← Nat.mem_bitIndices]
  unfold powerSum
  rw [Nat.bitIndices_sum_map_two_pow hsorted, hperm.mem_iff]

/-- The lowest 64 bits of the sum are the bits of the numbers iff the numbers are below 64 and
the powers of the repeated ones add up to a multiple of `2 ^ 64`. -/
theorem testBit_mod_iff
    (ns : List Nat) :
    (∀ i, (powerSum ns % 2 ^ 64).testBit i = true ↔ i ∈ ns) ↔
      (∀ n ∈ ns, n < 64) ∧ 2 ^ 64 ∣ powerSum (repeated ns) := by
  have hbits : ∀ i, (powerSum ns.dedup).testBit i = true ↔ i ∈ ns := by
    intro i
    rw [testBit_powerSum ns.nodup_dedup, List.mem_dedup]
  have hsum := powerSum_eq ns
  have hlt : (∀ n ∈ ns, n < 64) → powerSum ns.dedup < 2 ^ 64 := by
    intro hall
    refine Nat.lt_pow_two_of_testBit _ ?_
    intro i hi
    by_contra hne
    have := hall i ((hbits i).mp (by simpa using hne))
    omega
  constructor
  · intro h
    have hall : ∀ n ∈ ns, n < 64 := by
      intro n hn
      by_contra hge
      have hbit := (h n).mpr hn
      rw [Nat.testBit_lt_two_pow] at hbit
      · cases hbit
      · exact (Nat.mod_lt _ (by positivity)).trans_le (Nat.pow_le_pow_right (by decide) (by omega))
    have heq : powerSum ns % 2 ^ 64 = powerSum ns.dedup := by
      refine Nat.eq_of_testBit_eq ?_
      intro i
      rw [Bool.eq_iff_iff, h, hbits]
    have := hlt hall
    exact ⟨hall, by omega⟩
  · rintro ⟨hall, hdvd⟩ i
    have := hlt hall
    have heq : powerSum ns % 2 ^ 64 = powerSum ns.dedup := by omega
    rw [heq, hbits]

end Capabilities

section Entries

variable {U : Unicode} (gen : FSConfigGen U)

def FSConfigGen.capNumbers (caps : List Str) : List Nat :=
  caps.filterMap (fun cap =>
    match gen.caps.get? cap with
    | some (.ofNat n) => some n
    | _ => none)

/-- The mask of a record says what the entry says about capabilities. -/
def DescribesCaps (caps : Str) (mask : Nat) : Prop :=
  match readInt U 0 caps with
  | some n => (mask : Int) = n
  | none =>
      ∀ i : Nat, mask.testBit i = true ↔
        ∃ cap ∈ partsFrom ',' [] caps, gen.caps.get? cap = some (i : Int)

/-- The record says what the entry says. -/
structure Describes (e : FSConfig) (r : FsEntry) : Prop where
  length : r.length = r.size
  aligned : 8 ∣ r.length
  mode : readInt U 8 e.mode = some (r.mode : Int)
  uid : ∃ aid, gen.remap e.user = .ok aid ∧ aid.uid = r.uid
  gid : ∃ aid, gen.remap e.group = .ok aid ∧ aid.uid = r.gid
  path : r.path.map (fun b => b.toNat) = e.path.map Char.toNat
  caps : DescribesCaps gen e.caps r.caps

/-- A number below a bound. -/
def Below (bound n : Int) : Prop :=
  0 ≤ n ∧ n < bound

/-- The capabilities of an entry fit the mask. -/
def FitsCaps (caps : Str) : Prop :=
  match readInt U 0 caps with
  | some n => Below (2 ^ 64) n
  | none =>
      (∀ n ∈ gen.capNumbers (partsFrom ',' [] caps), n < 64) ∧
        2 ^ 64 ∣ powerSum (repeated (gen.capNumbers (partsFrom ',' [] caps)))

/-- Every value of the entry fits its field. -/
structure Fits (e : FSConfig) : Prop where
  length : 16 + paddedLength e.path.length < 2 ^ 16
  mode : ∃ n, readInt U 8 e.mode = some n ∧ Below (2 ^ 16) n
  user : ∃ aid, gen.remap e.user = .ok aid ∧ Below (2 ^ 16) aid.uid
  group : ∃ aid, gen.remap e.group = .ok aid ∧ Below (2 ^ 16) aid.uid
  caps : FitsCaps gen e.caps

/-- A path of ASCII characters without a zero. -/
def AsciiPath (path : Str) : Prop :=
  ∀ c ∈ path, 0 < c.toNat ∧ c.toNat < 128

instance (path : Str) : Decidable (AsciiPath path) :=
  List.decidableBAll _ path

variable {gen}

/-- What an entry is written as. -/
theorem toFsEntry_eq_ok
    {e : FSConfig} {out : List UInt8} (h : gen.toFsEntry e = .ok out) :
    ∃ mode user group caps, readInt U 8 e.mode = some mode ∧ gen.remap e.user = .ok user ∧
      gen.remap e.group = .ok group ∧ gen.capsValue e.caps = .ok caps ∧
      (encode e.path).length ≤ paddedLength e.path.length ∧
      out = cUint 2 (16 + paddedLength e.path.length : Nat) ++ cUint 2 mode ++
        cUint 2 user.uid ++ cUint 2 group.uid ++ cUint 8 caps ++
        (encode e.path ++
          List.replicate (paddedLength e.path.length - (encode e.path).length) 0) := by
  unfold FSConfigGen.toFsEntry at h
  split at h
  · cases h
  · rename_i mode hmode
    simp only [Loop.bind_eq_ok] at h
    obtain ⟨user, huser, group, hgroup, caps, hcaps, path, hpath, hout⟩ := h
    unfold createStringBuffer at hpath
    split at hpath
    · rename_i hlen
      cases hpath
      cases hout
      exact ⟨mode, user, group, caps, hmode, huser, hgroup, hcaps, hlen, rfl⟩
    · cases hpath

theorem addCap_eq_ok
    {caps : OrderedDict Str Int} {v v' : Int} {cap : Str} :
    addCap caps v cap = .ok v' ↔ ∃ n : Nat, caps.get? cap = some (n : Int) ∧ v' = v + 2 ^ n := by
  unfold addCap
  cases caps.get? cap with
  | none => simp
  | some k =>
      cases k with
      | ofNat n =>
          simp only [Except.ok.injEq, Option.some.injEq]
          constructor
          · rintro rfl
            exact ⟨n, rfl, rfl⟩
          · rintro ⟨m, hm, rfl⟩
            rw [Int.ofNat.inj hm]
      | negSucc n => simp

theorem foldlM_addCap
    {parts : List Str} {v v' : Int} (h : parts.foldlM (addCap gen.caps) v = .ok v') :
    v' = v + powerSum (gen.capNumbers parts) := by
  induction parts generalizing v with
  | nil =>
      cases h
      simp [FSConfigGen.capNumbers, powerSum]
  | cons cap parts ih =>
      rw [List.foldlM_cons] at h
      obtain ⟨w, hw, h⟩ := Loop.bind_eq_ok.mp h
      obtain ⟨n, hn, rfl⟩ := addCap_eq_ok.mp hw
      have hnumbers : gen.capNumbers (cap :: parts) = n :: gen.capNumbers parts := by
        unfold FSConfigGen.capNumbers
        rw [List.filterMap_cons_some]
        rw [hn]
      rw [ih h, hnumbers, powerSum_cons]
      push_cast
      ring

theorem mem_capNumbers
    {parts : List Str} {i : Nat} :
    i ∈ gen.capNumbers parts ↔ ∃ cap ∈ parts, gen.caps.get? cap = some (i : Int) := by
  unfold FSConfigGen.capNumbers
  rw [List.mem_filterMap]
  refine exists_congr ?_
  intro cap
  refine and_congr_right ?_
  intro _
  cases gen.caps.get? cap with
  | none => simp
  | some k =>
      cases k with
      | ofNat n => simp
      | negSucc n => simp

theorem eq_field_iff
    (w : Nat) (n : Int) :
    (((n % 256 ^ w).toNat : Nat) : Int) = n ↔ Below (256 ^ w) n := by
  have hpos : (0 : Int) < 256 ^ w := by positivity
  have hnonneg := Int.emod_nonneg n hpos.ne'
  rw [Int.toNat_of_nonneg hnonneg]
  unfold Below
  constructor
  · intro h
    have hlt := Int.emod_lt_of_pos n hpos
    rw [h] at hnonneg hlt
    exact ⟨hnonneg, hlt⟩
  · rintro ⟨h, hlt⟩
    exact Int.emod_eq_of_lt h hlt

section Ascii

variable {path : Str}

theorem encode_eq_map
    (h : AsciiPath path) :
    encode path = path.map (fun c => UInt8.ofNat c.toNat) := by
  unfold encode
  induction path with
  | nil => rfl
  | cons c path ih =>
      unfold AsciiPath at h
      rw [List.forall_mem_cons] at h
      have hc : c.val.toNat ≤ 0x7f := by
        have := h.1.2
        change c.toNat ≤ 127
        omega
      rw [List.flatMap_cons, ih h.2, List.map_cons, String.utf8EncodeChar, if_pos hc]
      rfl

theorem map_toNat_encode
    (h : AsciiPath path) :
    (encode path).map (fun b => b.toNat) = path.map Char.toNat := by
  rw [encode_eq_map h, List.map_map]
  refine List.map_congr_left ?_
  intro c hc
  have := (h c hc).2
  rw [Function.comp_apply, UInt8.toNat_ofNat', Nat.mod_eq_of_lt (by omega)]

theorem length_encode
    (h : AsciiPath path) :
    (encode path).length = path.length := by
  rw [encode_eq_map h, List.length_map]

theorem ne_zero_of_mem_encode
    (h : AsciiPath path) {b : UInt8} (hb : b ∈ encode path) :
    b ≠ 0 := by
  rw [encode_eq_map h, List.mem_map] at hb
  obtain ⟨c, hc, rfl⟩ := hb
  obtain ⟨hpos, hlt⟩ := h c hc
  intro heq
  have hnat := congrArg UInt8.toNat heq
  rw [UInt8.toNat_ofNat', Nat.mod_eq_of_lt (by omega)] at hnat
  exact absurd hnat (by simpa using hpos.ne')

theorem lt_paddedLength
    (n : Nat) :
    n < paddedLength n := by
  unfold paddedLength
  omega

theorem takeWhile_path
    (h : AsciiPath path) (rest : List UInt8) :
    (encode path ++ List.replicate (paddedLength path.length - (encode path).length) 0 ++
      rest).takeWhile (fun b => b ≠ 0) = encode path := by
  have hpad : paddedLength path.length - (encode path).length =
      (paddedLength path.length - (encode path).length - 1) + 1 := by
    have := lt_paddedLength path.length
    rw [length_encode h]
    omega
  rw [hpad, List.replicate_succ, List.append_assoc, List.takeWhile_append_of_pos]
  · simp
  · intro b hb
    simpa using ne_zero_of_mem_encode h hb

end Ascii

def stored (e : FSConfig) (mode uid gid caps : Int) : FsEntry where
  size := 16 + paddedLength e.path.length
  length := (16 + paddedLength e.path.length) % 2 ^ 16
  mode := (mode % 256 ^ 2).toNat
  uid := (uid % 256 ^ 2).toNat
  gid := (gid % 256 ^ 2).toNat
  caps := (caps % 256 ^ 8).toNat
  path := encode e.path

def headerFields (length : Nat) (mode uid gid caps : Int) : List (Nat × Nat) :=
  [(2, length % 256 ^ 2), (2, (mode % 256 ^ 2).toNat), (2, (uid % 256 ^ 2).toNat),
    (2, (gid % 256 ^ 2).toNat), (8, (caps % 256 ^ 8).toNat)]

theorem fields_headerFields
    (length : Nat) (mode uid gid caps : Int) :
    cUint 2 length ++ cUint 2 mode ++ cUint 2 uid ++ cUint 2 gid ++ cUint 8 caps =
      fields (headerFields length mode uid gid caps) := by
  have hlength : (((length : Nat) : Int) % 256 ^ 2).toNat = length % 256 ^ 2 := by
    omega
  unfold cUint fields headerFields
  rw [hlength]
  simp

/-- The fields of the header are below their bounds. -/
theorem toNat_emod_lt
    (w : Nat) (n : Int) :
    (n % 256 ^ w).toNat < 256 ^ w := by
  have hpos : (0 : Int) < 256 ^ w := by positivity
  have hlt := Int.emod_lt_of_pos n hpos
  zify
  rw [Int.toNat_of_nonneg (Int.emod_nonneg n hpos.ne')]
  exact_mod_cast hlt

/-- An entry is read back as one record, whatever follows it. -/
theorem readEntry_toFsEntry
    {e : FSConfig} {out : List UInt8} (h : gen.toFsEntry e = .ok out) (hascii : AsciiPath e.path) :
    ∃ mode user group caps, readInt U 8 e.mode = some mode ∧ gen.remap e.user = .ok user ∧
      gen.remap e.group = .ok group ∧ gen.capsValue e.caps = .ok caps ∧
      ∀ rest, readEntry (out ++ rest) = some (stored e mode user.uid group.uid caps, rest) := by
  obtain ⟨mode, user, group, caps, hmode, huser, hgroup, hcaps, hlen, rfl⟩ := toFsEntry_eq_ok h
  refine ⟨mode, user, group, caps, hmode, huser, hgroup, hcaps, ?_⟩
  intro rest
  rw [fields_headerFields]
  set n := paddedLength e.path.length with hn
  set l := headerFields (16 + n) mode user.uid group.uid caps with hl
  set body := encode e.path ++ List.replicate (n - (encode e.path).length) 0 with hbody
  have hbodyLen : body.length = n := by
    rw [hbody, List.length_append, List.length_replicate]
    omega
  have hheader : (fields l).length = 16 := by
    rw [length_fields]
    rfl
  have hpath : (body ++ rest).takeWhile (fun b => b ≠ 0) = encode e.path := by
    rw [hbody, hn]
    exact takeWhile_path hascii rest
  have hfield : ∀ {i p w m : Nat}, l[i]? = some (w, m) → m < 256 ^ w →
      p = ((l.take i).map Prod.fst).sum → p + w ≤ 16 →
      toNat (slice (fields l ++ (body ++ rest)) p w) = m := by
    intro i p w m hi hm hp hle
    rw [slice_append_left (by omega), toNat_slice_fields l i p hi hm hp]
  rw [List.append_assoc]
  unfold readEntry
  rw [List.drop_left' hheader, hpath]
  simp only [length_encode hascii, ← hn]
  rw [if_pos (by
    rw [List.length_append, List.length_append, hheader, hbodyLen]
    omega)]
  rw [hfield (i := 0) (p := 0) rfl (Nat.mod_lt _ (by decide)) rfl (by decide),
    hfield (i := 1) (p := 2) rfl (toNat_emod_lt 2 mode) rfl (by decide),
    hfield (i := 2) (p := 4) rfl (toNat_emod_lt 2 user.uid) rfl (by decide),
    hfield (i := 3) (p := 6) rfl (toNat_emod_lt 2 group.uid) rfl (by decide),
    hfield (i := 4) (p := 8) rfl (toNat_emod_lt 8 caps) rfl (by decide)]
  have hrest : (fields l ++ (body ++ rest)).drop (16 + n) = rest := by
    rw [← List.append_assoc]
    refine List.drop_left' ?_
    rw [List.length_append, hheader, hbodyLen]
  rw [hrest]
  rfl

theorem length_toFsEntry
    {e : FSConfig} {out : List UInt8} (h : gen.toFsEntry e = .ok out) :
    16 ≤ out.length := by
  obtain ⟨mode, user, group, caps, -, -, -, -, -, rfl⟩ := toFsEntry_eq_ok h
  rw [fields_headerFields, List.length_append, length_fields]
  exact Nat.le_add_right _ _

variable (gen) in
/-- The record is what is read for the entry. -/
def Stores (e : FSConfig) (r : FsEntry) : Prop :=
  ∃ mode user group caps, readInt U 8 e.mode = some mode ∧ gen.remap e.user = .ok user ∧
    gen.remap e.group = .ok group ∧ gen.capsValue e.caps = .ok caps ∧
    r = stored e mode user.uid group.uid caps

/-- The output is the records of the entries, one after the other. -/
theorem writeEntries_eq_ok
    {entries : List FSConfig} {out : List UInt8} (h : gen.writeEntries entries = .ok out) :
    ∃ outs, List.Forall₂ (fun e o => gen.toFsEntry e = .ok o) entries outs ∧
      out = outs.flatten := by
  suffices H : ∀ written, entries.foldlM (fun out e => do
      let binary ← gen.toFsEntry e
      .ok (out ++ binary)) written = .ok out →
      ∃ outs, List.Forall₂ (fun e o => gen.toFsEntry e = .ok o) entries outs ∧
        out = written ++ outs.flatten by
    obtain ⟨outs, houts, hout⟩ := H [] h
    exact ⟨outs, houts, hout⟩
  clear h
  induction entries with
  | nil =>
      intro written h
      cases h
      exact ⟨[], List.Forall₂.nil, by simp⟩
  | cons e entries ih =>
      intro written h
      rw [List.foldlM_cons] at h
      obtain ⟨written', hstep, h⟩ := Loop.bind_eq_ok.mp h
      obtain ⟨binary, hbinary, hok⟩ := Loop.bind_eq_ok.mp hstep
      cases hok
      obtain ⟨outs, houts, rfl⟩ := ih _ h
      exact ⟨binary :: outs, List.Forall₂.cons hbinary houts, by simp⟩

/-- The records come back one for each entry, in order. -/
theorem readEntriesFrom_flatten
    {entries : List FSConfig} {outs : List (List UInt8)}
    (h : List.Forall₂ (fun e o => gen.toFsEntry e = .ok o) entries outs)
    (hascii : ∀ e ∈ entries, AsciiPath e.path) (fuel : Nat) (hfuel : entries.length ≤ fuel) :
    ∃ records, readEntriesFrom fuel outs.flatten = some records ∧
      List.Forall₂ (Stores gen) entries records := by
  induction h generalizing fuel with
  | nil => exact ⟨[], by simp [readEntriesFrom], List.Forall₂.nil⟩
  | cons hout _ ih =>
      rename_i e out entries outs _
      rw [List.forall_mem_cons] at hascii
      cases fuel with
      | zero => simp at hfuel
      | succ fuel =>
          obtain ⟨records, hrecords, hstores⟩ := ih hascii.2 fuel (by simpa using hfuel)
          obtain ⟨mode, user, group, caps, hmode, huser, hgroup, hcaps, hread⟩ :=
            readEntry_toFsEntry hout hascii.1
          refine ⟨stored e mode user.uid group.uid caps :: records, ?_,
            List.Forall₂.cons ⟨mode, user, group, caps, hmode, huser, hgroup, hcaps, rfl⟩ hstores⟩
          have hread' := hread outs.flatten
          have hlen := length_toFsEntry hout
          rw [List.flatten_cons]
          cases out with
          | nil => simp at hlen
          | cons b out =>
              rw [List.cons_append] at hread' ⊢
              rw [readEntriesFrom, hread', Option.bind_some, hrecords, Option.map_some]

theorem readEntries_writeEntries
    {entries : List FSConfig} {out : List UInt8} (h : gen.writeEntries entries = .ok out)
    (hascii : ∀ e ∈ entries, AsciiPath e.path) :
    ∃ records, readEntries out = some records ∧ List.Forall₂ (Stores gen) entries records := by
  obtain ⟨outs, houts, rfl⟩ := writeEntries_eq_ok h
  refine readEntriesFrom_flatten houts hascii _ ?_
  clear h hascii
  induction houts with
  | nil => simp
  | cons hout _ ih =>
      have := length_toFsEntry hout
      rw [List.length_cons, List.flatten_cons, List.length_append]
      omega

/-- The output of a run reads back as one record for each entry that is emitted, and its masks
are made of the capabilities of the header. -/
theorem fsconfig_records
    {args : Args} {out : List UInt8} (h : fsconfig U args = .ok out) :
    ∃ (baseParser : AIDHeaderParser U) (oemParser : ConfigState U) (gen : FSConfigGen U),
      parseHeader args.aidHeader args.aidHeaderLines = .ok baseParser ∧
      parseConfigs baseParser.ranges args.fsconfig = .ok oemParser ∧
      ((∀ e ∈ emitted args oemParser, AsciiPath e.path) →
        ∃ records, readEntries out = some records ∧
          List.Forall₂ (Stores gen) (emitted args oemParser) records) ∧
      ∀ cap n, gen.caps.get? cap = some n → ∃ line ∈ args.capabilityHeader, Defines U line cap n := by
  obtain ⟨baseParser, oemParser, gen, hbase, hoem, _, hcaps, hwrite⟩ := fsconfig_spec h
  exact ⟨baseParser, oemParser, gen, hbase, hoem, readEntries_writeEntries hwrite,
    fun _ _ hget => parseCaps_spec hcaps hget⟩

/-- The mask that is stored. -/
theorem describesCaps_iff
    {caps : Str} {v : Int} (h : gen.capsValue caps = .ok v) :
    DescribesCaps gen caps (v % 256 ^ 8).toNat ↔ FitsCaps gen caps := by
  unfold FSConfigGen.capsValue at h
  unfold DescribesCaps FitsCaps
  cases hint : readInt U 0 caps with
  | some n =>
      rw [hint] at h
      cases h
      exact eq_field_iff 8 v
  | none =>
      rw [hint] at h
      have hv := foldlM_addCap h
      have hmod : (v % 256 ^ 8).toNat =
          powerSum (gen.capNumbers (partsFrom ',' [] caps)) % 2 ^ 64 := by
        omega
      simp only [hmod, ← mem_capNumbers]
      exact testBit_mod_iff _

theorem exists_below_iff
    {α : Type} {x : Except Failure α} {a : α} (h : x = .ok a) (f : α → Int) :
    (∃ b, x = .ok b ∧ f b = ((f a % 256 ^ 2).toNat : Nat)) ↔
      ∃ b, x = .ok b ∧ Below (2 ^ 16) (f b) := by
  have hfield := eq_field_iff 2 (f a)
  constructor
  · rintro ⟨b, hb, heq⟩
    rw [h] at hb
    cases hb
    exact ⟨a, h, hfield.mp heq.symm⟩
  · rintro ⟨b, hb, hbelow⟩
    rw [h] at hb
    cases hb
    exact ⟨a, h, (hfield.mpr hbelow).symm⟩

/-- The record of an entry is right iff every value of the entry fits its field. -/
theorem Stores.describes_iff
    {e : FSConfig} {r : FsEntry} (h : Stores gen e r) (hascii : AsciiPath e.path) :
    Describes gen e r ↔ Fits gen e := by
  obtain ⟨mode, user, group, caps, hmode, huser, hgroup, hcaps, rfl⟩ := h
  have hmodeIff : readInt U 8 e.mode = some (((mode % 256 ^ 2).toNat : Nat) : Int) ↔
      ∃ n, readInt U 8 e.mode = some n ∧ Below (2 ^ 16) n := by
    rw [hmode, Option.some.injEq, eq_comm, eq_field_iff]
    constructor
    · intro hbelow
      exact ⟨mode, rfl, hbelow⟩
    · rintro ⟨n, hn, hbelow⟩
      cases hn
      exact hbelow
  have huserIff := exists_below_iff huser AID.uid
  have hgroupIff := exists_below_iff hgroup AID.uid
  have hcapsIff := describesCaps_iff hcaps
  have hdvd : 8 ∣ 16 + paddedLength e.path.length := by
    unfold paddedLength
    omega
  constructor
  · intro hdescribes
    refine ⟨?_, hmodeIff.mp hdescribes.mode, huserIff.mp hdescribes.uid,
      hgroupIff.mp hdescribes.gid, hcapsIff.mp hdescribes.caps⟩
    have hlength := hdescribes.length
    simp only [stored] at hlength
    rw [← hlength]
    exact Nat.mod_lt _ (by decide)
  · intro hfits
    have hlength : (16 + paddedLength e.path.length) % 2 ^ 16 = 16 + paddedLength e.path.length :=
      Nat.mod_eq_of_lt hfits.length
    refine ⟨hlength, ?_, hmodeIff.mpr hfits.mode, huserIff.mpr hfits.user,
      hgroupIff.mpr hfits.group, map_toNat_encode hascii, hcapsIff.mpr hfits.caps⟩
    simp only [stored]
    rwa [hlength]

/-- The output reads back as its entries iff every value of every entry fits its field. -/
theorem writeEntries_decodes_iff
    {entries : List FSConfig} {out : List UInt8} (h : gen.writeEntries entries = .ok out)
    (hascii : ∀ e ∈ entries, AsciiPath e.path) :
    (∃ records, readEntries out = some records ∧
      List.Forall₂ (Describes gen) entries records) ↔
      ∀ e ∈ entries, Fits gen e := by
  obtain ⟨records, hrecords, hstores⟩ := readEntries_writeEntries h hascii
  have hall : List.Forall₂ (Describes gen) entries records ↔ ∀ e ∈ entries, Fits gen e := by
    clear h hrecords
    induction hstores with
    | nil => simp
    | cons hstore _ ih =>
        rw [List.forall_mem_cons] at hascii
        rw [List.forall₂_cons, List.forall_mem_cons, hstore.describes_iff hascii.1, ih hascii.2]
  rw [← hall, hrecords]
  constructor
  · rintro ⟨records', hsome, hdescribes⟩
    cases hsome
    exact hdescribes
  · intro hdescribes
    exact ⟨records, rfl, hdescribes⟩

end Entries

section Examples

/-- `#define AID_ROOT 0`. -/
def rootAid : AID Unicode.ascii where
  identifier := "AID_ROOT".toList
  value := "0".toList
  found := "header".toList
  loginShell := "/system/bin/sh".toList
  normalizedValue := "0".toList
  friendly := "root".toList
  isNumber := ⟨0, by decide, by decide⟩
  isFriendlyName := by decide
  isShort := by decide

def rootGen : FSConfigGen Unicode.ascii where
  caps := .set .empty "CAP_NET_ADMIN".toList 12
  friendlyToAid := .set .empty "root".toList rootAid
  idToAid := .set .empty "AID_ROOT".toList rootAid

def rootEntry (caps : String) : FSConfig :=
  ⟨"0755".toList, "root".toList, "root".toList, caps.toList, "vendor/bin/a".toList, "f".toList⟩

/-- A directory of root, by its identifier and without capabilities. -/
def dirEntry : FSConfig :=
  ⟨"0700".toList, "AID_ROOT".toList, "root".toList, "0".toList, "vendor/lib64/".toList, "f".toList⟩

theorem writeEntries_decodes_root :
    ∃ out, rootGen.writeEntries [rootEntry "CAP_NET_ADMIN", dirEntry] = .ok out ∧
      ∃ records, readEntries out = some records ∧
        List.Forall₂ (Describes rootGen) [rootEntry "CAP_NET_ADMIN", dirEntry] records := by
  obtain ⟨out, hout⟩ :
      ∃ out, rootGen.writeEntries [rootEntry "CAP_NET_ADMIN", dirEntry] = .ok out :=
    ⟨_, rfl⟩
  refine ⟨out, hout, (writeEntries_decodes_iff hout (by decide)).mpr ?_⟩
  rw [List.forall_mem_cons, List.forall_mem_singleton]
  have hroot : ∃ aid, rootGen.remap "root".toList = .ok aid ∧ Below (2 ^ 16) aid.uid :=
    ⟨rootAid, rfl, by decide, by decide⟩
  constructor
  · refine ⟨by decide, ⟨0o755, by decide, by decide, by decide⟩, hroot, hroot, ?_⟩
    have hnumbers : rootGen.capNumbers (partsFrom ',' [] "CAP_NET_ADMIN".toList) = [12] := by decide
    change (∀ n ∈ rootGen.capNumbers (partsFrom ',' [] "CAP_NET_ADMIN".toList), n < 64) ∧
      2 ^ 64 ∣ powerSum (repeated (rootGen.capNumbers (partsFrom ',' [] "CAP_NET_ADMIN".toList)))
    rw [hnumbers]
    decide
  · refine ⟨by decide, ⟨0o700, by decide, by decide, by decide⟩,
      ⟨rootAid, rfl, by decide, by decide⟩, hroot, ?_⟩
    change Below (2 ^ 64) 0
    exact ⟨by decide, by decide⟩

/-- A capability that is listed twice sets the next bit. -/
theorem writeEntries_repeated_cap :
    ∃ out, rootGen.writeEntries [rootEntry "CAP_NET_ADMIN,CAP_NET_ADMIN"] = .ok out ∧
      ¬∃ records, readEntries out = some records ∧
        List.Forall₂ (Describes rootGen) [rootEntry "CAP_NET_ADMIN,CAP_NET_ADMIN"] records := by
  obtain ⟨out, hout⟩ :
      ∃ out, rootGen.writeEntries [rootEntry "CAP_NET_ADMIN,CAP_NET_ADMIN"] = .ok out :=
    ⟨_, rfl⟩
  refine ⟨out, hout, ?_⟩
  rintro ⟨records, hrecords, hdescribes⟩
  obtain ⟨records', hrecords', hstores⟩ := readEntries_writeEntries hout (by decide)
  rw [hrecords] at hrecords'
  cases hrecords'
  cases hdescribes with
  | cons hdescribe _ =>
      cases hstores with
      | cons hstore _ =>
          have hfits := ((hstore.describes_iff (by decide)).mp hdescribe).caps
          have hnumbers : rootGen.capNumbers
              (partsFrom ',' [] "CAP_NET_ADMIN,CAP_NET_ADMIN".toList) = [12, 12] := by decide
          have hdvd : 2 ^ 64 ∣ powerSum (repeated (rootGen.capNumbers
              (partsFrom ',' [] "CAP_NET_ADMIN,CAP_NET_ADMIN".toList))) := hfits.2
          rw [hnumbers] at hdvd
          revert hdvd
          decide

end Examples

end FsConfig
end AndroidBuild
