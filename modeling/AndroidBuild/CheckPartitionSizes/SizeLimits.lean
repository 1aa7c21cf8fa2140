import AndroidBuild.CheckPartitionSizes.SizeChecker

/-!
# When the checks pass

The checker compares the sums it should compare, with the values it should read,
as long as it does not round: the alignment comes from the info dictionary as a
text, and the rounding of a size with a text raises `TypeError`.
-/

namespace AndroidBuild
namespace CheckPartitionSizes

open Text IntLiteral Common

section Decides

/-- A check that passes if `P` holds, and raises `RuntimeError` if not. -/
def Decides (x : Except Failure Unit) (P : Prop) : Prop :=
  (x = .ok () ∧ P) ∨ ((∃ message, x = .error (.runtimeError message)) ∧ ¬P)

variable {x y : Except Failure Unit} {P Q : Prop}

theorem Decides.congr
    (h : Decides x P) (hPQ : P ↔ Q) :
    Decides x Q := by
  unfold Decides
  rwa [← hPQ]

theorem decides_ok :
    Decides (.ok ()) True :=
  Or.inl ⟨rfl, trivial⟩

/-- One check after the other. -/
theorem Decides.bind
    (h : Decides x P) {f : Unit → Except Failure Unit} (h' : Decides (f ()) Q) :
    Decides (x >>= f) (P ∧ Q) := by
  rcases h with ⟨rfl, hP⟩ | ⟨⟨message, rfl⟩, hP⟩
  · rcases h' with ⟨hok, hQ⟩ | ⟨⟨message, herr⟩, hQ⟩
    · exact Or.inl ⟨hok, hP, hQ⟩
    · exact Or.inr ⟨⟨message, herr⟩, fun h => hQ h.2⟩
  · exact Or.inr ⟨⟨message, rfl⟩, fun h => hP h.1⟩

theorem decides_forM
    {α : Type} {xs : List α} {f : α → Except Failure Unit} {P : α → Prop}
    (h : ∀ x ∈ xs, Decides (f x) (P x)) :
    Decides (xs.forM f) (∀ x ∈ xs, P x) := by
  induction xs with
  | nil => exact decides_ok.congr (by simp)
  | cons a xs ih =>
      rw [List.forall_mem_cons] at h
      change Decides (f a >>= fun _ => xs.forM f) _
      exact (h.1.bind (ih h.2)).congr List.forall_mem_cons.symm

theorem decides_checkLe
    (host : Host) (left right : Expression) :
    Decides (checkLe host left right .error) (left.value ≤ right.value) := by
  unfold checkLe
  split_ifs with h
  · exact Or.inl ⟨rfl, h⟩
  · exact Or.inr ⟨⟨_, rfl⟩, h⟩
  · exact Or.inr ⟨⟨_, rfl⟩, h⟩

theorem decides_checkLt
    (left right : Expression) :
    Decides (checkLt left right .error) (left.value < right.value) := by
  unfold checkLt
  split_ifs with h
  · exact Or.inl ⟨rfl, h⟩
  · exact Or.inr ⟨⟨_, rfl⟩, h⟩

theorem checkLe_warning
    (host : Host) (left right : Expression) :
    checkLe host left right .warning = .ok () := by
  unfold checkLe
  split_ifs <;> rfl

theorem decides_checkLeIfGiven
    (host : Host) (left : Expression) (right : Option Expression) :
    Decides (checkLeIfGiven host left right .error) (∀ e ∈ right, left.value ≤ e.value) := by
  cases right with
  | none => exact decides_ok.congr (by simp)
  | some e => exact (decides_checkLe host left e).congr (by simp)

theorem checkLeIfGiven_warning
    (host : Host) (left : Expression) (right : Option Expression) :
    checkLeIfGiven host left right .warning = .ok () := by
  cases right with
  | none => rfl
  | some e => exact checkLe_warning host left e

end Decides

section Limits

variable (host : Host) (d : InfoDict)

/-- A key whose value, if there is one, is a decimal number. -/
def IsDecimal (key : Str) : Prop :=
  ∀ s, d.get? key = some s → ∃ n : Nat, readInt host.unicode 10 s = some (n : Int)

/-- The number under a key. -/
def decimal (key : Str) : Option Nat :=
  (d.get? key).bind (fun s => (readInt host.unicode 10 s).map Int.toNat)

/-- The numeric entries are decimal numbers. -/
structure DecimalEntries : Prop where
  superSize : IsDecimal host d superSizeKey
  warnLimit : IsDecimal host d warnLimitKey
  errorLimit : IsDecimal host d errorLimitKey
  groupSize : ∀ group, IsDecimal host d (groupSizeKey group)

/-- The partition has a size, in the dictionary or as that of its image. -/
def HasSize (name : Str) : Prop :=
  ∃ n : Nat, readSizeOfPartition host (ofStrings d) name = .ok (n : Int)

/-- The size of a partition. -/
def sizeOf (name : Str) : Nat :=
  match readSizeOfPartition host (ofStrings d) name with
  | .ok n => n.toNat
  | .error _ => 0

/-- The alignment, 1 without one. -/
def alignment : Nat :=
  (decimal host d alignmentKey).getD 1

def roundUp (a n : Nat) : Nat :=
  (n + a - 1) / a * a

def total (names : List Str) : Nat :=
  (names.map (fun p => roundUp (alignment host d) (sizeOf host d p))).sum

def slots : Nat :=
  if d.get? "ab_update".toList = some "true".toList ∧
      d.get? "virtual_ab".toList ≠ some "true".toList then 2
  else 1

def listedInSuper : List Str :=
  if superSizeKey ∈ d.keys then
    match d.get? dynamicListKey with
    | some list => partitionsInSuper (ofStrings d) (wordsFrom [] (stripChars list))
    | none => []
  else []

def listedInGroup (group : Str) : List Str :=
  if groupSizeKey group ∈ d.keys then
    match d.get? (partitionListKey group) with
    | some list => wordsFrom [] (stripChars list)
    | none => []
  else []

def groupNames : List Str :=
  wordsFrom [] (stripChars ((d.get? groupsKey).getD []))

def listed : List Str :=
  listedInSuper d ++ (groupNames d).flatMap (listedInGroup d)

def superSize : Nat :=
  (decimal host d superSizeKey).getD 0

/-- The error limit, the size of the super partition without one. -/
def errorLimit : Nat :=
  (decimal host d errorLimitKey).getD (superSize host d)

/-- The sizes of the partitions and of the groups fit. -/
structure SizesFit : Prop where
  super : superSizeKey ∈ d.keys → dynamicListKey ∈ d.keys →
    total host d (listedInSuper d) ≤ superSize host d / slots d ∧
      total host d (listedInSuper d) ≤ errorLimit host d / slots d
  group : ∀ group ∈ groupNames d, groupSizeKey group ∈ d.keys → partitionListKey group ∈ d.keys →
    total host d (listedInGroup d group) ≤ (decimal host d (groupSizeKey group)).getD 0
  groups : superSizeKey ∈ d.keys →
    ((groupNames d).map (fun group => (decimal host d (groupSizeKey group)).getD 0)).sum <
      superSize host d / slots d

/-- `RuntimeError` is raised iff the sizes do not fit, and nothing else is raised. -/
def ChecksSizes : Prop :=
  ((∃ message, checkPartitionSizes host (ofStrings d) = .error (.runtimeError message)) ↔
    ¬SizesFit host d) ∧
  ∀ exception, checkPartitionSizes host (ofStrings d) ≠ .error (.raised exception)

end Limits

section Reading

variable {host : Host} {d : InfoDict}

theorem get?_ofStrings
    (d : InfoDict) (key : Str) :
    (ofStrings d).get? key = (d.get? key).map Value.str :=
  d.get?_mapValues Value.str key

theorem toInt_str
    {s : Str} {n : Nat} (h : readInt host.unicode 10 s = some (n : Int)) :
    toInt host (.str s) = .ok (n : Int) := by
  unfold toInt
  simp only [h]

theorem IsDecimal.eq_some
    {key : Str} (h : IsDecimal host d key) {s : Str} (hget : d.get? key = some s) :
    ∃ n : Nat, readInt host.unicode 10 s = some (n : Int) ∧ decimal host d key = some n := by
  obtain ⟨n, hn⟩ := h s hget
  refine ⟨n, hn, ?_⟩
  unfold decimal
  rw [hget, Option.bind_some, hn, Option.map_some, Int.toNat_natCast]

/-- What the constructor leaves and adds. -/
structure Prepared (host : Host) (d : InfoDict) (info : Info) : Prop where
  other : ∀ key, key ≠ warnLimitKey → key ≠ errorLimitKey →
    info.get? key = (d.get? key).map Value.str
  warn : superSizeKey ∈ d.keys →
    ∃ v, ∃ n : Nat, info.get? warnLimitKey = some v ∧ toInt host v = .ok (n : Int)
  error : superSizeKey ∈ d.keys →
    ∃ v, info.get? errorLimitKey = some v ∧ toInt host v = .ok (errorLimit host d : Int)

/-- A key with a decimal number, or the number it is set to. -/
theorem setDefault_spec
    {info : Info} {key : Str} {n : Nat} (hdec : IsDecimal host d key)
    (hget : info.get? key = (d.get? key).map Value.str) :
    ∃ info', setDefault info key (.ok (n : Int)) = .ok info' ∧
      (∀ k, k ≠ key → info'.get? k = info.get? k) ∧
      ∃ v, info'.get? key = some v ∧ toInt host v = .ok (((decimal host d key).getD n : Nat) : Int)
      := by
  unfold setDefault
  cases hkey : d.get? key with
  | none =>
      rw [hkey] at hget
      have hnot : key ∉ info.keys := by
        rw [OrderedDict.mem_keys_iff, hget]
        simp
      rw [if_neg hnot]
      refine ⟨_, rfl, ?_, Value.int n, ?_, ?_⟩
      · intro k hk
        rw [OrderedDict.get?_set, if_neg hk]
      · rw [OrderedDict.get?_set, if_pos rfl]
      · unfold decimal
        rw [hkey]
        rfl
  | some s =>
      obtain ⟨m, hm, hdecimal⟩ := hdec.eq_some hkey
      rw [hkey] at hget
      have hmem : key ∈ info.keys := OrderedDict.mem_keys_iff.mpr ⟨_, hget⟩
      rw [if_pos hmem]
      refine ⟨info, rfl, fun _ _ => rfl, Value.str s, hget, ?_⟩
      rw [hdecimal, Option.getD_some]
      exact toInt_str hm

theorem newChecker_spec
    (h : DecimalEntries host d) :
    ∃ info, newChecker host (ofStrings d) = .ok info ∧ Prepared host d info := by
  unfold newChecker
  rw [get?_ofStrings]
  cases hsuper : d.get? superSizeKey with
  | none =>
      have hnot : superSizeKey ∉ d.keys := by
        rw [OrderedDict.mem_keys_iff, hsuper]
        simp
      exact ⟨_, rfl, fun key _ _ => get?_ofStrings d key, fun hmem => absurd hmem hnot,
        fun hmem => absurd hmem hnot⟩
  | some s =>
      obtain ⟨n, hn, hdecimal⟩ := h.superSize.eq_some hsuper
      have hint := toInt_str hn
      have hwarn : ((n : Int) * 95).fdiv 100 = ((n * 95 / 100 : Nat) : Int) := by
        rw [Int.fdiv_eq_ediv_of_nonneg _ (by decide)]
        push_cast
        rfl
      have hne : warnLimitKey ≠ errorLimitKey := by decide
      obtain ⟨info₁, hset₁, hother₁, v₁, hv₁, hint₁⟩ := setDefault_spec (n := n * 95 / 100)
        h.warnLimit (get?_ofStrings d warnLimitKey)
      have herror₁ : info₁.get? errorLimitKey = (d.get? errorLimitKey).map Value.str := by
        rw [hother₁ _ hne.symm, get?_ofStrings]
      obtain ⟨info₂, hset₂, hother₂, v₂, hv₂, hint₂⟩ := setDefault_spec (n := n)
        h.errorLimit herror₁
      refine ⟨info₂, ?_, ?_, ?_, ?_⟩
      · simp only [Option.map_some, hint, Except.map, hwarn]
        rw [hset₁]
        exact hset₂
      · intro key hkey hkey'
        rw [hother₂ _ hkey', hother₁ _ hkey, get?_ofStrings]
      · intro _
        exact ⟨v₁, _, by rw [hother₂ _ hne, hv₁], hint₁⟩
      · intro _
        refine ⟨v₂, hv₂, ?_⟩
        rw [hint₂]
        unfold errorLimit superSize
        rw [hdecimal, Option.getD_some]

variable {info : Info}

theorem Prepared.mem_keys
    (hinfo : Prepared host d info) {key : Str} (hkey : key ≠ warnLimitKey)
    (hkey' : key ≠ errorLimitKey) :
    key ∈ info.keys ↔ key ∈ d.keys := by
  rw [OrderedDict.mem_keys_iff, OrderedDict.mem_keys_iff, hinfo.other key hkey hkey']
  simp

theorem imageSize_ne
    (name : Str) :
    name ++ "_image_size".toList ≠ warnLimitKey ∧ name ++ "_image_size".toList ≠ errorLimitKey :=
  ⟨append_ne_of_not_suffix (by decide), append_ne_of_not_suffix (by decide)⟩

theorem image_ne
    (name : Str) :
    name ++ "_image".toList ≠ warnLimitKey ∧ name ++ "_image".toList ≠ errorLimitKey :=
  ⟨append_ne_of_not_suffix (by decide), append_ne_of_not_suffix (by decide)⟩

theorem groupSizeKey_ne
    (group : Str) :
    groupSizeKey group ≠ warnLimitKey ∧ groupSizeKey group ≠ errorLimitKey :=
  ⟨append_ne_of_not_suffix (by decide), append_ne_of_not_suffix (by decide)⟩

theorem partitionListKey_ne
    (group : Str) :
    partitionListKey group ≠ warnLimitKey ∧ partitionListKey group ≠ errorLimitKey :=
  ⟨append_ne_of_not_suffix (by decide), append_ne_of_not_suffix (by decide)⟩

theorem Prepared.readSizeOfPartition
    (hinfo : Prepared host d info) {name : Str} (h : HasSize host d name) :
    readSizeOfPartition host info name = .ok (sizeOf host d name : Int) := by
  have heq : CheckPartitionSizes.readSizeOfPartition host info name =
      CheckPartitionSizes.readSizeOfPartition host (ofStrings d) name := by
    unfold CheckPartitionSizes.readSizeOfPartition getItem
    rw [hinfo.other _ (imageSize_ne name).1 (imageSize_ne name).2,
      hinfo.other _ (image_ne name).1 (image_ne name).2, get?_ofStrings, get?_ofStrings]
  obtain ⟨n, hn⟩ := h
  unfold sizeOf
  rw [heq, hn]
  rfl

theorem Prepared.deviceType
    (hinfo : Prepared host d info) :
    DeviceType.get info = DeviceType.get (ofStrings d) := by
  unfold DeviceType.get
  rw [hinfo.other _ (by decide) (by decide), hinfo.other _ (by decide) (by decide),
    get?_ofStrings, get?_ofStrings]

theorem Prepared.numDeviceTypesInSuper
    (hinfo : Prepared host d info)
    (hdap : d.get? "use_dynamic_partitions".toList = some "true".toList) :
    numDeviceTypesInSuper info = .ok (slots d : Int) := by
  have hdap' : dapGet info = true := by
    unfold dapGet
    rw [hinfo.other _ (by decide) (by decide), hdap]
    rfl
  unfold CheckPartitionSizes.numDeviceTypesInSuper
  rw [hdap', if_neg (by decide), hinfo.deviceType]
  unfold DeviceType.get slots
  rw [get?_ofStrings, get?_ofStrings]
  by_cases hab : d.get? "ab_update".toList = some "true".toList
  · by_cases hvab : d.get? "virtual_ab".toList = some "true".toList
    · rw [if_neg (by simp only [hab, Option.map_some, ne_eq, not_true_eq_false, not_false_eq_true]),
        if_pos (by rw [hvab]; rfl), if_neg (by
          rintro ⟨-, h⟩
          exact h hvab)]
      rfl
    · have hvab' : (d.get? "virtual_ab".toList).map Value.str ≠ some (.str "true".toList) := by
        intro h
        obtain ⟨s, hs, heq⟩ := Option.map_eq_some_iff.mp h
        rw [hs, Value.str.inj heq] at hvab
        exact hvab rfl
      rw [if_neg (by simp only [hab, Option.map_some, ne_eq, not_true_eq_false, not_false_eq_true]),
        if_neg hvab', if_pos ⟨hab, hvab⟩]
      rfl
  · have hab' : (d.get? "ab_update".toList).map Value.str ≠ some (.str "true".toList) := by
      intro h
      obtain ⟨s, hs, heq⟩ := Option.map_eq_some_iff.mp h
      rw [hs, Value.str.inj heq] at hab
      exact hab rfl
    rw [if_pos hab', if_neg (by
      rintro ⟨h, -⟩
      exact hab h)]
    rfl

theorem slotLimit_eq
    (desc : Str) {key : Str} {v : Value} {n m : Nat} (hget : info.get? key = some v)
    (hint : toInt host v = .ok (n : Int)) :
    ∃ limit : Expression, slotLimit host info desc key (m : Int) = .ok limit ∧
      limit.value = ((n / m : Nat) : Int) := by
  unfold slotLimit getItem
  rw [hget]
  simp only [bind, Except.bind, hint]
  refine ⟨_, rfl, ?_⟩
  exact (Int.ofNat_fdiv n m).symm

theorem Prepared.superLimit
    (hinfo : Prepared host d info) (hdec : DecimalEntries host d)
    (hsuper : superSizeKey ∈ d.keys) (desc : Str) (m : Nat) :
    ∃ limit : Expression, slotLimit host info desc superSizeKey (m : Int) = .ok limit ∧
      limit.value = ((superSize host d / m : Nat) : Int) := by
  obtain ⟨s, hs⟩ := OrderedDict.mem_keys_iff.mp hsuper
  obtain ⟨n, hn, hdecimal⟩ := hdec.superSize.eq_some hs
  have hget : info.get? superSizeKey = some (Value.str s) := by
    rw [hinfo.other _ (by decide) (by decide), hs, Option.map_some]
  have hsize : superSize host d = n := by
    unfold superSize
    rw [hdecimal, Option.getD_some]
  rw [hsize]
  exact slotLimit_eq desc hget (toInt_str hn)

end Reading

section Sums

variable {host : Host} {d : InfoDict} {info : Info} {names : List Str}

/-- The partitions have sizes, and these are rounded as numbers. -/
structure Rounds (host : Host) (d : InfoDict) (info : Info) (names : List Str) : Prop where
  size : ∀ p ∈ names, HasSize host d p
  round : ∀ p ∈ names,
    roundPartitionSize info (sizeOf host d p) = .ok (roundUp (alignment host d) (sizeOf host d p) : Int)

theorem Rounds.sizes
    (hinfo : Prepared host d info) (h : Rounds host d info names) :
    names.mapM (roundedSize host info) =
      .ok (names.map (fun p => (roundUp (alignment host d) (sizeOf host d p) : Int))) := by
  rw [Loop.mapM_eq_ok, List.forall₂_map_right_iff, List.forall₂_same]
  intro p hp
  unfold roundedSize
  rw [hinfo.readSizeOfPartition (h.size p hp)]
  exact h.round p hp

theorem sum_rounded
    (names : List Str) :
    (names.map (fun p => (roundUp (alignment host d) (sizeOf host d p) : Int))).sum =
      (total host d names : Int) := by
  unfold total
  rw [Nat.cast_list_sum, List.map_map]
  rfl

/-- The check of a sum. -/
theorem decides_checkSum
    (hinfo : Prepared host d info) (h : Rounds host d info names) (maxSize : Expression)
    (warnSize errorSize : Option Expression) :
    Decides (checkSumOfPartitionSizes host info maxSize names warnSize errorSize)
      ((total host d names : Int) ≤ maxSize.value ∧
        ∀ e ∈ errorSize, (total host d names : Int) ≤ e.value) := by
  unfold checkSumOfPartitionSizes
  rw [h.sizes hinfo]
  change Decides (checkLe host ⟨_, _, _⟩ maxSize .error >>= fun _ =>
    checkLeIfGiven host ⟨_, _, _⟩ errorSize .error >>= fun _ =>
      checkLeIfGiven host ⟨_, _, _⟩ warnSize .warning) _
  rw [checkLeIfGiven_warning]
  refine ((decides_checkLe host _ maxSize).bind
    ((decides_checkLeIfGiven host _ errorSize).bind decides_ok)).congr ?_
  simp only [sum_rounded, and_true]

/-- The rounding of the first size fails with an alignment. -/
theorem checkSum_typeError
    (hinfo : Prepared host d info) (halign : alignmentKey ∈ d.keys) {p : Str}
    (h : HasSize host d p) (rest : List Str) (maxSize : Expression)
    (warnSize errorSize : Option Expression) :
    checkSumOfPartitionSizes host info maxSize (p :: rest) warnSize errorSize =
      .error (.raised "TypeError".toList) := by
  obtain ⟨s, hs⟩ := OrderedDict.mem_keys_iff.mp halign
  have hround : roundedSize host info p = .error (.raised "TypeError".toList) := by
    unfold roundedSize
    rw [hinfo.readSizeOfPartition h]
    change roundPartitionSize info _ = _
    unfold roundPartitionSize
    rw [hinfo.other _ (by decide) (by decide), hs]
    rfl
  unfold checkSumOfPartitionSizes
  rw [List.mapM_cons, hround]
  rfl

end Sums

section Checks

variable {host : Host} {d : InfoDict} {info : Info}

theorem checkSuper_eq
    (hinfo : Prepared host d info) (hdec : DecimalEntries host d)
    (hmem : superSizeKey ∈ d.keys) (hmem' : dynamicListKey ∈ d.keys) :
    ∃ maxSize warnLimit error : Expression,
      checkSuper host info (slots d : Int) =
        checkSumOfPartitionSizes host info maxSize (listedInSuper d) (some warnLimit)
          (some error) ∧
      maxSize.value = ((superSize host d / slots d : Nat) : Int) ∧
      error.value = ((errorLimit host d / slots d : Nat) : Int) := by
  obtain ⟨s, hsuper⟩ := OrderedDict.mem_keys_iff.mp hmem
  obtain ⟨list, hlist⟩ := OrderedDict.mem_keys_iff.mp hmem'
  obtain ⟨maxSize, hmax, hmaxValue⟩ := hinfo.superLimit hdec hmem
    "BOARD_SUPER_PARTITION_SIZE".toList (slots d)
  obtain ⟨w, n, hw, hwint⟩ := hinfo.warn hmem
  obtain ⟨warnLimit, hwarn, -⟩ := slotLimit_eq (m := slots d)
    "BOARD_SUPER_PARTITION_WARN_LIMIT".toList hw hwint
  obtain ⟨e, he, heint⟩ := hinfo.error hmem
  obtain ⟨error, herror, herrorValue⟩ := slotLimit_eq (m := slots d)
    "BOARD_SUPER_PARTITION_ERROR_LIMIT".toList he heint
  have hnames : partitionsInSuper info (wordsFrom [] (stripChars list)) = listedInSuper d := by
    have himage : "system_other_image".toList ∈ info.keys ↔
        "system_other_image".toList ∈ d.keys :=
      hinfo.mem_keys (by decide) (by decide)
    have hsize : "system_other_image_size".toList ∈ info.keys ↔
        "system_other_image_size".toList ∈ d.keys :=
      hinfo.mem_keys (by decide) (by decide)
    unfold listedInSuper partitionsInSuper
    rw [if_pos hmem, hlist, hinfo.deviceType]
    simp only [himage, hsize, ofStrings, OrderedDict.keys_mapValues]
  refine ⟨maxSize, warnLimit, error, ?_, hmaxValue, herrorValue⟩
  unfold checkSuper
  rw [hinfo.other _ (by decide) (by decide), hinfo.other _ (by decide) (by decide), hsuper, hlist]
  simp only [Option.map_some, hmax, hwarn, herror, splitWords, bind, Except.bind, hnames]

theorem checkSuper_none
    (hinfo : Prepared host d info) (h : superSizeKey ∈ d.keys → dynamicListKey ∉ d.keys)
    (n : Int) :
    checkSuper host info n = .ok () := by
  unfold checkSuper
  rw [hinfo.other _ (by decide) (by decide), hinfo.other _ (by decide) (by decide)]
  cases hsuper : d.get? superSizeKey with
  | none => rfl
  | some s =>
      cases hlist : d.get? dynamicListKey with
      | none => rfl
      | some list =>
          exact absurd (OrderedDict.mem_keys_iff.mpr ⟨list, hlist⟩)
            (h (OrderedDict.mem_keys_iff.mpr ⟨s, hsuper⟩))

theorem decides_checkSuper
    (hinfo : Prepared host d info) (hdec : DecimalEntries host d)
    (h : Rounds host d info (listedInSuper d)) :
    Decides (checkSuper host info (slots d : Int))
      (superSizeKey ∈ d.keys → dynamicListKey ∈ d.keys →
        total host d (listedInSuper d) ≤ superSize host d / slots d ∧
        total host d (listedInSuper d) ≤ errorLimit host d / slots d) := by
  by_cases hmem : superSizeKey ∈ d.keys ∧ dynamicListKey ∈ d.keys
  · obtain ⟨maxSize, warnLimit, error, heq, hmaxValue, herrorValue⟩ :=
      checkSuper_eq hinfo hdec hmem.1 hmem.2
    rw [heq]
    refine (decides_checkSum hinfo h maxSize (some warnLimit) (some error)).congr ?_
    rw [hmaxValue]
    simp only [Option.mem_def, Option.some.injEq, forall_eq', herrorValue, Nat.cast_le]
    constructor
    · intro hle _ _
      exact hle
    · intro hle
      exact hle hmem.1 hmem.2
  · have hnone : superSizeKey ∈ d.keys → dynamicListKey ∉ d.keys := by
      intro hsuper hlist
      exact hmem ⟨hsuper, hlist⟩
    rw [checkSuper_none hinfo hnone]
    refine decides_ok.congr (iff_of_true trivial ?_)
    intro hsuper hlist
    exact absurd hlist (hnone hsuper)

theorem checkGroup_eq
    (hinfo : Prepared host d info) (hdec : DecimalEntries host d) {group : Str}
    (hmem : groupSizeKey group ∈ d.keys) (hmem' : partitionListKey group ∈ d.keys) :
    ∃ maxSize : Expression,
      checkGroup host info group =
        checkSumOfPartitionSizes host info maxSize (listedInGroup d group) none none ∧
      maxSize.value = ((decimal host d (groupSizeKey group)).getD 0 : Nat) := by
  obtain ⟨s, hsize⟩ := OrderedDict.mem_keys_iff.mp hmem
  obtain ⟨list, hlist⟩ := OrderedDict.mem_keys_iff.mp hmem'
  obtain ⟨n, hn, hdecimal⟩ := (hdec.groupSize group).eq_some hsize
  have hnames : wordsFrom [] (stripChars list) = listedInGroup d group := by
    unfold listedInGroup
    rw [if_pos hmem, hlist]
  refine ⟨⟨"BOARD_".toList ++ group ++ "_SIZE".toList, showInt n, n⟩, ?_, ?_⟩
  · unfold checkGroup
    rw [hinfo.other _ (groupSizeKey_ne group).1 (groupSizeKey_ne group).2,
      hinfo.other _ (partitionListKey_ne group).1 (partitionListKey_ne group).2, hsize, hlist]
    simp only [Option.map_some, toInt_str hn, splitWords, bind, Except.bind, hnames]
  · rw [hdecimal, Option.getD_some]

theorem checkGroup_none
    (hinfo : Prepared host d info) {group : Str}
    (h : groupSizeKey group ∈ d.keys → partitionListKey group ∉ d.keys) :
    checkGroup host info group = .ok () := by
  unfold checkGroup
  rw [hinfo.other _ (groupSizeKey_ne group).1 (groupSizeKey_ne group).2,
    hinfo.other _ (partitionListKey_ne group).1 (partitionListKey_ne group).2]
  cases hsize : d.get? (groupSizeKey group) with
  | none => rfl
  | some s =>
      cases hlist : d.get? (partitionListKey group) with
      | none => rfl
      | some list =>
          exact absurd (OrderedDict.mem_keys_iff.mpr ⟨list, hlist⟩)
            (h (OrderedDict.mem_keys_iff.mpr ⟨s, hsize⟩))

theorem decides_checkGroup
    (hinfo : Prepared host d info) (hdec : DecimalEntries host d) {group : Str}
    (h : Rounds host d info (listedInGroup d group)) :
    Decides (checkGroup host info group)
      (groupSizeKey group ∈ d.keys → partitionListKey group ∈ d.keys →
        total host d (listedInGroup d group) ≤
          (decimal host d (groupSizeKey group)).getD 0) := by
  by_cases hmem : groupSizeKey group ∈ d.keys ∧ partitionListKey group ∈ d.keys
  · obtain ⟨maxSize, heq, hmaxValue⟩ := checkGroup_eq hinfo hdec hmem.1 hmem.2
    rw [heq]
    refine (decides_checkSum hinfo h maxSize none none).congr ?_
    rw [hmaxValue]
    simp only [Nat.cast_le]
    constructor
    · intro hle _ _
      exact hle.1
    · intro hle
      exact ⟨hle hmem.1 hmem.2, by simp⟩
  · have hnone : groupSizeKey group ∈ d.keys → partitionListKey group ∉ d.keys := by
      intro hsize hlist
      exact hmem ⟨hsize, hlist⟩
    rw [checkGroup_none hinfo hnone]
    refine decides_ok.congr (iff_of_true trivial ?_)
    intro hsize hlist
    exact absurd hlist (hnone hsize)

theorem groupSize_eq
    (hinfo : Prepared host d info) (hdec : DecimalEntries host d) (group : Str) :
    groupSize host info group = .ok ((decimal host d (groupSizeKey group)).getD 0 : Nat) := by
  unfold groupSize
  rw [hinfo.other _ (groupSizeKey_ne group).1 (groupSizeKey_ne group).2]
  cases hsize : d.get? (groupSizeKey group) with
  | none =>
      unfold decimal
      rw [hsize]
      rfl
  | some s =>
      obtain ⟨n, hn, hdecimal⟩ := (hdec.groupSize group).eq_some hsize
      rw [hdecimal]
      exact toInt_str hn

theorem decides_checkGroupSizes
    (hinfo : Prepared host d info) (hdec : DecimalEntries host d) :
    Decides (checkGroupSizes host info (groupNames d) (slots d : Int))
      (superSizeKey ∈ d.keys →
        ((groupNames d).map (fun group => (decimal host d (groupSizeKey group)).getD 0)).sum <
          superSize host d / slots d) := by
  unfold checkGroupSizes
  rw [hinfo.other _ (by decide) (by decide)]
  cases hsuper : d.get? superSizeKey with
  | none =>
      refine decides_ok.congr (iff_of_true trivial ?_)
      intro hmem
      rw [OrderedDict.mem_keys_iff, hsuper] at hmem
      simp at hmem
  | some s =>
      have hmem : superSizeKey ∈ d.keys := OrderedDict.mem_keys_iff.mpr ⟨s, hsuper⟩
      obtain ⟨maxSize, hmax, hmaxValue⟩ := hinfo.superLimit hdec hmem
        "BOARD_SUPER_PARTITION_SIZE".toList (slots d)
      have hsizes : (groupNames d).mapM (groupSize host info) =
          .ok ((groupNames d).map
            (fun group => (((decimal host d (groupSizeKey group)).getD 0 : Nat) : Int))) := by
        rw [Loop.mapM_eq_ok, List.forall₂_map_right_iff, List.forall₂_same]
        intro group _
        exact groupSize_eq hinfo hdec group
      have hsum : ((groupNames d).map
          (fun group => (((decimal host d (groupSizeKey group)).getD 0 : Nat) : Int))).sum =
          ((((groupNames d).map
            (fun group => (decimal host d (groupSizeKey group)).getD 0)).sum : Nat) : Int) := by
        rw [Nat.cast_list_sum, List.map_map]
        rfl
      simp only [Option.map_some, hsizes, hmax, bind, Except.bind, checkLe_warning]
      refine ((decides_checkLt _ maxSize).bind decides_ok).congr ?_
      rw [hmaxValue, hsum, Nat.cast_lt, and_true]
      constructor
      · intro hlt _
        exact hlt
      · intro hlt
        exact hlt hmem

end Checks

section Rounding

variable {host : Host} {d : InfoDict} {info : Info}

/-- Without an alignment, and without partitions, nothing is rounded with a text. -/
theorem rounds_of_not_aligned
    (hinfo : Prepared host d info) (hsizes : ∀ p ∈ listed d, HasSize host d p)
    (h : alignmentKey ∉ d.keys ∨ listed d = []) {names : List Str}
    (hnames : ∀ p ∈ names, p ∈ listed d) :
    Rounds host d info names := by
  refine ⟨fun p hp => hsizes p (hnames p hp), ?_⟩
  intro p hp
  rcases h with halign | hnil
  · have hnone : d.get? alignmentKey = none := by
      by_contra hne
      obtain ⟨s, hs⟩ := Option.ne_none_iff_exists'.mp hne
      exact halign (OrderedDict.mem_keys_iff.mpr ⟨s, hs⟩)
    unfold roundPartitionSize alignment decimal
    rw [hinfo.other _ (by decide) (by decide), hnone]
    simp [roundUp]
  · have hmem := hnames p hp
    rw [hnil] at hmem
    cases hmem

theorem mem_listed_of_group
    {group p : Str} (hgroup : group ∈ groupNames d) (hp : p ∈ listedInGroup d group) :
    p ∈ listed d :=
  List.mem_append_right _ (List.mem_flatMap.mpr ⟨group, hgroup, hp⟩)

theorem decides_checkAll
    (hinfo : Prepared host d info) (hdec : DecimalEntries host d)
    (hdap : d.get? "use_dynamic_partitions".toList = some "true".toList)
    (hsizes : ∀ p ∈ listed d, HasSize host d p)
    (h : alignmentKey ∉ d.keys ∨ listed d = []) :
    Decides (checkAllPartitionSizes host info) (SizesFit host d) := by
  have hgroups : splitWords ((info.get? groupsKey).getD (.str [])) = .ok (groupNames d) := by
    rw [hinfo.other _ (by decide) (by decide)]
    unfold groupNames
    cases d.get? groupsKey <;> rfl
  have hsuper := decides_checkSuper hinfo hdec
    (rounds_of_not_aligned hinfo hsizes h (fun p hp => List.mem_append_left _ hp))
  have hgroup := decides_forM (fun group hgroup => decides_checkGroup hinfo hdec
    (rounds_of_not_aligned hinfo hsizes h (fun p hp => mem_listed_of_group hgroup hp)))
  have hall := decides_checkGroupSizes hinfo hdec
  unfold checkAllPartitionSizes
  rw [hinfo.numDeviceTypesInSuper hdap, hgroups]
  refine (hsuper.bind (hgroup.bind hall)).congr ?_
  constructor
  · rintro ⟨h₁, h₂, h₃⟩
    exact ⟨h₁, h₂, h₃⟩
  · rintro ⟨h₁, h₂, h₃⟩
    exact ⟨h₁, h₂, h₃⟩

theorem rounds_nil :
    Rounds host d info [] :=
  ⟨by simp, by simp⟩

theorem Decides.eq_ok
    {x : Except Failure Unit} {P : Prop} (h : Decides x P) (hP : P) :
    x = .ok () := by
  rcases h with ⟨hok, -⟩ | ⟨-, hnot⟩
  · exact hok
  · exact absurd hP hnot

theorem forM_checkGroup_typeError
    (hinfo : Prepared host d info) (hdec : DecimalEntries host d)
    (halign : alignmentKey ∈ d.keys) {groups : List Str}
    (hsizes : ∀ p ∈ groups.flatMap (listedInGroup d), HasSize host d p)
    (hne : groups.flatMap (listedInGroup d) ≠ []) :
    groups.forM (checkGroup host info) = .error (.raised "TypeError".toList) := by
  induction groups with
  | nil => exact absurd rfl hne
  | cons group groups ih =>
      change (checkGroup host info group >>= fun _ => groups.forM (checkGroup host info)) = _
      rw [List.flatMap_cons] at hsizes hne
      cases hlisted : listedInGroup d group with
      | nil =>
          have hrounds : Rounds host d info (listedInGroup d group) := by
            rw [hlisted]
            exact rounds_nil
          have hok := (decides_checkGroup hinfo hdec hrounds).eq_ok (by simp [hlisted, total])
          rw [hlisted, List.nil_append] at hsizes hne
          rw [hok]
          exact ih hsizes hne
      | cons p rest =>
          have hmem : groupSizeKey group ∈ d.keys ∧ partitionListKey group ∈ d.keys := by
            unfold listedInGroup at hlisted
            split_ifs at hlisted with hsize
            refine ⟨hsize, ?_⟩
            split at hlisted
            · rename_i list hlist
              exact OrderedDict.mem_keys_iff.mpr ⟨list, hlist⟩
            · cases hlisted
          obtain ⟨maxSize, heq, -⟩ := checkGroup_eq hinfo hdec hmem.1 hmem.2
          rw [heq, hlisted, checkSum_typeError hinfo halign (hsizes p (by simp [hlisted]))]
          rfl

/-- With an alignment, the checks fail as soon as a partition is listed. -/
theorem checkAll_typeError
    (hinfo : Prepared host d info) (hdec : DecimalEntries host d)
    (hdap : d.get? "use_dynamic_partitions".toList = some "true".toList)
    (hsizes : ∀ p ∈ listed d, HasSize host d p) (halign : alignmentKey ∈ d.keys)
    (hne : listed d ≠ []) :
    checkAllPartitionSizes host info = .error (.raised "TypeError".toList) := by
  have hgroups : splitWords ((info.get? groupsKey).getD (.str [])) = .ok (groupNames d) := by
    rw [hinfo.other _ (by decide) (by decide)]
    unfold groupNames
    cases d.get? groupsKey <;> rfl
  unfold checkAllPartitionSizes
  rw [hinfo.numDeviceTypesInSuper hdap, hgroups]
  change (checkSuper host info (slots d : Int) >>= fun _ =>
    (groupNames d).forM (checkGroup host info) >>= fun _ =>
      checkGroupSizes host info (groupNames d) (slots d : Int)) = _
  cases hlisted : listedInSuper d with
  | nil =>
      have hrounds : Rounds host d info (listedInSuper d) := by
        rw [hlisted]
        exact rounds_nil
      have hok := (decides_checkSuper hinfo hdec hrounds).eq_ok (by simp [hlisted, total])
      have hlistedGroups : listed d = (groupNames d).flatMap (listedInGroup d) := by
        unfold listed
        rw [hlisted, List.nil_append]
      rw [hlistedGroups] at hsizes hne
      rw [hok]
      change ((groupNames d).forM (checkGroup host info) >>= fun _ =>
        checkGroupSizes host info (groupNames d) (slots d : Int)) = _
      rw [forM_checkGroup_typeError hinfo hdec halign hsizes hne]
      rfl
  | cons p rest =>
      have hmem : superSizeKey ∈ d.keys ∧ dynamicListKey ∈ d.keys := by
        have hlisted' := hlisted
        unfold listedInSuper at hlisted'
        split_ifs at hlisted' with hsuper
        refine ⟨hsuper, ?_⟩
        split at hlisted'
        · rename_i list hlist
          exact OrderedDict.mem_keys_iff.mpr ⟨list, hlist⟩
        · cases hlisted'
      obtain ⟨maxSize, warnLimit, error, heq, -⟩ := checkSuper_eq hinfo hdec hmem.1 hmem.2
      have hp : p ∈ listed d := by
        unfold listed
        rw [hlisted]
        simp
      rw [heq, hlisted, checkSum_typeError hinfo halign (hsizes p hp)]
      rfl

theorem decides_checkPartitionSizes
    (hdec : DecimalEntries host d)
    (hdap : d.get? "use_dynamic_partitions".toList = some "true".toList)
    (hsizes : ∀ p ∈ listed d, HasSize host d p)
    (hnone : alignmentKey ∉ d.keys ∨ listed d = []) :
    Decides (checkPartitionSizes host (ofStrings d)) (SizesFit host d) := by
  obtain ⟨info, hnew, hinfo⟩ := newChecker_spec hdec
  unfold checkPartitionSizes
  rw [hnew]
  exact decides_checkAll hinfo hdec hdap hsizes hnone

/-- A file without an alignment is accepted iff the sizes fit. -/
theorem checkPartitionSizesOfFile_eq_ok_iff
    {lines : List Str} (hdec : DecimalEntries host (loadDictionaryFromLines lines))
    (hdap : (loadDictionaryFromLines lines).get? "use_dynamic_partitions".toList =
      some "true".toList)
    (hsizes : ∀ p ∈ listed (loadDictionaryFromLines lines),
      HasSize host (loadDictionaryFromLines lines) p)
    (hnone : alignmentKey ∉ (loadDictionaryFromLines lines).keys) :
    checkPartitionSizesOfFile host lines = .ok () ↔
      SizesFit host (loadDictionaryFromLines lines) := by
  have hdecides := decides_checkPartitionSizes hdec hdap hsizes (Or.inl hnone)
  refine ⟨fun hok => ?_, hdecides.eq_ok⟩
  rcases hdecides with ⟨-, hfit⟩ | ⟨⟨message, herr⟩, -⟩
  · exact hfit
  · rw [checkPartitionSizesOfFile, herr] at hok
    cases hok

/-- `RuntimeError` is raised iff the sizes do not fit, and nothing else, iff there is no
alignment or no partition is listed. -/
theorem checkPartitionSizes_iff
    (hdec : DecimalEntries host d)
    (hdap : d.get? "use_dynamic_partitions".toList = some "true".toList)
    (hsizes : ∀ p ∈ listed d, HasSize host d p) :
    ChecksSizes host d ↔ alignmentKey ∉ d.keys ∨ listed d = [] := by
  unfold ChecksSizes
  constructor
  · rintro ⟨-, hother⟩
    by_contra hnot
    rw [not_or, not_not] at hnot
    obtain ⟨info, hnew, hinfo⟩ := newChecker_spec hdec
    refine hother "TypeError".toList ?_
    unfold checkPartitionSizes
    rw [hnew]
    exact checkAll_typeError hinfo hdec hdap hsizes hnot.1 hnot.2
  · intro h
    rcases decides_checkPartitionSizes hdec hdap hsizes h with ⟨hok, hfit⟩ | ⟨⟨message, herr⟩, hfit⟩
    · rw [hok]
      simp [hfit]
    · rw [herr]
      simp [hfit]

def plainHost : Host :=
  ⟨Unicode.ascii, false, fun _ => .error (.raised "FileNotFoundError".toList)⟩

/-- One partition of 40 bytes in a super partition of 100. -/
def systemLines : List Str :=
  ["use_dynamic_partitions=true".toList, "super_partition_size=100".toList,
    "dynamic_partition_list=system".toList, "system_image_size=40".toList]

theorem checkPartitionSizes_system :
    ChecksSizes plainHost (loadDictionaryFromLines systemLines) := by
  have hgroup : ∀ key ∈ (loadDictionaryFromLines systemLines).keys,
      ¬"_group_size".toList <:+ key := by decide +kernel
  have hdec : DecimalEntries plainHost (loadDictionaryFromLines systemLines) := by
    refine ⟨?_, ?_, ?_, ?_⟩
    · intro s hs
      have hsize : (loadDictionaryFromLines systemLines).get? superSizeKey =
          some "100".toList := by decide +kernel
      rw [hsize] at hs
      cases hs
      exact ⟨100, by decide⟩
    · intro s hs
      have hnone : (loadDictionaryFromLines systemLines).get? warnLimitKey = none := by
        decide +kernel
      rw [hnone] at hs
      cases hs
    · intro s hs
      have hnone : (loadDictionaryFromLines systemLines).get? errorLimitKey = none := by
        decide +kernel
      rw [hnone] at hs
      cases hs
    · intro group s hs
      exact absurd (List.suffix_append _ _)
        (hgroup _ (OrderedDict.mem_keys_iff.mpr ⟨s, hs⟩))
  have hlisted : listed (loadDictionaryFromLines systemLines) = ["system".toList] := by
    decide +kernel
  refine (checkPartitionSizes_iff hdec (by decide +kernel) ?_).mpr (Or.inl (by decide +kernel))
  intro p hp
  rw [hlisted, List.mem_singleton] at hp
  rw [hp]
  exact ⟨40, by decide +kernel⟩

/-- With an alignment the partition is listed and has a size, and the check raises `TypeError`. -/
theorem checkPartitionSizes_aligned :
    (∀ p ∈ listed (loadDictionaryFromLines
      (systemLines ++ ["super_partition_alignment=16".toList])),
      HasSize plainHost (loadDictionaryFromLines
        (systemLines ++ ["super_partition_alignment=16".toList])) p) ∧
    ¬ChecksSizes plainHost (loadDictionaryFromLines
      (systemLines ++ ["super_partition_alignment=16".toList])) := by
  constructor
  · have hlisted : listed (loadDictionaryFromLines
        (systemLines ++ ["super_partition_alignment=16".toList])) = ["system".toList] := by
      decide +kernel
    intro p hp
    rw [hlisted, List.mem_singleton] at hp
    rw [hp]
    exact ⟨40, by decide +kernel⟩
  · rintro ⟨-, hother⟩
    exact hother "TypeError".toList (by decide +kernel)

end Rounding

end CheckPartitionSizes
end AndroidBuild
