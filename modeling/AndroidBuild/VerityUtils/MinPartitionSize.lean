import AndroidBuild.Lib.Loop

/-!
# `CalculateMinPartitionSize`

The search brackets the partition size between `lo` and `hi`, which it
estimates from floating-point ratios, and then bisects between them in steps of
a block.  The calculator of the image size and the estimates are parameters;
`none` is an exception.
-/

namespace AndroidBuild
namespace VerityUtils

open Loop

/-- `common.BLOCK_SIZE`. -/
def blockSize : Int := 4096

inductive SizeError where
  /-- The calculator or the arithmetic of the ratios raised. -/
  | raised
  | exhausted
deriving DecidableEq

section Model

variable (sizeCalculator : Int → Option Int) (estimate : Int → Int → Option Int)
variable (imageSize : Int)

def calculate (p : Int) : Except SizeError Int :=
  match sizeCalculator p with
  | some v => .ok v
  | none => .error .raised

/-- `int(image_size / image_ratio)` with `image_ratio = max_image_size / float(bound)`. -/
def estimated (maxImageSize bound : Int) : Except SizeError Int :=
  match estimate maxImageSize bound with
  | some v => .ok v
  | none => .error .raised

/-- The variables of the two loops that estimate `lo` and `hi`. -/
structure Bracket where
  bound : Int
  delta : Int
  maxImageSize : Int

def lowerLo (s : Bracket) : Except SizeError Bracket := do
  let e ← estimated estimate s.maxImageSize s.bound
  let lo := e / blockSize * blockSize - s.delta
  let m ← calculate sizeCalculator lo
  pure ⟨lo, s.delta * 2, m⟩

def raiseHi (s : Bracket) : Except SizeError Bracket := do
  let e ← estimated estimate s.maxImageSize s.bound
  let hi := e / blockSize * blockSize + s.delta
  let m ← calculate sizeCalculator hi
  pure ⟨hi, s.delta * 2, m⟩

structure Search where
  lo : Int
  hi : Int
  partitionSize : Int

def bisect (s : Search) : Except SizeError Search := do
  let mid := (s.lo + s.hi) / (2 * blockSize) * blockSize
  let m ← calculate sizeCalculator mid
  if m ≥ imageSize then
    pure
      { s with
        partitionSize := if mid < s.partitionSize then mid else s.partitionSize
        hi := mid }
  else pure { s with lo := mid + blockSize }

/-- The binary search from `lo` and `hi` on. -/
def binarySearch (fuel : Nat) (lo hi : Int) : Except SizeError Search :=
  whileLoop .exhausted (fun s => decide (s.lo < s.hi)) (bisect sizeCalculator imageSize) fuel
    ⟨lo, hi, hi⟩

/-- `CalculateMinPartitionSize`, with at most `fuel` rounds of each loop. -/
def calculateMinPartitionSize (fuel : Nat) : Except SizeError Int := do
  let m ← calculate sizeCalculator imageSize
  let e ← estimated estimate m imageSize
  let lo := e / blockSize * blockSize - blockSize
  let m ← calculate sizeCalculator lo
  let low ← whileLoop .exhausted (fun s => decide (s.maxImageSize > imageSize))
    (lowerLo sizeCalculator estimate) fuel ⟨lo, blockSize, m⟩
  let hi := low.bound + blockSize
  let m ← calculate sizeCalculator hi
  let high ← whileLoop .exhausted (fun s => decide (s.maxImageSize < imageSize))
    (raiseHi sizeCalculator estimate) fuel ⟨hi, blockSize, m⟩
  let r ← binarySearch sizeCalculator imageSize fuel low.bound high.bound
  pure r.partitionSize

end Model

section Invariants

variable {sizeCalculator : Int → Option Int} {estimate : Int → Int → Option Int}
variable {imageSize : Int}

theorem calculate_eq_ok
    {p v : Int} :
    calculate sizeCalculator p = .ok v ↔ sizeCalculator p = some v := by
  unfold calculate
  cases sizeCalculator p <;> simp

/-- A bound is a multiple of the block size, and its image size has been calculated. -/
structure Bracket.Valid (sizeCalculator : Int → Option Int) (s : Bracket) : Prop where
  bound : blockSize ∣ s.bound
  delta : blockSize ∣ s.delta
  size : sizeCalculator s.bound = some s.maxImageSize

theorem lowerLo_valid
    {s s' : Bracket} (h : s.Valid sizeCalculator) (hrun : lowerLo sizeCalculator estimate s = .ok s') :
    s'.Valid sizeCalculator := by
  obtain ⟨e, _, hrun⟩ := bind_eq_ok.mp hrun
  obtain ⟨m, hm, hpure⟩ := bind_eq_ok.mp hrun
  cases hpure
  refine ⟨?_, Dvd.dvd.mul_right h.delta 2, calculate_eq_ok.mp hm⟩
  exact dvd_sub (Dvd.intro_left _ rfl) h.delta

theorem raiseHi_valid
    {s s' : Bracket} (h : s.Valid sizeCalculator) (hrun : raiseHi sizeCalculator estimate s = .ok s') :
    s'.Valid sizeCalculator := by
  obtain ⟨e, _, hrun⟩ := bind_eq_ok.mp hrun
  obtain ⟨m, hm, hpure⟩ := bind_eq_ok.mp hrun
  cases hpure
  refine ⟨?_, Dvd.dvd.mul_right h.delta 2, calculate_eq_ok.mp hm⟩
  exact dvd_add (Dvd.intro_left _ rfl) h.delta

/-- The partition size found so far accommodates the image. -/
structure Search.Valid (sizeCalculator : Int → Option Int) (imageSize : Int) (s : Search) :
    Prop where
  lo : blockSize ∣ s.lo
  hi : blockSize ∣ s.hi
  partitionSize : s.partitionSize = s.hi
  fits : ∃ v, sizeCalculator s.hi = some v ∧ imageSize ≤ v

theorem midpoint_bounds
    {lo hi : Int} (hlt : lo < hi) :
    (lo + hi) / (2 * blockSize) * blockSize < hi ∧
      lo < (lo + hi) / (2 * blockSize) * blockSize + blockSize := by
  unfold blockSize
  omega

/-- One round of the binary search. -/
theorem bisect_cases
    {s s' : Search} (h : s.Valid sizeCalculator imageSize) (hlt : s.lo < s.hi)
    (hrun : bisect sizeCalculator imageSize s = .ok s') :
    s'.Valid sizeCalculator imageSize ∧
      ((s'.lo = s.lo ∧ s'.hi < s.hi) ∨
        ∃ mid v, blockSize ∣ mid ∧ sizeCalculator mid = some v ∧ v < imageSize ∧
          s.lo < mid + blockSize ∧ s'.lo = mid + blockSize ∧ s'.hi = s.hi) := by
  have hmid := midpoint_bounds hlt
  have hdvd : blockSize ∣ (s.lo + s.hi) / (2 * blockSize) * blockSize := Dvd.intro_left _ rfl
  obtain ⟨m, hm, hrun⟩ := bind_eq_ok.mp hrun
  have hm := calculate_eq_ok.mp hm
  by_cases hge : m ≥ imageSize
  · rw [if_pos hge] at hrun
    cases hrun
    refine ⟨⟨h.lo, hdvd, ?_, m, hm, hge⟩, Or.inl ⟨rfl, hmid.1⟩⟩
    rw [h.partitionSize, if_pos hmid.1]
  · rw [if_neg hge] at hrun
    cases hrun
    refine ⟨⟨dvd_add hdvd (dvd_refl _), h.hi, h.partitionSize, h.fits⟩, Or.inr ?_⟩
    exact ⟨_, m, hdvd, hm, not_le.mp hge, hmid.2, rfl, rfl⟩

theorem binarySearch_valid
    {fuel : Nat} {lo hi : Int} {r : Search} (hstart : Search.Valid sizeCalculator imageSize ⟨lo, hi, hi⟩)
    (hrun : binarySearch sizeCalculator imageSize fuel lo hi = .ok r) :
    r.Valid sizeCalculator imageSize ∧ r.hi ≤ r.lo := by
  obtain ⟨hvalid, hcond⟩ := whileLoop_ok (fun s => s.Valid sizeCalculator imageSize)
    (fun s s' hs hc hb => (bisect_cases hs (by simpa using hc) hb).1) hrun hstart
  exact ⟨hvalid, by simpa using hcond⟩

/-- The binary search does not run out of rounds, whatever the calculator returns. -/
theorem binarySearch_terminates
    (sizeCalculator : Int → Option Int) (imageSize lo hi : Int) {fuel : Nat}
    (hfuel : (hi - lo).toNat < fuel) :
    binarySearch sizeCalculator imageSize fuel lo hi ≠ .error .exhausted := by
  refine whileLoop_avoids (fun s => (s.hi - s.lo).toNat) ?_ ?_ hfuel
  · intro s hb
    rw [bisect] at hb
    cases hm : calculate sizeCalculator ((s.lo + s.hi) / (2 * blockSize) * blockSize) with
    | error e =>
        have he : e = .raised := by
          unfold calculate at hm
          split at hm <;> cases hm
          rfl
        simp only [hm, he] at hb
        cases hb
    | ok m =>
        simp only [hm] at hb
        change (if m ≥ imageSize then _ else _) = _ at hb
        by_cases hge : m ≥ imageSize
        · rw [if_pos hge] at hb
          cases hb
        · rw [if_neg hge] at hb
          cases hb
  · intro s s' hc hb
    have hlt : s.lo < s.hi := by simpa using hc
    have hmid := midpoint_bounds hlt
    obtain ⟨m, _, hb⟩ := bind_eq_ok.mp hb
    by_cases hge : m ≥ imageSize
    · rw [if_pos hge] at hb
      cases hb
      simp only
      omega
    · rw [if_neg hge] at hb
      cases hb
      simp only
      omega

theorem calculateMinPartitionSize_bracket
    {fuel : Nat} {p : Int}
    (hrun : calculateMinPartitionSize sizeCalculator estimate imageSize fuel = .ok p) :
    ∃ lo hi r m, blockSize ∣ lo ∧ sizeCalculator lo = some m ∧ m ≤ imageSize ∧
      Search.Valid sizeCalculator imageSize ⟨lo, hi, hi⟩ ∧
      binarySearch sizeCalculator imageSize fuel lo hi = .ok r ∧ r.partitionSize = p := by
  obtain ⟨_, _, hrun⟩ := bind_eq_ok.mp hrun
  obtain ⟨e, _, hrun⟩ := bind_eq_ok.mp hrun
  obtain ⟨m, hm, hrun⟩ := bind_eq_ok.mp hrun
  obtain ⟨low, hlow, hrun⟩ := bind_eq_ok.mp hrun
  obtain ⟨m', hm', hrun⟩ := bind_eq_ok.mp hrun
  obtain ⟨high, hhigh, hrun⟩ := bind_eq_ok.mp hrun
  obtain ⟨r, hr, hpure⟩ := bind_eq_ok.mp hrun
  cases hpure
  obtain ⟨hlowValid, hlowCond⟩ := whileLoop_ok (Bracket.Valid sizeCalculator)
    (fun s s' hs _ hb => lowerLo_valid hs hb) hlow
    ⟨dvd_sub (Dvd.intro_left _ rfl) (dvd_refl _), dvd_refl _, calculate_eq_ok.mp hm⟩
  obtain ⟨hhighValid, hhighCond⟩ := whileLoop_ok (Bracket.Valid sizeCalculator)
    (fun s s' hs _ hb => raiseHi_valid hs hb) hhigh
    ⟨dvd_add hlowValid.bound (dvd_refl _), dvd_refl _, calculate_eq_ok.mp hm'⟩
  refine ⟨low.bound, high.bound, r, low.maxImageSize, hlowValid.bound, hlowValid.size,
    by simpa using hlowCond, ⟨hlowValid.bound, hhighValid.bound, rfl, high.maxImageSize,
      hhighValid.size, by simpa using hhighCond⟩, hr, rfl⟩

end Invariants

section Minimal

variable {sizeCalculator : Int → Option Int} {imageSize : Int}

/-- The calculator increases strictly on the multiples of the block size for which it returns. -/
def StrictOnBlocks (sizeCalculator : Int → Option Int) : Prop :=
  ∀ p q v w, blockSize ∣ p → blockSize ∣ q → p < q →
    sizeCalculator p = some v → sizeCalculator q = some w → v < w

/-- Nothing below `lo` accommodates the image. -/
def Excluded (sizeCalculator : Int → Option Int) (imageSize : Int) (s : Search) : Prop :=
  ∀ q v, blockSize ∣ q → q < s.lo → sizeCalculator q = some v → v < imageSize

theorem bisect_excluded
    (hstrict : StrictOnBlocks sizeCalculator) {s s' : Search}
    (h : s.Valid sizeCalculator imageSize) (hex : Excluded sizeCalculator imageSize s)
    (hlt : s.lo < s.hi) (hrun : bisect sizeCalculator imageSize s = .ok s') :
    Excluded sizeCalculator imageSize s' := by
  intro q v hq hqlo hv
  rcases (bisect_cases h hlt hrun).2 with ⟨hlo, _⟩ | ⟨mid, w, hmid, hw, hwlt, _, hlo, _⟩
  · rw [hlo] at hqlo
    exact hex q v hq hqlo hv
  · rcases lt_trichotomy q mid with hqm | rfl | hqm
    · exact lt_trans (hstrict q mid v w hq hmid hqm hv hw) hwlt
    · rw [hv] at hw
      cases hw
      exact hwlt
    · -- no multiple lies between `mid` and the next one
      obtain ⟨j, rfl⟩ := hq
      obtain ⟨k, rfl⟩ := hmid
      unfold blockSize at *
      omega

/-- The partition sizes that accommodate the image. -/
def Accommodates (sizeCalculator : Int → Option Int) (imageSize : Int) : Set Int :=
  { q | blockSize ∣ q ∧ ∃ v, sizeCalculator q = some v ∧ imageSize ≤ v }

/-- `CalculateMinPartitionSize` returns a size that accommodates the image, the least one if
the calculator increases, and its binary search terminates. -/
theorem calculateMinPartitionSize_least
    (sizeCalculator : Int → Option Int) (estimate : Int → Int → Option Int) (imageSize : Int) :
    (∀ fuel p, calculateMinPartitionSize sizeCalculator estimate imageSize fuel = .ok p →
      p ∈ Accommodates sizeCalculator imageSize) ∧
    (StrictOnBlocks sizeCalculator → ∀ fuel p,
      calculateMinPartitionSize sizeCalculator estimate imageSize fuel = .ok p →
      IsLeast (Accommodates sizeCalculator imageSize) p) ∧
    ∀ lo hi fuel, (hi - lo).toNat < fuel →
      binarySearch sizeCalculator imageSize fuel lo hi ≠ .error .exhausted := by
  have hmem : ∀ fuel p, calculateMinPartitionSize sizeCalculator estimate imageSize fuel = .ok p →
      p ∈ Accommodates sizeCalculator imageSize := by
    intro fuel p hrun
    obtain ⟨lo, hi, r, _, _, _, _, hvalid, hsearch, rfl⟩ := calculateMinPartitionSize_bracket hrun
    obtain ⟨hr, _⟩ := binarySearch_valid hvalid hsearch
    rw [hr.partitionSize]
    exact ⟨hr.hi, hr.fits⟩
  refine ⟨hmem, ?_, fun lo hi fuel => binarySearch_terminates sizeCalculator imageSize lo hi⟩
  intro hstrict fuel p hrun
  refine ⟨hmem fuel p hrun, ?_⟩
  obtain ⟨lo, hi, r, m, hlo, hm, hmle, hvalid, hsearch, rfl⟩ := calculateMinPartitionSize_bracket hrun
  have hstart : Excluded sizeCalculator imageSize ⟨lo, hi, hi⟩ := by
    intro q v hq hqlo hv
    exact lt_of_lt_of_le (hstrict q lo v m hq hlo hqlo hv hm) hmle
  obtain ⟨⟨hr, hex⟩, hcond⟩ := whileLoop_ok
    (fun s => s.Valid sizeCalculator imageSize ∧ Excluded sizeCalculator imageSize s)
    (fun s s' hs hc hb => ⟨(bisect_cases hs.1 (by simpa using hc) hb).1,
      bisect_excluded hstrict hs.1 hs.2 (by simpa using hc) hb⟩) hsearch ⟨hvalid, hstart⟩
  rintro q ⟨hq, v, hv, hle⟩
  rw [hr.partitionSize]
  by_contra hlt
  have hdone : r.hi ≤ r.lo := by simpa using hcond
  have := hex q v hq (by omega) hv
  omega

/-- A footer of two blocks; nothing fits a smaller partition. -/
def footerCalculator (p : Int) : Option Int :=
  if p - 8192 ≤ 0 then none else some (p - 8192)

/-- The estimate is the exact quotient. -/
theorem calculateMinPartitionSize_least_footer :
    calculateMinPartitionSize footerCalculator (fun m p => some (40000 * p / m)) 40000 32 =
        .ok 49152 ∧
      IsLeast (Accommodates footerCalculator 40000) 49152 := by
  have hrun : calculateMinPartitionSize footerCalculator
      (fun m p => some (40000 * p / m)) 40000 32 = .ok 49152 := by rfl
  refine ⟨hrun, (calculateMinPartitionSize_least _ _ _).2.1 ?_ _ _ hrun⟩
  intro p q v w _ _ hpq hv hw
  unfold footerCalculator at hv hw
  split_ifs at hv hw
  cases hv
  cases hw
  omega

end Minimal

end VerityUtils
end AndroidBuild
