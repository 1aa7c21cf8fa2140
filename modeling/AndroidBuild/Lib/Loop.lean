import Mathlib.Tactic

/-!
# Loops over an explicit state that may fail

A `for` loop over a list is `List.foldlM` in the `Except` monad and a `while`
loop is `whileLoop`, which carries an explicit bound on the number of rounds.
This file states their invariant rules.

* `forLoop_yields`: every round keeps the invariant or fails with an error of a
  given kind, so the loop does.
* `forLoop_total`: every round succeeds and keeps the invariant, so the loop
  succeeds and ends in the invariant.
* `forLoop_ok`: a loop that is known to have succeeded ends in the invariant.
* `forLoop_avoids`: no round ends with a given error, so the loop does not.
* `whileLoop_total`, `whileLoop_ok`, `whileLoop_yields`, `whileLoop_avoids`: the
  same for a loop whose rounds decrease a measure that is below the bound.
* `whileLoop_error`: no round fails, so the loop can only run out.

The invariant of a `for` loop sees the part of the list already consumed.
-/

namespace AndroidBuild
namespace Loop

universe u v w

variable {ε : Type u} {σ : Type v} {α : Type w}

theorem bind_eq_ok
    {τ : Type v} {x : Except ε σ} {f : σ → Except ε τ} {t : τ} :
    (x >>= f) = .ok t ↔ ∃ s, x = .ok s ∧ f s = .ok t := by
  cases x with
  | error e => simp [bind, Except.bind]
  | ok s => simp [bind, Except.bind]

/-- A list of computations that all succeed. -/
theorem mapM_eq_ok
    {α β : Type v} {f : α → Except ε β} {xs : List α} {ys : List β} :
    xs.mapM f = .ok ys ↔ List.Forall₂ (fun x y => f x = .ok y) xs ys := by
  induction xs generalizing ys with
  | nil =>
      rw [List.mapM_nil, List.forall₂_nil_left_iff]
      constructor
      · rintro ⟨⟩
        rfl
      · rintro rfl
        rfl
  | cons x xs ih =>
      rw [List.mapM_cons, bind_eq_ok]
      simp only [bind_eq_ok, List.forall₂_cons_left_iff, ih]
      constructor
      · rintro ⟨y, hy, ys', hys', ⟨⟩⟩
        exact ⟨y, ys', hy, hys', rfl⟩
      · rintro ⟨y, ys', hy, hys', rfl⟩
        exact ⟨y, hy, ys', hys', rfl⟩

theorem mapM_eq_ok_map
    {α β : Type v} {f : α → Except ε β} {g : α → β} {xs : List α} :
    xs.mapM f = .ok (xs.map g) ↔ ∀ x ∈ xs, f x = .ok (g x) := by
  rw [mapM_eq_ok, List.forall₂_map_right_iff, List.forall₂_same]

/-- Each computation of a list has succeeded. -/
theorem exists_of_mapM_eq_ok
    {α β : Type v} {f : α → Except ε β} {xs : List α} {ys : List β} (h : xs.mapM f = .ok ys)
    {x : α} (hx : x ∈ xs) :
    ∃ y, f x = .ok y := by
  rw [mapM_eq_ok] at h
  induction h with
  | nil => cases hx
  | cons hy _ ih =>
      rcases List.mem_cons.mp hx with rfl | hx
      · exact ⟨_, hy⟩
      · exact ih hx

/-- When every computation of a list succeeds, they all do. -/
theorem mapM_total
    {α β : Type v} {f : α → Except ε β} {xs : List α} (h : ∀ x ∈ xs, ∃ y, f x = .ok y) :
    ∃ ys, xs.mapM f = .ok ys := by
  induction xs with
  | nil => exact ⟨[], rfl⟩
  | cons x xs ih =>
      rw [List.forall_mem_cons] at h
      obtain ⟨y, hy⟩ := h.1
      obtain ⟨ys, hys⟩ := ih h.2
      exact ⟨y :: ys, mapM_eq_ok.mpr (.cons hy (mapM_eq_ok.mp hys))⟩

/-- The results of a list of computations that all succeed. -/
theorem mem_of_mapM_eq_ok
    {α β : Type v} {f : α → Except ε β} {xs : List α} {ys : List β} (h : xs.mapM f = .ok ys)
    {y : β} :
    y ∈ ys ↔ ∃ x ∈ xs, f x = .ok y := by
  replace h := mapM_eq_ok.mp h
  induction h with
  | nil => simp
  | @cons x z xs ys hx _ ih =>
      rw [List.mem_cons, List.exists_mem_cons_iff, hx, Except.ok.injEq]
      exact or_congr eq_comm ih

section Yields

variable {E : ε → Prop}

/-- The computation ends in `P`, or with an error in `E`. -/
def Yields (E : ε → Prop) (P : σ → Prop) : Except ε σ → Prop
  | .ok s => P s
  | .error e => E e

theorem Yields.mono
    {P Q : σ → Prop} {x : Except ε σ} (hx : Yields E P x) (hPQ : ∀ s, P s → Q s) :
    Yields E Q x := by
  cases x with
  | error e => exact hx
  | ok s => exact hPQ s hx

theorem Yields.bind
    {τ : Type v} {P : σ → Prop} {Q : τ → Prop} {x : Except ε σ} {f : σ → Except ε τ}
    (hx : Yields E P x) (hf : ∀ s, P s → Yields E Q (f s)) :
    Yields E Q (x >>= f) := by
  cases x with
  | error e => exact hx
  | ok s => exact hf s hx

theorem Yields.exists_ok
    {P : σ → Prop} {x : Except ε σ} (hx : Yields (fun _ => False) P x) :
    ∃ s, x = .ok s ∧ P s := by
  cases x with
  | error e => exact hx.elim
  | ok s => exact ⟨s, rfl, hx⟩

/-- Invariant rule for a `for` loop whose rounds may fail with the errors in `E`. -/
theorem forLoop_yields
    {body : σ → α → Except ε σ} (I : List α → σ → Prop)
    (xs : List α) (s : σ)
    (hinit : I [] s)
    (hstep : ∀ done x rest r, xs = done ++ x :: rest → I done r →
      Yields E (I (done ++ [x])) (body r x)) :
    Yields E (I xs) (xs.foldlM body s) := by
  suffices H : ∀ (rest done : List α) (r : σ), xs = done ++ rest → I done r →
      Yields E (I xs) (rest.foldlM body r) from
    H xs [] s rfl hinit
  intro rest
  induction rest with
  | nil =>
      intro done r hxs hI
      rw [hxs, List.append_nil]
      exact hI
  | cons x rest ih =>
      intro done r hxs hI
      rw [List.foldlM_cons]
      refine (hstep done x rest r hxs hI).bind ?_
      intro r' hI'
      exact ih (done ++ [x]) r' (by simp [hxs]) hI'

/-- A `for` loop whose rounds keep `P` or fail with the errors in `E`. -/
theorem forLoop_yields_of_mem
    {body : σ → α → Except ε σ} (P : σ → Prop) {xs : List α} {s : σ} (hinit : P s)
    (hstep : ∀ x ∈ xs, ∀ r, P r → Yields E P (body r x)) :
    Yields E P (xs.foldlM body s) := by
  refine forLoop_yields (fun _ => P) xs s hinit ?_
  intro done x rest r hxs hP
  exact hstep x (by simp [hxs]) r hP

end Yields

section ForLoop

variable {body : σ → α → Except ε σ}

/-- Peel the first round from a successful `for` loop. -/
theorem foldlM_cons_ok
    {x : α} {xs : List α} {s t : σ}
    (h : (x :: xs).foldlM body s = .ok t) :
    ∃ r, body s x = .ok r ∧ xs.foldlM body r = .ok t := by
  rw [List.foldlM_cons] at h
  cases hb : body s x with
  | error e =>
      rw [hb] at h
      cases h
  | ok r =>
      rw [hb] at h
      exact ⟨r, rfl, h⟩

/-- A loop whose rounds compute a value that does not depend on the state. -/
theorem foldlM_eq_mapM
    {β : Type v} {g : α → Except ε β} {f : σ → β → σ}
    (h : ∀ s x, body s x = (g x).map (f s)) (xs : List α) (s : σ) :
    xs.foldlM body s = (xs.mapM g).map fun ys => ys.foldl f s := by
  induction xs generalizing s with
  | nil => rfl
  | cons x xs ih =>
      rw [List.foldlM_cons, List.mapM_cons, h]
      cases g x with
      | error e => rfl
      | ok y =>
          change xs.foldlM body (f s y) = _
          rw [ih]
          cases hys : xs.mapM g with
          | error e => simp [Except.map, bind, Except.bind]
          | ok ys => simp [Except.map, bind, Except.bind, pure, Except.pure]

/-- Invariant rule for a `for` loop all of whose rounds succeed. -/
theorem forLoop_total
    (body : σ → α → Except ε σ) (I : List α → σ → Prop)
    (xs : List α) (s : σ)
    (hinit : I [] s)
    (hstep : ∀ done x rest r, xs = done ++ x :: rest → I done r →
      ∃ r', body r x = .ok r' ∧ I (done ++ [x]) r') :
    ∃ t, xs.foldlM body s = .ok t ∧ I xs t := by
  refine (forLoop_yields I xs s hinit fun done x rest r hxs hI => ?_).exists_ok
  obtain ⟨r', hr', hI'⟩ := hstep done x rest r hxs hI
  rw [hr']
  exact hI'

/-- Invariant rule for a `for` loop that is known to have succeeded. -/
theorem forLoop_ok
    (I : List α → σ → Prop)
    {xs : List α} {s t : σ}
    (hrun : xs.foldlM body s = .ok t)
    (hinit : I [] s)
    (hstep : ∀ done x rest r r', xs = done ++ x :: rest → I done r →
      body r x = .ok r' → I (done ++ [x]) r') :
    I xs t := by
  have hloop : Yields (fun _ => True) (I xs) (xs.foldlM body s) := by
    refine forLoop_yields I xs s hinit fun done x rest r hxs hI => ?_
    cases hr : body r x with
    | error e => trivial
    | ok r' => exact hstep done x rest r r' hxs hI hr
  rw [hrun] at hloop
  exact hloop

/-- A `for` loop whose rounds keep `P` keeps `P`. -/
theorem forLoop_preserves
    (P : σ → Prop)
    {xs : List α} {s t : σ}
    (hrun : xs.foldlM body s = .ok t)
    (hinit : P s)
    (hstep : ∀ x r r', x ∈ xs → P r → body r x = .ok r' → P r') :
    P t := by
  refine forLoop_ok (fun _ r => P r) hrun hinit ?_
  intro done x rest r r' hxs hP hr
  exact hstep x r r' (by simp [hxs]) hP hr

end ForLoop

section Avoids

/-- The computation does not end with the error `e`. -/
def Avoids (e : ε) (r : Except ε σ) : Prop :=
  r ≠ .error e

theorem avoids_ok
    {e : ε} {s : σ} :
    Avoids e (.ok s : Except ε σ) := by
  intro h
  cases h

theorem avoids_error
    {e e' : ε} (h : e' ≠ e) :
    Avoids e (.error e' : Except ε σ) := by
  intro he
  cases he
  exact h rfl

theorem Avoids.bind
    {τ : Type v} {e : ε} {x : Except ε σ} {f : σ → Except ε τ}
    (hx : Avoids e x) (hf : ∀ s, x = .ok s → Avoids e (f s)) :
    Avoids e (x >>= f) := by
  cases x with
  | error e' =>
      intro h
      cases h
      exact hx rfl
  | ok s => exact hf s rfl

/-- Invariant rule for a `for` loop none of whose rounds ends with the error `e`. -/
theorem forLoop_avoids
    {e : ε} {body : σ → α → Except ε σ} (I : List α → σ → Prop)
    (xs : List α) (s : σ)
    (hinit : I [] s)
    (hstep : ∀ done x rest r, xs = done ++ x :: rest → I done r →
      Avoids e (body r x) ∧ ∀ r', body r x = .ok r' → I (done ++ [x]) r') :
    Avoids e (xs.foldlM body s) := by
  have hloop : Yields (· ≠ e) (I xs) (xs.foldlM body s) := by
    refine forLoop_yields I xs s hinit fun done x rest r hxs hI => ?_
    obtain ⟨havoid, hkeep⟩ := hstep done x rest r hxs hI
    cases hr : body r x with
    | error e' => exact fun he => havoid (he ▸ hr)
    | ok r' => exact hkeep r' hr
  intro he
  rw [he] at hloop
  exact hloop rfl

end Avoids

section WhileLoop

variable (exhausted : ε) (cond : σ → Bool) (body : σ → Except ε σ)

/-- `while cond: body`, for at most `fuel` rounds. -/
def whileLoop : Nat → σ → Except ε σ
  | 0, s => if cond s then .error exhausted else .ok s
  | fuel + 1, s =>
      if cond s then
        match body s with
        | .ok s' => whileLoop fuel s'
        | .error e => .error e
      else .ok s

variable {exhausted cond body}

/-- Invariant rule for a `while` loop with a decreasing measure. -/
theorem whileLoop_total
    (exhausted : ε) (cond : σ → Bool) (body : σ → Except ε σ) (I : σ → Prop) (measure : σ → Nat)
    (hstep : ∀ s, I s → cond s = true →
      ∃ s', body s = .ok s' ∧ I s' ∧ measure s' < measure s)
    (fuel : Nat) (s : σ)
    (hfuel : measure s ≤ fuel) (hinit : I s) :
    ∃ t, whileLoop exhausted cond body fuel s = .ok t ∧ I t ∧
      cond t = false := by
  induction fuel generalizing s with
  | zero =>
      have hc : cond s = false := by
        by_contra hc
        obtain ⟨s', _, _, hlt⟩ := hstep s hinit (by simpa using hc)
        omega
      exact ⟨s, by simp [whileLoop, hc], hinit, hc⟩
  | succ fuel ih =>
      cases hc : cond s with
      | false => exact ⟨s, by simp [whileLoop, hc], hinit, hc⟩
      | true =>
          obtain ⟨s', hs', hI, hlt⟩ := hstep s hinit hc
          obtain ⟨t, ht, hIt, hct⟩ := ih s' (by omega) hI
          exact ⟨t, by simpa [whileLoop, hc, hs'] using ht, hIt, hct⟩

/-- Invariant rule for a `while` loop that is known to have succeeded. -/
theorem whileLoop_ok
    (I : σ → Prop)
    (hstep : ∀ s s', I s → cond s = true → body s = .ok s' → I s')
    {fuel : Nat} {s t : σ}
    (hrun : whileLoop exhausted cond body fuel s = .ok t)
    (hinit : I s) :
    I t ∧ cond t = false := by
  induction fuel generalizing s with
  | zero =>
      cases hc : cond s with
      | false =>
          simp only [whileLoop, hc, Bool.false_eq_true, if_false] at hrun
          cases hrun
          exact ⟨hinit, hc⟩
      | true => simp [whileLoop, hc] at hrun
  | succ fuel ih =>
      cases hc : cond s with
      | false =>
          simp only [whileLoop, hc, Bool.false_eq_true, if_false] at hrun
          cases hrun
          exact ⟨hinit, hc⟩
      | true =>
          cases hb : body s with
          | error e => simp [whileLoop, hc, hb] at hrun
          | ok s' =>
              simp only [whileLoop, hc, hb, if_true] at hrun
              exact ih hrun (hstep s s' hinit hc hb)

/-- A loop whose successful rounds decrease a measure does not run out of rounds. -/
theorem whileLoop_avoids
    (measure : σ → Nat) (hbody : ∀ s, Avoids exhausted (body s))
    (hstep : ∀ s s', cond s = true → body s = .ok s' → measure s' < measure s)
    {fuel : Nat} {s : σ} (hfuel : measure s < fuel) :
    Avoids exhausted (whileLoop exhausted cond body fuel s) := by
  induction fuel generalizing s with
  | zero => omega
  | succ fuel ih =>
      rw [whileLoop]
      cases hc : cond s with
      | false => exact avoids_ok
      | true =>
          cases hb : body s with
          | error e =>
              refine avoids_error ?_
              intro he
              exact hbody s (he ▸ hb)
          | ok s' => exact ih (lt_of_lt_of_le (hstep s s' hc hb) (Nat.lt_succ_iff.mp hfuel))

end WhileLoop

end Loop
end AndroidBuild
