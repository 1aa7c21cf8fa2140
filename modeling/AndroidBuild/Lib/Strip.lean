import AndroidBuild.Lib.Text
import Mathlib.Data.List.TakeWhile

/-!
# Stripped texts

A text is stripped when no space stands at its ends.  `str.strip` makes a text
stripped, and leaves a stripped text as it is.
-/

namespace AndroidBuild
namespace Text

/-- No space stands at the ends. -/
structure Stripped (s : Str) : Prop where
  head : ∀ c, s.head? = some c → isSpace c = false
  last : ∀ c, s.getLast? = some c → isSpace c = false

theorem head?_dropWhile_isSpace
    {s : Str} {c : Char} (h : (s.dropWhile isSpace).head? = some c) :
    isSpace c = false := by
  have hhead := List.head?_dropWhile_not isSpace s
  rw [h] at hhead
  exact hhead

theorem dropWhile_isSpace_eq_self
    {s : Str} (h : ∀ c, s.head? = some c → isSpace c = false) :
    s.dropWhile isSpace = s := by
  cases s with
  | nil => rfl
  | cons c s => rw [List.dropWhile_cons_of_neg (by simp [h c rfl])]

theorem stripped_stripChars
    (s : Str) :
    Stripped (stripChars s) := by
  constructor
  · intro c hc
    rw [stripChars, List.head?_reverse] at hc
    -- the last character is not dropped with the spaces behind it
    obtain ⟨front, hfront⟩ := List.dropWhile_suffix isSpace (l := (s.dropWhile isSpace).reverse)
    have hlast : ((s.dropWhile isSpace).reverse).getLast? = some c := by
      rw [← hfront, List.getLast?_append, hc]
      rfl
    rw [List.getLast?_reverse] at hlast
    exact head?_dropWhile_isSpace hlast
  · intro c hc
    rw [stripChars, List.getLast?_reverse] at hc
    exact head?_dropWhile_isSpace hc

theorem Stripped.stripChars_eq
    {s : Str} (h : Stripped s) :
    stripChars s = s := by
  rw [stripChars, dropWhile_isSpace_eq_self h.head, dropWhile_isSpace_eq_self,
    List.reverse_reverse]
  intro c hc
  rw [List.head?_reverse] at hc
  exact h.last c hc

theorem stripChars_stripChars
    (s : Str) :
    stripChars (stripChars s) = stripChars s :=
  (stripped_stripChars s).stripChars_eq

theorem isInfix_stripChars
    (s : Str) :
    stripChars s <:+: s := by
  have hback : stripChars s <+: s.dropWhile isSpace := by
    rw [stripChars, ← List.reverse_suffix, List.reverse_reverse]
    exact List.dropWhile_suffix _
  exact hback.isInfix.trans (List.dropWhile_suffix _).isInfix

theorem mem_of_mem_stripChars
    {s : Str} {c : Char} (h : c ∈ stripChars s) :
    c ∈ s :=
  (isInfix_stripChars s).subset h

theorem not_isSpace_of_all
    {s : Str} (h : s.all (fun c => !isSpace c) = true) :
    ∀ c ∈ s, isSpace c = false := by
  intro c hc
  simpa using List.all_eq_true.mp h c hc

end Text
end AndroidBuild
