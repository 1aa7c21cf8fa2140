import Mathlib.Data.List.Infix
import Mathlib.Tactic

/-!
# Where a pattern occurs

A pattern that occurs in two joined lists, with an element between them that it
does not have, occurs in one of them.
-/

namespace AndroidBuild
namespace Occurrences

variable {α : Type} {p front back : List α} {c : α}

variable (front back) in
/-- A part does not reach over an element that it does not have. -/
theorem prefix_append_cons_iff
    (hc : c ∉ p) :
    p <+: front ++ c :: back ↔ p <+: front := by
  constructor
  · intro h
    rcases Nat.le_total p.length front.length with hle | hle
    · exact List.prefix_of_prefix_length_le h (List.prefix_append _ _) hle
    · rcases Nat.eq_or_lt_of_le hle with heq | hlt
      · exact List.prefix_of_prefix_length_le h (List.prefix_append _ _) heq.symm.le
      · have hstart : front ++ [c] <+: p := by
          have hfront : front ++ [c] <+: front ++ c :: back := by simp
          exact List.prefix_of_prefix_length_le hfront h (by simpa using hlt)
        exact absurd (hstart.subset (by simp)) hc
  · exact fun h => h.trans (List.prefix_append _ _)

theorem infix_append_cons_iff
    (hc : c ∉ p) :
    p <:+: front ++ c :: back ↔ p <:+: front ∨ p <:+: back := by
  induction front with
  | nil =>
      have hhead := prefix_append_cons_iff [] back hc
      rw [List.nil_append] at hhead
      rw [List.nil_append, List.infix_cons_iff, hhead, List.prefix_nil, List.infix_nil]
  | cons x front ih =>
      have hhead := prefix_append_cons_iff (x :: front) back hc
      rw [List.cons_append, List.infix_cons_iff, List.infix_cons_iff, ih, ← or_assoc]
      rw [List.cons_append] at hhead
      rw [hhead]

theorem infix_iff_exists_drop
    {l : List α} :
    p <:+: l ↔ ∃ i, p <+: l.drop i := by
  constructor
  · rintro ⟨front, back, rfl⟩
    exact ⟨front.length, by simp⟩
  · rintro ⟨i, h⟩
    exact h.isInfix.trans (List.drop_suffix i l).isInfix

end Occurrences
end AndroidBuild
