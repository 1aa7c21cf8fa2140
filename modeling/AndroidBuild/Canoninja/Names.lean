import AndroidBuild.Canoninja.Generate
import Mathlib.Data.List.TakeWhile

/-!
# Names in Ninja lines

Where the name stands in a rule line and in a build line, and what is found when
another name stands there.
-/

namespace AndroidBuild
namespace Canoninja

section Lines

/-- Every line but the last ends with the only line end in it. -/
inductive AreLines : List Bytes → Prop
  | nil : AreLines []
  | last {line : Bytes} (hne : line ≠ []) (hline : newline ∉ line) : AreLines [line]
  | cons {front : Bytes} {rest : List Bytes} (hfront : newline ∉ front) (hrest : AreLines rest) :
      AreLines ((front ++ [newline]) :: rest)

theorem areLines_lines
    (b : Bytes) :
    AreLines (lines b) := by
  induction b with
  | nil => exact .nil
  | cons c rest ih =>
      rw [lines]
      split_ifs with hc
      · subst hc
        have hfront : newline ∉ ([] : Bytes) := List.not_mem_nil
        exact .cons hfront ih
      · generalize lines rest = ls at ih
        cases ih with
        | nil => exact .last (by simp) (by simpa using Ne.symm hc)
        | last hne hline => exact .last (by simp) (by simpa using ⟨Ne.symm hc, hline⟩)
        | @cons front more hfront hmore =>
            have hfront' : newline ∉ c :: front := by
              simpa using ⟨Ne.symm hc, hfront⟩
            exact .cons hfront' hmore

theorem lines_append
    {front : Bytes} (h : newline ∉ front) (rest : Bytes) :
    lines (front ++ newline :: rest) = (front ++ [newline]) :: lines rest := by
  induction front with
  | nil => rw [List.nil_append, lines, if_pos rfl, List.nil_append]
  | cons c front ih =>
      rw [List.mem_cons, not_or] at h
      rw [List.cons_append, lines, if_neg (Ne.symm h.1), ih h.2]
      rfl

theorem lines_last
    {line : Bytes} (hne : line ≠ []) (h : newline ∉ line) :
    lines line = [line] := by
  induction line with
  | nil => exact absurd rfl hne
  | cons c rest ih =>
      rw [List.mem_cons, not_or] at h
      rw [lines, if_neg (Ne.symm h.1)]
      cases rest with
      | nil => rfl
      | cons d rest => rw [ih (by simp) h.2]

/-- The lines of a text that is made of lines. -/
theorem AreLines.lines_flatten
    {ls : List Bytes} (h : AreLines ls) :
    lines ls.flatten = ls := by
  induction h with
  | nil => rfl
  | last hne hline => rw [List.flatten_singleton, lines_last hne hline]
  | cons hfront _ ih =>
      rw [List.flatten_cons, List.append_assoc, List.singleton_append, lines_append hfront, ih]

end Lines

section Splits

/-- A name is not empty and has no spaces. -/
structure IsName (name : Bytes) : Prop where
  ne_nil : name ≠ []
  no_space : ∀ b ∈ name, isSpace b = false

/-- What stands behind a name starts with a space. -/
def EndsName (post : Bytes) : Prop :=
  ∀ b, post.head? = some b → isSpace b = true

/-- The rule line has a name between the two parts. -/
structure RuleSplit (line pre name post : Bytes) : Prop where
  eq : line = pre ++ (name ++ post)
  before : ∃ k, pre = rulePrefix ++ List.replicate k blank
  isName : IsName name
  ends : EndsName post

/-- The build line has a name between the two parts. -/
structure BuildSplit (line pre name post : Bytes) : Prop where
  eq : line = pre ++ (name ++ post)
  before : ∃ front k, colon ∉ front ∧ buildPrefix <+: front ∧
    pre = front ++ colon :: List.replicate k blank
  isName : IsName name
  ends : EndsName post

theorem RuleSplit.replace
    {line pre name post : Bytes} (h : RuleSplit line pre name post) {name' : Bytes}
    (hname : IsName name') :
    RuleSplit (pre ++ (name' ++ post)) pre name' post :=
  ⟨rfl, h.before, hname, h.ends⟩

theorem BuildSplit.replace
    {line pre name post : Bytes} (h : BuildSplit line pre name post) {name' : Bytes}
    (hname : IsName name') :
    BuildSplit (pre ++ (name' ++ post)) pre name' post :=
  ⟨rfl, h.before, hname, h.ends⟩

theorem dropWhile_blank
    (k : Nat) {rest : Bytes} (h : rest.head? ≠ some blank) :
    (List.replicate k blank ++ rest).dropWhile (· = blank) = rest := by
  have hblank : ∀ b ∈ List.replicate k blank, decide (b = blank) = true := by
    intro b hb
    exact decide_eq_true (List.eq_of_mem_replicate hb)
  rw [List.dropWhile_append_of_pos hblank]
  cases rest with
  | nil => rfl
  | cons b rest => exact List.dropWhile_cons_of_neg (by simpa using h)

/-- The name is found where it stands. -/
theorem trimName_eq
    (start k : Nat) {name post : Bytes} (hname : IsName name) (hpost : EndsName post) :
    trimName start (List.replicate k blank ++ (name ++ post)) = ⟨start + k, name⟩ := by
  have hhead : (name ++ post).head? ≠ some blank := by
    obtain ⟨b, rest, rfl⟩ := List.exists_cons_of_ne_nil hname.ne_nil
    intro h
    have hb := hname.no_space b List.mem_cons_self
    rw [Option.some.inj h] at hb
    cases hb
  have htake : (name ++ post).takeWhile (fun b => !isSpace b) = name := by
    rw [List.takeWhile_append_of_pos (fun b hb => by rw [hname.no_space b hb]; rfl)]
    cases post with
    | nil => rw [List.takeWhile_nil, List.append_nil]
    | cons b post =>
        rw [List.takeWhile_cons_of_neg (by rw [hpost b rfl]; simp), List.append_nil]
  rw [trimName, dropWhile_blank k hhead, htake, List.length_append, List.length_replicate]
  simp

/-- The parts around a name that is found. -/
theorem exists_of_trimName
    {start : Nat} {rest : Bytes} (h : (trimName start rest).bytes ≠ []) :
    ∃ k post, rest = List.replicate k blank ++ ((trimName start rest).bytes ++ post) ∧
      IsName (trimName start rest).bytes ∧ EndsName post := by
  obtain ⟨k, hk⟩ : ∃ k, rest.takeWhile (· = blank) = List.replicate k blank := by
    refine ⟨_, List.eq_replicate_of_mem fun b hb => ?_⟩
    simpa using List.mem_takeWhile_imp hb
  refine ⟨k, (rest.dropWhile (· = blank)).dropWhile fun b => !isSpace b, ?_, ⟨h, ?_⟩, ?_⟩
  · rw [trimName, List.takeWhile_append_dropWhile, ← hk, List.takeWhile_append_dropWhile]
  · intro b hb
    simpa using List.mem_takeWhile_imp hb
  · intro b hb
    have hne : (rest.dropWhile (· = blank)).dropWhile (fun b => !isSpace b) ≠ [] := by
      rintro hnil
      rw [hnil] at hb
      cases hb
    have hnot := List.head_dropWhile_not (fun b => !isSpace b) hne
    rw [List.head?_eq_some_head hne] at hb
    rw [Option.some.inj hb] at hnot
    simpa using hnot

theorem before_eq
    {s : Slice} {line pre name post : Bytes} (hs : s = ⟨pre.length, name⟩)
    (hline : line = pre ++ (name ++ post)) :
    s.before line = pre := by
  rw [hs, hline]
  exact List.take_left

theorem behind_eq
    {s : Slice} {line pre name post : Bytes} (hs : s = ⟨pre.length, name⟩)
    (hline : line = pre ++ (name ++ post)) :
    s.behind line = post := by
  rw [hs, hline, Slice.behind, ← List.append_assoc, ← List.length_append, List.drop_left]

theorem not_buildPrefix
    {line : Bytes} (h : rulePrefix <+: line) :
    ¬ buildPrefix <+: line := by
  rintro ⟨rest, rfl⟩
  obtain ⟨rest', h⟩ := h
  cases h

theorem RuleSplit.rulePrefix
    {line pre name post : Bytes} (h : RuleSplit line pre name post) :
    rulePrefix <+: line := by
  obtain ⟨k, hk⟩ := h.before
  exact ⟨_, by rw [h.eq, hk, List.append_assoc]⟩

theorem BuildSplit.buildPrefix
    {line pre name post : Bytes} (h : BuildSplit line pre name post) :
    buildPrefix <+: line := by
  obtain ⟨front, k, _, hstart, hpre⟩ := h.before
  rw [h.eq, hpre, List.append_assoc]
  exact hstart.trans (List.prefix_append _ _)

theorem RuleSplit.ruleName_eq
    {line pre name post : Bytes} (h : RuleSplit line pre name post) :
    ruleName line = ⟨pre.length, name⟩ := by
  obtain ⟨k, hk⟩ := h.before
  rw [ruleName, h.eq, hk, List.append_assoc, List.drop_left, trimName_eq _ _ h.isName h.ends,
    List.length_append, List.length_replicate]

theorem exists_ruleSplit
    {line : Bytes} (hstart : Canoninja.rulePrefix <+: line) (h : (ruleName line).bytes ≠ []) :
    ∃ pre post, RuleSplit line pre (ruleName line).bytes post := by
  obtain ⟨rest, rfl⟩ := hstart
  rw [ruleName, List.drop_left] at h ⊢
  obtain ⟨k, post, hrest, hname, hpost⟩ := exists_of_trimName h
  refine ⟨_, post, ?_, ⟨k, rfl⟩, hname, hpost⟩
  rw [List.append_assoc, ← hrest]

theorem BuildSplit.getBuildRuleName_eq
    {line pre name post : Bytes} (h : BuildSplit line pre name post) :
    getBuildRuleName line = .ok ⟨pre.length, name⟩ := by
  obtain ⟨front, k, hcolon, hstart, hpre⟩ := h.before
  have hline : line = front ++ colon :: (List.replicate k blank ++ (name ++ post)) := by
    rw [h.eq, hpre, List.append_assoc, List.cons_append]
  have hfront : ∀ b ∈ front, decide (b ≠ colon) = true := by
    intro b hb
    rw [decide_eq_true_iff]
    rintro rfl
    exact hcolon hb
  have htail : ∀ rest : Bytes, (colon :: rest).takeWhile (fun b => decide (b ≠ colon)) = [] ∧
      (colon :: rest).dropWhile (fun b => decide (b ≠ colon)) = colon :: rest := by
    intro rest
    exact ⟨List.takeWhile_cons_of_neg (by decide), List.dropWhile_cons_of_neg (by decide)⟩
  have hne : front ≠ [] := by
    rintro rfl
    exact absurd (List.prefix_nil.mp hstart) (by decide)
  have hrest : List.replicate k blank ++ (name ++ post) ≠ [] := by
    intro hnil
    rw [List.append_eq_nil_iff, List.append_eq_nil_iff] at hnil
    exact h.isName.ne_nil hnil.2.1
  rw [getBuildRuleName, hline, List.takeWhile_append_of_pos hfront,
    List.dropWhile_append_of_pos hfront, (htail _).1, (htail _).2, List.append_nil]
  dsimp only
  rw [if_neg hne, if_neg hrest, trimName_eq _ _ h.isName h.ends, hpre, List.length_append,
    List.length_cons, List.length_replicate, Nat.add_assoc, Nat.add_comm 1 k]

theorem exists_buildSplit
    {line : Bytes} (hstart : Canoninja.buildPrefix <+: line) {s : Slice}
    (hs : getBuildRuleName line = .ok s) (hne : s.bytes ≠ []) :
    ∃ pre post, BuildSplit line pre s.bytes post := by
  rw [getBuildRuleName] at hs
  have hsplit : (line.takeWhile fun b => decide (b ≠ colon)) ++
      (line.dropWhile fun b => decide (b ≠ colon)) = line := List.takeWhile_append_dropWhile
  have hcolon : colon ∉ line.takeWhile fun b => decide (b ≠ colon) := by
    intro h
    simpa using List.mem_takeWhile_imp h
  generalize hfront : (line.takeWhile fun b => decide (b ≠ colon)) = front at *
  cases hrest : line.dropWhile fun b => decide (b ≠ colon) with
  | nil =>
      rw [hrest] at hs
      cases hs
      exact absurd rfl hne
  | cons c rest =>
      rw [hrest] at hs hsplit
      dsimp only at hs
      split_ifs at hs
      · cases hs
        exact absurd rfl hne
      · cases hs
        have hc : c = colon := by
          have hne' : (line.dropWhile fun b => decide (b ≠ colon)) ≠ [] := by
            rw [hrest]
            simp
          have hnot := List.head_dropWhile_not (fun b => decide (b ≠ colon)) hne'
          simp only [hrest, List.head_cons] at hnot
          simpa using hnot
        subst hc
        obtain ⟨k, post, hrest', hname, hpost⟩ := exists_of_trimName hne
        refine ⟨front ++ colon :: List.replicate k blank, post, ?_, ⟨front, k, hcolon, ?_, rfl⟩,
          hname, hpost⟩
        · rw [← hsplit, List.append_assoc, List.cons_append, ← hrest']
        · -- the prefix has no colon, so that it stands before the first one
          by_contra hno
          have hlen : front.length < buildPrefix.length := by
            by_contra hle
            refine hno (List.prefix_of_prefix_length_le hstart ?_ (by omega))
            rw [← hsplit]
            exact List.prefix_append _ _
          have hcolons : front ++ [colon] <+: buildPrefix := by
            refine List.prefix_of_prefix_length_le ?_ hstart ?_
            · rw [← hsplit]
              exact ⟨rest, by simp⟩
            · rw [List.length_append, List.length_singleton]
              omega
          have hmem : colon ∈ buildPrefix := hcolons.subset (by simp)
          revert hmem
          decide

theorem RuleSplit.unique
    {line pre name post pre' name' post' : Bytes} (h : RuleSplit line pre name post)
    (h' : RuleSplit line pre' name' post') :
    pre = pre' ∧ name = name' ∧ post = post' := by
  have hslice := h.ruleName_eq.symm.trans h'.ruleName_eq
  rw [Slice.mk.injEq] at hslice
  obtain ⟨hpre, hrest⟩ := List.append_inj (h.eq.symm.trans h'.eq) hslice.1
  exact ⟨hpre, hslice.2, (List.append_inj hrest (congrArg List.length hslice.2)).2⟩

theorem BuildSplit.unique
    {line pre name post pre' name' post' : Bytes} (h : BuildSplit line pre name post)
    (h' : BuildSplit line pre' name' post') :
    pre = pre' ∧ name = name' ∧ post = post' := by
  have hslice := h.getBuildRuleName_eq.symm.trans h'.getBuildRuleName_eq
  rw [Except.ok.injEq, Slice.mk.injEq] at hslice
  obtain ⟨hpre, hrest⟩ := List.append_inj (h.eq.symm.trans h'.eq) hslice.1
  exact ⟨hpre, hslice.2, (List.append_inj hrest (congrArg List.length hslice.2)).2⟩

end Splits

end Canoninja
end AndroidBuild
