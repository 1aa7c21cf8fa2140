import AndroidBuild.Lib.Expansion
import AndroidBuild.Lib.Text

/-!
# Variables in the words of an atree list file

The model of `add_variable` and `replace_variables`: a variable is kept under
the text of its reference, and the references of a word are replaced in the
order of the map, again and again until none is found or there were too many
passes.  The inner loop over the occurrences of one variable goes on behind the
value, so it replaces the occurrences from left to right.
-/

namespace AndroidBuild
namespace Atree

open Text Placeholders Expansion

section Variables

def reference (name : Str) : Str :=
  '$' :: '{' :: (name ++ ['}'])

/-- The entries of the map, in the order in which it is iterated. -/
abbrev Variables :=
  List (Str × Str)

/-- `g_variables[key] = value`, in the order of the keys. -/
def setVariable (key value : Str) : Variables → Variables
  | [] => [(key, value)]
  | e :: vars =>
      if key = e.1 then (key, value) :: vars
      else if key < e.1 then (key, value) :: e :: vars
      else e :: setVariable key value vars

/-- `add_variable`; `none` is an argument that is refused. -/
def addVariable (vars : Variables) (arg : Str) : Option Variables :=
  let name := arg.takeWhile (· ≠ '=')
  match arg.dropWhile (· ≠ '=') with
  | [] => none
  | _ :: value =>
      if name = [] ∨ value = [] then none
      else some (setVariable (reference name) value vars)

/-- `replace_variables`, with `*error`. -/
def replaceVariables (input : Str) (vars : Variables) : Str × Bool :=
  if vars = [] then (input, false)
  -- abort if the variable prefix is not found
  else if ¬ ['$', '{'] <:+: input then (input, false)
  else passes vars 1000 input

end Variables

section References

/-- A name of a variable in a reference. -/
def IsReferenceName (name : Str) : Prop :=
  '$' ∉ name ∧ '{' ∉ name ∧ '}' ∉ name

/-- Each `$` of the text starts a complete reference. -/
def CompleteReferences (text : Str) : Prop :=
  ∀ front back, text = front ++ '$' :: back →
    ∃ name rest, back = '{' :: (name ++ '}' :: rest) ∧ IsReferenceName name

theorem isPlaceholder_reference
    {name : Str} (h : IsReferenceName name) :
    IsPlaceholder '$' '}' (reference name) := by
  refine ⟨'{' :: name, rfl, ?_, ?_⟩
  · rw [List.mem_cons, not_or]
    exact ⟨by decide, h.1⟩
  · rw [List.mem_cons, not_or]
    exact ⟨by decide, h.2.2⟩

theorem CompleteReferences.of_append
    {front text : Str} (h : CompleteReferences (front ++ text)) :
    CompleteReferences text := by
  rintro before back rfl
  exact h (front ++ before) back (List.append_assoc _ _ _).symm

theorem completeReferences_of_not_mem
    {text rest : Str} (h : '$' ∉ text) (hrest : CompleteReferences rest) :
    CompleteReferences (text ++ rest) := by
  induction text with
  | nil => exact hrest
  | cons a text ih =>
      rw [List.mem_cons, not_or] at h
      intro front back heq
      cases front with
      | nil => exact absurd (List.cons.inj heq).1.symm h.1
      | cons b front => exact ih h.2 front back (List.cons.inj heq).2

theorem completeReferences_reference
    {name rest : Str} (h : IsReferenceName name) (hrest : CompleteReferences rest) :
    CompleteReferences (reference name ++ rest) := by
  intro front back heq
  cases front with
  | nil =>
      refine ⟨name, rest, ?_, h⟩
      rw [← (List.cons.inj heq).2]
      simp
  | cons b front =>
      have hfree : '$' ∉ '{' :: (name ++ ['}']) := by simp [h.1]
      exact completeReferences_of_not_mem hfree hrest front back (List.cons.inj heq).2

theorem CompleteReferences.bracketed
    {text : Str} (h : CompleteReferences text) :
    Bracketed '$' '}' text := by
  induction hn : text.length using Nat.strong_induction_on generalizing text with
  | h n ih =>
      cases text with
      | nil => exact .nil
      | cons a text =>
          by_cases ha : a = '$'
          · subst ha
            obtain ⟨name, rest, rfl, hname⟩ := h [] text rfl
            have hsplit : '$' :: '{' :: (name ++ '}' :: rest) = reference name ++ rest := by
              simp [reference]
            rw [hsplit] at h hn ⊢
            refine .placeholder (isPlaceholder_reference hname) (ih rest.length ?_ h.of_append rfl)
            rw [← hn, List.length_append]
            simp [reference]
          · have htail : CompleteReferences ([a] ++ text) := h
            refine .other ha (ih text.length ?_ htail.of_append rfl)
            rw [← hn]
            exact Nat.lt_succ_self _

/-- A map whose names and values have no other dollar signs than those of references. -/
structure ReferenceMap where
  entries : Variables
  nodup : (entries.map Prod.fst).Nodup
  names : ∀ e ∈ entries, ∃ name, IsReferenceName name ∧ e.1 = reference name
  values : ∀ e ∈ entries, CompleteReferences e.2

def ReferenceMap.definitions (m : ReferenceMap) : Definitions '$' '}' where
  entries := m.entries
  nodup := m.nodup
  placeholders e he := by
    obtain ⟨name, hname, heq⟩ := m.names e he
    rw [heq]
    exact isPlaceholder_reference hname
  bracketed e he := (m.values e he).bracketed

end References

section Replacement

/-- The definitions that are reached from the word have a cycle. -/
def Cyclic (vars : Variables) (word : Str) : Prop :=
  ∃ q, Refers '$' '}' word q ∧ ReachesCycle '$' '}' vars q

theorem passes_of_free
    {vars : Variables} {word : Str} (h : ∀ e ∈ vars, ¬ e.1 <:+: word)
    (retries : Nat) :
    passes vars (retries + 1) word = (word, false) := by
  rw [passes, Expansion.pass, foldl_replaceFound_of_none h]
  rfl

/-- The two ways out in front of the loop are what the loop would do. -/
theorem replaceVariables_eq_passes
    (m : ReferenceMap) (word : Str) :
    replaceVariables word m.entries = passes m.entries 1000 word := by
  unfold replaceVariables
  split_ifs with hempty hopen
  · rw [hempty]
    exact (passes_of_free (fun _ he => absurd he List.not_mem_nil) 999).symm
  · rfl
  · refine (passes_of_free (fun e he hin => hopen ?_) 999).symm
    obtain ⟨name, _, heq⟩ := m.names e he
    rw [heq] at hin
    have hbegins : ['$', '{'] <+: reference name := ⟨name ++ ['}'], rfl⟩
    exact hbegins.isInfix.trans hin

/-- Whatever the order of the variables, a word is expanded in full when no cycle is reached,
and the error is set when one is. -/
theorem replaceVariables_spec
    (m : ReferenceMap) (hcount : m.entries.length < 1000) {word : Str}
    (hword : CompleteReferences word) :
    (¬ Cyclic m.entries word →
      (replaceVariables word m.entries).2 = false ∧
        ∀ t, Expands '$' '}' m.entries word t ↔ t = (replaceVariables word m.entries).1) ∧
    (Cyclic m.entries word → (replaceVariables word m.entries).2 = true) := by
  have hne : '$' ≠ '}' := by decide
  rw [replaceVariables_eq_passes]
  constructor
  · intro hacyclic
    have hheight : ∀ q, Refers '$' '}' word q →
        HeightAtMost '$' '}' m.entries (m.entries.map Prod.fst).toFinset.card q := by
      intro q hq
      refine heightAtMost_of_acyclic (T := m.definitions) (fun h => hacyclic ⟨q, hq, h⟩) ?_
      intro r v _ hmem
      rw [List.mem_toFinset]
      exact List.mem_map_of_mem hmem
    have hcard : (m.entries.map Prod.fst).toFinset.card < 1000 := by
      have hle := List.toFinset_card_le (m.entries.map Prod.fst)
      rw [List.length_map] at hle
      omega
    obtain ⟨hflag, hexp⟩ := passes_spec (T := m.definitions) hne hword.bracketed hheight hcard
    refine ⟨hflag, fun t => ⟨fun ht => ?_, ?_⟩⟩
    · exact Expands.unique (T := m.definitions) hne ht hexp
    · rintro rfl
      exact hexp
  · intro hcyclic
    exact passes_of_cyclic (T := m.definitions) hne hword.bracketed hcyclic

section Chain

/-- Two variables, of which the first in the order of the keys refers to the second. -/
def chainMap : ReferenceMap where
  entries := [(reference ['a'], 'x' :: reference ['b']), (reference ['b'], ['y'])]
  nodup := by decide
  names := by
    simp only [List.forall_mem_cons, List.not_mem_nil, false_imp_iff, implies_true, and_true]
    exact ⟨⟨['a'], by simp [IsReferenceName], rfl⟩, ['b'], by simp [IsReferenceName], rfl⟩
  values := by
    have hnil : CompleteReferences [] := fun front back heq => by simp at heq
    have hb : CompleteReferences (reference ['b'] ++ []) :=
      completeReferences_reference (by simp [IsReferenceName]) hnil
    simp only [List.forall_mem_cons, List.not_mem_nil, false_imp_iff, implies_true, and_true]
    exact ⟨completeReferences_of_not_mem (by simp : '$' ∉ ['x']) hb,
      completeReferences_of_not_mem (by simp : '$' ∉ ['y']) hnil⟩

end Chain

theorem depends_chainMap
    {p q : Str} (h : Depends '$' '}' chainMap.entries p q) :
    p = reference ['a'] ∧ q = reference ['b'] := by
  obtain ⟨v, hmem, hq, hin⟩ := h
  simp only [chainMap, List.mem_cons, Prod.mk.injEq, List.not_mem_nil, or_false] at hmem
  have hb : IsPlaceholder '$' '}' (reference ['b']) :=
    isPlaceholder_reference (by simp [IsReferenceName])
  rw [infix_iff_occurrences hq.ne_nil] at hin
  rcases hmem with ⟨rfl, rfl⟩ | ⟨rfl, rfl⟩
  · refine ⟨rfl, ?_⟩
    rw [occurrences_other (by decide) hq, ← List.append_nil (reference ['b']),
      occurrences_placeholder_append (by decide) hq hb] at hin
    by_contra hne
    rw [if_neg hne] at hin
    exact hin rfl
  · rw [occurrences_other (by decide) hq] at hin
    exact absurd rfl hin

/-- The word of two nested references is expanded, whichever of the two is replaced first. -/
theorem replaceVariables_spec_chainMap :
    replaceVariables (reference ['a'] ++ []) chainMap.entries = (['x', 'y'], false) ∧
      ∀ t, Expands '$' '}' chainMap.entries (reference ['a'] ++ []) t ↔ t = ['x', 'y'] := by
  have hword : CompleteReferences (reference ['a'] ++ []) :=
    completeReferences_reference (by simp [IsReferenceName]) fun front back heq => by simp at heq
  have hacyclic : ¬ Cyclic chainMap.entries (reference ['a'] ++ []) := by
    rintro ⟨q, _, r, _, hcycle⟩
    obtain ⟨z, hz, hback⟩ := Relation.TransGen.head'_iff.mp hcycle
    obtain ⟨rfl, rfl⟩ := depends_chainMap hz
    rcases hback.cases_head with heq | ⟨_, hnext, _⟩
    · exact absurd heq (by decide)
    · exact absurd (depends_chainMap hnext).1 (by decide)
  have hresult : replaceVariables (reference ['a'] ++ []) chainMap.entries =
      (['x', 'y'], false) := by
    decide +kernel
  have hexpands := (replaceVariables_spec chainMap (by decide) hword).1 hacyclic
  rw [hresult] at hexpands
  exact ⟨hresult, hexpands.2⟩

/-- A variable whose name has a brace is found in the text of a reference to another name. -/
theorem replaceVariables_braceName :
    ∃ vars, addVariable [] "a\x7db=X".toList = some vars ∧ vars.length < 1000 ∧
      (∀ e ∈ vars, CompleteReferences e.2) ∧
      CompleteReferences (reference ['a'] ++ ['b', '}']) ∧
      ¬ Cyclic vars (reference ['a'] ++ ['b', '}']) ∧
      ¬ Expands '$' '}' vars (reference ['a'] ++ ['b', '}'])
        (replaceVariables (reference ['a'] ++ ['b', '}']) vars).1 := by
  have hnil : CompleteReferences [] := fun front back heq => by simp at heq
  have hplain : ∀ text : Str, '$' ∉ text → CompleteReferences text := fun text h => by
    simpa using completeReferences_of_not_mem h hnil
  have hname : IsReferenceName ['a'] := by simp [IsReferenceName]
  refine ⟨[(reference ['a', '}', 'b'], ['X'])], by decide +kernel, by decide, ?_,
    completeReferences_reference hname (hplain _ (by simp)), ?_, ?_⟩
  · rintro e he
    rw [List.mem_singleton.mp he]
    exact hplain _ (by simp)
  · rintro ⟨q, _, r, _, hcycle⟩
    -- the value has no reference at all
    obtain ⟨z, ⟨v, hmem, hz, hin⟩, _⟩ := Relation.TransGen.head'_iff.mp hcycle
    rw [List.mem_singleton, Prod.mk.injEq] at hmem
    obtain ⟨w, rfl, _⟩ := hz
    have hdollar := hin.subset (List.mem_cons_self (a := '$'))
    rw [hmem.2] at hdollar
    simp at hdollar
  · intro hexp
    have hresult : (replaceVariables (reference ['a'] ++ ['b', '}'])
        [(reference ['a', '}', 'b'], ['X'])]).1 = ['X'] := by
      decide +kernel
    rw [hresult] at hexp
    obtain ⟨s, u, heq, _, ⟨_, rfl⟩ | ⟨v, hmem, _⟩⟩ :=
      hexp.of_placeholder (by decide) (isPlaceholder_reference hname)
    · simp [reference] at heq
    · simp [reference] at hmem

end Replacement

end Atree
end AndroidBuild
