import AndroidBuild.CheckFlaggedApis.FindErrors

/-!
# Members in a hierarchy of classes

A member is provided by every class and interface above its class.  The search
of `containsSymbol` follows the superclasses and looks at the direct interfaces
of each class on its way.
-/

namespace AndroidBuild
namespace CheckFlaggedApis

section Hierarchy

variable (output : Finset Symbol)

/-- A class symbol of the output has a class with this superclass and these interfaces. -/
def HasClass (c : InternalName) (superclass : Option InternalName)
    (interfaces : Finset InternalName) : Prop :=
  Symbol.classSymbol c superclass interfaces ∈ output

def Declares (c member : InternalName) : Prop :=
  Symbol.memberSymbol c member ∈ output

def Extends (c d : InternalName) : Prop :=
  ∃ interfaces, HasClass output c (some d) interfaces

def Implements (c d : InternalName) : Prop :=
  ∃ superclass interfaces, HasClass output c superclass interfaces ∧ d ∈ interfaces

/-- A superclass or interface link of the output. -/
def Link (c d : InternalName) : Prop :=
  Extends output c d ∨ Implements output c d

/-- One class symbol for each class name and no cycle of links. -/
structure WellFormed : Prop where
  unique : ∀ c superclass interfaces superclass' interfaces',
    HasClass output c superclass interfaces → HasClass output c superclass' interfaces' →
      superclass = superclass' ∧ interfaces = interfaces'
  acyclic : ∀ c, ¬ Relation.TransGen (Link output) c c

def Provided : Symbol → Prop
  | .classSymbol c superclass interfaces => HasClass output c superclass interfaces
  | .memberSymbol c member =>
      ∃ d, Relation.ReflTransGen (Link output) c d ∧ Declares output d member

/-- A class declares the member or one of its direct interfaces does. -/
def DeclaresNearby (c member : InternalName) : Prop :=
  Declares output c member ∨ ∃ i, Implements output c i ∧ Declares output i member

/-- What the search comes across. -/
def Found : Symbol → Prop
  | .classSymbol c superclass interfaces => HasClass output c superclass interfaces
  | .memberSymbol c member =>
      ∃ d, Relation.ReflTransGen (Extends output) c d ∧ DeclaresNearby output d member

variable {output}

theorem extends_le_link :
    Extends output ≤ Link output :=
  fun _ _ => Or.inl

theorem Found.provided
    {s : Symbol} (h : Found output s) :
    Provided output s := by
  cases s with
  | classSymbol c superclass interfaces => exact h
  | memberSymbol c member =>
      obtain ⟨d, hreach, hnear⟩ := h
      have hlink : Relation.ReflTransGen (Link output) c d :=
        Relation.ReflTransGen.mono extends_le_link _ _ hreach
      rcases hnear with hd | ⟨i, himpl, hi⟩
      · exact ⟨d, hlink, hd⟩
      · exact ⟨i, hlink.tail (Or.inr himpl), hi⟩

end Hierarchy

section Search

/-- A list with each element of a set once, in any order. -/
structure Enumerates {α : Type} (l : List α) (s : Finset α) : Prop where
  nodup : l.Nodup
  mem_iff : ∀ x, x ∈ l ↔ x ∈ s

variable {output : Finset Symbol} {l : List Symbol}

/-- A class that is found is in the output. -/
theorem hasClass_of_findClass
    {c : InternalName} {r : Option InternalName × Finset InternalName}
    (hl : Enumerates l output) (h : findClass l c = some r) :
    HasClass output c r.1 r.2 := by
  obtain ⟨s, hs, hsome⟩ := List.exists_of_findSome?_eq_some h
  cases s with
  | memberSymbol d member => cases hsome
  | classSymbol d superclass interfaces =>
      dsimp only at hsome
      split_ifs at hsome with hd
      cases hsome
      subst hd
      exact (hl.mem_iff _).mp hs

theorem findClass_eq_some_iff
    {c : InternalName} {superclass : Option InternalName} {interfaces : Finset InternalName}
    (hl : Enumerates l output) (hform : WellFormed output) :
    findClass l c = some (superclass, interfaces) ↔
      HasClass output c superclass interfaces := by
  constructor
  · exact hasClass_of_findClass hl
  · intro h
    cases hfind : findClass l c with
    | none =>
        have := List.findSome?_eq_none_iff.mp hfind _ ((hl.mem_iff _).mpr h)
        simp at this
    | some r =>
        obtain ⟨hsuper, hinterfaces⟩ := hform.unique _ _ _ _ _ (hasClass_of_findClass hl hfind) h
        rw [← hsuper, ← hinterfaces]

theorem findClass_eq_none
    {c : InternalName} (hl : Enumerates l output) (hform : WellFormed output)
    (h : findClass l c = none) (superclass : Option InternalName)
    (interfaces : Finset InternalName) :
    ¬ HasClass output c superclass interfaces := by
  intro hclass
  rw [(findClass_eq_some_iff hl hform).mpr hclass] at h
  cases h

theorem memberStep_spec
    (c member : InternalName) (hl : Enumerates l output) (hform : WellFormed output) :
    DeclaresNearby output c member ∧ memberStep l member c = .inr true ∨
      ¬ DeclaresNearby output c member ∧
        ((∃ d, Extends output c d ∧ memberStep l member c = .inl d) ∨
          (∀ d, ¬ Extends output c d) ∧ memberStep l member c = .inr false) := by
  by_cases hdecl : Declares output c member
  · left
    refine ⟨Or.inl hdecl, ?_⟩
    rw [memberStep, if_pos ((hl.mem_iff _).mpr hdecl)]
  · have hstep : Symbol.memberSymbol c member ∉ l := fun h => hdecl ((hl.mem_iff _).mp h)
    cases hfind : findClass l c with
    | none =>
        have hno := findClass_eq_none hl hform hfind
        right
        refine ⟨?_, Or.inr ⟨?_, ?_⟩⟩
        · rintro (h | ⟨i, ⟨superclass, interfaces, hclass, _⟩, _⟩)
          · exact hdecl h
          · exact hno superclass interfaces hclass
        · rintro d ⟨interfaces, hclass⟩
          exact hno _ _ hclass
        · rw [memberStep, if_neg hstep, hfind]
    | some r =>
        obtain ⟨superclass, interfaces⟩ := r
        have hclass := (findClass_eq_some_iff hl hform).mp hfind
        -- the search asks about the interfaces of this class symbol
        have hnear : (∃ i ∈ interfaces, createMethod i.name member.name ∈ l) ↔
            ∃ i, Implements output c i ∧ Declares output i member := by
          constructor
          · rintro ⟨i, hi, hmem⟩
            rw [createMethod, toInternalFormat_name, toInternalFormat_name] at hmem
            exact ⟨i, ⟨superclass, interfaces, hclass, hi⟩, (hl.mem_iff _).mp hmem⟩
          · rintro ⟨i, ⟨superclass', interfaces', hclass', hi⟩, hmem⟩
            obtain ⟨_, rfl⟩ := hform.unique _ _ _ _ _ hclass hclass'
            refine ⟨i, hi, ?_⟩
            rw [createMethod, toInternalFormat_name, toInternalFormat_name]
            exact (hl.mem_iff _).mpr hmem
        by_cases hinterface : ∃ i ∈ interfaces, createMethod i.name member.name ∈ l
        · left
          refine ⟨Or.inr (hnear.mp hinterface), ?_⟩
          rw [memberStep, if_neg hstep, hfind]
          exact if_pos hinterface
        · right
          refine ⟨?_, ?_⟩
          · rintro (h | h)
            · exact hdecl h
            · exact hinterface (hnear.mpr h)
          · cases superclass with
            | none =>
                right
                refine ⟨?_, ?_⟩
                · rintro d ⟨interfaces', hclass'⟩
                  cases (hform.unique _ _ _ _ _ hclass hclass').1
                · rw [memberStep, if_neg hstep, hfind]
                  exact if_neg hinterface
            | some d =>
                left
                refine ⟨d, ⟨interfaces, hclass⟩, ?_⟩
                rw [memberStep, if_neg hstep, hfind]
                refine (if_neg hinterface).trans ?_
                dsimp only
                rw [toInternalFormat_name]

theorem next_le_extends
    (member : InternalName) (hl : Enumerates l output) (hform : WellFormed output) :
    Chain.Next (memberStep l member) ≤ Extends output := by
  intro c d h
  rw [Chain.Next] at h
  rcases memberStep_spec c member hl hform with
    ⟨_, hstep⟩ | ⟨_, ⟨e, hextends, hstep⟩ | ⟨_, hstep⟩⟩
  · rw [h] at hstep
    cases hstep
  · rw [h] at hstep
    cases hstep
    exact hextends
  · rw [h] at hstep
    cases hstep

/-- The search never comes back to a class. -/
theorem acyclic_memberStep
    (hl : Enumerates l output) (hform : WellFormed output) (c member : InternalName) :
    Chain.Acyclic (memberStep l member) c := by
  intro d _ hcycle
  have hlinks := (next_le_extends member hl hform).trans extends_le_link
  exact hform.acyclic d (Relation.TransGen.mono hlinks _ _ hcycle)

/-- What the search finds from a class on is found again from every class below. -/
theorem follow_eq_true
    {c d member : InternalName} (hl : Enumerates l output) (hform : WellFormed output)
    (hreach : Relation.ReflTransGen (Extends output) c d)
    (hnear : DeclaresNearby output d member) {n : Nat} {b : Bool}
    (h : Chain.follow (memberStep l member) n c = some b) :
    b = true := by
  induction hreach using Relation.ReflTransGen.head_induction_on generalizing n with
  | refl =>
      rcases memberStep_spec d member hl hform with
        ⟨_, hstep⟩ | ⟨hno, _⟩
      · exact Chain.follow_unique h (Chain.follow_of_result hstep)
      · exact absurd hnear hno
  | @head c e hextends hrest ih =>
      rcases memberStep_spec c member hl hform with
        ⟨_, hstep⟩ | ⟨_, ⟨e', hextends', hstep⟩ | ⟨hno, _⟩⟩
      · exact Chain.follow_unique h (Chain.follow_of_result hstep)
      · obtain ⟨interfaces, hclass⟩ := hextends
        obtain ⟨interfaces', hclass'⟩ := hextends'
        obtain ⟨heq, _⟩ := hform.unique _ _ _ _ _ hclass hclass'
        cases heq
        cases n with
        | zero => cases h
        | succ n =>
            rw [Chain.follow_next hstep] at h
            exact ih h
      · exact absurd hextends (hno e)

def classNames (output : Finset Symbol) : Finset InternalName :=
  output.image fun
    | .classSymbol c _ _ => c
    | .memberSymbol c _ => c

/-- With a stack deeper than the output the search ends, with the right answer. -/
theorem containsSymbol_spec
    (hl : Enumerates l output) (hform : WellFormed output) {depth : Nat}
    (hdepth : output.card < depth) (s : Symbol) :
    ∃ b, containsSymbol depth l s = .ok b ∧ (b = true ↔ Found output s) := by
  cases s with
  | classSymbol c superclass interfaces =>
      refine ⟨_, rfl, ?_⟩
      rw [decide_eq_true_iff, hl.mem_iff]
      rfl
  | memberSymbol c member =>
      have hsome : (Chain.follow (memberStep l member) depth c).isSome = true := by
        refine Chain.follow_isSome (classNames output) ?_ (acyclic_memberStep hl hform c member)
          (lt_of_le_of_lt Finset.card_image_le hdepth)
        intro t u _ hnext
        obtain ⟨interfaces, hclass⟩ := next_le_extends member hl hform _ _ hnext
        exact Finset.mem_image.mpr ⟨_, hclass, rfl⟩
      obtain ⟨b, hb⟩ := Option.isSome_iff_exists.mp hsome
      refine ⟨b, by rw [containsSymbol, hb], ?_⟩
      constructor
      · rintro rfl
        obtain ⟨d, hreach, hstep⟩ := Chain.follow_eq_some_iff.mp ⟨depth, hb⟩
        have hextends : Relation.ReflTransGen (Extends output) c d :=
          Relation.ReflTransGen.mono (next_le_extends member hl hform) _ _ hreach
        refine ⟨d, hextends, ?_⟩
        rcases memberStep_spec d member hl hform with
          ⟨hnear, _⟩ | ⟨_, ⟨e, _, h⟩ | ⟨_, h⟩⟩
        · exact hnear
        · rw [hstep] at h
          cases h
        · rw [hstep] at h
          cases h
      · rintro ⟨d, hreach, hnear⟩
        exact follow_eq_true hl hform hreach hnear hb

end Search

end CheckFlaggedApis
end AndroidBuild
