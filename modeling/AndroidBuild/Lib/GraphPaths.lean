import Mathlib.Data.Finset.Card
import Mathlib.Logic.Relation
import Mathlib.Tactic

/-!
# Paths of a graph

The paths from a node, and how many of them there are.  A graph with a cycle
has paths of every length, so no bound on their number holds; in an acyclic
graph with shared nodes their number may be far above the number of edges.
-/

namespace AndroidBuild
namespace GraphPaths

universe u

variable {α : Type u}

section Paths

variable (children : α → List α)

def Edge (n c : α) : Prop :=
  c ∈ children n

/-- A path from `n`, with its nodes in order. -/
def IsPath (n : α) (path : List α) : Prop :=
  path.head? = some n ∧ path.IsChain (Edge children)

/-- The paths of at most `depth` edges from `n`. -/
def pathsFrom : Nat → α → List (List α)
  | 0, n => [[n]]
  | depth + 1, n =>
      [n] :: (children n).flatMap (fun c => (pathsFrom depth c).map (fun path => n :: path))

def countPaths (depth : Nat) (n : α) : Nat :=
  (pathsFrom children depth n).length

end Paths

variable {children : α → List α}

section Paths

theorem mem_pathsFrom
    {depth : Nat} {n : α} {path : List α} :
    path ∈ pathsFrom children depth n ↔ IsPath children n path ∧ path.length ≤ depth + 1 := by
  induction depth generalizing n path with
  | zero =>
      rw [pathsFrom, List.mem_singleton, IsPath]
      constructor
      · rintro rfl
        exact ⟨⟨rfl, .singleton n⟩, le_rfl⟩
      · rintro ⟨⟨hhead, _⟩, hlength⟩
        cases path with
        | nil => cases hhead
        | cons m path =>
            cases hhead
            rw [List.length_cons] at hlength
            have hnil : path = [] := List.length_eq_zero_iff.mp (by omega)
            rw [hnil]
  | succ depth ih =>
      rw [pathsFrom, List.mem_cons, List.mem_flatMap]
      simp only [List.mem_map, ih]
      constructor
      · rintro (rfl | ⟨c, hc, path, ⟨⟨hhead, hchain⟩, hlength⟩, rfl⟩)
        · exact ⟨⟨rfl, .singleton n⟩, by simp⟩
        · refine ⟨⟨rfl, ?_⟩, by rw [List.length_cons]; omega⟩
          cases path with
          | nil => cases hhead
          | cons m path =>
              cases hhead
              exact .cons_cons hc hchain
      · rintro ⟨⟨hhead, hchain⟩, hlength⟩
        cases path with
        | nil => cases hhead
        | cons m path =>
            cases hhead
            cases path with
            | nil => exact Or.inl rfl
            | cons c path =>
                rw [List.isChain_cons_cons] at hchain
                rw [List.length_cons] at hlength
                exact Or.inr ⟨c, hchain.1, c :: path, ⟨⟨rfl, hchain.2⟩, by omega⟩, rfl⟩

theorem nodup_pathsFrom
    (h : ∀ n, (children n).Nodup) (depth : Nat) (n : α) :
    (pathsFrom children depth n).Nodup := by
  induction depth generalizing n with
  | zero => exact List.nodup_singleton _
  | succ depth ih =>
      rw [pathsFrom, List.nodup_cons]
      constructor
      · intro hmem
        rw [List.mem_flatMap] at hmem
        obtain ⟨c, _, hmem⟩ := hmem
        obtain ⟨path, hpath, heq⟩ := List.mem_map.mp hmem
        rw [List.cons.injEq] at heq
        have hhead := (mem_pathsFrom.mp hpath).1.1
        rw [heq.2] at hhead
        cases hhead
      · rw [List.nodup_flatMap]
        refine ⟨fun c _ => (ih c).map (List.cons_injective), ?_⟩
        refine (h n).imp ?_
        intro c d hne path hc hd
        obtain ⟨p, hp, rfl⟩ := List.mem_map.mp hc
        obtain ⟨q, hq, heq⟩ := List.mem_map.mp hd
        rw [List.cons.injEq] at heq
        have hhead := (mem_pathsFrom.mp hp).1.1
        rw [← heq.2, (mem_pathsFrom.mp hq).1.1] at hhead
        cases hhead
        exact hne rfl

end Paths

section Count

theorem countPaths_pos (depth : Nat) (n : α) :
    0 < countPaths children depth n := by
  cases depth with
  | zero => exact Nat.one_pos
  | succ depth => exact Nat.succ_pos _

theorem countPaths_succ (depth : Nat) (n : α) :
    countPaths children (depth + 1) n =
      1 + ((children n).map (countPaths children depth)).sum := by
  rw [countPaths, pathsFrom, List.length_cons, List.length_flatMap, Nat.add_comm]
  simp only [List.length_map]
  rfl

theorem countPaths_le_succ (depth : Nat) (n : α) :
    countPaths children depth n ≤ countPaths children (depth + 1) n := by
  induction depth generalizing n with
  | zero =>
      rw [countPaths_succ]
      exact Nat.le_add_right 1 _
  | succ depth ih =>
      rw [countPaths_succ, countPaths_succ (depth + 1)]
      exact Nat.add_le_add_left (List.sum_le_sum (fun c _ => ih c)) 1

theorem countPaths_child
    {n c : α} (h : Edge children n c) (depth : Nat) :
    countPaths children depth c < countPaths children (depth + 1) n := by
  rw [countPaths_succ]
  have hle : countPaths children depth c ≤ ((children n).map (countPaths children depth)).sum :=
    List.single_le_sum (fun _ _ => Nat.zero_le _) _ (List.mem_map_of_mem h)
  omega

theorem countPaths_of_transGen
    {n m : α} (h : Relation.TransGen (Edge children) n m) (depth : Nat) :
    ∃ more, countPaths children depth m < countPaths children more n := by
  induction h generalizing depth with
  | single hedge => exact ⟨_, countPaths_child hedge depth⟩
  | tail _ hedge ih =>
      obtain ⟨more, hmore⟩ := ih (depth + 1)
      exact ⟨more, (countPaths_child hedge depth).trans hmore⟩

theorem countPaths_of_reflTransGen
    {n m : α} (h : Relation.ReflTransGen (Edge children) n m) (depth : Nat) :
    ∃ more, countPaths children depth m ≤ countPaths children more n := by
  rcases Relation.reflTransGen_iff_eq_or_transGen.mp h with rfl | h
  · exact ⟨depth, le_rfl⟩
  · obtain ⟨more, hmore⟩ := countPaths_of_transGen h depth
    exact ⟨more, hmore.le⟩

/-- No bound holds for the paths along a cycle. -/
theorem countPaths_of_cycle
    {n : α} (h : Relation.TransGen (Edge children) n n) (bound : Nat) :
    ∃ depth, bound < countPaths children depth n := by
  induction bound with
  | zero => exact ⟨0, countPaths_pos 0 n⟩
  | succ bound ih =>
      obtain ⟨depth, hdepth⟩ := ih
      obtain ⟨more, hmore⟩ := countPaths_of_transGen h depth
      exact ⟨more, by omega⟩

/-- There are more than `bound` paths iff so many of some length are counted. -/
theorem exists_countPaths_iff
    [DecidableEq α] (h : ∀ n, (children n).Nodup) (n : α) (bound : Nat) :
    (∃ depth, bound < countPaths children depth n) ↔
      ∃ paths : Finset (List α), bound < paths.card ∧ ∀ path ∈ paths, IsPath children n path := by
  constructor
  · rintro ⟨depth, hdepth⟩
    refine ⟨(pathsFrom children depth n).toFinset, ?_, ?_⟩
    · rw [List.toFinset_card_of_nodup (nodup_pathsFrom h depth n)]
      exact hdepth
    · intro path hpath
      exact (mem_pathsFrom.mp (List.mem_toFinset.mp hpath)).1
  · rintro ⟨paths, hcard, hpaths⟩
    refine ⟨paths.sup List.length, hcard.trans_le ?_⟩
    refine (Finset.card_le_card ?_).trans (List.toFinset_card_le _)
    intro path hpath
    have hlength := Finset.le_sup (f := List.length) hpath
    exact List.mem_toFinset.mpr (mem_pathsFrom.mpr ⟨hpaths path hpath, by omega⟩)

end Count

end GraphPaths
end AndroidBuild
