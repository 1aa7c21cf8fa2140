import AndroidBuild.Lib.Text
import Mathlib.Data.List.TakeWhile

/-!
# Unix paths as texts

The lexical operations on paths: `clean`, `join`, `dir`, `abs` and `rel`.  A
path leads to a `Location`: a number of steps up and then names, from the root
or from where the reader stands.  `clean` prints that location, and two paths
have the same clean text exactly when they lead to the same location.
-/

namespace AndroidBuild
namespace FilePath

open Text

def dot : Str :=
  ['.']

def dotDot : Str :=
  ['.', '.']

/-- An element of a path that names something. -/
def IsName (part : Str) : Prop :=
  part ≠ [] ∧ part ≠ dot ∧ part ≠ dotDot ∧ '/' ∉ part

instance (part : Str) : Decidable (IsName part) :=
  inferInstanceAs (Decidable (_ ∧ _))

/-- Where a path leads: steps up, and then names, the innermost first. -/
@[ext]
structure Location where
  rooted : Bool
  ups : Nat
  names : List Str
  rooted_ups : rooted = true → ups = 0
  isName : ∀ name ∈ names, IsName name
  deriving DecidableEq

namespace Location

/-- The root, or where the reader stands. -/
def start (rooted : Bool) : Location :=
  ⟨rooted, 0, [], fun _ => rfl, by simp⟩

/-- The location a list of names below another one. -/
def below (l : Location) (names : List Str) (h : ∀ name ∈ names, IsName name) : Location :=
  { l with
    names := names ++ l.names
    isName := by
      intro name hname
      rcases List.mem_append.mp hname with hname | hname
      · exact h name hname
      · exact l.isName name hname }

/-- The location `..` leads to; there is nothing above the root. -/
def up (l : Location) : Location :=
  match hl : l.names with
  | _ :: rest =>
      { l with
        names := rest
        isName := fun name hname => l.isName name (hl ▸ List.mem_cons_of_mem _ hname) }
  | [] =>
      if hroot : l.rooted then l
      else { l with ups := l.ups + 1, rooted_ups := fun h => absurd h hroot }

/-- One element of a path. -/
def enter (l : Location) (part : Str) : Location :=
  if h : IsName part then l.below [part] (by simpa using h)
  else if part = dotDot then l.up
  else l

/-- Where a path leads from a location. -/
def follow (l : Location) (text : Str) : Location :=
  (partsFrom '/' [] text).foldl enter l

/-- The elements of the clean path. -/
def parts (l : Location) : List Str :=
  List.replicate l.ups dotDot ++ l.names.reverse

/-- The clean path to a location. -/
def render (l : Location) : Str :=
  if l.rooted then '/' :: ['/'].intercalate l.parts
  else if l.parts = [] then dot
  else ['/'].intercalate l.parts

/-- Steps up and names from one list of names, outermost first, to another. -/
def relNames : List Str → List Str → Nat × List Str
  | b :: bs, t :: ts => if b = t then relNames bs ts else ((b :: bs).length, t :: ts)
  | bs, ts => (bs.length, ts)

end Location

def isRooted (text : Str) : Bool :=
  text.head? == some '/'

/-- Where a path leads. -/
def locate (text : Str) : Location :=
  (Location.start (isRooted text)).follow text

/-- `filepath.Clean`. -/
def clean (text : Str) : Str :=
  (locate text).render

/-- `filepath.Join` of two elements. -/
def join (dir name : Str) : Str :=
  if dir = [] then
    if name = [] then [] else clean name
  else clean (dir ++ '/' :: name)

/-- `filepath.Dir`. -/
def dir (path : Str) : Str :=
  clean (path.reverse.dropWhile (fun c => c != '/')).reverse

/-- `filepath.Abs`, in the given working directory. -/
def abs (workDir path : Str) : Str :=
  if isRooted path then clean path else join workDir path

/-- `filepath.Rel` of two rooted paths. -/
def rel (base target : Str) : Str :=
  let steps := Location.relNames (locate base).parts (locate target).parts
  let parts := List.replicate steps.1 dotDot ++ steps.2
  if parts = [] then dot else ['/'].intercalate parts

section Parts

theorem IsName.ne_slash
    {part : Str} (h : IsName part) :
    ∀ c ∈ part, c ≠ '/' := by
  rintro c hc rfl
  exact h.2.2.2 hc

theorem not_isName_nil :
    ¬ IsName [] :=
  fun h => h.1 rfl

theorem not_isName_dot :
    ¬ IsName dot :=
  fun h => h.2.1 rfl

theorem not_isName_dotDot :
    ¬ IsName dotDot :=
  fun h => h.2.2.1 rfl

theorem partsFrom_append_sep
    (sep : Char) (part xs ys : Str) :
    partsFrom sep part (xs ++ sep :: ys) = partsFrom sep part xs ++ partsFrom sep [] ys := by
  induction xs generalizing part with
  | nil => simp [partsFrom]
  | cons x xs ih =>
      rw [List.cons_append, partsFrom, partsFrom]
      split_ifs with hx
      · rw [ih, List.cons_append]
      · exact ih _

/-- No element holds the separator; the text of a path splits back into its elements. -/
theorem partsFrom_intercalate
    {parts : List Str} (hne : parts ≠ []) (h : ∀ part ∈ parts, ∀ c ∈ part, c ≠ '/') :
    partsFrom '/' [] (['/'].intercalate parts) = parts := by
  induction parts with
  | nil => exact absurd rfl hne
  | cons part parts ih =>
      rw [List.forall_mem_cons] at h
      cases parts with
      | nil => rw [List.intercalate_singleton, partsFrom_last h.1, List.nil_append]
      | cons next parts =>
          rw [List.intercalate_cons_cons, List.append_assoc, List.singleton_append,
            partsFrom_append h.1, ih (by simp) h.2, List.nil_append]

theorem intercalate_concat
    {parts : List Str} (hne : parts ≠ []) (name : Str) :
    ['/'].intercalate (parts ++ [name]) = ['/'].intercalate parts ++ '/' :: name := by
  induction parts with
  | nil => exact absurd rfl hne
  | cons part parts ih =>
      cases parts with
      | nil => simp [List.intercalate_cons_cons]
      | cons next parts =>
          rw [List.cons_append, List.cons_append, List.intercalate_cons_cons,
            List.intercalate_cons_cons, ← List.cons_append, ih (by simp)]
          simp

end Parts

namespace Location

variable {l : Location}

theorem enter_name
    {name : Str} (h : IsName name) :
    l.enter name = l.below [name] (by simpa using h) := by
  rw [enter, dif_pos h]

@[simp] theorem enter_nil :
    l.enter [] = l := by
  rw [enter, dif_neg not_isName_nil, if_neg (by decide)]

@[simp] theorem enter_dot :
    l.enter dot = l := by
  rw [enter, dif_neg not_isName_dot, if_neg (by decide)]

@[simp] theorem enter_dotDot :
    l.enter dotDot = l.up := by
  rw [enter, dif_neg not_isName_dotDot, if_pos rfl]

@[simp] theorem follow_nil :
    l.follow [] = l := by
  simp [follow, partsFrom]

@[simp] theorem follow_dot :
    l.follow dot = l := by
  change [dot].foldl enter l = l
  simp

theorem follow_append (a b : Str) :
    l.follow (a ++ '/' :: b) = (l.follow a).follow b := by
  unfold follow
  rw [partsFrom_append_sep, List.foldl_append]

theorem follow_intercalate
    {parts : List Str} (h : ∀ part ∈ parts, ∀ c ∈ part, c ≠ '/') :
    l.follow (['/'].intercalate parts) = parts.foldl enter l := by
  by_cases hne : parts = []
  · subst hne
    exact follow_nil
  · rw [follow, partsFrom_intercalate hne h]

theorem parts_ne_slash :
    ∀ part ∈ l.parts, ∀ c ∈ part, c ≠ '/' := by
  intro part hpart c hc
  rcases List.mem_append.mp hpart with hpart | hpart
  · rw [List.eq_of_mem_replicate hpart] at hc
    rintro rfl
    simp [dotDot] at hc
  · exact (l.isName part (List.mem_reverse.mp hpart)).ne_slash c hc

theorem parts_ne_nil_of_mem :
    ∀ part ∈ l.parts, part ≠ [] := by
  intro part hpart
  rcases List.mem_append.mp hpart with hpart | hpart
  · rw [List.eq_of_mem_replicate hpart]
    decide
  · exact (l.isName part (List.mem_reverse.mp hpart)).1

theorem up_names
    {name : Str} {rest : List Str} (h : l.names = name :: rest) :
    l.up.names = rest ∧ l.up.ups = l.ups ∧ l.up.rooted = l.rooted := by
  unfold up
  split
  · next _ rest' heq =>
      rw [h, List.cons.injEq] at heq
      exact ⟨heq.2.symm, rfl, rfl⟩
  · next heq => rw [h] at heq; simp at heq

theorem up_nil
    (h : l.names = []) (hrooted : l.rooted = false) :
    l.up.names = [] ∧ l.up.ups = l.ups + 1 ∧ l.up.rooted = false := by
  unfold up
  split
  · next heq => rw [h] at heq; simp at heq
  · rw [dif_neg (by simp [hrooted])]
    exact ⟨h, rfl, hrooted⟩

theorem up_root
    (h : l.names = []) (hrooted : l.rooted = true) :
    l.up = l := by
  unfold up
  split
  · next heq => rw [h] at heq; simp at heq
  · rw [dif_pos hrooted]

/-- Names lead below. -/
theorem foldl_enter_names
    {names : List Str} (h : ∀ name ∈ names, IsName name) :
    names.reverse.foldl enter l = l.below names h := by
  induction names with
  | nil => rfl
  | cons name names ih =>
      rw [List.forall_mem_cons] at h
      rw [List.reverse_cons, List.foldl_append, ih h.2, List.foldl_cons, List.foldl_nil,
        enter_name h.1]
      rfl

theorem foldl_enter_ups (k : Nat) :
    (List.replicate k dotDot).foldl enter (start false) =
      ⟨false, k, [], by simp, by simp⟩ := by
  induction k with
  | zero => rfl
  | succ k ih =>
      rw [List.replicate_succ', List.foldl_append, ih, List.foldl_cons, List.foldl_nil,
        enter_dotDot]
      rfl

theorem foldl_enter_parts :
    l.parts.foldl enter (start l.rooted) = l := by
  obtain ⟨rooted, ups, names, hups, hnames⟩ := l
  rw [parts, List.foldl_append, foldl_enter_names hnames]
  cases rooted with
  | true =>
      obtain rfl : ups = 0 := hups rfl
      ext <;> simp [below, start]
  | false =>
      rw [foldl_enter_ups]
      ext <;> simp [below]

theorem isRooted_intercalate
    {parts : List Str} (h : ∀ part ∈ parts, part ≠ [])
    (hslash : ∀ part ∈ parts, ∀ c ∈ part, c ≠ '/') :
    isRooted (['/'].intercalate parts) = false := by
  cases parts with
  | nil => rfl
  | cons part parts =>
      cases part with
      | nil => exact absurd rfl (h [] (by simp))
      | cons c part =>
          have hc : c ≠ '/' := hslash (c :: part) (by simp) c (by simp)
          cases parts <;> simp [isRooted, hc]

theorem isRooted_render :
    isRooted l.render = l.rooted := by
  unfold render
  split_ifs with hrooted hnil
  · simp [isRooted, hrooted]
  · simpa [isRooted, dot] using hrooted
  · rw [isRooted_intercalate parts_ne_nil_of_mem parts_ne_slash]
    simpa using hrooted

/-- The clean path leads to its location. -/
@[simp] theorem locate_render :
    locate l.render = l := by
  rw [locate, isRooted_render]
  unfold render
  split_ifs with hrooted hnil
  · rw [← List.nil_append ('/' :: _), follow_append, follow_nil,
      follow_intercalate parts_ne_slash]
    exact foldl_enter_parts
  · rw [follow_dot]
    have h := foldl_enter_parts (l := l)
    rwa [hnil] at h
  · rw [follow_intercalate parts_ne_slash]
    exact foldl_enter_parts

/-- A path of names leads below. -/
theorem follow_render
    {l' : Location} (hrooted : l'.rooted = false) (hups : l'.ups = 0) :
    l.follow l'.render = l.below l'.names l'.isName := by
  have hparts : l'.parts = l'.names.reverse := by simp [parts, hups]
  unfold render
  rw [if_neg (by simp [hrooted])]
  split_ifs with hnil
  · have hnames : l'.names = [] := by simpa [hparts] using hnil
    rw [follow_dot]
    ext <;> simp [below, hnames]
  · rw [follow_intercalate parts_ne_slash, hparts, foldl_enter_names l'.isName]

theorem relNames_eq_zero_iff
    {base target rest : List Str} :
    relNames base target = (0, rest) ↔ target = base ++ rest := by
  induction base generalizing target with
  | nil => cases target <;> simp [relNames]
  | cons b base ih =>
      cases target with
      | nil => simp [relNames]
      | cons t target =>
          rw [relNames]
          split_ifs with hbt
          · rw [ih, hbt]
            simp
          · simp only [List.length_cons, Prod.mk.injEq, Nat.succ_ne_zero, false_and,
              List.cons_append, List.cons.injEq, false_iff, not_and]
            intro htb
            exact absurd htb.symm hbt

end Location

section Clean

open Location

variable {path name : Str} {l : Location}

theorem locate_clean (path : Str) :
    locate (clean path) = locate path :=
  locate_render

theorem clean_clean (path : Str) :
    clean (clean path) = clean path := by
  rw [clean, locate_clean]
  rfl

theorem clean_render (l : Location) :
    clean l.render = l.render := by
  rw [clean, locate_render]

/-- Clean paths are the same when they lead to the same location. -/
theorem eq_of_locate_eq
    {path' : Str} (h : clean path = path) (h' : clean path' = path')
    (heq : locate path = locate path') :
    path = path' := by
  rw [← h, ← h', clean, clean, heq]

theorem render_ne_nil :
    l.render ≠ [] := by
  unfold render
  split_ifs with hrooted hnil
  · simp
  · decide
  · obtain ⟨part, parts, hparts⟩ := List.exists_cons_of_ne_nil hnil
    have hpart : part ≠ [] := parts_ne_nil_of_mem part (by rw [hparts]; simp)
    rw [hparts]
    cases parts <;> simp [List.intercalate_cons_cons, hpart]

theorem clean_ne_nil (path : Str) :
    clean path ≠ [] :=
  render_ne_nil

/-- Joining follows the second path from where the first leads. -/
theorem locate_join
    {dir : Str} (h : dir ≠ []) (name : Str) :
    locate (join dir name) = (locate dir).follow name := by
  rw [join, if_neg h, locate_clean, locate, follow_append]
  congr 2
  cases dir with
  | nil => exact absurd rfl h
  | cons c dir => rfl

theorem clean_join
    {dir : Str} (h : dir ≠ []) (name : Str) :
    clean (join dir name) = join dir name := by
  rw [join, if_neg h, clean_clean]

/-- `filepath.Dir` of a path that ends with a name goes up. -/
theorem locate_dir_render
    {rest : List Str} (hrooted : l.rooted = false) (hnames : l.names = name :: rest) :
    locate (dir l.render) = l.up := by
  have hname : IsName name := l.isName name (by simp [hnames])
  have hparts : l.parts = (List.replicate l.ups dotDot ++ rest.reverse) ++ [name] := by
    simp [parts, hnames]
  have hup : l.up.parts = List.replicate l.ups dotDot ++ rest.reverse := by
    obtain ⟨hn, hu, -⟩ := up_names hnames
    rw [parts, hn, hu]
  have hstop : ∀ front : Str,
      (front ++ '/' :: name).reverse.dropWhile (fun c => c != '/') = '/' :: front.reverse := by
    intro front
    rw [List.reverse_append, List.reverse_cons, List.append_assoc, List.dropWhile_append_of_pos]
    · simp
    · intro c hc
      simpa using hname.ne_slash c (List.mem_reverse.mp hc)
  rw [dir, locate_clean, render, if_neg (by simp [hrooted]), if_neg (by simp [hparts]), hparts]
  rw [← hup]
  by_cases hnil : l.up.parts = []
  · have hall : name.reverse.dropWhile (fun c => c != '/') = [] := by
      rw [List.dropWhile_eq_nil_iff]
      intro c hc
      simpa using hname.ne_slash c (List.mem_reverse.mp hc)
    rw [hnil, List.nil_append, List.intercalate_singleton, hall]
    have h := foldl_enter_parts (l := l.up)
    rw [hnil, (up_names hnames).2.2, hrooted] at h
    exact h
  · have hjoin : ['/'].intercalate (l.up.parts ++ [name]) =
        ['/'].intercalate l.up.parts ++ '/' :: name := by
      exact intercalate_concat hnil name
    rw [hjoin, hstop, List.reverse_cons, List.reverse_reverse, locate]
    have hfront : isRooted (['/'].intercalate l.up.parts ++ ['/']) = false := by
      have h := isRooted_intercalate (parts_ne_nil_of_mem (l := l.up)) parts_ne_slash
      cases htext : ['/'].intercalate l.up.parts with
      | nil =>
          have hrender := render_ne_nil (l := l.up)
          rw [render, if_neg (by simp [(up_names hnames).2.2, hrooted]), if_neg hnil] at hrender
          exact absurd htext hrender
      | cons c text =>
          rw [htext] at h
          exact h
    rw [hfront, follow_append, follow_nil, follow_intercalate parts_ne_slash]
    have h := foldl_enter_parts (l := l.up)
    rwa [(up_names hnames).2.2, hrooted] at h

theorem dir_ne_nil (path : Str) :
    dir path ≠ [] :=
  clean_ne_nil _

theorem follow_rooted (l : Location) (text : Str) :
    (l.follow text).rooted = l.rooted := by
  unfold follow
  induction partsFrom '/' [] text generalizing l with
  | nil => rfl
  | cons part parts ih =>
      rw [List.foldl_cons, ih, enter]
      split_ifs with hname hup
      · rfl
      · cases hnames : l.names with
        | cons name rest => exact (up_names hnames).2.2
        | nil =>
            cases hrooted : l.rooted with
            | true => rw [up_root hnames hrooted, hrooted]
            | false => exact (up_nil hnames hrooted).2.2
      · rfl

theorem rooted_abs
    {workDir : Location} (h : workDir.rooted = true) (path : Str) :
    (locate (abs workDir.render path)).rooted = true := by
  unfold abs
  split_ifs with hpath
  · rw [locate_clean, locate, follow_rooted]
    exact hpath
  · rw [locate_join render_ne_nil, locate_render, follow_rooted, h]

theorem relNames_suffix (base target : List Str) :
    (relNames base target).2 <:+ target := by
  induction base generalizing target with
  | nil => rw [relNames.eq_def]
  | cons b base ih =>
      cases target with
      | nil => rw [relNames.eq_def]
      | cons t target =>
          rw [relNames]
          split_ifs with hbt
          · exact (ih target).trans (List.suffix_cons _ _)
          · exact List.suffix_refl _

/-- The relative path to a rooted one is clean. -/
theorem rel_eq_render
    (base : Str) {target : Str} (h : (locate target).rooted = true) :
    ∃ l : Location, l.rooted = false ∧ rel base target = l.render ∧
      l.ups = (relNames (locate base).parts (locate target).parts).1 ∧
      l.names.reverse = (relNames (locate base).parts (locate target).parts).2 := by
  have hparts : (locate target).parts = (locate target).names.reverse := by
    simp [parts, (locate target).rooted_ups h]
  have hnames : ∀ name ∈ (relNames (locate base).parts (locate target).parts).2.reverse,
      IsName name := by
    intro name hname
    have hmem := (relNames_suffix _ _).subset (List.mem_reverse.mp hname)
    rw [hparts, List.mem_reverse] at hmem
    exact (locate target).isName name hmem
  refine ⟨⟨false, _, _, by simp, hnames⟩, rfl, ?_, rfl, List.reverse_reverse _⟩
  simp [rel, render, parts]

end Clean

end FilePath
end AndroidBuild
