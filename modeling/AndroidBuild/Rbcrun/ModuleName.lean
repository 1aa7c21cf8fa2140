import AndroidBuild.Lib.FilePath

/-!
# Load labels

`cleanModuleName` turns the first argument of a `load` statement into the path
of a file.  `labelTarget` says which file a label names, given the location of
the file that has the `load`; the two agree, whichever way the label is
written, and one file has one path.
-/

namespace AndroidBuild
namespace Rbcrun

open Text FilePath

inductive ExecutionMode
  | rbc
  | scl
  deriving DecidableEq

/-- The errors of a run. -/
inductive LoadError
  | tooManyColons (moduleName : Str)
  | noRoot
  | notClean (found expected : Str)
  | goesUp (moduleName : Str)
  | absolutePath (moduleName : Str)
  | cycle
  | sclOnly (callingFile modulePath : Str)
  | symlink (path : Str)
  | lstat (path : Str)
  | eval (text : Str)
  | cannotLoad (module : Str) (cause : LoadError)
  | outsideRoot (filename : Str)
  | notScl (filename : Str)
  deriving DecidableEq

namespace LoadError

/-- The error that made the loads around it fail. -/
def root : LoadError → LoadError
  | cannotLoad _ cause => cause.root
  | e => e

/-- The text of an error; `%q` as for texts without special characters. -/
def text : LoadError → Str
  | tooManyColons moduleName =>
      "at most 1 colon must be present in starlark path: ".toList ++ moduleName
  | noRoot => "load path must start with // or :".toList
  | notClean found expected =>
      "load path must be clean, found: ".toList ++ found ++ ", expected: ".toList ++ expected
  | goesUp moduleName => "load path must not start with ../: ".toList ++ moduleName
  | absolutePath moduleName =>
      "load path starts with /, use // for a absolute path: ".toList ++ moduleName
  | cycle => "cycle in load graph".toList
  | sclOnly callingFile modulePath =>
      ".scl files can only load other .scl files: \"".toList ++ callingFile ++
        "\" loads \"".toList ++ modulePath ++ "\"".toList
  | symlink path =>
      "symlinks to starlark files are not allowed. Instead, load the target file ".toList ++
        "and re-export its symbols: ".toList ++ path
  | lstat path => "lstat ".toList ++ path ++ ": no such file or directory".toList
  | eval text => text
  | cannotLoad module cause => "cannot load ".toList ++ module ++ ": ".toList ++ cause.text
  | outsideRoot filename =>
      "path could not be made relative to workspace root: ".toList ++ filename
  | notScl filename => "filename must end in .scl: ".toList ++ filename

end LoadError

def splitLast (sep : Char) (s : Str) : Option (Str × Str) :=
  if sep ∈ s then
    some ((s.reverse.dropWhile (fun c => c != sep)).tail.reverse,
      (s.reverse.takeWhile (fun c => c != sep)).reverse)
  else none

def skylibDicts : Str :=
  "@bazel_skylib//lib:dicts.bzl".toList

def skylibPath : Str :=
  "external/bazel-skylib/lib/dicts.bzl".toList

/-- The name without its `@//`, `//` or `:`, and whether it is a local one. -/
def stripRoot (moduleName : Str) (allowExternalPaths : Bool) : Option (Str × Bool) :=
  if "@//".toList.isPrefixOf moduleName then some (moduleName.drop 3, false)
  else if "//".toList.isPrefixOf moduleName then some (moduleName.drop 2, false)
  else if ":".toList.isPrefixOf moduleName then some (moduleName.drop 1, true)
  else if allowExternalPaths then some (moduleName, false)
  else none

def colonToSlash (moduleName : Str) : Str :=
  match splitLast ':' moduleName with
  | some (front, back) => front ++ '/' :: back
  | none => moduleName

/-- Takes a label and returns the path it is trying to load. -/
def cleanModuleName (moduleName callerDir : Str) (allowExternalPaths : Bool) :
    Except LoadError Str :=
  if 1 < moduleName.count ':' then .error (.tooManyColons moduleName)
  else if moduleName = skylibDicts then .ok skylibPath
  else
    match stripRoot moduleName allowExternalPaths with
    | none => .error .noRoot
    | some (name, localLoad) =>
        if clean (colonToSlash name) ≠ colonToSlash name then
          .error (.notClean (colonToSlash name) (clean (colonToSlash name)))
        else if !allowExternalPaths && "../".toList.isPrefixOf (colonToSlash name) then
          .error (.goesUp (colonToSlash name))
        else if !allowExternalPaths && "/".toList.isPrefixOf (colonToSlash name) then
          .error (.absolutePath (colonToSlash name))
        else if localLoad then .ok (join callerDir (colonToSlash name))
        else .ok (colonToSlash name)

/-- The file a label names: below the working directory, or beside the caller. -/
def labelTarget (workDir caller : Location) (label : Str) : Option Location :=
  if label = skylibDicts then some (workDir.follow skylibPath)
  else
    match stripRoot label false with
    | some (name, true) => some (caller.up.follow (colonToSlash name))
    | some (name, false) => some (workDir.follow (colonToSlash name))
    | none => none

/-- The clean path of something below the working directory. -/
structure Inside (path : Str) : Prop where
  clean_eq : clean path = path
  rooted : (locate path).rooted = false
  ups : (locate path).ups = 0

section Inside

variable {path path' name : Str} {l workDir : Location}

theorem inside_render
    (hrooted : l.rooted = false) (hups : l.ups = 0) :
    Inside l.render := by
  refine ⟨clean_render l, ?_, ?_⟩
  · rwa [Location.locate_render]
  · rwa [Location.locate_render]

theorem Inside.follow
    (h : Inside path) :
    l.follow path = l.below (locate path).names (locate path).isName := by
  rw [← Location.follow_render h.rooted h.ups]
  congr 1
  exact h.clean_eq.symm

/-- One file has one path. -/
theorem Inside.follow_inj
    (h : Inside path) (h' : Inside path') (heq : workDir.follow path = workDir.follow path') :
    path = path' := by
  refine eq_of_locate_eq h.clean_eq h'.clean_eq ?_
  rw [h.follow, h'.follow, Location.ext_iff] at heq
  have hnames : (locate path).names = (locate path').names :=
    List.append_cancel_right heq.2.2
  ext1
  · rw [h.rooted, h'.rooted]
  · rw [h.ups, h'.ups]
  · exact hnames

/-- A clean relative path that does not begin with `../` is inside, or is `..`. -/
theorem inside_or_dotDot
    (hclean : clean name = name) (hup : "../".toList.isPrefixOf name = false)
    (hroot : "/".toList.isPrefixOf name = false) :
    Inside name ∨ name = dotDot := by
  have hrooted : (locate name).rooted = false := by
    rw [← Location.isRooted_render (l := locate name)]
    change isRooted (clean name) = false
    rw [hclean]
    cases name with
    | nil => rfl
    | cons c name =>
        have hc : c ≠ '/' := by
          rintro rfl
          simp [List.isPrefixOf] at hroot
        simp [isRooted, hc]
  by_cases hups : (locate name).ups = 0
  · exact Or.inl ⟨hclean, hrooted, hups⟩
  · right
    obtain ⟨k, hk⟩ := Nat.exists_eq_succ_of_ne_zero hups
    have hrender : name = ['/'].intercalate (dotDot ::
        (List.replicate k dotDot ++ (locate name).names.reverse)) := by
      have h : (locate name).render = name := hclean
      rw [Location.render, if_neg (by simp [hrooted]), if_neg] at h
      · rw [Location.parts, hk, List.replicate_succ, List.cons_append] at h
        exact h.symm
      · simp [Location.parts, hk, List.replicate_succ]
    cases hrest : List.replicate k dotDot ++ (locate name).names.reverse with
    | nil => rw [hrender, hrest, List.intercalate_singleton]
    | cons part rest =>
        rw [hrender, hrest, List.intercalate_cons_cons] at hup
        simp [dotDot, List.isPrefixOf] at hup

end Inside

section Labels

variable {label path : Str}

theorem cleanModuleName_cases
    {callerDir : Str} (h : cleanModuleName label callerDir false = .ok path) :
    label = skylibDicts ∧ path = skylibPath ∨
      label ≠ skylibDicts ∧ ∃ name localLoad, stripRoot label false = some (name, localLoad) ∧
        (Inside (colonToSlash name) ∨ colonToSlash name = dotDot) ∧
        path = if localLoad then join callerDir (colonToSlash name) else colonToSlash name := by
  rw [cleanModuleName] at h
  split_ifs at h with hcount hskylib
  · exact Or.inl ⟨hskylib, (Except.ok.inj h).symm⟩
  · right
    refine ⟨hskylib, ?_⟩
    split at h
    · simp at h
    · next name localLoad hstrip =>
        simp only [Bool.not_false, Bool.true_and] at h
        split_ifs at h with hclean hup hroot hlocal
        all_goals
          have hname := inside_or_dotDot (not_not.mp hclean) (Bool.eq_false_of_not_eq_true hup)
            (Bool.eq_false_of_not_eq_true hroot)
          refine ⟨name, localLoad, hstrip, hname, ?_⟩
        · rw [if_pos hlocal]
          exact (Except.ok.inj h).symm
        · rw [if_neg hlocal]
          exact (Except.ok.inj h).symm

theorem inside_skylibPath :
    Inside skylibPath :=
  ⟨by decide +kernel, by decide +kernel, by decide +kernel⟩

theorem follow_dotDot (l : Location) :
    l.follow dotDot = l.up := by
  change [dotDot].foldl Location.enter l = l.up
  simp

/-- A local name, joined to the directory of the caller, leads where it leads from there. -/
theorem follow_join_dir
    (workDir : Location) {callingFile name : Str} (hcaller : Inside callingFile)
    (hfile : (locate callingFile).names ≠ []) (hname : Inside name ∨ name = dotDot) :
    (Inside (join (dir callingFile) name) ∨ join (dir callingFile) name = dotDot) ∧
      workDir.follow (join (dir callingFile) name) =
        (workDir.follow callingFile).up.follow name := by
  obtain ⟨last, rest, hnames⟩ := List.exists_cons_of_ne_nil hfile
  have hdir : locate (dir callingFile) = (locate callingFile).up := by
    have h := locate_dir_render (l := locate callingFile) hcaller.rooted hnames
    rwa [show (locate callingFile).render = callingFile from hcaller.clean_eq] at h
  obtain ⟨hupNames, hupUps, hupRooted⟩ := Location.up_names hnames
  rw [hcaller.ups] at hupUps
  rw [hcaller.rooted] at hupRooted
  have hbelow : (workDir.follow callingFile).names = last :: (rest ++ workDir.names) := by
    rw [hcaller.follow]
    simp [Location.below, hnames]
  obtain ⟨hnames', hups', hrooted'⟩ := Location.up_names hbelow
  have hkeep : (workDir.follow callingFile).ups = workDir.ups ∧
      (workDir.follow callingFile).rooted = workDir.rooted := by
    rw [hcaller.follow]
    exact ⟨rfl, rfl⟩
  have hjoin : locate (join (dir callingFile) name) = (locate callingFile).up.follow name := by
    rw [locate_join (dir_ne_nil callingFile), hdir]
  have hclean := clean_join (dir_ne_nil callingFile) name
  rcases hname with hname | rfl
  · -- a path of names leads below the directory
    rw [hname.follow] at hjoin
    have hinside : Inside (join (dir callingFile) name) := by
      refine ⟨hclean, ?_, ?_⟩
      · rw [hjoin]
        exact hupRooted
      · rw [hjoin]
        exact hupUps
    refine ⟨Or.inl hinside, ?_⟩
    rw [hinside.follow, hname.follow, Location.ext_iff]
    refine ⟨?_, ?_, ?_⟩
    · simp [Location.below, hrooted', hkeep.2]
    · simp [Location.below, hups', hkeep.1]
    · simp [Location.below, hjoin, hupNames, hnames']
  · rw [follow_dotDot] at hjoin ⊢
    cases rest with
    | nil =>
        -- the caller lies in the working directory itself
        have htop := Location.up_nil hupNames hupRooted
        have hpath : join (dir callingFile) dotDot = dotDot := by
          refine eq_of_locate_eq hclean (by decide +kernel) ?_
          rw [hjoin, Location.ext_iff]
          have hdots : (locate dotDot).rooted = false ∧ (locate dotDot).ups = 1 ∧
              (locate dotDot).names = [] := by
            decide +kernel
          rw [htop.1, htop.2.1, htop.2.2, hupUps, hdots.1, hdots.2.1, hdots.2.2]
          exact ⟨rfl, rfl, rfl⟩
        refine ⟨Or.inr hpath, ?_⟩
        have hback : (workDir.follow callingFile).up = workDir := by
          rw [Location.ext_iff, hrooted', hups', hnames', hkeep.1, hkeep.2]
          exact ⟨rfl, rfl, rfl⟩
        rw [hpath, follow_dotDot, hback]
    | cons next rest =>
        obtain ⟨htopNames, htopUps, htopRooted⟩ := Location.up_names hupNames
        have hinside : Inside (join (dir callingFile) dotDot) := by
          refine ⟨hclean, ?_, ?_⟩
          · rw [hjoin, htopRooted, hupRooted]
          · rw [hjoin, htopUps, hupUps]
        refine ⟨Or.inl hinside, ?_⟩
        obtain ⟨htopNames', htopUps', htopRooted'⟩ := Location.up_names hnames'
        rw [hinside.follow, Location.ext_iff, htopNames', htopUps', htopRooted', hrooted', hups',
          hkeep.1, hkeep.2]
        simp [Location.below, hjoin, htopNames]

/-- A label that is accepted names the file at the path it is turned into, and that path is
inside unless it is the parent of the working directory. -/
theorem cleanModuleName_ok
    (workDir : Location) {callingFile : Str} (hcaller : Inside callingFile)
    (hfile : (locate callingFile).names ≠ [])
    (h : cleanModuleName label (dir callingFile) false = .ok path) :
    labelTarget workDir (workDir.follow callingFile) label = some (workDir.follow path) ∧
      (Inside path ∨ path = dotDot) := by
  rcases cleanModuleName_cases h with ⟨rfl, rfl⟩ | ⟨hskylib, name, localLoad, hstrip, hname, rfl⟩
  · rw [labelTarget, if_pos rfl]
    exact ⟨rfl, Or.inl inside_skylibPath⟩
  · rw [labelTarget, if_neg hskylib, hstrip]
    cases localLoad with
    | true =>
        obtain ⟨hpath, hfollow⟩ := follow_join_dir workDir hcaller hfile hname
        exact ⟨congrArg some hfollow.symm, hpath⟩
    | false => exact ⟨rfl, hname⟩

end Labels

end Rbcrun
end AndroidBuild
