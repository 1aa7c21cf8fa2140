import AndroidBuild.ConvertFinalizedFlags.FinalizedFlagMap
import Mathlib

/-!
# The level of a flag

A flag is stored under the level of the first file that contains it, so under
exactly one, which any lookup finds.  That this is the earliest level depends on
the order of the files.
-/

namespace AndroidBuild
namespace ConvertFinalizedFlags

open Text FloatLiteral

section Insert

variable (m : FinalizedFlagMap)

theorem containsFlag_iff
    {flag : FinalizedFlag} :
    m.containsFlag flag ↔ ∃ level, flag ∈ m.values level := by
  constructor
  · rintro ⟨level, _, h⟩
    exact ⟨level, h⟩
  · rintro ⟨level, h⟩
    exact ⟨level, SetMap.mem_keys_of_mem h, h⟩

theorem mem_values_insertIfNew
    {level level' : ApiLevel} {flag flag' : FinalizedFlag} :
    flag' ∈ (m.insertIfNew level flag).values level' ↔
      flag' ∈ m.values level' ∨ ¬ m.containsFlag flag' ∧ level' = level ∧ flag' = flag := by
  unfold FinalizedFlagMap.insertIfNew
  split_ifs with hcontains
  · refine (or_iff_left ?_).symm
    rintro ⟨hnot, _, rfl⟩
    exact hnot hcontains
  · rw [SetMap.mem_values_add]
    refine or_congr_right ?_
    constructor
    · rintro ⟨hlevel, rfl⟩
      exact ⟨hcontains, hlevel, rfl⟩
    · exact And.right

theorem containsFlag_insertIfNew
    {level : ApiLevel} {flag flag' : FinalizedFlag} :
    (m.insertIfNew level flag).containsFlag flag' ↔ m.containsFlag flag' ∨ flag' = flag := by
  rw [containsFlag_iff]
  simp only [mem_values_insertIfNew]
  constructor
  · rintro ⟨l, hl | ⟨_, _, hflag⟩⟩
    · exact Or.inl ((containsFlag_iff m).mpr ⟨l, hl⟩)
    · exact Or.inr hflag
  · intro h
    by_cases hcontains : m.containsFlag flag'
    · obtain ⟨l, hl⟩ := (containsFlag_iff m).mp hcontains
      exact ⟨l, Or.inl hl⟩
    · exact ⟨level, Or.inr ⟨hcontains, rfl, h.resolve_left hcontains⟩⟩

theorem mem_values_foldl_insertIfNew
    (flags : List FinalizedFlag) {level level' : ApiLevel} {flag : FinalizedFlag} :
    flag ∈ (flags.foldl (fun m f => m.insertIfNew level f) m).values level' ↔
      flag ∈ m.values level' ∨ ¬ m.containsFlag flag ∧ level' = level ∧ flag ∈ flags := by
  induction flags generalizing m with
  | nil => simp
  | cons f flags ih =>
      rw [List.foldl_cons, ih, mem_values_insertIfNew, containsFlag_insertIfNew, List.mem_cons]
      tauto

end Insert

section Files

variable (round : ℚ → Number) (supportMinorSdk : Bool) (openFile : Open)

def lineFlag (line : Option Str) : Except Failure FinalizedFlag :=
  match line with
  | none => .error (.panicked "Failed to read line from file")
  | some flag =>
      match buildFinalizedFlag flag with
      | none => .error (.panicked "cannot build finalized flag")
      | some flag => .ok flag

def fileEntry (flagFile : Str) : Except Failure (Option (ApiLevel × List FinalizedFlag)) :=
  match rsplitn '/' 3 flagFile with
  | name :: rest =>
      if name ∉ flagFileNames then
        .error (.err ("Provided incorrect file, must be finalized-flags.txt or " ++
          "extended_flags_list.txt"))
      else match rest with
        | [] => .error (.panicked "index out of bounds")
        | apiLevelString :: _ =>
            match fromStr round supportMinorSdk apiLevelString with
            | .error (.panicked message) => .error (.panicked message)
            | .error _ => .ok none
            | .ok level =>
                match openFile flagFile with
                | none => .error (.err "cannot open the file")
                | some lines => (lines.mapM lineFlag).map fun flags => some (level, flags)
  | [] => .error (.panicked "index out of bounds")

def addEntry (m : FinalizedFlagMap) : Option (ApiLevel × List FinalizedFlag) → FinalizedFlagMap
  | none => m
  | some e => e.2.foldl (fun m f => m.insertIfNew e.1 f) m

theorem foldlM_insertLine
    (level : ApiLevel) (lines : List (Option Str)) (m : FinalizedFlagMap) :
    lines.foldlM (insertLine level) m =
      (lines.mapM lineFlag).map fun flags => flags.foldl (fun m f => m.insertIfNew level f) m := by
  refine Loop.foldlM_eq_mapM ?_ lines m
  intro m line
  unfold insertLine lineFlag
  cases line with
  | none => rfl
  | some flag =>
      dsimp only
      cases buildFinalizedFlag flag <;> rfl

/-- A file's flags do not depend on what has been read before. -/
theorem readFile_eq
    (m : FinalizedFlagMap) (flagFile : Str) :
    readFile round supportMinorSdk openFile m flagFile =
      (fileEntry round supportMinorSdk openFile flagFile).map (addEntry m) := by
  unfold readFile fileEntry
  cases rsplitn '/' 3 flagFile with
  | nil => rfl
  | cons name rest =>
      dsimp only
      by_cases hname : name ∉ flagFileNames
      · rw [if_pos hname, if_pos hname]
        rfl
      · rw [if_neg hname, if_neg hname]
        cases rest with
        | nil => rfl
        | cons apiLevelString _ =>
            dsimp only
            cases fromStr round supportMinorSdk apiLevelString with
            | error failure => cases failure <;> rfl
            | ok level =>
                dsimp only
                cases openFile flagFile with
                | none => rfl
                | some lines =>
                    dsimp only
                    rw [foldlM_insertLine]
                    cases lines.mapM lineFlag <;> rfl

/-- The file is of the level and contains the flag. -/
def HasFlag (file : Str) (level : ApiLevel) (flag : FinalizedFlag) : Prop :=
  ∃ flags, fileEntry round supportMinorSdk openFile file = .ok (some (level, flags)) ∧
    flag ∈ flags

/-- The first file with the flag is of the level. -/
def FirstIn (files : List Str) (level : ApiLevel) (flag : FinalizedFlag) : Prop :=
  ∃ front file back, files = front ++ file :: back ∧
    HasFlag round supportMinorSdk openFile file level flag ∧
    ∀ f ∈ front, ∀ l, ¬ HasFlag round supportMinorSdk openFile f l flag

variable {round supportMinorSdk openFile}

theorem HasFlag.unique
    {file : Str} {level level' : ApiLevel} {flag flag' : FinalizedFlag}
    (h : HasFlag round supportMinorSdk openFile file level flag)
    (h' : HasFlag round supportMinorSdk openFile file level' flag') :
    level = level' := by
  obtain ⟨flags, hentry, _⟩ := h
  obtain ⟨flags', hentry', _⟩ := h'
  rw [hentry] at hentry'
  cases hentry'
  rfl

theorem mem_values_addEntry
    {m : FinalizedFlagMap} {file : Str} {e : Option (ApiLevel × List FinalizedFlag)}
    (he : fileEntry round supportMinorSdk openFile file = .ok e) {level : ApiLevel}
    {flag : FinalizedFlag} :
    flag ∈ (addEntry m e).values level ↔ flag ∈ m.values level ∨
      ¬ m.containsFlag flag ∧ HasFlag round supportMinorSdk openFile file level flag := by
  unfold HasFlag
  rw [he]
  cases e with
  | none =>
      simp [addEntry]
  | some e =>
      obtain ⟨level', flags⟩ := e
      rw [addEntry, mem_values_foldl_insertIfNew]
      refine or_congr_right (and_congr_right fun _ => ?_)
      constructor
      · rintro ⟨rfl, hflag⟩
        exact ⟨flags, rfl, hflag⟩
      · rintro ⟨flags', heq, hflag⟩
        cases heq
        exact ⟨rfl, hflag⟩

/-- Some file contains the flag, so one is the first. -/
theorem exists_firstIn_iff
    (files : List Str) {flag : FinalizedFlag} :
    (∃ level, FirstIn round supportMinorSdk openFile files level flag) ↔
      ∃ f ∈ files, ∃ l, HasFlag round supportMinorSdk openFile f l flag := by
  constructor
  · rintro ⟨level, front, file, back, rfl, hflag, _⟩
    exact ⟨file, by simp, level, hflag⟩
  · induction files with
    | nil => simp
    | cons file files ih =>
        rw [List.exists_mem_cons_iff]
        by_cases hfile : ∃ l, HasFlag round supportMinorSdk openFile file l flag
        · obtain ⟨level, hlevel⟩ := hfile
          exact fun _ => ⟨level, [], file, files, rfl, hlevel, by simp⟩
        · rintro (h | h)
          · exact absurd h hfile
          · obtain ⟨level, front, f, back, rfl, hflag, hfront⟩ := ih h
            refine ⟨level, file :: front, f, back, rfl, hflag, ?_⟩
            rw [List.forall_mem_cons]
            exact ⟨fun l hl => hfile ⟨l, hl⟩, hfront⟩

theorem firstIn_concat
    (files : List Str) (file : Str) {level : ApiLevel} {flag : FinalizedFlag} :
    FirstIn round supportMinorSdk openFile (files ++ [file]) level flag ↔
      FirstIn round supportMinorSdk openFile files level flag ∨
        (∀ f ∈ files, ∀ l, ¬ HasFlag round supportMinorSdk openFile f l flag) ∧
          HasFlag round supportMinorSdk openFile file level flag := by
  constructor
  · rintro ⟨front, f, back, hsplit, hflag, hfront⟩
    induction back using List.reverseRecOn with
    | nil =>
        obtain ⟨rfl, hlast⟩ := List.append_inj' hsplit rfl
        cases hlast
        exact Or.inr ⟨hfront, hflag⟩
    | append_singleton back c _ =>
        rw [← List.cons_append, ← List.append_assoc] at hsplit
        obtain ⟨rfl, _⟩ := List.append_inj' hsplit rfl
        exact Or.inl ⟨front, f, back, rfl, hflag, hfront⟩
  · rintro (⟨front, f, back, rfl, hflag, hfront⟩ | ⟨hnone, hflag⟩)
    · exact ⟨front, f, back ++ [file], by simp, hflag, hfront⟩
    · exact ⟨files, file, [], rfl, hflag, hnone⟩

/-- A flag is stored under the level of the first file that contains it. -/
theorem mem_values_readFiles
    {files : List Str} {m : FinalizedFlagMap}
    (h : readFilesToMapUsingPath round supportMinorSdk openFile files = .ok m)
    {level : ApiLevel} {flag : FinalizedFlag} :
    flag ∈ m.values level ↔ FirstIn round supportMinorSdk openFile files level flag := by
  refine Loop.forLoop_ok (fun done m => ∀ level flag, flag ∈ m.values level ↔
    FirstIn round supportMinorSdk openFile done level flag) h ?_ ?_ level flag
  · intro level flag
    rw [SetMap.values_empty]
    refine iff_of_false (Finset.notMem_empty flag) ?_
    rintro ⟨front, file, back, hsplit, _⟩
    cases front <;> cases hsplit
  · intro done file rest m m' _ hI hstep level flag
    rw [readFile_eq] at hstep
    cases hentry : fileEntry round supportMinorSdk openFile file with
    | error failure =>
        rw [hentry] at hstep
        cases hstep
    | ok e =>
        rw [hentry] at hstep
        cases hstep
        rw [mem_values_addEntry hentry, hI, firstIn_concat, containsFlag_iff]
        simp only [hI, exists_firstIn_iff]
        push Not
        rfl

/-- No two files are first. -/
theorem FirstIn.unique
    {files : List Str} {level level' : ApiLevel} {flag : FinalizedFlag}
    (h : FirstIn round supportMinorSdk openFile files level flag)
    (h' : FirstIn round supportMinorSdk openFile files level' flag) :
    level = level' := by
  obtain ⟨front, file, back, hsplit, hflag, hfront⟩ := h
  obtain ⟨front', file', back', hsplit', hflag', hfront'⟩ := h'
  rw [hsplit] at hsplit'
  rcases List.append_eq_append_iff.mp hsplit' with ⟨middle, hm, hrest⟩ | ⟨middle, hm, hrest⟩
  · cases middle with
    | nil =>
        cases hrest
        exact hflag.unique hflag'
    | cons c middle =>
        cases hrest
        exact absurd hflag (hfront' file (by simp [hm]) level)
  · cases middle with
    | nil =>
        cases hrest
        exact hflag.unique hflag'
    | cons c middle =>
        cases hrest
        exact absurd hflag' (hfront file' (by simp [hm]) level')

theorem getFinalizedLevel_eq_some_iff
    {files : List Str} {m : FinalizedFlagMap}
    (h : readFilesToMapUsingPath round supportMinorSdk openFile files = .ok m)
    (order : HashOrder ApiLevel) {level : ApiLevel} {flag : FinalizedFlag} :
    m.getFinalizedLevel order flag = some level ↔ flag ∈ m.values level := by
  have hunique : ∀ {l l'}, flag ∈ m.values l → flag ∈ m.values l' → l = l' := by
    intro l l' hl hl'
    exact ((mem_values_readFiles h).mp hl).unique ((mem_values_readFiles h).mp hl')
  constructor
  · intro hfind
    simpa using List.find?_some hfind
  · intro hmem
    cases hfind : m.getFinalizedLevel order flag with
    | none =>
        have hnone := List.find?_eq_none.mp hfind level
          ((order.mem_iterate _ _).mpr (SetMap.mem_keys_of_mem hmem))
        exact absurd (decide_eq_true hmem) hnone
    | some level' =>
        have hmem' : flag ∈ m.values level' := by
          simpa using List.find?_some hfind
        rw [hunique hmem hmem']

/-- The place of a level in the order of SDK versions, on the larger scale. -/
def ApiLevel.order (l : ApiLevel) : Nat :=
  if l.level ≤ sdkIntMultiplier then l.level * sdkIntMultiplier else l.level

variable (round supportMinorSdk openFile)

/-- The first file with a flag is of the earliest level among the files with the flag. -/
def FirstIsEarliest (files : List Str) : Prop :=
  ∀ level flag, FirstIn round supportMinorSdk openFile files level flag →
    ∀ file ∈ files, ∀ l, HasFlag round supportMinorSdk openFile file l flag →
      level.order ≤ l.order

/-- All files with a flag are of one level. -/
def OneLevel (files : List Str) : Prop :=
  ∀ file ∈ files, ∀ file' ∈ files, ∀ level level' flag,
    HasFlag round supportMinorSdk openFile file level flag →
    HasFlag round supportMinorSdk openFile file' level' flag → level = level'

variable {round supportMinorSdk openFile}

/-- Files that can be read can be read in each order. -/
theorem readFiles_perm
    {files files' : List Str} {m : FinalizedFlagMap} (hperm : files'.Perm files)
    (h : readFilesToMapUsingPath round supportMinorSdk openFile files = .ok m) :
    ∃ m', readFilesToMapUsingPath round supportMinorSdk openFile files' = .ok m' := by
  have heq : ∀ l, readFilesToMapUsingPath round supportMinorSdk openFile l =
      (l.mapM (fileEntry round supportMinorSdk openFile)).map
        fun es => es.foldl addEntry SetMap.empty := fun l =>
    Loop.foldlM_eq_mapM (readFile_eq round supportMinorSdk openFile) l SetMap.empty
  have hfiles : ∀ file ∈ files, ∃ e, fileEntry round supportMinorSdk openFile file = .ok e := by
    intro file hfile
    rw [heq] at h
    cases hes : files.mapM (fileEntry round supportMinorSdk openFile) with
    | error failure =>
        rw [hes] at h
        cases h
    | ok es =>
        exact Loop.exists_of_mapM_eq_ok hes hfile
  obtain ⟨es, hes⟩ := Loop.mapM_total fun file hfile =>
    hfiles file (hperm.mem_iff.mp hfile)
  exact ⟨_, (heq files').trans (by rw [hes]; rfl)⟩

/-- A flag with a level is stored under one level, which every lookup returns.  It is the
earliest iff the first file with the flag is of the earliest level, and the map does not depend on
the order of the files iff no flag has two levels. -/
theorem readFiles_levels
    {files : List Str} {m : FinalizedFlagMap}
    (h : readFilesToMapUsingPath round supportMinorSdk openFile files = .ok m) :
    (∀ flag, (∃ f ∈ files, ∃ l, HasFlag round supportMinorSdk openFile f l flag) →
      ∃! level, flag ∈ m.values level) ∧
    (∀ order flag level, m.getFinalizedLevel order flag = some level ↔ flag ∈ m.values level) ∧
    ((∀ flag level, flag ∈ m.values level → ∀ f ∈ files, ∀ l,
        HasFlag round supportMinorSdk openFile f l flag → level.order ≤ l.order) ↔
      FirstIsEarliest round supportMinorSdk openFile files) ∧
    ((∀ files', files'.Perm files → ∃ m',
        readFilesToMapUsingPath round supportMinorSdk openFile files' = .ok m' ∧
        m'.values = m.values) ↔
      OneLevel round supportMinorSdk openFile files) := by
  have hmem : ∀ {level flag}, flag ∈ m.values level ↔
      FirstIn round supportMinorSdk openFile files level flag := mem_values_readFiles h
  refine ⟨fun flag hflag => ?_, fun order flag level => getFinalizedLevel_eq_some_iff h order,
    ⟨?_, ?_⟩, ⟨?_, ?_⟩⟩
  · obtain ⟨level, hfirst⟩ := (exists_firstIn_iff files).mpr hflag
    exact ⟨level, hmem.mpr hfirst, fun l hl => (hmem.mp hl).unique hfirst⟩
  · intro hearliest level flag hfirst
    exact hearliest flag level (hmem.mpr hfirst)
  · intro hfirst flag level hstored
    exact hfirst level flag (hmem.mp hstored)
  · -- a file moved to the front decides where its flags are stored
    have hfront : ∀ file ∈ files, ∀ l flag,
        (∀ files', files'.Perm files → ∃ m',
          readFilesToMapUsingPath round supportMinorSdk openFile files' = .ok m' ∧
          m'.values = m.values) →
        HasFlag round supportMinorSdk openFile file l flag → flag ∈ m.values l := by
      intro file hfile l flag hsame hflag
      obtain ⟨a, b, rfl⟩ := List.append_of_mem hfile
      obtain ⟨m', hrun, hvalues⟩ := hsame (file :: (a ++ b)) List.perm_middle.symm
      rw [← hvalues, mem_values_readFiles hrun]
      exact ⟨[], file, a ++ b, rfl, hflag, by simp⟩
    intro hsame file hfile file' hfile' level level' flag hflag hflag'
    exact (hmem.mp (hfront file hfile level flag hsame hflag)).unique
      (hmem.mp (hfront file' hfile' level' flag hsame hflag'))
  · intro hone files' hperm
    obtain ⟨m', hrun⟩ := readFiles_perm hperm h
    refine ⟨m', hrun, ?_⟩
    have hstored : ∀ {l : List Str}, l.Perm files → ∀ {level flag},
        FirstIn round supportMinorSdk openFile l level flag ↔
          ∃ f ∈ files, HasFlag round supportMinorSdk openFile f level flag := by
      intro l hl level flag
      constructor
      · rintro ⟨front, f, back, rfl, hflag, _⟩
        exact ⟨f, hl.mem_iff.mp (by simp), hflag⟩
      · rintro ⟨f, hf, hflag⟩
        obtain ⟨level', hfirst⟩ :=
          (exists_firstIn_iff l).mpr ⟨f, hl.mem_iff.mpr hf, level, hflag⟩
        obtain ⟨front, f', back, rfl, hflag', _⟩ := id hfirst
        rw [hone f hf f' (hl.mem_iff.mp (by simp)) level level' flag hflag hflag']
        exact hfirst
    funext level
    ext flag
    rw [mem_values_readFiles hrun, hmem, hstored hperm, hstored (List.Perm.refl files)]

end Files

section Samples

/-- Every file lists the flag `a.b`. -/
def sampleOpen : Open :=
  fun _ => some [some ['a', '.', 'b']]

def sampleFile (directory : Str) : Str :=
  directory ++ "/finalized-flags.txt".toList

def sampleFlag : FinalizedFlag :=
  ⟨['b'], ['a']⟩

/-- Two files in the order of their paths. -/
def sampleFiles : List Str :=
  [sampleFile "sdk/36.1".toList, sampleFile "sdk/36".toList]

theorem hasFlag_of_toOption
    {file : Str} {level level' : ApiLevel} {flags : List FinalizedFlag} {flag : FinalizedFlag}
    (h : (fileEntry .finite true sampleOpen file).toOption = some (some (level, flags))) :
    HasFlag .finite true sampleOpen file level' flag ↔ level' = level ∧ flag ∈ flags := by
  rw [HasFlag]
  cases hrun : fileEntry .finite true sampleOpen file with
  | error failure =>
      rw [hrun] at h
      cases h
  | ok e =>
      rw [hrun] at h
      cases h
      simp [eq_comm, and_assoc]

theorem hasFlag_sample
    {level : ApiLevel} {flag : FinalizedFlag} :
    (HasFlag .finite true sampleOpen (sampleFile "sdk/36".toList) level flag ↔
      level = ⟨36⟩ ∧ flag ∈ [sampleFlag]) ∧
    (HasFlag .finite true sampleOpen (sampleFile "sdk/36.1".toList) level flag ↔
      level = ⟨3600001⟩ ∧ flag ∈ [sampleFlag]) :=
  ⟨hasFlag_of_toOption (by decide +kernel), hasFlag_of_toOption (by decide +kernel)⟩

theorem exists_of_toOption
    {p : FinalizedFlagMap → Bool} {r : Except Failure FinalizedFlagMap}
    (h : r.toOption.map p = some true) :
    ∃ m, r = .ok m ∧ p m = true := by
  cases r with
  | error failure => cases h
  | ok m => exact ⟨m, rfl, Option.some.inj h⟩

/-- The flag of `36` is stored under `36.1`. -/
theorem readFiles_later :
    ∃ m, readFilesToMapUsingPath .finite true sampleOpen sampleFiles = .ok m ∧
      sampleFlag ∈ m.values ⟨3600001⟩ ∧
      HasFlag .finite true sampleOpen (sampleFile "sdk/36".toList) ⟨36⟩ sampleFlag ∧
      (⟨36⟩ : ApiLevel).order < (⟨3600001⟩ : ApiLevel).order := by
  have hrun : (readFilesToMapUsingPath .finite true sampleOpen sampleFiles).toOption.map
      (fun m => decide (sampleFlag ∈ m.values ⟨3600001⟩)) = some true := by
    decide +kernel
  obtain ⟨m, hm, hmem⟩ := exists_of_toOption hrun
  exact ⟨m, hm, of_decide_eq_true hmem, hasFlag_sample.1.mpr ⟨rfl, by simp⟩, by decide⟩

/-- The file of `36` before that of `36.1`. -/
theorem readFiles_inOrder :
    ∃ m, readFilesToMapUsingPath .finite true sampleOpen sampleFiles.reverse = .ok m ∧
      (∃! level, sampleFlag ∈ m.values level) ∧
      ∀ flag level, flag ∈ m.values level → ∀ f ∈ sampleFiles.reverse, ∀ l,
        HasFlag .finite true sampleOpen f l flag → level.order ≤ l.order := by
  have hrun : (readFilesToMapUsingPath .finite true sampleOpen sampleFiles.reverse).toOption.map
      (fun m => decide (sampleFlag ∈ m.values ⟨36⟩)) = some true := by
    decide +kernel
  obtain ⟨m, hm, _⟩ := exists_of_toOption hrun
  obtain ⟨hone, _, hearliest, _⟩ := readFiles_levels hm
  have hfirst := hasFlag_sample.1.mpr ⟨rfl, List.mem_singleton_self sampleFlag⟩
  refine ⟨m, hm, hone sampleFlag ⟨_, by simp [sampleFiles], _, hfirst⟩, hearliest.mpr ?_⟩
  rintro level flag ⟨front, file, back, hsplit, hflag, hfront⟩ f hf l hl
  have hfiles : sampleFiles.reverse =
      [sampleFile "sdk/36".toList, sampleFile "sdk/36.1".toList] := rfl
  rw [hfiles] at hsplit hf
  simp only [List.mem_cons, List.not_mem_nil, or_false] at hf
  have hl' : l = ⟨36⟩ ∨ l = ⟨3600001⟩ := by
    rcases hf with rfl | rfl
    · exact Or.inl (hasFlag_sample.1.mp hl).1
    · exact Or.inr (hasFlag_sample.2.mp hl).1
  cases front with
  | nil =>
      obtain ⟨rfl, _⟩ := List.cons.inj hsplit
      obtain ⟨rfl, _⟩ := hasFlag_sample.1.mp hflag
      rcases hl' with rfl | rfl <;> decide
  | cons f' front =>
      obtain ⟨rfl, hsplit⟩ := List.cons.inj hsplit
      have hmem : flag ∈ [sampleFlag] := by
        rcases hf with rfl | rfl
        · exact (hasFlag_sample.1.mp hl).2
        · exact (hasFlag_sample.2.mp hl).2
      exact absurd (hasFlag_sample.1.mpr ⟨rfl, hmem⟩) (hfront _ List.mem_cons_self _)

end Samples

end ConvertFinalizedFlags
end AndroidBuild
