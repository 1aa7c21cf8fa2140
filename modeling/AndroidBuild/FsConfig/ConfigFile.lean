import AndroidBuild.FsConfig.Aid

/-!
# config.fs files

`FSConfigFileParser` reads the sections of config.fs files: ids, files and
directories.  After every section the files are sorted so that a lookup that
takes the first match finds the most specific one.
-/

namespace AndroidBuild
namespace FsConfig

open Text IntLiteral

section Entries

structure FSConfig where
  mode : Str
  user : Str
  group : Str
  caps : Str
  path : Str
  filename : Str
  deriving DecidableEq

/-- A section of a config.fs file with its options. -/
structure ConfigSection where
  name : Str
  options : List (Str × Str)

/-- `config.get(section, option)`; `none` if the section does not have it. -/
def ConfigSection.get? (config : ConfigSection) (option : Str) : Option Str :=
  config.options.lookup option

end Entries

section FileKey

structure StringWrapper where
  isPrefix : Bool
  path : Str

/-- `StringWrapper.__init__`. -/
def StringWrapper.new (path : Str) : StringWrapper :=
  if path.getLast? = some '*' then ⟨true, path.dropLast⟩ else ⟨false, path⟩

/-- `StringWrapper.__lt__`. -/
def StringWrapper.lt (self other : StringWrapper) : Bool :=
  if self.isPrefix && other.isPrefix then self.path.length > other.path.length
  else if self.isPrefix then false
  else if other.isPrefix then true
  else self.path < other.path

/-- `FSConfigFileParser._file_key`. -/
def fileKey (entry : FSConfig) : StringWrapper :=
  StringWrapper.new entry.path

/-- Not after the other in a stable sort by `_file_key`. -/
def fileLe (a b : FSConfig) : Bool :=
  !(fileKey b).lt (fileKey a)

/-- `self._files.sort(key=FSConfigFileParser._file_key)`. -/
def sortFiles (files : List FSConfig) : List FSConfig :=
  files.insertionSort (fun a b => fileLe a b = true)

end FileKey

section Parser

variable (U : Unicode)

/-- The state of `FSConfigFileParser`. -/
structure ConfigState where
  files : List FSConfig
  dirs : List FSConfig
  aids : List (AID U)
  seenPaths : OrderedDict Str Str
  seenAidNames : OrderedDict Str Str
  seenAidValues : OrderedDict Str Str

def ConfigState.initial : ConfigState U :=
  ⟨[], [], [], .empty, .empty, .empty⟩

variable {U}

/-- `self._aids.sort(key=lambda item: item.normalized_value)`. -/
def sortAids (aids : List (AID U)) : List (AID U) :=
  aids.insertionSort (fun a b => ¬b.normalizedValue < a.normalizedValue)

def ConfigState.sorted (st : ConfigState U) : ConfigState U :=
  { st with
    files := sortFiles st.files
    aids := sortAids st.aids }

/-- `FSConfigFileParser._handle_dup_and_add`. -/
def handleDupAndAdd (name fileName sectionName : Str) (seen : OrderedDict Str Str) :
    Except Failure (OrderedDict Str Str) :=
  match seen.get? sectionName with
  | some file =>
      .error (.exit ("Duplicate ".toList ++ name ++ " \"".toList ++ sectionName ++
        "\" found in files: \"".toList ++ file ++ "\" and ".toList ++ fileName))
  | none => .ok (seen.set sectionName fileName)

def longestFirst (partitions : List Str) : List Str :=
  partitions.insertionSort (fun a b => b.length ≤ a.length)

/-- The partition that the friendly name of an id starts with. -/
def partitionOf (ranges : OrderedDict Str (List (Int × Int))) (friendly : Str) : Option Str :=
  (longestFirst ranges.keys).find? (fun partition => partition.isPrefixOf friendly)

/-- `FSConfigFileParser._verify_valid_range`. -/
def verifyValidRange (ranges : OrderedDict Str (List (Int × Int))) (aid : AID U) :
    Except Failure Unit :=
  match (partitionOf ranges aid.friendly).bind ranges.get? with
  | none =>
      .error (.exit ("AID \"".toList ++ aid.friendly ++
        "\" must be prefixed with a partition name".toList))
  | some rs =>
      if inAnyRange aid.uid rs then .ok ()
      else
        .error (.exit ("\"value\" for aid \"".toList ++ aid.friendly ++
          "\" not in valid range ".toList ++ showRanges rs ++ ", got: ".toList ++ aid.value))

/-- A character of `[A-Z0-9_]`. -/
def isAidChar (c : Char) : Bool :=
  ('A' ≤ c && c ≤ 'Z') || ('0' ≤ c && c ≤ '9') || c == '_'

/-- `match.end()` for `FSConfigFileParser._AID_MATCH`, or the length of the prefix. -/
def aidMatchEnd (sectionName : Str) : Nat :=
  match behind aidPrefix sectionName with
  | some rest => aidPrefix.length + (rest.takeWhile isAidChar).length
  | none => aidPrefix.length

/-- The error message of `FSConfigFileParser._handle_aid`. -/
def aidErrorMessage (fileName sectionName msg : Str) : Str :=
  msg ++ " for: \"".toList ++ sectionName ++ "\" file: \"".toList ++ fileName ++ "\"".toList

/-- The checks of `FSConfigFileParser._handle_aid` on one section. -/
def configAid (ranges : OrderedDict Str (List (Int × Int))) (fileName sectionName value : Str) :
    Except Failure (AID U) :=
  let invalid := aidMatchEnd sectionName
  if invalid ≠ sectionName.length then
    .error (.exit (aidErrorMessage fileName sectionName
      ("Invalid characters in AID section at \"".toList ++ Nat.toDigits 10 invalid ++
        "\" for: \"Expecting upper case, a number or underscore\"".toList)))
  else if value = [] then
    .error (.exit (aidErrorMessage fileName sectionName
      "Found specified but unset \"value\"".toList))
  else
    match AID.new U sectionName value fileName "/bin/sh".toList with
    | .error exception => .error (.exit (aidErrorMessage fileName sectionName exception))
    | .ok aid => do
        verifyValidRange ranges aid
        .ok aid

/-- `FSConfigFileParser._handle_aid`. -/
def handleAid (ranges : OrderedDict Str (List (Int × Int))) (fileName sectionName value : Str)
    (st : ConfigState U) : Except Failure (ConfigState U) := do
  let names ← handleDupAndAdd "AID".toList fileName sectionName st.seenAidNames
  let aid ← configAid ranges fileName sectionName value
  let values ← handleDupAndAdd "AID".toList fileName aid.normalizedValue st.seenAidValues
  .ok { st with
    aids := st.aids ++ [aid]
    seenAidNames := names
    seenAidValues := values }

/-- A capability as a number, or under its name in the header. -/
def capName (U : Unicode) (cap : Str) : Str :=
  if (readInt U 0 cap).isSome then cap else "CAP_".toList ++ U.upper cap

def unsetOption (fileName option : Str) : Failure :=
  .exit ("Found specified but unset option: \"".toList ++ option ++ "\" in file: \"".toList ++
    fileName ++ "\"".toList)

/-- The checks of `FSConfigFileParser._handle_path` on one section. -/
def pathEntry (U : Unicode) (fileName path mode user group caps : Str) :
    Except Failure FSConfig :=
  if mode = [] then .error (unsetOption fileName "mode".toList)
  else if user = [] then .error (unsetOption fileName "user".toList)
  else if group = [] then .error (unsetOption fileName "group".toList)
  else if caps = [] then .error (unsetOption fileName "caps".toList)
  else
    let mode := if mode.length = 3 then '0' :: mode else mode
    if readInt U 8 mode = none then
      .error (.exit ("Mode must be octal characters, got: \"".toList ++ mode ++ "\"".toList))
    else if mode.length ≠ 4 then
      .error (.exit ("Mode must be 3 or 4 characters, got: \"".toList ++ mode ++ "\"".toList))
    else if path = [] then .error (.raised "IndexError".toList)
    else
      .ok ⟨mode, user, group, [','].intercalate ((wordsFrom [] caps).map (capName U)), path,
        fileName⟩

def isDir (path : Str) : Bool :=
  path.getLast? = some '/'

/-- `FSConfigFileParser._handle_path`. -/
def handlePath (fileName path mode user group caps : Str) (st : ConfigState U) :
    Except Failure (ConfigState U) := do
  let seenPaths ← handleDupAndAdd "path".toList fileName path st.seenPaths
  let entry ← pathEntry U fileName path mode user group caps
  if isDir path then
    .ok { st with
      dirs := st.dirs ++ [entry]
      seenPaths := seenPaths }
  else
    .ok { st with
      files := st.files ++ [entry]
      seenPaths := seenPaths }

def handleSection (ranges : OrderedDict Str (List (Int × Int))) (fileName : Str)
    (config : ConfigSection) (st : ConfigState U) : Except Failure (ConfigState U) :=
  match config.get? "value".toList with
  | some value => handleAid ranges fileName config.name value st
  | none =>
      match config.get? "mode".toList, config.get? "user".toList, config.get? "group".toList,
          config.get? "caps".toList with
      | some mode, some user, some group, some caps =>
          handlePath fileName config.name mode user group caps st
      | _, _, _, _ =>
          .error (.exit ("Invalid section \"".toList ++ config.name ++ "\" in file: \"".toList ++
            fileName ++ "\"".toList))

def parseSection (ranges : OrderedDict Str (List (Int × Int))) (fileName : Str)
    (st : ConfigState U) (config : ConfigSection) : Except Failure (ConfigState U) := do
  let st ← handleSection ranges fileName config st
  .ok st.sorted

/-- `FSConfigFileParser._parse`, on the sections of the file. -/
def parseFile (ranges : OrderedDict Str (List (Int × Int))) (st : ConfigState U)
    (file : Str × List ConfigSection) : Except Failure (ConfigState U) :=
  file.2.foldlM (parseSection ranges file.1) st

/-- `FSConfigFileParser(config_files, ranges)`. -/
def parseConfigs (ranges : OrderedDict Str (List (Int × Int)))
    (configFiles : List (Str × List ConfigSection)) : Except Failure (ConfigState U) :=
  configFiles.foldlM (parseFile ranges) (ConfigState.initial U)

end Parser

section Sections

variable {U : Unicode}

def allSections (configFiles : List (Str × List ConfigSection)) : List (Str × ConfigSection) :=
  configFiles.flatMap (fun file => file.2.map (fun config => (file.1, config)))

/-- The files are read section by section. -/
theorem parseConfigs_eq
    (ranges : OrderedDict Str (List (Int × Int)))
    (configFiles : List (Str × List ConfigSection)) :
    parseConfigs (U := U) ranges configFiles =
      (allSections configFiles).foldlM (fun st e => parseSection ranges e.1 st e.2)
        (ConfigState.initial U) := by
  unfold parseConfigs allSections
  generalize ConfigState.initial U = st
  induction configFiles generalizing st with
  | nil => rfl
  | cons file rest ih =>
      rw [List.foldlM_cons, List.flatMap_cons, List.foldlM_append, List.foldlM_map]
      simp only [ih]
      rfl

theorem handleDupAndAdd_eq_ok
    {name fileName key : Str} {seen seen' : OrderedDict Str Str} :
    handleDupAndAdd name fileName key seen = .ok seen' ↔
      key ∉ seen.keys ∧ seen' = seen.set key fileName := by
  unfold handleDupAndAdd
  rw [OrderedDict.mem_keys_iff]
  cases seen.get? key with
  | some file => simp
  | none => simp [eq_comm]

theorem verifyValidRange_eq_ok
    {ranges : OrderedDict Str (List (Int × Int))} {aid : AID U} :
    verifyValidRange ranges aid = .ok () ↔
      ∃ partition rs, partitionOf ranges aid.friendly = some partition ∧
        ranges.get? partition = some rs ∧ inAnyRange aid.uid rs = true := by
  unfold verifyValidRange
  cases hp : partitionOf ranges aid.friendly with
  | none => simp
  | some partition =>
      cases hr : ranges.get? partition with
      | none => simp [hr]
      | some rs => simp [hr]

theorem configAid_eq_ok
    {ranges : OrderedDict Str (List (Int × Int))} {fileName name value : Str} {aid : AID U}
    (h : configAid ranges fileName name value = .ok aid) :
    aid.identifier = name ∧ aid.value = value ∧ verifyValidRange ranges aid = .ok () := by
  unfold configAid at h
  simp only at h
  split at h
  · cases h
  split at h
  · cases h
  cases hnew : AID.new U name value fileName "/bin/sh".toList with
  | error exception =>
      rw [hnew] at h
      cases h
  | ok aid' =>
      rw [hnew] at h
      obtain ⟨⟨⟩, hverify, hok⟩ := Loop.bind_eq_ok.mp h
      cases hok
      obtain ⟨hid, hvalue⟩ := AID.new_eq_ok hnew
      exact ⟨hid, hvalue, hverify⟩

theorem handleAid_eq_ok
    {ranges : OrderedDict Str (List (Int × Int))} {fileName name value : Str}
    {st st' : ConfigState U} :
    handleAid ranges fileName name value st = .ok st' ↔
      ∃ aid : AID U, configAid ranges fileName name value = .ok aid ∧
        name ∉ st.seenAidNames.keys ∧ aid.normalizedValue ∉ st.seenAidValues.keys ∧
        st' = { st with
          aids := st.aids ++ [aid]
          seenAidNames := st.seenAidNames.set name fileName
          seenAidValues := st.seenAidValues.set aid.normalizedValue fileName } := by
  unfold handleAid
  simp only [Loop.bind_eq_ok, handleDupAndAdd_eq_ok]
  constructor
  · rintro ⟨names, ⟨hname, rfl⟩, aid, haid, values, ⟨hvalue, rfl⟩, hst⟩
    cases hst
    exact ⟨aid, haid, hname, hvalue, rfl⟩
  · rintro ⟨aid, haid, hname, hvalue, rfl⟩
    exact ⟨_, ⟨hname, rfl⟩, aid, haid, _, ⟨hvalue, rfl⟩, rfl⟩

theorem pathEntry_path
    {fileName path mode user group caps : Str} {entry : FSConfig}
    (h : pathEntry U fileName path mode user group caps = .ok entry) :
    entry.path = path ∧ path ≠ [] := by
  unfold pathEntry at h
  split_ifs at h
  all_goals simp only at h
  all_goals split_ifs at h
  all_goals
    cases h
    exact ⟨rfl, by assumption⟩

def sectionEntry (U : Unicode) (e : Str × ConfigSection) : Option FSConfig :=
  match e.2.get? "mode".toList, e.2.get? "user".toList, e.2.get? "group".toList,
      e.2.get? "caps".toList with
  | some mode, some user, some group, some caps =>
      (pathEntry U e.1 e.2.name mode user group caps).toOption
  | _, _, _, _ => none

theorem sectionEntry_path
    {e : Str × ConfigSection} {entry : FSConfig} (h : sectionEntry U e = some entry) :
    entry.path = e.2.name ∧ e.2.name ≠ [] := by
  unfold sectionEntry at h
  split at h
  · rename_i mode user group caps _ _ _ _
    cases hentry : pathEntry U e.1 e.2.name mode user group caps with
    | error failure =>
        rw [hentry] at h
        cases h
    | ok entry' =>
        rw [hentry] at h
        cases h
        exact pathEntry_path hentry
  · cases h

theorem handlePath_eq_ok
    {fileName path mode user group caps : Str} {st st' : ConfigState U} :
    handlePath fileName path mode user group caps st = .ok st' ↔
      ∃ entry, pathEntry U fileName path mode user group caps = .ok entry ∧
        path ∉ st.seenPaths.keys ∧
        st' = { st with
          files := st.files ++ if isDir path then [] else [entry]
          dirs := st.dirs ++ if isDir path then [entry] else []
          seenPaths := st.seenPaths.set path fileName } := by
  unfold handlePath
  simp only [Loop.bind_eq_ok, handleDupAndAdd_eq_ok]
  constructor
  · rintro ⟨seen, ⟨hpath, rfl⟩, entry, hentry, hst⟩
    refine ⟨entry, hentry, hpath, ?_⟩
    split_ifs at hst ⊢ with hdir
    all_goals
      cases hst
      simp
  · rintro ⟨entry, hentry, hpath, rfl⟩
    refine ⟨_, ⟨hpath, rfl⟩, entry, hentry, ?_⟩
    split_ifs with hdir
    all_goals simp

/-- What a section does to the state: it adds an id, or the entry of a path. -/
theorem handleSection_eq_ok
    {ranges : OrderedDict Str (List (Int × Int))} {e : Str × ConfigSection}
    {st st' : ConfigState U} :
    handleSection ranges e.1 e.2 st = .ok st' ↔
      (∃ value, ∃ aid : AID U, e.2.get? "value".toList = some value ∧
        configAid ranges e.1 e.2.name value = .ok aid ∧
        e.2.name ∉ st.seenAidNames.keys ∧ aid.normalizedValue ∉ st.seenAidValues.keys ∧
        st' = { st with
          aids := st.aids ++ [aid]
          seenAidNames := st.seenAidNames.set e.2.name e.1
          seenAidValues := st.seenAidValues.set aid.normalizedValue e.1 }) ∨
      (∃ entry, e.2.get? "value".toList = none ∧ sectionEntry U e = some entry ∧
        e.2.name ∉ st.seenPaths.keys ∧
        st' = { st with
          files := st.files ++ if isDir e.2.name then [] else [entry]
          dirs := st.dirs ++ if isDir e.2.name then [entry] else []
          seenPaths := st.seenPaths.set e.2.name e.1 }) := by
  unfold handleSection
  cases hvalue : e.2.get? "value".toList with
  | some value =>
      simp only [handleAid_eq_ok]
      simp
  | none =>
      simp only [reduceCtorEq, false_and, exists_false, false_or, true_and]
      unfold sectionEntry
      split
      · rename_i mode user group caps hmode huser hgroup hcaps
        simp only [handlePath_eq_ok]
        constructor
        · rintro ⟨entry, hentry, hpath, rfl⟩
          refine ⟨entry, ?_, hpath, rfl⟩
          simp [hentry, Except.toOption]
        · rintro ⟨entry, hentry, hpath, rfl⟩
          refine ⟨entry, ?_, hpath, rfl⟩
          cases hp : pathEntry U e.1 e.2.name mode user group caps with
          | error failure => simp [hp, Except.toOption] at hentry
          | ok entry' =>
              simp only [hp, Except.toOption, Option.some.injEq] at hentry
              rw [hentry]
      · simp

theorem parseSection_eq_ok
    {ranges : OrderedDict Str (List (Int × Int))} {e : Str × ConfigSection}
    {st st' : ConfigState U} :
    parseSection ranges e.1 st e.2 = .ok st' ↔
      ∃ st₁, handleSection ranges e.1 e.2 st = .ok st₁ ∧ st' = st₁.sorted := by
  unfold parseSection
  rw [Loop.bind_eq_ok]
  simp only [Except.ok.injEq, eq_comm (a := ConfigState.sorted _)]

end Sections

end FsConfig
end AndroidBuild
