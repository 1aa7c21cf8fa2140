import AndroidBuild.Lib.TextLines

/-!
# `GetTargetFilesZipForPartialUpdates`

A partial update keeps some of the partitions of a target-files archive.  Three
text files are filtered: `META/ab_partitions.txt` is replaced by the requested
names, the partition lists of the two info files are cut down to them, and of
`META/postinstall_config.txt` the lines whose key ends in a requested name stay.

The requested names are looked up in the text of `META/ab_partitions.txt`, not
in the list of its lines.
-/

namespace AndroidBuild
namespace OtaFromTargetFiles

open Text

section Model

/-- The files of the archive that the function reads and writes.  A partition of the care
map has a name and other data. -/
structure TargetFiles where
  abPartitions : String
  careMap : Option (List (String × List UInt8))
  miscInfo : Option String
  dynamicPartitionsInfo : Option String
  postinstallConfig : Option String
deriving DecidableEq

/-- `sub in text`. -/
def contains (text sub : String) : Bool :=
  decide (sub.toList <:+: text.toList)

def startsWith (text start : String) : Bool :=
  start.toList.isPrefixOf text.toList

def endsWith (text tail : String) : Bool :=
  tail.toList.isSuffixOf text.toList

/-- One line in `UpdatesInfoForSpecialUpdates`: what is appended to `output_list`. -/
def updateLine (partitionsFilter : String → Bool) (deleteKeys : List String) (line : String) :
    List String :=
  if startsWith line "#" || !contains line "=" then [line]
  else
    match splitFirst '=' (stripChars line.toList) with
    | none => []
    | some (key, value) =>
        if key ∈ deleteKeys then []
        else if endsWith key "partition_list" then
          [key ++ "=" ++ join ' ' ((words value).filter partitionsFilter)]
        else [line]

def updatesInfoForSpecialUpdates (content : String) (partitionsFilter : String → Bool)
    (deleteKeys : List String) : String :=
  join '\n' ((splitLines content).foldl
    (fun out line => out ++ updateLine partitionsFilter deleteKeys line) [])

def modifyKeyvalueList (content key value : String) : String :=
  join '\n' ((splitLines content).foldl
    (fun out line => if startsWith line (key ++ "=") then out else out ++ [line]) [] ++
    [key ++ "=" ++ value])

/-- `OPTIONS.vabc_compression_param`, which is applied to `dynamic_partitions_info.txt` when
it is set and not empty. -/
def applyVabcParam (vabcParam : Option String) (content : String) : String :=
  match vabcParam with
  | some algo =>
      if algo = "" then content
      else modifyKeyvalueList content "virtual_ab_compression_method" algo
  | none => content

def isInPartialList (abPartitions : List String) (line : String) : Bool :=
  match splitFirst '=' line.toList with
  | none => false
  | some (key, _) => abPartitions.any (fun part => endsWith key ("_" ++ part))

/-- `GetTargetFilesZipForPartialUpdates`; the error is the list of unrecognized partitions. -/
def getTargetFilesZipForPartialUpdates (vabcParam : Option String) (f : TargetFiles)
    (abPartitions : List String) : Except (List String) TargetFiles :=
  let unrecognized := abPartitions.filter (fun p => !contains f.abPartitions p)
  if unrecognized ≠ [] then .error unrecognized
  else
    let update := fun content =>
      updatesInfoForSpecialUpdates content (fun p => decide (p ∈ abPartitions)) []
    let postinstall := fun config =>
      (splitLines config).filter (isInPartialList abPartitions)
    .ok
      { abPartitions := join '\n' abPartitions
        careMap := f.careMap.map (fun parts => parts.filter (fun p => decide (p.1 ∈ abPartitions)))
        miscInfo := f.miscInfo.map update
        dynamicPartitionsInfo :=
          f.dynamicPartitionsInfo.map (fun content => applyVabcParam vabcParam (update content))
        postinstallConfig :=
          f.postinstallConfig.bind (fun config =>
            if postinstall config = [] then none else some (join '\n' (postinstall config))) }

end Model

section InfoFiles

/-- The line assigns a value to a key. -/
def Assigns (line key value : String) : Prop :=
  startsWith line "#" = false ∧ contains line "=" = true ∧
    splitFirst '=' (stripChars line.toList) = some (key, value)

/-- A line of an info file before and after: partition lists lose the other names. -/
inductive Filtered (requested : List String) : String → String → Prop where
  | list {line key value : String} (h : Assigns line key value)
      (hkey : endsWith key "partition_list" = true) :
      Filtered requested line
        (key ++ "=" ++ join ' ' ((words value).filter (fun p => decide (p ∈ requested))))
  | other {line : String}
      (h : ∀ key value, Assigns line key value → endsWith key "partition_list" = false) :
      Filtered requested line line

theorem mem_stripChars
    {cs : List Char} {c : Char} (hc : c ∈ cs) (hspace : isSpace c = false) :
    c ∈ stripChars cs := by
  have hdrop : ∀ {l : List Char}, c ∈ l → c ∈ l.dropWhile isSpace := by
    intro l
    induction l with
    | nil => simp
    | cons d l ih =>
        intro hmem
        rw [List.dropWhile_cons]
        split_ifs with hd
        · rcases List.mem_cons.mp hmem with rfl | hmem
          · rw [hspace] at hd
            cases hd
          · exact ih hmem
        · exact hmem
  unfold stripChars
  rw [List.mem_reverse]
  exact hdrop (List.mem_reverse.mpr (hdrop hc))

/-- The line that `UpdatesInfoForSpecialUpdates` writes for a line. -/
theorem updateLine_filtered
    (requested : List String) (line : String) :
    ∃ line', updateLine (fun p => decide (p ∈ requested)) [] line = [line'] ∧
      Filtered requested line line' := by
  unfold updateLine
  by_cases hplain : (startsWith line "#" || !contains line "=") = true
  · refine ⟨line, if_pos hplain, Filtered.other ?_⟩
    rintro key value ⟨hhash, heq, _⟩
    rw [hhash, heq] at hplain
    cases hplain
  · rw [if_neg hplain]
    rw [Bool.not_eq_true, Bool.or_eq_false_iff, Bool.not_eq_false'] at hplain
    have hmem : '=' ∈ line.toList := by
      obtain ⟨a, b, hab⟩ := of_decide_eq_true hplain.2
      rw [← hab]
      simp
    have hstrip := mem_stripChars hmem (by decide)
    cases hsplit : splitFirst '=' (stripChars line.toList) with
    | none => simp [splitFirst, hstrip] at hsplit
    | some kv =>
        obtain ⟨key, value⟩ := kv
        have hassigns : Assigns line key value := ⟨hplain.1, hplain.2, hsplit⟩
        simp only [List.not_mem_nil, if_false]
        by_cases hkey : endsWith key "partition_list" = true
        · exact ⟨_, if_pos hkey, Filtered.list hassigns hkey⟩
        · refine ⟨line, if_neg hkey, Filtered.other ?_⟩
          rintro key' value' ⟨_, _, hsplit'⟩
          rw [hsplit] at hsplit'
          cases hsplit'
          simpa using hkey

theorem updatesInfo_filtered
    (requested : List String) (content : String) :
    ∃ lines, updatesInfoForSpecialUpdates content (fun p => decide (p ∈ requested)) [] =
        join '\n' lines ∧
      List.Forall₂ (Filtered requested) (splitLines content) lines := by
  unfold updatesInfoForSpecialUpdates
  suffices H : ∀ (ls out : List String), ∃ lines,
      ls.foldl (fun out line => out ++ updateLine (fun p => decide (p ∈ requested)) [] line) out =
        out ++ lines ∧ List.Forall₂ (Filtered requested) ls lines by
    obtain ⟨lines, hlines, hfiltered⟩ := H (splitLines content) []
    exact ⟨lines, by rw [hlines, List.nil_append], hfiltered⟩
  intro ls
  induction ls with
  | nil => exact fun out => ⟨[], by simp, List.Forall₂.nil⟩
  | cons line ls ih =>
      intro out
      obtain ⟨line', hline, hfiltered⟩ := updateLine_filtered requested line
      obtain ⟨lines, hlines, hrest⟩ := ih (out ++ [line'])
      refine ⟨line' :: lines, ?_, List.Forall₂.cons hfiltered hrest⟩
      rw [List.foldl_cons, hline, hlines, List.append_assoc]
      rfl

end InfoFiles

section Partial

def linesOf : Option String → List String
  | none => []
  | some text => splitLines text

/-- The partition that a key is for: the longest of the names that it ends in. -/
def IsPartitionOf (names : List String) (key partition : String) : Prop :=
  partition ∈ names ∧ endsWith key ("_" ++ partition) = true ∧
    ∀ name ∈ names, endsWith key ("_" ++ name) = true → name.length ≤ partition.length

instance (names : List String) (key partition : String) :
    Decidable (IsPartitionOf names key partition) :=
  inferInstanceAs (Decidable (_ ∧ _))

/-- What the partial archive should be, for the names of `META/ab_partitions.txt`. -/
structure IsPartial (vabcParam : Option String) (f : TargetFiles) (requested : List String)
    (f' : TargetFiles) : Prop where
  recognized : ∀ name ∈ requested, name ∈ splitLines f.abPartitions
  miscInfo : ∀ content, f.miscInfo = some content → ∃ lines,
    f'.miscInfo = some (join '\n' lines) ∧
    List.Forall₂ (Filtered requested) (splitLines content) lines
  dynamicPartitionsInfo : ∀ content, f.dynamicPartitionsInfo = some content → ∃ lines,
    f'.dynamicPartitionsInfo = some (applyVabcParam vabcParam (join '\n' lines)) ∧
    List.Forall₂ (Filtered requested) (splitLines content) lines
  postinstallConfig : ∀ line ∈ linesOf f.postinstallConfig, ∀ key value partition,
    splitFirst '=' line.toList = some (key, value) →
    IsPartitionOf (splitLines f.abPartitions) key partition →
    (line ∈ linesOf f'.postinstallConfig ↔ partition ∈ requested)

/-- A requested name that occurs in `META/ab_partitions.txt` is one of its lines. -/
def NamesAreLines (f : TargetFiles) (requested : List String) : Prop :=
  ∀ name ∈ requested, contains f.abPartitions name = true → name ∈ splitLines f.abPartitions

/-- No key of `META/postinstall_config.txt` that is for a partition that is not requested ends
in a requested name. -/
def KeysAreClear (f : TargetFiles) (requested : List String) : Prop :=
  ∀ line ∈ linesOf f.postinstallConfig, ∀ key value partition,
    splitFirst '=' line.toList = some (key, value) →
    IsPartitionOf (splitLines f.abPartitions) key partition →
    ∀ name ∈ requested, endsWith key ("_" ++ name) = true → partition ∈ requested

theorem isInPartialList_iff
    {requested : List String} {line key value : String}
    (h : splitFirst '=' line.toList = some (key, value)) :
    isInPartialList requested line = true ↔
      ∃ name ∈ requested, endsWith key ("_" ++ name) = true := by
  rw [isInPartialList, h]
  simp

theorem ne_nil_of_isInPartialList
    {requested : List String} {line : String} (h : isInPartialList requested line = true) :
    line.toList ≠ [] := by
  intro hnil
  rw [isInPartialList, hnil] at h
  simp [splitFirst] at h

/-- The lines of the new `META/postinstall_config.txt`. -/
theorem linesOf_postinstall
    (requested : List String) (config : Option String) :
    linesOf (config.bind (fun config =>
        if (splitLines config).filter (isInPartialList requested) = [] then none
        else some (join '\n' ((splitLines config).filter (isInPartialList requested))))) =
      (linesOf config).filter (isInPartialList requested) := by
  cases config with
  | none => rfl
  | some config =>
      simp only [Option.bind_some]
      split_ifs with hnil
      · exact hnil.symm
      · apply splitLines_join
        intro line hline
        obtain ⟨hmem, hkept⟩ := List.mem_filter.mp hline
        exact ⟨ne_nil_of_isInPartialList hkept, mem_splitLines hmem⟩

/-- The partial archive is right exactly if the names of the partitions cannot be confused. -/
theorem getTargetFilesZipForPartialUpdates_filters
    (vabcParam : Option String) (f : TargetFiles) (requested : List String) (f' : TargetFiles)
    (h : getTargetFilesZipForPartialUpdates vabcParam f requested = .ok f') :
    IsPartial vabcParam f requested f' ↔
      NamesAreLines f requested ∧ KeysAreClear f requested := by
  unfold getTargetFilesZipForPartialUpdates at h
  simp only at h
  split_ifs at h with haccepted
  rw [not_not, List.filter_eq_nil_iff] at haccepted
  have hcontains : ∀ name ∈ requested, contains f.abPartitions name = true := by
    intro name hname
    simpa using haccepted name hname
  cases h
  have hlines := linesOf_postinstall requested f.postinstallConfig
  constructor
  · intro hpartial
    refine ⟨fun name hname _ => hpartial.recognized name hname, ?_⟩
    intro line hline key value partition hsplit hpart name hname hends
    rw [← hpartial.postinstallConfig line hline key value partition hsplit hpart, hlines,
      List.mem_filter, isInPartialList_iff hsplit]
    exact ⟨hline, name, hname, hends⟩
  · rintro ⟨hnames, hkeys⟩
    refine ⟨fun name hname => hnames name hname (hcontains name hname), ?_, ?_, ?_⟩
    · intro content hcontent
      obtain ⟨lines, hlines, hfiltered⟩ := updatesInfo_filtered requested content
      exact ⟨lines, by simp only [hcontent, Option.map_some, hlines], hfiltered⟩
    · intro content hcontent
      obtain ⟨lines, hlines, hfiltered⟩ := updatesInfo_filtered requested content
      exact ⟨lines, by simp only [hcontent, Option.map_some, hlines], hfiltered⟩
    · intro line hline key value partition hsplit hpart
      rw [hlines, List.mem_filter, isInPartialList_iff hsplit]
      constructor
      · rintro ⟨_, name, hname, hends⟩
        exact hkeys line hline key value partition hsplit hpart name hname hends
      · intro hreq
        exact ⟨hline, partition, hreq, hpart.2.1⟩

/-- An archive with the partitions `boot` and `vendor_boot`. -/
def exampleFiles : TargetFiles where
  abPartitions := "boot\nvendor_boot\n"
  careMap := none
  miscInfo := some "use_dynamic_partitions=true\ndynamic_partition_list=boot vendor_boot\n"
  dynamicPartitionsInfo := none
  postinstallConfig := some "RUN_POSTINSTALL_boot=true\nRUN_POSTINSTALL_vendor_boot=true\n"

theorem getTargetFilesZipForPartialUpdates_filters_example :
    ∃ f', getTargetFilesZipForPartialUpdates none exampleFiles ["vendor_boot"] = .ok f' ∧
      IsPartial none exampleFiles ["vendor_boot"] f' := by
  refine ⟨_, rfl, (getTargetFilesZipForPartialUpdates_filters none exampleFiles ["vendor_boot"] _
    rfl).mpr ⟨?_, ?_⟩⟩
  · intro name hname _
    rw [List.mem_singleton.mp hname]
    decide +kernel
  · have hlines : linesOf exampleFiles.postinstallConfig =
        ["RUN_POSTINSTALL_boot=true", "RUN_POSTINSTALL_vendor_boot=true"] := by decide +kernel
    have hparts : splitLines exampleFiles.abPartitions = ["boot", "vendor_boot"] := by
      decide +kernel
    intro line hline key value partition hsplit hpart name hname hends
    rw [hlines] at hline
    rw [hparts] at hpart
    rw [List.mem_singleton.mp hname] at hends
    simp only [List.mem_cons, List.not_mem_nil, or_false] at hline
    rcases hline with rfl | rfl
    · have hkey : splitFirst '=' "RUN_POSTINSTALL_boot=true".toList =
          some ("RUN_POSTINSTALL_boot", "true") := by decide +kernel
      rw [hkey] at hsplit
      cases hsplit
      exact absurd hends (by decide +kernel)
    · have hkey : splitFirst '=' "RUN_POSTINSTALL_vendor_boot=true".toList =
          some ("RUN_POSTINSTALL_vendor_boot", "true") := by decide +kernel
      rw [hkey] at hsplit
      cases hsplit
      rcases List.mem_pair.mp hpart.1 with rfl | rfl
      · exact absurd hpart (by decide +kernel)
      · simp

/-- The partition `boot` is taken for a part of `vendor_boot`: it is accepted although it is
no partition, and it keeps a line of a partition that is left out. -/
theorem getTargetFilesZipForPartialUpdates_confused :
    (∃ f', getTargetFilesZipForPartialUpdates none
        ⟨"system\nvendor_boot\n", none, none, none, none⟩ ["boot"] = .ok f' ∧
      "boot" ∉ splitLines "system\nvendor_boot\n") ∧
    ∃ f', getTargetFilesZipForPartialUpdates none
        ⟨"boot\nvendor_boot\n", none, none, none, some "RUN_POSTINSTALL_vendor_boot=true\n"⟩
        ["boot"] = .ok f' ∧
      IsPartitionOf (splitLines "boot\nvendor_boot\n") "RUN_POSTINSTALL_vendor_boot"
        "vendor_boot" ∧ "vendor_boot" ∉ ["boot"] ∧
      "RUN_POSTINSTALL_vendor_boot=true" ∈ linesOf f'.postinstallConfig := by
  exact ⟨⟨⟨"boot", none, none, none, none⟩, by decide +kernel, by decide +kernel⟩,
    ⟨"boot", none, none, none, some "RUN_POSTINSTALL_vendor_boot=true"⟩, by decide +kernel,
    by decide +kernel, by decide +kernel, by decide +kernel⟩

end Partial

end OtaFromTargetFiles
end AndroidBuild
