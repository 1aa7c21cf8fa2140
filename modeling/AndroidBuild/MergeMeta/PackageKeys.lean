import AndroidBuild.Lib.KeySort
import AndroidBuild.Lib.LastWins
import AndroidBuild.Lib.Loop
import AndroidBuild.Lib.TextLines
import Mathlib

/-!
# Merging the lists of package keys

`MergePackageKeys` of `merge_meta.py`.  Each side is read into a dictionary by
the names of the modules, and the entries of the two dictionaries are then
filtered by their partition tags.
-/

namespace AndroidBuild
namespace MergeMeta

open Text (Str)

/-- The exceptions of `MergePackageKeys`. -/
inductive MergeError where
  | externalError (message : Str)
  | attributeError
  | valueError (message : Str)
deriving DecidableEq

/-- The options of the merge. -/
structure Options where
  framework_partition_set : Finset Str
  vendor_partition_set : Finset Str
  allow_duplicate_apkapex_keys : Bool

section Patterns

/-- `pattern.search(s)`: the group of the first match. -/
def search (matchHere : Str → Option Str) : Str → Option Str
  | [] => matchHere []
  | c :: cs =>
      match matchHere (c :: cs) with
      | some group => some group
      | none => search matchHere cs

/-- `(.*?)"`: the text before the first quote. -/
def beforeQuote : Str → Option Str
  | [] => none
  | c :: cs =>
      if c = '"' then some []
      else if c = '\n' then none
      else (beforeQuote cs).map (c :: ·)

/-- `(.+)\.(apex|apk)"`: the longest text before a suffix and a quote. -/
def beforeSuffix : Str → Option Str
  | [] => none
  | c :: cs =>
      if c = '\n' then none
      else
        match beforeSuffix cs with
        | some name => some (c :: name)
        | none =>
            if ".apex\"".toList <+: cs ∨ ".apk\"".toList <+: cs then some [c] else none

/-- `PARTITION_TAG_PATTERN.search(line)`. -/
def partitionTag (line : Str) : Option Str :=
  search (fun s => if "partition=\"".toList <+: s then beforeQuote (s.drop 11) else none) line

/-- `MODULE_KEY_PATTERN.search(s)`. -/
def moduleKey (s : Str) : Option Str :=
  search (fun s => if "name=\"".toList <+: s then beforeSuffix (s.drop 6) else none) s

end Patterns

section Merge

def entryLines (text : Str) : List Str :=
  ((Text.splitLinesFrom [] text).map Text.stripChars).filter (· ≠ [])

def lineKey (line : Str) : Option Str :=
  moduleKey ((Text.wordsFrom [] line).headD [])

def readHelper (text : Str) : Except MergeError (OrderedDict Str Str) :=
  (entryLines text).foldlM (fun temp line =>
    match lineKey line with
    | none => .error .attributeError
    | some name => .ok (temp.set name line)) OrderedDict.empty

/-- `filter_into_merged_dict`, on the entries of `item_dict`. -/
def filterIntoMergedDict (options : Options) (partition_set : Finset Str)
    (merged_dict : OrderedDict Str Str) :
    List (Str × Str) → Except MergeError (OrderedDict Str Str)
  | [] => .ok merged_dict
  | (key, value) :: items =>
      match partitionTag value with
      | none => .error (.valueError ("Entry missing partition tag: ".toList ++ value))
      | some partition_tag =>
          if partition_tag ∈ partition_set then
            if key ∈ merged_dict.keys then
              if options.allow_duplicate_apkapex_keys then
                filterIntoMergedDict options partition_set merged_dict items
              else .error (.valueError ("Duplicate key ".toList ++ key))
            else
              filterIntoMergedDict options partition_set (merged_dict.set key value) items
          else filterIntoMergedDict options partition_set merged_dict items

/-- `sorted(merged_dict.items())`. -/
def sortedItems (merged_dict : OrderedDict Str Str) : List (Str × Str) :=
  KeySort.sortByKey toLex merged_dict.entries

/-- `MergePackageKeys`: the lines of the merged file. -/
def mergePackageKeys (options : Options) (file_name framework vendor : Str) :
    Except MergeError (List Str) :=
  if file_name ∉ ["apkcerts.txt".toList, "apexkeys.txt".toList] then
    .error (.externalError
      ("Unexpected file_name provided to merge_package_keys_txt: ".toList ++ file_name))
  else do
    let framework_dict ← readHelper framework
    let vendor_dict ← readHelper vendor
    let merged_dict ← filterIntoMergedDict options options.framework_partition_set
      OrderedDict.empty framework_dict.entries
    let merged_dict ← filterIntoMergedDict options options.vendor_partition_set
      merged_dict vendor_dict.entries
    .ok ((sortedItems merged_dict).map Prod.snd)

end Merge

section Entries

def nameOf (line : Str) : Str :=
  (lineKey line).getD []

def selected (partition_set : Finset Str) (line : Str) : Bool :=
  match partitionTag line with
  | some partition_tag => decide (partition_tag ∈ partition_set)
  | none => false

/-- Each line of a file has a module name and a partition tag. -/
structure Tagged (text : Str) : Prop where
  named : ∀ line ∈ entryLines text, (lineKey line).isSome
  tagged : ∀ line ∈ entryLines text, (partitionTag line).isSome

theorem Tagged.lineKey_eq
    {text line : Str} (h : Tagged text) (hline : line ∈ entryLines text) :
    lineKey line = some (nameOf line) := by
  obtain ⟨name, hname⟩ := Option.isSome_iff_exists.mp (h.named line hline)
  rw [nameOf, hname]
  rfl

/-- The dictionary of a side keeps the last line of each module. -/
theorem Tagged.readHelper_eq
    {text : Str} (h : Tagged text) :
    readHelper text = .ok (LastWins.byKey nameOf (entryLines text)) := by
  have hnames : ∀ line ∈ entryLines text, lineKey line = some (nameOf line) :=
    fun _ hline => h.lineKey_eq hline
  rw [readHelper, LastWins.byKey]
  generalize entryLines text = lines at hnames
  generalize (OrderedDict.empty : OrderedDict Str Str) = d
  induction lines generalizing d with
  | nil => rfl
  | cons line lines ih =>
      rw [List.forall_mem_cons] at hnames
      rw [List.foldlM_cons, hnames.1, List.foldl_cons]
      exact ih hnames.2 _

end Entries

section Filter

variable {options : Options} {partition_set : Finset Str}

theorem filterIntoMergedDict_ok
    (options : Options) {items : List (Str × Str)} {merged_dict : OrderedDict Str Str}
    (htags : ∀ e ∈ items, (partitionTag e.2).isSome) (hnodup : (items.map Prod.fst).Nodup)
    (hfresh : ∀ e ∈ items, selected partition_set e.2 → e.1 ∉ merged_dict.keys) :
    ∃ d, filterIntoMergedDict options partition_set merged_dict items = .ok d ∧
      d.entries = merged_dict.entries ++ items.filter fun e => selected partition_set e.2 := by
  induction items generalizing merged_dict with
  | nil => exact ⟨merged_dict, rfl, by simp⟩
  | cons e items ih =>
      obtain ⟨key, value⟩ := e
      rw [List.forall_mem_cons] at htags hfresh
      rw [List.map_cons, List.nodup_cons] at hnodup
      obtain ⟨tag, htag⟩ := Option.isSome_iff_exists.mp htags.1
      rw [filterIntoMergedDict]
      simp only [htag, List.filter_cons, selected]
      by_cases hmem : tag ∈ partition_set
      · have hkey : key ∉ merged_dict.keys := hfresh.1 (by simp [selected, htag, hmem])
        rw [if_pos hmem, if_neg hkey, if_pos (decide_eq_true hmem)]
        have hfresh' : ∀ e ∈ items, selected partition_set e.2 →
            e.1 ∉ (merged_dict.set key value).keys := by
          intro e he hsel
          rw [OrderedDict.mem_keys_set, not_or]
          refine ⟨?_, hfresh.2 e he hsel⟩
          rintro rfl
          exact hnodup.1 (List.mem_map.mpr ⟨e, he, rfl⟩)
        obtain ⟨d, hd, hentries⟩ := ih htags.2 hnodup.2 hfresh'
        refine ⟨d, hd, ?_⟩
        rw [hentries, OrderedDict.entries_set_of_fresh hkey, List.append_assoc]
        rfl
      · rw [if_neg hmem, if_neg (by simpa using hmem)]
        exact ih htags.2 hnodup.2 hfresh.2

theorem filterIntoMergedDict_error
    (hallow : options.allow_duplicate_apkapex_keys = false) {items : List (Str × Str)}
    {merged_dict : OrderedDict Str Str} (htags : ∀ e ∈ items, (partitionTag e.2).isSome)
    (hdup : ∃ e ∈ items, selected partition_set e.2 ∧ e.1 ∈ merged_dict.keys) :
    ∃ message, filterIntoMergedDict options partition_set merged_dict items =
      .error (.valueError message) := by
  induction items generalizing merged_dict with
  | nil =>
      obtain ⟨e, he, _⟩ := hdup
      cases he
  | cons e items ih =>
      obtain ⟨key, value⟩ := e
      rw [List.forall_mem_cons] at htags
      rw [List.exists_mem_cons_iff] at hdup
      obtain ⟨tag, htag⟩ := Option.isSome_iff_exists.mp htags.1
      rw [filterIntoMergedDict]
      simp only [htag]
      by_cases hmem : tag ∈ partition_set
      · rw [if_pos hmem]
        by_cases hkey : key ∈ merged_dict.keys
        · rw [if_pos hkey, hallow]
          exact ⟨_, rfl⟩
        · rw [if_neg hkey]
          rcases hdup with ⟨_, habsurd⟩ | ⟨e, he, hsel, hin⟩
          · exact absurd habsurd hkey
          · exact ih htags.2 ⟨e, he, hsel, OrderedDict.mem_keys_set.mpr (Or.inr hin)⟩
      · rw [if_neg hmem]
        rcases hdup with ⟨habsurd, _⟩ | hdup
        · simp [selected, htag, hmem] at habsurd
        · exact ih htags.2 hdup

end Filter

section Keeps

variable (options : Options) (framework vendor : Str)

def selectedLines : List Str :=
  (entryLines framework).filter (selected options.framework_partition_set) ++
    (entryLines vendor).filter (selected options.vendor_partition_set)

/-- The merge fails when two selected lines have the same name, else it writes the selected
lines in the order of their names. -/
structure KeepsEntries (result : Except MergeError (List Str)) : Prop where
  raises : (∃ message, result = .error (.valueError message)) ↔
    ¬ ((selectedLines options framework vendor).map nameOf).Nodup
  writes : ((selectedLines options framework vendor).map nameOf).Nodup →
    ∃ lines, result = .ok lines ∧ lines.Perm (selectedLines options framework vendor) ∧
      lines.Pairwise fun a b => nameOf a < nameOf b

/-- A line of a file is selected and the last with its name. -/
def LastSelected (partition_set : Finset Str) (text line : Str) : Prop :=
  selected partition_set line ∧ ∃ front back, entryLines text = front ++ line :: back ∧
    ∀ other ∈ back, nameOf other ≠ nameOf line

/-- Both sides have such a line with the same name. -/
def SelectedTwice : Prop :=
  ∃ a b, LastSelected options.framework_partition_set framework a ∧
    LastSelected options.vendor_partition_set vendor b ∧ nameOf a = nameOf b

/-- Every selected line of a file is the last with its name. -/
def NoneHidden (partition_set : Finset Str) (text : Str) : Prop :=
  LastWins.AllLast nameOf (fun line => selected partition_set line) (entryLines text)

end Keeps

section Runs

variable {options : Options} {file_name framework vendor : Str}

theorem lastSelected_iff
    {partition_set : Finset Str} {text line : Str} :
    LastSelected partition_set text line ↔
      line ∈ LastWins.kept nameOf (selected partition_set) (entryLines text) :=
  LastWins.mem_kept_iff.symm

theorem Tagged.partitionTag_isSome
    {text : Str} (h : Tagged text) :
    ∀ e ∈ (LastWins.byKey nameOf (entryLines text)).entries, (partitionTag e.2).isSome :=
  fun _ he => h.tagged _ (LastWins.mem_of_mem_byKey he).1

/-- What the two filters leave behind, and when the second one stops. -/
theorem mergePackageKeys_eq
    (options : Options)
    (hfile : file_name ∈ ["apkcerts.txt".toList, "apexkeys.txt".toList])
    (hframework : Tagged framework) (hvendor : Tagged vendor) :
    ∃ merged_dict : OrderedDict Str Str,
      merged_dict.entries = (LastWins.byKey nameOf (entryLines framework)).entries.filter
          (fun e => selected options.framework_partition_set e.2) ∧
      mergePackageKeys options file_name framework vendor =
        (filterIntoMergedDict options options.vendor_partition_set merged_dict
          (LastWins.byKey nameOf (entryLines vendor)).entries >>= fun d =>
            .ok ((sortedItems d).map Prod.snd)) := by
  have hnone : ∀ e ∈ (LastWins.byKey nameOf (entryLines framework)).entries,
      selected options.framework_partition_set e.2 →
        e.1 ∉ (OrderedDict.empty : OrderedDict Str Str).keys := by
    simp
  obtain ⟨merged_dict, hmerged, hentries⟩ := filterIntoMergedDict_ok options
    hframework.partitionTag_isSome (LastWins.byKey nameOf (entryLines framework)).nodup hnone
  refine ⟨merged_dict, hentries, ?_⟩
  rw [mergePackageKeys, if_neg (not_not.mpr hfile), hframework.readHelper_eq,
    hvendor.readHelper_eq]
  simp only [bind, Except.bind, hmerged]

theorem mem_keys_filter_iff
    {partition_set : Finset Str} {text name : Str} :
    name ∈ ((LastWins.byKey nameOf (entryLines text)).entries.filter
        fun e => selected partition_set e.2).map Prod.fst ↔
      ∃ line, LastSelected partition_set text line ∧ nameOf line = name := by
  rw [← LastWins.map_key_kept, List.mem_map]
  simp only [lastSelected_iff]

theorem mergePackageKeys_error
    (hallow : options.allow_duplicate_apkapex_keys = false)
    (hfile : file_name ∈ ["apkcerts.txt".toList, "apexkeys.txt".toList])
    (hframework : Tagged framework) (hvendor : Tagged vendor)
    (htwice : SelectedTwice options framework vendor) :
    ∃ message, mergePackageKeys options file_name framework vendor =
      .error (.valueError message) := by
  obtain ⟨merged_dict, hentries, heq⟩ :=
    mergePackageKeys_eq options hfile hframework hvendor
  obtain ⟨a, b, ha, hb, hname⟩ := htwice
  have hdup : ∃ e ∈ (LastWins.byKey nameOf (entryLines vendor)).entries,
      selected options.vendor_partition_set e.2 ∧ e.1 ∈ merged_dict.keys := by
    obtain ⟨hsel, hlast⟩ := hb
    refine ⟨(nameOf b, b), LastWins.mem_byKey_iff.mpr ⟨rfl, hlast⟩, hsel, ?_⟩
    rw [OrderedDict.keys, hentries, mem_keys_filter_iff]
    exact ⟨a, ha, hname⟩
  obtain ⟨message, herror⟩ :=
    filterIntoMergedDict_error hallow hvendor.partitionTag_isSome hdup
  exact ⟨message, by rw [heq, herror]; rfl⟩

theorem mergePackageKeys_ok
    (hfile : file_name ∈ ["apkcerts.txt".toList, "apexkeys.txt".toList])
    (hframework : Tagged framework) (hvendor : Tagged vendor)
    (htwice : ¬ SelectedTwice options framework vendor) :
    ∃ lines, mergePackageKeys options file_name framework vendor = .ok lines ∧
      lines.Perm
        (LastWins.kept nameOf (selected options.framework_partition_set) (entryLines framework) ++
          LastWins.kept nameOf (selected options.vendor_partition_set) (entryLines vendor)) ∧
      lines.Pairwise fun a b => nameOf a < nameOf b := by
  obtain ⟨merged_dict, hentries, heq⟩ :=
    mergePackageKeys_eq options hfile hframework hvendor
  have hfresh : ∀ e ∈ (LastWins.byKey nameOf (entryLines vendor)).entries,
      selected options.vendor_partition_set e.2 → e.1 ∉ merged_dict.keys := by
    intro e he hsel hmem
    obtain ⟨hkey, hlast⟩ := LastWins.mem_byKey_iff.mp he
    rw [OrderedDict.keys, hentries, mem_keys_filter_iff] at hmem
    obtain ⟨a, ha, hname⟩ := hmem
    refine htwice ⟨a, e.2, ha, ⟨hsel, ?_⟩, hname.trans hkey.symm⟩
    rw [hkey]
    exact hlast
  obtain ⟨d, hd, hall⟩ := filterIntoMergedDict_ok options
    hvendor.partitionTag_isSome (LastWins.byKey nameOf (entryLines vendor)).nodup hfresh
  refine ⟨(sortedItems d).map Prod.snd, by rw [heq, hd]; rfl, ?_, ?_⟩
  · refine ((KeySort.perm_sortByKey _).map _).trans ?_
    rw [hall, hentries, List.map_append]
    rfl
  · -- the keys are distinct, so that the pairs are in the order of their keys
    have hsorted : (sortedItems d).Pairwise fun a b => toLex a ≤ toLex b :=
      KeySort.pairwise_sortByKey d.entries
    have hnodup : ((sortedItems d).map Prod.fst).Nodup :=
      ((KeySort.perm_sortByKey d.entries).map Prod.fst).nodup_iff.mpr d.nodup
    have hkeys : ∀ e ∈ sortedItems d, e.1 = nameOf e.2 := by
      intro e he
      rw [sortedItems, (KeySort.perm_sortByKey d.entries).mem_iff, hall, hentries,
        List.mem_append, List.mem_filter, List.mem_filter] at he
      rcases he with ⟨he, _⟩ | ⟨he, _⟩
      · exact LastWins.key_of_mem_byKey he
      · exact LastWins.key_of_mem_byKey he
    rw [List.pairwise_map]
    refine (hsorted.and (List.pairwise_map.mp hnodup)).imp_of_mem fun {a b} ha hb hab => ?_
    rw [← hkeys a ha, ← hkeys b hb]
    rcases Prod.Lex.le_iff.mp hab.1 with hlt | ⟨heq, _⟩
    · exact hlt
    · exact absurd heq hab.2

/-- The merge is right exactly when a name is selected last on both sides, or no selected line
stands before another line of its name. -/
theorem mergePackageKeys_keepsEntries_iff
    (hallow : options.allow_duplicate_apkapex_keys = false)
    (hfile : file_name ∈ ["apkcerts.txt".toList, "apexkeys.txt".toList])
    (hframework : Tagged framework) (hvendor : Tagged vendor) :
    KeepsEntries options framework vendor
        (mergePackageKeys options file_name framework vendor) ↔
      SelectedTwice options framework vendor ∨
        NoneHidden options.framework_partition_set framework ∧
          NoneHidden options.vendor_partition_set vendor := by
  by_cases htwice : SelectedTwice options framework vendor
  · simp only [htwice, true_or, iff_true]
    obtain ⟨message, herror⟩ := mergePackageKeys_error hallow hfile hframework hvendor htwice
    obtain ⟨a, b, ha, hb, hname⟩ := htwice
    have hdup : ¬ ((selectedLines options framework vendor).map nameOf).Nodup := by
      rw [selectedLines, List.map_append, List.nodup_append]
      rintro ⟨_, _, hdisjoint⟩
      exact hdisjoint _ (List.mem_map_of_mem (LastWins.kept_subset (lastSelected_iff.mp ha))) _
        (List.mem_map_of_mem (LastWins.kept_subset (lastSelected_iff.mp hb))) hname
    exact ⟨iff_of_true ⟨message, herror⟩ hdup, fun h => absurd h hdup⟩
  · obtain ⟨lines, hok, hperm, hsorted⟩ := mergePackageKeys_ok hfile hframework hvendor htwice
    rw [or_iff_right htwice]
    constructor
    · intro hkeeps
      have hnodup : ((selectedLines options framework vendor).map nameOf).Nodup := by
        by_contra hdup
        obtain ⟨message, herror⟩ := hkeeps.raises.mpr hdup
        rw [hok] at herror
        cases herror
      obtain ⟨lines', hok', hperm', _⟩ := hkeeps.writes hnodup
      rw [hok, Except.ok.injEq] at hok'
      subst hok'
      have hall := fun line => (hperm.symm.trans hperm').mem_iff (a := line)
      rw [selectedLines, List.map_append, List.nodup_append] at hnodup
      obtain ⟨hframeworkNodup, hvendorNodup, hdisjoint⟩ := hnodup
      constructor
      · refine LastWins.allLast_of_subset_kept hframeworkNodup fun line hline => ?_
        rcases List.mem_append.mp ((hall _).mpr (List.mem_append_left _ hline)) with hkept | hkept
        · exact hkept
        · exact absurd rfl (hdisjoint _ (List.mem_map_of_mem hline) _
            (List.mem_map_of_mem (LastWins.kept_subset hkept)))
      · refine LastWins.allLast_of_subset_kept hvendorNodup fun line hline => ?_
        rcases List.mem_append.mp ((hall _).mpr (List.mem_append_right _ hline)) with hkept | hkept
        · exact absurd rfl (hdisjoint _ (List.mem_map_of_mem (LastWins.kept_subset hkept)) _
            (List.mem_map_of_mem hline))
        · exact hkept
    · rintro ⟨hframeworkLast, hvendorLast⟩
      have hlines := hperm.trans ((LastWins.perm_kept_of_allLast hframeworkLast).append
        (LastWins.perm_kept_of_allLast hvendorLast))
      have hnodup : ((selectedLines options framework vendor).map nameOf).Nodup := by
        refine (hlines.map nameOf).nodup_iff.mp ?_
        rw [List.Nodup, List.pairwise_map]
        exact hsorted.imp fun hlt => hlt.ne
      refine ⟨iff_of_false ?_ (not_not.mpr hnodup), fun _ => ⟨lines, hok, hlines, hsorted⟩⟩
      rintro ⟨message, herror⟩
      rw [hok] at herror
      cases herror

end Runs

section Samples

/-- The keys of the system partition are merged with those of the vendor partition. -/
def sampleOptions : Options where
  framework_partition_set := {"system".toList}
  vendor_partition_set := {"vendor".toList}
  allow_duplicate_apkapex_keys := false

def sampleFramework : Str :=
  "name=\"a.apk\" partition=\"system\"\nname=\"a.apk\" partition=\"product\"\n".toList

def sampleVendor : Str :=
  "name=\"b.apk\" partition=\"vendor\"\n".toList

theorem tagged_sampleFramework :
    Tagged sampleFramework :=
  ⟨List.all_eq_true.mp (by decide +kernel), List.all_eq_true.mp (by decide +kernel)⟩

theorem tagged_sampleVendor :
    Tagged sampleVendor :=
  ⟨List.all_eq_true.mp (by decide +kernel), List.all_eq_true.mp (by decide +kernel)⟩

theorem mergePackageKeys_keepsEntries_iff_sample :
    KeepsEntries sampleOptions sampleFramework sampleVendor
        (mergePackageKeys sampleOptions "apkcerts.txt".toList sampleFramework sampleVendor) ↔
      SelectedTwice sampleOptions sampleFramework sampleVendor ∨
        NoneHidden sampleOptions.framework_partition_set sampleFramework ∧
          NoneHidden sampleOptions.vendor_partition_set sampleVendor :=
  mergePackageKeys_keepsEntries_iff rfl (by decide) tagged_sampleFramework tagged_sampleVendor

/-- The line of the system partition is hidden by the line of the product partition. -/
theorem mergePackageKeys_loses :
    ¬ KeepsEntries sampleOptions sampleFramework sampleVendor
      (mergePackageKeys sampleOptions "apkcerts.txt".toList sampleFramework sampleVendor) := by
  intro h
  have hrun : mergePackageKeys sampleOptions "apkcerts.txt".toList sampleFramework sampleVendor =
      .ok ["name=\"b.apk\" partition=\"vendor\"".toList] := by
    decide +kernel
  have hnodup : ((selectedLines sampleOptions sampleFramework sampleVendor).map nameOf).Nodup := by
    decide +kernel
  obtain ⟨lines, hok, hperm, _⟩ := h.writes hnodup
  rw [hrun, Except.ok.injEq] at hok
  have hlength := hperm.length_eq
  rw [← hok] at hlength
  revert hlength
  decide +kernel

end Samples

end MergeMeta
end AndroidBuild
