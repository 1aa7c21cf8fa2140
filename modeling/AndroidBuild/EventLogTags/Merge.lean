import AndroidBuild.EventLogTags.TagFile
import AndroidBuild.Lib.KeySort

/-!
# Merging event log tag files

The merge of `merge-event-log-tags.py`.  Two maps find the tags with the same
name or number; a tag that is a conflict is skipped.
-/

namespace AndroidBuild
namespace EventLogTags

open Text (Str)

section Merge

/-- The maps and the messages of the merge. -/
structure MergeState where
  by_tagname : OrderedDict Str Tag
  by_tagnum : OrderedDict Int Tag
  errors : List Message
  warnings : List Message

def MergeState.addError (s : MergeState) (t : Tag) (message : Str) : MergeState :=
  { s with errors := s.errors ++ [(t.filename, t.linenum, message)] }

def MergeState.addWarning (s : MergeState) (t : Tag) (message : Str) : MergeState :=
  { s with warnings := s.warnings ++ [(t.filename, t.linenum, message)] }

def MergeState.record (s : MergeState) (t : Tag) : MergeState :=
  { s with
    by_tagname := s.by_tagname.set t.tagname t
    by_tagnum := s.by_tagnum.set t.tagnum t }

def place (t : Tag) : Str :=
  t.filename ++ ":".toList ++ (toString t.linenum).toList

def mergeTag (s : MergeState) (t : Tag) : MergeState :=
  match s.by_tagname.get? t.tagname with
  | some orig =>
      if t.tagnum = orig.tagnum ∧ t.description = orig.description then
        s.addWarning t ("tag \"".toList ++ t.tagname ++ "\" (".toList ++
          (toString t.tagnum).toList ++ ") duplicated in ".toList ++ place orig)
      else
        s.addError t ("tag name \"".toList ++ t.tagname ++ "\" used by conflicting tag ".toList ++
          (toString orig.tagnum).toList ++ " from ".toList ++ place orig)
  | none =>
      match s.by_tagnum.get? t.tagnum with
      | some orig =>
          if t.tagname ≠ orig.tagname then
            s.addError t ("tag number ".toList ++ (toString t.tagnum).toList ++
              " used by conflicting tag \"".toList ++ orig.tagname ++ "\" from ".toList ++
                place orig)
          else s.record t
      | none => s.record t

variable (U : Unicode)

def mergeFile (s : MergeState) (file : Str × Str) : MergeState :=
  let tagfile := tagFile U file.1 file.2
  tagfile.tags.foldl mergeTag { s with errors := s.errors ++ tagfile.errors }

def mergeFiles (files : List (Str × Str)) : MergeState :=
  files.foldl (mergeFile U) ⟨.empty, .empty, [], []⟩

/-- `sorted(by_tagnum.items())`. -/
def sortedTags (by_tagnum : OrderedDict Int Tag) : List Tag :=
  (KeySort.sortByKey Prod.fst by_tagnum.entries).map Prod.snd

def outputOf (tags : List TagData) : Str :=
  tags.flatMap fun t => t.line ++ ['\n']

/-- `merge-event-log-tags`: the output, or the errors. -/
def mergeEventLogTags (files : List (Str × Str)) : Except (List Message) Str :=
  let s := mergeFiles U files
  if s.errors ≠ [] then .error s.errors
  else .ok (outputOf ((sortedTags s.by_tagnum).map Tag.toTagData))

end Merge

section Conflicts

/-- Two tags have one name with different data, or one number with different names. -/
def Conflict (t t' : TagData) : Prop :=
  t.tagname = t'.tagname ∧ (t.tagnum ≠ t'.tagnum ∨ t.description ≠ t'.description) ∨
    t.tagnum = t'.tagnum ∧ t.tagname ≠ t'.tagname

/-- The maps have a tag for every one that was read, as long as there is no error; an error is a
line that was rejected or a conflict. -/
structure Merged (rejected : Prop) (tags : List TagData) (s : MergeState) : Prop where
  names : ∀ k o, s.by_tagname.get? k = some o → o.toTagData ∈ tags ∧ o.tagname = k
  nums : ∀ n o, s.by_tagnum.get? n = some o → o.toTagData ∈ tags ∧ o.tagnum = n
  complete : s.errors = [] → ¬ rejected ∧ ∀ t ∈ tags,
    (∃ o, s.by_tagname.get? t.tagname = some o ∧ o.toTagData = t) ∧
      ∃ o, s.by_tagnum.get? t.tagnum = some o ∧ o.toTagData = t
  sound : s.errors ≠ [] → rejected ∨ ∃ t ∈ tags, ∃ t' ∈ tags, Conflict t t'

variable {rejected : Prop} {tags : List TagData} {s : MergeState}

theorem Merged.addError
    (h : Merged rejected tags s) {t : Tag} {o : TagData} (ho : o ∈ tags)
    (hconflict : Conflict t.toTagData o) (message : Str) :
    Merged rejected (tags ++ [t.toTagData]) (s.addError t message) where
  names k o hget := ⟨List.mem_append_left _ (h.names k o hget).1, (h.names k o hget).2⟩
  nums n o hget := ⟨List.mem_append_left _ (h.nums n o hget).1, (h.nums n o hget).2⟩
  complete herrors := by simp [MergeState.addError] at herrors
  sound _ := Or.inr ⟨t.toTagData, by simp, o, by simp [ho], hconflict⟩

theorem Merged.sound_append
    (h : Merged rejected tags s) (t : TagData) (herrors : s.errors ≠ []) :
    rejected ∨ ∃ a ∈ tags ++ [t], ∃ b ∈ tags ++ [t], Conflict a b := by
  rcases h.sound herrors with hrejected | ⟨a, ha, b, hb, hconflict⟩
  · exact Or.inl hrejected
  · exact Or.inr ⟨a, List.mem_append_left _ ha, b, List.mem_append_left _ hb, hconflict⟩

theorem Merged.addWarning
    (h : Merged rejected tags s) {t : Tag} (ht : t.toTagData ∈ tags) (message : Str) :
    Merged rejected (tags ++ [t.toTagData]) (s.addWarning t message) where
  names k o hget := ⟨List.mem_append_left _ (h.names k o hget).1, (h.names k o hget).2⟩
  nums n o hget := ⟨List.mem_append_left _ (h.nums n o hget).1, (h.nums n o hget).2⟩
  complete herrors := by
    obtain ⟨hrejected, hall⟩ := h.complete herrors
    refine ⟨hrejected, fun a ha => hall a ?_⟩
    rcases List.mem_append.mp ha with ha | ha
    · exact ha
    · rw [List.mem_singleton.mp ha]
      exact ht
  sound := h.sound_append t.toTagData

/-- A tag whose name and number are new is recorded. -/
theorem Merged.record
    (h : Merged rejected tags s) {t : Tag} (hname : s.by_tagname.get? t.tagname = none)
    (hnum : s.errors = [] → s.by_tagnum.get? t.tagnum = none) :
    Merged rejected (tags ++ [t.toTagData]) (s.record t) where
  names k o hget := by
    rw [MergeState.record, OrderedDict.get?_set] at hget
    split_ifs at hget with hk
    · cases hget
      exact ⟨by simp, hk.symm⟩
    · exact ⟨List.mem_append_left _ (h.names k o hget).1, (h.names k o hget).2⟩
  nums n o hget := by
    rw [MergeState.record, OrderedDict.get?_set] at hget
    split_ifs at hget with hn
    · cases hget
      exact ⟨by simp, hn.symm⟩
    · exact ⟨List.mem_append_left _ (h.nums n o hget).1, (h.nums n o hget).2⟩
  complete herrors := by
    obtain ⟨hrejected, hall⟩ := h.complete herrors
    refine ⟨hrejected, fun a ha => ?_⟩
    rw [MergeState.record, OrderedDict.get?_set, OrderedDict.get?_set]
    rcases List.mem_append.mp ha with ha | ha
    · obtain ⟨⟨o, ho, rfl⟩, o', ho', heq⟩ := hall a ha
      have hname' : o.tagname ≠ t.tagname := by
        intro heq'
        rw [heq', hname] at ho
        cases ho
      have hnum' : o.tagnum ≠ t.tagnum := by
        intro heq'
        rw [heq', hnum herrors] at ho'
        cases ho'
      rw [if_neg hname', if_neg hnum']
      exact ⟨⟨o, ho, rfl⟩, o', ho', heq⟩
    · rw [List.mem_singleton.mp ha, if_pos rfl, if_pos rfl]
      exact ⟨⟨t, rfl, rfl⟩, t, rfl, rfl⟩
  sound := h.sound_append t.toTagData

theorem Merged.mergeTag
    (h : Merged rejected tags s) (t : Tag) :
    Merged rejected (tags ++ [t.toTagData]) (mergeTag s t) := by
  rw [EventLogTags.mergeTag]
  cases hname : s.by_tagname.get? t.tagname with
  | some orig =>
      obtain ⟨horig, hkey⟩ := h.names _ _ hname
      dsimp only
      split_ifs with hsame
      · refine h.addWarning ?_ _
        have heq : t.toTagData = orig.toTagData :=
          TagData.ext hsame.1 hkey.symm hsame.2
        rw [heq]
        exact horig
      · refine h.addError horig (Or.inl ⟨hkey.symm, ?_⟩) _
        rwa [not_and_or] at hsame
  | none =>
      dsimp only
      cases hnum : s.by_tagnum.get? t.tagnum with
      | some orig =>
          obtain ⟨horig, hkey⟩ := h.nums _ _ hnum
          dsimp only
          split_ifs with hne
          · exact h.addError horig (Or.inr ⟨hkey.symm, hne⟩) _
          · refine h.record hname fun herrors => ?_
            -- the name of a recorded tag would be found
            obtain ⟨o, ho, _⟩ := ((h.complete herrors).2 _ horig).1
            rw [not_not] at hne
            rw [← hne, hname] at ho
            cases ho
      | none => exact h.record hname fun _ => hnum

theorem Merged.foldl_mergeTag
    (h : Merged rejected tags s) (ts : List Tag) :
    Merged rejected (tags ++ ts.map Tag.toTagData) (ts.foldl EventLogTags.mergeTag s) := by
  induction ts generalizing tags s with
  | nil =>
      rw [List.map_nil, List.append_nil]
      exact h
  | cons t ts ih =>
      rw [List.foldl_cons, List.map_cons, ← List.singleton_append, ← List.append_assoc]
      exact ih (h.mergeTag t)

variable {U : Unicode}

theorem Merged.mergeFile
    (h : Merged rejected tags s) (file : Str × Str) :
    Merged (rejected ∨ ∃ line ∈ rawLines file.2, Rejected U line)
      (tags ++ (rawLines file.2).filterMap (tagOf U)) (mergeFile U s file) := by
  rw [EventLogTags.mergeFile, ← tagFile_tags file.1]
  have hstart : Merged (rejected ∨ ∃ line ∈ rawLines file.2, Rejected U line) tags
      { s with errors := s.errors ++ (tagFile U file.1 file.2).errors } := by
    refine ⟨h.names, h.nums, fun herrors => ?_, fun herrors => ?_⟩
    · obtain ⟨hold, hnew⟩ := List.append_eq_nil_iff.mp herrors
      obtain ⟨hrejected, hall⟩ := h.complete hold
      refine ⟨?_, hall⟩
      rintro (hrej | ⟨line, hline, hrej⟩)
      · exact hrejected hrej
      · exact (tagFile_errors _ _).mp hnew line hline hrej
    · by_cases hold : s.errors = []
      · refine Or.inl (Or.inr ?_)
        by_contra hnone
        push Not at hnone
        refine herrors (List.append_eq_nil_iff.mpr ⟨hold, ?_⟩)
        exact (tagFile_errors _ _).mpr hnone
      · rcases h.sound hold with hrej | hconflict
        · exact Or.inl (Or.inl hrej)
        · exact Or.inr hconflict
  exact hstart.foldl_mergeTag _

end Conflicts

section Runs

variable {U : Unicode}

def allLines (files : List (Str × Str)) : List Str :=
  files.flatMap fun file => rawLines file.2

def allTags (U : Unicode) (files : List (Str × Str)) : List TagData :=
  (allLines files).filterMap (tagOf U)

theorem Merged.foldl_mergeFile
    {rejected : Prop} {tags : List TagData} {s : MergeState} (h : Merged rejected tags s)
    (files : List (Str × Str)) :
    Merged (rejected ∨ ∃ line ∈ allLines files, Rejected U line) (tags ++ allTags U files)
      (files.foldl (EventLogTags.mergeFile U) s) := by
  induction files generalizing rejected tags s with
  | nil => simpa [allLines, allTags] using h
  | cons file files ih =>
      have hstep := ih (h.mergeFile (U := U) file)
      rw [List.foldl_cons]
      simpa [allLines, allTags, List.filterMap_append, or_and_right, exists_or, or_assoc]
        using hstep

theorem merged_mergeFiles
    (files : List (Str × Str)) :
    Merged (∃ line ∈ allLines files, Rejected U line) (allTags U files) (mergeFiles U files) := by
  have hstart : Merged False [] ⟨.empty, .empty, [], []⟩ := by
    refine ⟨fun k o h => ?_, fun n o h => ?_, fun _ => ⟨not_false, by simp⟩, by simp⟩
    · cases h
    · cases h
  have h := hstart.foldl_mergeFile (U := U) files
  rwa [false_or, List.nil_append] at h

/-- The merge is without errors when no line is rejected and no tags are in conflict. -/
theorem mergeFiles_errors_iff
    (files : List (Str × Str)) :
    (mergeFiles U files).errors ≠ [] ↔
      (∃ line ∈ allLines files, Rejected U line) ∨
        ∃ t ∈ allTags U files, ∃ t' ∈ allTags U files, Conflict t t' := by
  have h := merged_mergeFiles (U := U) files
  refine ⟨h.sound, ?_⟩
  rintro hbad herrors
  obtain ⟨hrejected, hall⟩ := h.complete herrors
  rcases hbad with hbad | ⟨t, ht, t', ht', hconflict⟩
  · exact hrejected hbad
  · obtain ⟨⟨o, ho, hdata⟩, p, hp, hpdata⟩ := hall t ht
    obtain ⟨⟨o', ho', hdata'⟩, p', hp', hpdata'⟩ := hall t' ht'
    rcases hconflict with ⟨hname, hdiff⟩ | ⟨hnum, hdiff⟩
    · rw [hname, ho', Option.some.injEq] at ho
      have heq : t = t' := by
        rw [← hdata, ← hdata', ho]
      subst heq
      exact hdiff.elim (fun h => h rfl) fun h => h rfl
    · rw [hnum, hp', Option.some.injEq] at hp
      have heq : t = t' := by
        rw [← hpdata, ← hpdata', hp]
      exact hdiff (congrArg TagData.tagname heq)

/-- The tags that are written: each tag once, in the order of the numbers. -/
theorem canonical_sortedTags
    {files : List (Str × Str)} (herrors : (mergeFiles U files).errors = []) :
    KeySort.Canonical TagData.tagnum (allTags U files)
      ((sortedTags (mergeFiles U files).by_tagnum).map Tag.toTagData) := by
  have h := merged_mergeFiles (U := U) files
  obtain ⟨_, hall⟩ := h.complete herrors
  generalize mergeFiles U files = s at h hall
  have hkey : ∀ e ∈ s.by_tagnum.entries, e.2.tagnum = e.1 := fun e he =>
    (h.nums e.1 e.2 (s.by_tagnum.get?_of_mem he)).2
  constructor
  · have hsorted : (KeySort.sortByKey Prod.fst s.by_tagnum.entries).Pairwise
        fun a b => a.1 ≤ b.1 :=
      KeySort.pairwise_sortByKey s.by_tagnum.entries
    have hnodup : ((KeySort.sortByKey Prod.fst s.by_tagnum.entries).map Prod.fst).Nodup :=
      ((KeySort.perm_sortByKey s.by_tagnum.entries).map Prod.fst).nodup_iff.mpr s.by_tagnum.nodup
    rw [List.pairwise_map, sortedTags, List.pairwise_map]
    refine (hsorted.and (List.pairwise_map.mp hnodup)).imp_of_mem fun {a b} ha hb hab => ?_
    rw [(KeySort.perm_sortByKey _).mem_iff] at ha hb
    rw [hkey a ha, hkey b hb]
    exact lt_of_le_of_ne hab.1 hab.2
  · intro t
    simp only [sortedTags, List.mem_map, (KeySort.perm_sortByKey _).mem_iff]
    constructor
    · rintro ⟨o, ⟨e, he, rfl⟩, rfl⟩
      exact (h.nums e.1 e.2 (s.by_tagnum.get?_of_mem he)).1
    · intro ht
      obtain ⟨_, o, ho, rfl⟩ := hall t ht
      exact ⟨o, ⟨(o.tagnum, o), OrderedDict.mem_of_get? ho, rfl⟩, rfl⟩

theorem mergeEventLogTags_ok_iff
    {files : List (Str × Str)} {out : Str} :
    mergeEventLogTags U files = .ok out ↔
      ¬ ((∃ line ∈ allLines files, Rejected U line) ∨
        ∃ t ∈ allTags U files, ∃ t' ∈ allTags U files, Conflict t t') ∧
      ∃ L, out = outputOf L ∧ KeySort.Canonical TagData.tagnum (allTags U files) L := by
  rw [← mergeFiles_errors_iff, not_not, mergeEventLogTags]
  by_cases herrors : (mergeFiles U files).errors = []
  · rw [if_neg (not_not.mpr herrors), Except.ok.injEq, and_iff_right herrors]
    have hcanonical := canonical_sortedTags herrors
    constructor
    · rintro rfl
      exact ⟨_, rfl, hcanonical⟩
    · rintro ⟨L, rfl, hL⟩
      rw [hcanonical.unique hL fun _ => Iff.rfl]
  · rw [if_pos herrors]
    exact iff_of_false (by simp) fun h => herrors h.1

end Runs

section Output

theorem not_mem_of_mem_partsFrom
    {sep : Char} {part cs : Str} (hpart : sep ∉ part) :
    ∀ p ∈ Text.partsFrom sep part cs, sep ∉ p := by
  induction cs generalizing part with
  | nil =>
      intro p hp
      rw [List.mem_singleton.mp hp]
      exact hpart
  | cons c cs ih =>
      rw [Text.partsFrom]
      split_ifs with hc
      · exact List.forall_mem_cons.mpr ⟨hpart, ih (by simp)⟩
      · refine ih ?_
        rw [List.mem_append, List.mem_singleton]
        exact not_or.mpr ⟨hpart, fun h => hc h.symm⟩

variable {U : Unicode}

theorem isTag_of_mem_allTags
    {files : List (Str × Str)} {t : TagData} (h : t ∈ allTags U files) :
    IsTag t := by
  obtain ⟨line, hline, htag⟩ := List.mem_filterMap.mp h
  obtain ⟨file, _, hline⟩ := List.mem_flatMap.mp hline
  exact isTag_of_tagOf (not_mem_of_mem_partsFrom (by simp) line hline) htag

theorem rawLines_outputOf
    {L : List TagData} (h : ∀ t ∈ L, IsTag t) :
    rawLines (outputOf L) = L.map TagData.line ++ [[]] := by
  induction L with
  | nil => rfl
  | cons t L ih =>
      rw [List.forall_mem_cons] at h
      have hline : ∀ c ∈ t.line, c ≠ '\n' := fun c hc => (h.1.mem_line hc).2
      rw [rawLines, outputOf, List.flatMap_cons, List.append_assoc, List.singleton_append,
        Text.partsFrom_append hline, List.nil_append, List.map_cons, List.cons_append]
      exact congrArg _ (ih h.2)

theorem allLines_singleton
    (file : Str × Str) :
    allLines [file] = rawLines file.2 := by
  simp [allLines]

/-- The output file tells of its tags and of nothing else. -/
theorem allTags_outputOf
    (hU : IntLiteral.KeepsAscii U) {L : List TagData} (h : ∀ t ∈ L, IsTag t) (name : Str) :
    allTags U [(name, outputOf L)] = L ∧
      ¬ ∃ line ∈ allLines [(name, outputOf L)], Rejected U line := by
  rw [allTags, allLines_singleton, rawLines_outputOf h]
  have hblank : readLine U [] = .blank := rfl
  constructor
  · have hlines : (L.map TagData.line).filterMap (tagOf U) = L := by
      rw [List.filterMap_map, List.filterMap_eq_map_iff_forall_eq_some.mpr, List.map_id]
      intro t ht
      rw [Function.comp, tagOf, (h t ht).readLine_line hU]
      rfl
    rw [List.filterMap_append, hlines]
    exact List.append_nil L
  · rintro ⟨line, hline, message, hmessage⟩
    rcases List.mem_append.mp hline with hline | hline
    · obtain ⟨t, ht, rfl⟩ := List.mem_map.mp hline
      rw [(h t ht).readLine_line hU] at hmessage
      cases hmessage
    · rw [List.mem_singleton.mp hline, hblank] at hmessage
      cases hmessage

theorem mem_allTags_of_perm
    {files files' : List (Str × Str)} (h : (allLines files').Perm (allLines files))
    (t : TagData) :
    t ∈ allTags U files' ↔ t ∈ allTags U files :=
  (h.filterMap (tagOf U)).mem_iff

/-- The merge fails when a line is rejected or two tags are in conflict.  Else it writes each tag
once in the order of the numbers, for every order of the lines, and merging the output
reproduces it. -/
theorem mergeEventLogTags_spec
    (hU : IntLiteral.KeepsAscii U) (files : List (Str × Str)) :
    ((∃ errors, mergeEventLogTags U files = .error errors) ↔
      (∃ line ∈ allLines files, Rejected U line) ∨
        ∃ t ∈ allTags U files, ∃ t' ∈ allTags U files, Conflict t t') ∧
      ∀ out, mergeEventLogTags U files = .ok out →
        (∃ L, out = outputOf L ∧ (L.Pairwise fun a b => a.tagnum < b.tagnum) ∧
            ∀ t, t ∈ L ↔ t ∈ allTags U files) ∧
          (∀ files', (allLines files').Perm (allLines files) →
            mergeEventLogTags U files' = .ok out) ∧
          ∀ name, mergeEventLogTags U [(name, out)] = .ok out := by
  constructor
  · rw [← mergeFiles_errors_iff, mergeEventLogTags]
    split_ifs with herrors
    · exact iff_of_true ⟨_, rfl⟩ herrors
    · exact iff_of_false (by rintro ⟨_, h⟩; cases h) herrors
  · intro out hout
    obtain ⟨hgood, L, rfl, hL⟩ := mergeEventLogTags_ok_iff.mp hout
    refine ⟨⟨L, rfl, hL.sorted, hL.mem_iff⟩, fun files' hperm => ?_, fun name => ?_⟩
    · refine mergeEventLogTags_ok_iff.mpr ⟨?_, L, rfl, hL.congr fun t => ?_⟩
      · simpa only [mem_allTags_of_perm hperm, hperm.mem_iff] using hgood
      · exact (mem_allTags_of_perm hperm t).symm
    · have htags : ∀ t ∈ L, IsTag t := fun t ht =>
        isTag_of_mem_allTags ((hL.mem_iff t).mp ht)
      obtain ⟨hall, hrejected⟩ := allTags_outputOf hU htags name
      refine mergeEventLogTags_ok_iff.mpr ⟨?_, L, rfl, ?_⟩
      · rw [hall]
        rintro (h | ⟨t, ht, t', ht', hconflict⟩)
        · exact hrejected h
        · exact hgood (Or.inr ⟨t, (hL.mem_iff t).mp ht, t', (hL.mem_iff t').mp ht', hconflict⟩)
      · rw [hall]
        exact ⟨hL.sorted, fun _ => Iff.rfl⟩

/-- A tag that stands in two files is written once. -/
theorem mergeEventLogTags_spec_sample :
    ∃ out, mergeEventLogTags Unicode.ascii
        [("a".toList, "42 answer (to life)\n".toList),
          ("b".toList, "7 x # seven\n42  answer (to life)".toList)] = .ok out ∧
      mergeEventLogTags Unicode.ascii [("c".toList, out)] = .ok out := by
  have hspec := mergeEventLogTags_spec (U := Unicode.ascii) (fun _ _ => rfl)
    [("a".toList, "42 answer (to life)\n".toList),
      ("b".toList, "7 x # seven\n42  answer (to life)".toList)]
  have hout : mergeEventLogTags Unicode.ascii
      [("a".toList, "42 answer (to life)\n".toList),
        ("b".toList, "7 x # seven\n42  answer (to life)".toList)] =
      .ok "7 x\n42 answer (to life)\n".toList := by
    decide +kernel
  exact ⟨_, hout, (hspec.2 _ hout).2.2 _⟩

end Output

end EventLogTags
end AndroidBuild
