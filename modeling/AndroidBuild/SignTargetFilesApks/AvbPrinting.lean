import AndroidBuild.Lib.Loop
import AndroidBuild.SignTargetFilesApks.AvbInfo
import Mathlib

/-!
# Printed AVB information

The text of a tree of fields and descriptors, and what `ParseAvbInfo` makes of
it.  After each line the stack is followed up to the frames that the next line
leaves, where it is the tree read so far.
-/

namespace AndroidBuild
namespace SignTargetFilesApks

open Text

section Printing

inductive Descriptor where
  | block (title : Str) (fields : List (Str × Str))
  | prop (key value : Str)

/-- The fields at the top and the descriptors. -/
structure AvbTree where
  fields : List (Str × Str)
  descriptors : List Descriptor

def textEntries (fields : List (Str × Str)) : List (Str × Info) :=
  fields.map fun f => (f.1, .text f.2)

def Descriptor.toInfo : Descriptor → Info
  | .block title fields => .dict [(title, .dict (textEntries fields))]
  | .prop key value => .dict [("Prop".toList, .dict [(key, .text value)])]

def AvbTree.toInfo (t : AvbTree) : Info :=
  .dict (textEntries t.fields ++
    [("Descriptors".toList, .list (t.descriptors.map Descriptor.toInfo))])

/-- The indentation of the three levels and the blanks behind each name. -/
structure Layout where
  outer : Nat
  descriptor : Nat
  field : Nat
  pad : Str → Nat
  outer_lt : outer < descriptor
  descriptor_lt : descriptor < field

/-- A name stands in one line before a colon, without blanks around it. -/
structure IsName (name : Str) : Prop where
  ne_nil : name ≠ []
  strip : stripChars name = name
  no_colon : ':' ∉ name
  no_newline : '\n' ∉ name

/-- Fields of one block have different names, and their values stand in one line. -/
structure AreFields (fields : List (Str × Str)) : Prop where
  isName : ∀ f ∈ fields, IsName f.1
  no_newline : ∀ f ∈ fields, '\n' ∉ f.2
  nodup : (fields.map Prod.fst).Nodup

def Descriptor.WellFormed : Descriptor → Prop
  | .block title fields => IsName title ∧ AreFields fields
  | .prop key value => (∀ c ∈ key, isSpace c = false) ∧ '\n' ∉ value

structure AvbTree.WellFormed (t : AvbTree) : Prop where
  fields : AreFields t.fields
  no_descriptors : "Descriptors".toList ∉ t.fields.map Prod.fst
  descriptors : ∀ d ∈ t.descriptors, d.WellFormed

instance (name : Str) : Decidable (IsName name) :=
  decidable_of_iff (name ≠ [] ∧ stripChars name = name ∧ ':' ∉ name ∧ '\n' ∉ name)
    ⟨fun h => ⟨h.1, h.2.1, h.2.2.1, h.2.2.2⟩,
      fun h => ⟨h.ne_nil, h.strip, h.no_colon, h.no_newline⟩⟩

instance (fields : List (Str × Str)) : Decidable (AreFields fields) :=
  decidable_of_iff ((∀ f ∈ fields, IsName f.1) ∧ (∀ f ∈ fields, '\n' ∉ f.2) ∧
      (fields.map Prod.fst).Nodup)
    ⟨fun h => ⟨h.1, h.2.1, h.2.2⟩, fun h => ⟨h.isName, h.no_newline, h.nodup⟩⟩

instance (d : Descriptor) : Decidable d.WellFormed :=
  match d with
  | .block title fields => inferInstanceAs (Decidable (IsName title ∧ AreFields fields))
  | .prop key value =>
      decidable_of_iff ((key.all fun c => !isSpace c) = true ∧ '\n' ∉ value)
        (by simp [Descriptor.WellFormed])

instance (t : AvbTree) : Decidable t.WellFormed :=
  decidable_of_iff (AreFields t.fields ∧ "Descriptors".toList ∉ t.fields.map Prod.fst ∧
      ∀ d ∈ t.descriptors, d.WellFormed)
    ⟨fun h => ⟨h.1, h.2.1, h.2.2⟩, fun h => ⟨h.fields, h.no_descriptors, h.descriptors⟩⟩

def printLine (indent pad : Nat) (name value : Str) : Str :=
  List.replicate indent ' ' ++ (name ++ ':' :: (List.replicate pad ' ' ++ value))

def propText (key value : Str) : Str :=
  key ++ ' ' :: '-' :: '>' :: ' ' :: '\'' :: (value ++ ['\''])

variable (layout : Layout)

def fieldLines (indent : Nat) (fields : List (Str × Str)) : List Str :=
  fields.map fun f => printLine indent (layout.pad f.1) f.1 f.2

def Descriptor.lines : Descriptor → List Str
  | .block title fields =>
      printLine layout.descriptor (layout.pad title) title [] ::
        fieldLines layout layout.field fields
  | .prop key value =>
      [printLine layout.descriptor (layout.pad "Prop".toList) "Prop".toList (propText key value)]

def AvbTree.lines (t : AvbTree) : List Str :=
  fieldLines layout layout.outer t.fields ++
    printLine layout.outer (layout.pad "Descriptors".toList) "Descriptors".toList [] ::
      t.descriptors.flatMap (Descriptor.lines layout)

def AvbTree.print (t : AvbTree) : Str :=
  (t.lines layout).flatMap fun line => line ++ ['\n']

end Printing

section Names

theorem length_stripChars_le
    (cs : Str) :
    (stripChars cs).length ≤ (cs.dropWhile isSpace).length := by
  have h := (List.dropWhile_suffix isSpace (l := (cs.dropWhile isSpace).reverse)).length_le
  rw [List.length_reverse] at h
  rw [stripChars, List.length_reverse]
  exact h

/-- A text without blanks at its ends starts with another character. -/
theorem head_of_strip
    {c : Char} {rest : Str} (h : stripChars (c :: rest) = c :: rest) :
    isSpace c = false := by
  by_contra hc
  rw [Bool.not_eq_false] at hc
  have hlen := length_stripChars_le (c :: rest)
  rw [h, List.dropWhile_cons_of_pos hc, List.length_cons] at hlen
  have := (List.dropWhile_suffix isSpace (l := rest)).length_le
  omega

theorem isSpace_of_strip_eq_nil
    {cs : Str} (h : stripChars cs = []) :
    ∀ c ∈ cs, isSpace c = true := by
  rw [stripChars, List.reverse_eq_nil_iff, List.dropWhile_eq_nil_iff] at h
  rw [← List.dropWhile_eq_nil_iff]
  by_contra hne
  obtain ⟨c, rest, hcons⟩ := List.exists_cons_of_ne_nil hne
  have hhead := List.head_dropWhile_not isSpace hne
  simp only [hcons, List.head_cons] at hhead
  rw [h c (by rw [hcons]; simp)] at hhead
  cases hhead

theorem stripChars_blanks
    (n : Nat) (cs : Str) :
    stripChars (List.replicate n ' ' ++ cs) = stripChars cs := by
  have hblank : ∀ c ∈ List.replicate n ' ', isSpace c = true := by
    intro c hc
    rw [List.eq_of_mem_replicate hc]
    rfl
  rw [stripChars, List.dropWhile_append_of_pos hblank, stripChars]

/-- A printed line is matched. -/
theorem matchLine_printLine
    {name : Str} (hname : IsName name) (indent pad : Nat) (value : Str) :
    matchLine (printLine indent pad name value) = some (indent, name, stripChars value) := by
  obtain ⟨c, rest, rfl⟩ := List.exists_cons_of_ne_nil hname.ne_nil
  have hc : isSpace c = false := head_of_strip hname.strip
  have hblank : ∀ d ∈ List.replicate indent ' ', isSpace d = true := by
    intro d hd
    rw [List.eq_of_mem_replicate hd]
    rfl
  have hcolon : ∀ d ∈ c :: rest, decide (d ≠ ':') = true := by
    intro d hd
    rw [decide_eq_true_iff]
    rintro rfl
    exact hname.no_colon hd
  have htake : (printLine indent pad (c :: rest) value).takeWhile isSpace =
      List.replicate indent ' ' := by
    rw [printLine, List.takeWhile_append_of_pos hblank, List.cons_append,
      List.takeWhile_cons_of_neg (by simp [hc]), List.append_nil]
  have hdrop : (printLine indent pad (c :: rest) value).dropWhile isSpace =
      (c :: rest) ++ ':' :: (List.replicate pad ' ' ++ value) := by
    rw [printLine, List.dropWhile_append_of_pos hblank, List.cons_append,
      List.dropWhile_cons_of_neg (by simp [hc])]
  have htail : ∀ tail : Str, (':' :: tail).takeWhile (fun d => decide (d ≠ ':')) = [] ∧
      (':' :: tail).dropWhile (fun d => decide (d ≠ ':')) = ':' :: tail := by
    intro tail
    exact ⟨List.takeWhile_cons_of_neg (by decide), List.dropWhile_cons_of_neg (by decide)⟩
  rw [matchLine, htake, hdrop]
  rw [List.takeWhile_append_of_pos hcolon, List.dropWhile_append_of_pos hcolon,
    (htail _).1, (htail _).2, List.append_nil]
  dsimp only
  rw [if_pos (List.cons_ne_nil _ _), List.length_replicate, hname.strip, stripChars_blanks]

theorem isName_descriptors : IsName "Descriptors".toList := by
  decide

theorem isName_prop : IsName "Prop".toList := by
  decide

theorem partsFrom_flatMap
    {lines : List Str} (h : ∀ line ∈ lines, '\n' ∉ line) :
    partsFrom '\n' [] (lines.flatMap fun line => line ++ ['\n']) = lines ++ [[]] := by
  induction lines with
  | nil => rfl
  | cons line lines ih =>
      rw [List.forall_mem_cons] at h
      have hline : ∀ c ∈ line, c ≠ '\n' := by
        rintro c hc rfl
        exact h.1 hc
      rw [List.flatMap_cons, List.append_assoc, List.singleton_append, partsFrom_append hline,
        ih h.2]
      rfl

end Names

section Settle

theorem settle_of_lt
    {indent : Int} {top : Frame} (h : top.indent < indent) (below : List Frame) :
    settle indent top below = (top, below) := by
  cases below with
  | nil => rfl
  | cons frame below => rw [settle, if_neg (by omega)]

theorem settle_of_le
    {indent : Int} {top : Frame} (h : indent ≤ top.indent) (frame : Frame)
    (below : List Frame) :
    settle indent top (frame :: below) = settle indent (frame.put top) below := by
  rw [settle, if_pos h]

theorem settle_settle
    {i j : Int} (h : i ≤ j) (top : Frame) (below : List Frame) :
    settle i (settle j top below).1 (settle j top below).2 = settle i top below := by
  induction below generalizing top with
  | nil => rfl
  | cons frame below ih =>
      by_cases hj : j ≤ top.indent
      · rw [settle_of_le hj, settle_of_le (h.trans hj), ih]
      · have hlt : top.indent < j := by
          omega
        rw [settle_of_lt hlt]

theorem put_dict
    {below top : Frame} {entries : List (Str × Info)} (h : below.container = .dict entries)
    (hfresh : top.key ∉ entries.map Prod.fst) :
    below.put top =
      { below with container := .dict (entries ++ [(top.key, top.container)]) } := by
  rw [Frame.put, h]
  dsimp only
  rw [OrderedDict.setEntries_of_fresh hfresh]

theorem put_list
    {below top : Frame} {items : List Info} (h : below.container = .list items) :
    below.put top =
      { below with container := .list (items ++ [.dict [(top.key, top.container)]]) } := by
  rw [Frame.put, h]

end Settle

section Parsed

def parsedField (f : Str × Str) : Except AvbError (Str × Info) :=
  if stripChars f.2 = [] then
    if f.1 = "Descriptors".toList then .ok (f.1, .list []) else .error .attributeError
  else if f.1 = "Prop".toList then
    match matchProp (stripChars f.2) with
    | none => .error .valueError
    | some _ => .error .attributeError
  else .ok (f.1, .text (stripChars f.2))

def parsedDescriptor : Descriptor → Except AvbError Info
  | .block title fields =>
      if title = "Descriptors".toList then .error .typeError
      else (fields.mapM parsedField).map fun entries => .dict [(title, .dict entries)]
  | .prop key value =>
      match matchProp (stripChars (propText key value)) with
      | none => .error .valueError
      | some (k, v) => .ok (.dict [("Prop".toList, .dict [(k, .text v)])])

def AvbTree.parsed (t : AvbTree) : Except AvbError Info := do
  let entries ← t.fields.mapM parsedField
  let items ← t.descriptors.mapM parsedDescriptor
  .ok (.dict (entries ++ [("Descriptors".toList, .list items)]))

/-- The stack, once the frames are left that a line at `indent` leaves. -/
def Settled (indent : Int) (stack : Frame × List Frame) (top : Frame) (below : List Frame) :
    Prop :=
  top.indent < indent ∧ settle indent stack.1 stack.2 = (top, below)

theorem settled_self
    {indent : Int} {top : Frame} (h : top.indent < indent) (below : List Frame) :
    Settled indent (top, below) top below :=
  ⟨h, settle_of_lt h below⟩

/-- A run that gives `parsed` leads to the stack with the parsed value, or fails like it. -/
def ParsesTo {α : Type} (run : Except AvbError (Frame × List Frame)) (parsed : Except AvbError α)
    (good : α → Frame × List Frame → Prop) : Prop :=
  match parsed with
  | .error e => run = .error e
  | .ok x => ∃ stack, run = .ok stack ∧ good x stack

theorem ParsesTo.bind
    {α β : Type} {run : Except AvbError (Frame × List Frame)} {parsed : Except AvbError α}
    {good : α → Frame × List Frame → Prop} (h : ParsesTo run parsed good)
    {run' : Frame × List Frame → Except AvbError (Frame × List Frame)}
    {parsed' : α → Except AvbError β} {good' : β → Frame × List Frame → Prop}
    (hstep : ∀ x stack, good x stack → ParsesTo (run' stack) (parsed' x) good') :
    ParsesTo (run >>= run') (parsed >>= parsed') good' := by
  cases parsed with
  | error e =>
      rw [show run = .error e from h]
      rfl
  | ok x =>
      obtain ⟨stack, hrun, hgood⟩ := h
      rw [hrun]
      exact hstep x stack hgood

variable (layout : Layout)

/-- One field line. -/
theorem parseAvbLine_field
    {indent : Nat} {stack : Frame × List Frame} {top : Frame} {below : List Frame}
    {entries : List (Str × Info)} (hstack : Settled indent stack top below)
    (htop : top.container = .dict entries) {f : Str × Str} (hname : IsName f.1)
    (hfresh : f.1 ∉ entries.map Prod.fst) (pad : Nat) :
    ParsesTo (parseAvbLine stack (printLine indent pad f.1 f.2)) (parsedField f)
      fun entry stack' =>
        Settled indent stack' { top with container := .dict (entries ++ [entry]) } below := by
  obtain ⟨hlt, hsettle⟩ := hstack
  rw [parseAvbLine, matchLine_printLine hname]
  dsimp only
  rw [hsettle]
  dsimp only
  rw [insertLine, parsedField, htop]
  by_cases hvalue : stripChars f.2 = []
  · rw [if_pos hvalue, if_pos hvalue]
    by_cases hkey : f.1 = "Descriptors".toList
    · rw [if_pos hkey, if_pos hkey]
      refine ⟨(⟨indent, f.1, .list []⟩, top :: below), rfl, hlt, ?_⟩
      have hput : top.put ⟨indent, f.1, .list []⟩ =
          { top with container := .dict (entries ++ [(f.1, .list [])]) } := put_dict htop hfresh
      refine (settle_of_le (Int.le_refl _) top below).trans ?_
      rw [hput]
      exact settle_of_lt (by exact hlt) below
    · rw [if_neg hkey, if_neg hkey]
      rfl
  · rw [if_neg hvalue, if_neg hvalue]
    by_cases hkey : f.1 = "Prop".toList
    · rw [if_pos hkey, if_pos hkey]
      cases matchProp (stripChars f.2) <;> rfl
    · rw [if_neg hkey, if_neg hkey]
      dsimp only
      rw [OrderedDict.setEntries_of_fresh hfresh]
      exact ⟨_, rfl, settled_self (by exact hlt) below⟩

theorem parsedField_fst
    {f : Str × Str} {entry : Str × Info} (h : parsedField f = .ok entry) :
    entry.1 = f.1 := by
  rw [parsedField] at h
  split_ifs at h
  · cases h
    rfl
  · split at h <;> cases h
  · cases h
    rfl

theorem foldlM_fieldLines
    {indent : Nat} {fields : List (Str × Str)} (hnames : ∀ f ∈ fields, IsName f.1)
    (hnodup : (fields.map Prod.fst).Nodup) {stack : Frame × List Frame} {top : Frame}
    {below : List Frame} {entries : List (Str × Info)}
    (hstack : Settled indent stack top below) (htop : top.container = .dict entries)
    (hfresh : ∀ f ∈ fields, f.1 ∉ entries.map Prod.fst) :
    ParsesTo ((fieldLines layout indent fields).foldlM parseAvbLine stack)
      (fields.mapM parsedField) fun new stack' =>
        Settled indent stack' { top with container := .dict (entries ++ new) } below ∧
          new.map Prod.fst = fields.map Prod.fst := by
  induction fields generalizing stack top entries with
  | nil =>
      refine ⟨stack, rfl, ?_, rfl⟩
      change Settled indent stack { top with container := .dict (entries ++ []) } below
      rw [List.append_nil, ← htop]
      exact hstack
  | cons f fields ih =>
      rw [List.forall_mem_cons] at hnames hfresh
      rw [List.map_cons, List.nodup_cons] at hnodup
      rw [fieldLines, List.map_cons, List.foldlM_cons, List.mapM_cons]
      have hline := parseAvbLine_field hstack htop hnames.1 hfresh.1 (layout.pad f.1)
      cases hparsed : parsedField f with
      | error e =>
          rw [hparsed] at hline
          rw [show parseAvbLine stack _ = .error e from hline]
          rfl
      | ok entry =>
          rw [hparsed] at hline
          obtain ⟨stack', hrun, hstack'⟩ := hline
          have hentry := parsedField_fst hparsed
          have hrest := ih hnames.2 hnodup.2 hstack' rfl (by
            intro g hg hmem
            rw [List.map_append, List.mem_append] at hmem
            rcases hmem with hmem | hmem
            · exact hfresh.2 g hg hmem
            · rw [List.map_singleton, List.mem_singleton, hentry] at hmem
              exact hnodup.1 (hmem ▸ List.mem_map_of_mem hg))
          rw [hrun]
          change ParsesTo ((fieldLines layout indent fields).foldlM parseAvbLine stack') _ _
          cases hfields : fields.mapM parsedField with
          | error e =>
              rw [hfields] at hrest
              exact hrest
          | ok new =>
              rw [hfields] at hrest
              obtain ⟨stack'', hrun', hstack'', hkeys⟩ := hrest
              refine ⟨stack'', hrun', ?_, ?_⟩
              · rw [List.append_assoc] at hstack''
                exact hstack''
              · rw [List.map_cons, hkeys, hentry, List.map_cons]

theorem strip_propText_ne_nil
    (key value : Str) :
    stripChars (propText key value) ≠ [] := by
  intro h
  have := isSpace_of_strip_eq_nil h '-' (by simp [propText])
  cases this

theorem foldlM_descriptor
    {d : Descriptor} (hd : d.WellFormed) {stack : Frame × List Frame} {top : Frame}
    {below : List Frame} {items : List Info}
    (hstack : Settled layout.descriptor stack top below) (htop : top.container = .list items) :
    ParsesTo ((d.lines layout).foldlM parseAvbLine stack) (parsedDescriptor d) fun info stack' =>
      Settled layout.descriptor stack' { top with container := .list (items ++ [info]) } below := by
  obtain ⟨hlt, hsettle⟩ := hstack
  cases d with
  | prop key value =>
      rw [Descriptor.lines, List.foldlM_cons, parseAvbLine, matchLine_printLine isName_prop]
      dsimp only
      rw [hsettle]
      dsimp only
      rw [insertLine, if_neg (strip_propText_ne_nil key value), if_pos rfl,
        parsedDescriptor, htop]
      cases matchProp (stripChars (propText key value)) with
      | none => rfl
      | some groups => exact ⟨_, rfl, settled_self (by exact hlt) below⟩
  | block title fields =>
      obtain ⟨htitle, hfields⟩ := hd
      rw [Descriptor.lines, List.foldlM_cons, parseAvbLine, matchLine_printLine htitle]
      dsimp only
      rw [hsettle]
      dsimp only
      rw [insertLine, if_pos (by rfl), parsedDescriptor, htop]
      by_cases hkey : title = "Descriptors".toList
      · rw [if_pos hkey, if_pos hkey]
        rfl
      · rw [if_neg hkey, if_neg hkey]
        have hlayout : (layout.descriptor : Int) < layout.field :=
          Int.ofNat_lt.mpr layout.descriptor_lt
        have hblock : Settled layout.field
            ((⟨layout.descriptor, title, .dict []⟩, top :: below) : Frame × List Frame)
            ⟨layout.descriptor, title, .dict []⟩ (top :: below) :=
          settled_self hlayout _
        have hrun := foldlM_fieldLines layout hfields.isName hfields.nodup hblock rfl (by simp)
        cases hparsed : fields.mapM parsedField with
        | error e =>
            rw [hparsed] at hrun
            exact hrun
        | ok entries =>
            rw [hparsed] at hrun
            obtain ⟨stack', hrun, ⟨_, hsettle'⟩, _⟩ := hrun
            refine ⟨stack', hrun, hlt, ?_⟩
            have hput : top.put ⟨layout.descriptor, title, .dict entries⟩ =
                { top with container := .list (items ++ [.dict [(title, .dict entries)]]) } :=
              put_list htop
            rw [← settle_settle hlayout.le, hsettle',
              settle_of_le (by exact Int.le_refl _), List.nil_append, hput]
            exact settle_of_lt (by exact hlt) below

theorem foldlM_descriptors
    {ds : List Descriptor} (hds : ∀ d ∈ ds, d.WellFormed) {stack : Frame × List Frame}
    {top : Frame} {below : List Frame} {items : List Info}
    (hstack : Settled layout.descriptor stack top below) (htop : top.container = .list items) :
    ParsesTo ((ds.flatMap (Descriptor.lines layout)).foldlM parseAvbLine stack)
      (ds.mapM parsedDescriptor) fun infos stack' =>
        Settled layout.descriptor stack' { top with container := .list (items ++ infos) } below := by
  induction ds generalizing stack top items with
  | nil =>
      refine ⟨stack, rfl, ?_⟩
      change Settled layout.descriptor stack { top with container := .list (items ++ []) } below
      rw [List.append_nil, ← htop]
      exact hstack
  | cons d ds ih =>
      rw [List.forall_mem_cons] at hds
      rw [List.flatMap_cons, List.foldlM_append, List.mapM_cons]
      refine ParsesTo.bind (foldlM_descriptor layout hds.1 hstack htop) fun info stack' h => ?_
      have hrest := ih hds.2 h rfl
      cases hinfos : ds.mapM parsedDescriptor with
      | error e =>
          rw [hinfos] at hrest
          exact hrest
      | ok infos =>
          rw [hinfos] at hrest
          obtain ⟨stack'', hrun, hstack''⟩ := hrest
          refine ⟨stack'', hrun, ?_⟩
          rw [List.append_assoc] at hstack''
          exact hstack''

theorem no_newline_printLine
    {name value : Str} (hname : '\n' ∉ name) (hvalue : '\n' ∉ value) (indent pad : Nat) :
    '\n' ∉ printLine indent pad name value := by
  have hblank : ∀ n, '\n' ∉ List.replicate n ' ' := by
    intro n h
    have := List.eq_of_mem_replicate h
    revert this
    decide
  simp only [printLine, List.mem_append, List.mem_cons, not_or]
  exact ⟨hblank _, hname, by decide, hblank _, hvalue⟩

theorem no_newline_lines
    {t : AvbTree} (ht : t.WellFormed) :
    ∀ line ∈ t.lines layout, '\n' ∉ line := by
  have hfields : ∀ {fields : List (Str × Str)} (indent : Nat), AreFields fields →
      ∀ line ∈ fieldLines layout indent fields, '\n' ∉ line := by
    intro fields indent h line hline
    obtain ⟨f, hf, rfl⟩ := List.mem_map.mp hline
    exact no_newline_printLine (h.isName f hf).no_newline (h.no_newline f hf) _ _
  intro line hline
  rw [AvbTree.lines, List.mem_append, List.mem_cons, List.mem_flatMap] at hline
  rcases hline with hline | rfl | ⟨d, hd, hline⟩
  · exact hfields _ ht.fields line hline
  · exact no_newline_printLine isName_descriptors.no_newline (by decide) _ _
  · have hwf := ht.descriptors d hd
    cases d with
    | block title fields =>
        rw [Descriptor.lines, List.mem_cons] at hline
        rcases hline with rfl | hline
        · exact no_newline_printLine hwf.1.no_newline (by decide) _ _
        · exact hfields _ hwf.2 line hline
    | prop key value =>
        rw [Descriptor.lines, List.mem_singleton] at hline
        subst hline
        refine no_newline_printLine isName_prop.no_newline ?_ _ _
        have hkey : '\n' ∉ key := by
          intro h
          have := hwf.1 _ h
          revert this
          decide
        simp only [propText, List.mem_append, List.mem_cons, not_or]
        exact ⟨hkey, by decide, by decide, by decide, by decide, by decide, hwf.2, by decide,
          by decide⟩

theorem parseAvbInfo_print
    {t : AvbTree} (ht : t.WellFormed) :
    parseAvbInfo (t.print layout) = t.parsed := by
  have houter : (0 : Int) ≤ layout.outer := Int.natCast_nonneg _
  have hlt : (layout.outer : Int) < layout.descriptor := Int.ofNat_lt.mpr layout.outer_lt
  have hinit : Settled layout.outer initStack initStack.1 initStack.2 :=
    settled_self (by change (-1 : Int) < layout.outer; omega) _
  rw [parseAvbInfo, AvbTree.print, partsFrom_flatMap (no_newline_lines layout ht), AvbTree.lines,
    AvbTree.parsed, List.append_assoc, List.foldlM_append]
  have hfields := foldlM_fieldLines layout ht.fields.isName ht.fields.nodup hinit rfl (by simp)
  cases hentries : t.fields.mapM parsedField with
  | error e =>
      rw [hentries] at hfields
      rw [show (fieldLines layout layout.outer t.fields).foldlM parseAvbLine initStack =
        .error e from hfields]
      rfl
  | ok entries =>
      rw [hentries] at hfields
      obtain ⟨stack, hrun, ⟨hlt', hsettle⟩, hkeys⟩ := hfields
      rw [List.nil_append] at hsettle
      -- the line of the descriptors
      have hline : parseAvbLine stack
          (printLine layout.outer (layout.pad "Descriptors".toList) "Descriptors".toList []) =
            .ok (⟨layout.outer, "Descriptors".toList, .list []⟩,
              [{ initStack.1 with container := .dict entries }]) := by
        rw [parseAvbLine, matchLine_printLine isName_descriptors]
        dsimp only
        rw [hsettle]
        rfl
      have hlist : Settled layout.descriptor
          ((⟨layout.outer, "Descriptors".toList, .list []⟩,
            [{ initStack.1 with container := .dict entries }]) : Frame × List Frame)
          ⟨layout.outer, "Descriptors".toList, .list []⟩
          [{ initStack.1 with container := .dict entries }] :=
        settled_self hlt _
      have hdescriptors := foldlM_descriptors layout ht.descriptors hlist rfl
      rw [hrun, List.cons_append]
      change Except.map _ ((_ :: _).foldlM parseAvbLine stack) = _
      rw [List.foldlM_cons, hline]
      change Except.map _ ((t.descriptors.flatMap (Descriptor.lines layout) ++ [[]]).foldlM
        parseAvbLine _) = _
      rw [List.foldlM_append]
      cases hitems : t.descriptors.mapM parsedDescriptor with
      | error e =>
          rw [hitems] at hdescriptors
          rw [show (t.descriptors.flatMap (Descriptor.lines layout)).foldlM parseAvbLine _ =
            .error e from hdescriptors]
          rfl
      | ok items =>
          rw [hitems] at hdescriptors
          obtain ⟨stack', hrun', _, hsettle'⟩ := hdescriptors
          have hfresh : "Descriptors".toList ∉ entries.map Prod.fst := by
            rw [hkeys]
            exact ht.no_descriptors
          have hput : ({ initStack.1 with container := .dict entries } : Frame).put
                ⟨layout.outer, "Descriptors".toList, .list items⟩ =
              { initStack.1 with
                container := .dict (entries ++ [("Descriptors".toList, .list items)]) } :=
            put_dict rfl hfresh
          have hfinal : settle 0 stack'.1 stack'.2 =
              ({ initStack.1 with
                container := .dict (entries ++ [("Descriptors".toList, .list items)]) }, []) := by
            rw [← settle_settle (houter.trans hlt.le), hsettle', List.nil_append,
              settle_of_le houter, hput]
            rfl
          rw [hrun']
          change Except.ok (settle 0 stack'.1 stack'.2).1.container = _
          rw [hfinal]
          rfl

end Parsed

end SignTargetFilesApks
end AndroidBuild
