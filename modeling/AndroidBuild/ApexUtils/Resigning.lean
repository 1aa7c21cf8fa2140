import AndroidBuild.ApexUtils.PayloadInfo
import AndroidBuild.Lib.Strip

/-!
# The parameters of a payload that is signed again

A payload and the output of `avbtool info_image` about it, in any order and
between other lines.  What the program reads from the output is what its lines
show, with the property of the key taken from the last line that is read as
one.
-/

namespace AndroidBuild
namespace ApexUtils

open Text PyRepr

/-- No white space stands in front. -/
def Bare (text : Str) : Prop :=
  ∀ c, text.head? = some c → isSpace c = false

/-- The payload of an APEX: its algorithm, its hashtree descriptor and its properties. -/
structure Payload where
  algorithm : Str
  hashAlgorithm : Str
  salt : Str
  treeSize : Nat
  apexKey : Str
  properties : List (Str × Str)
  algorithm_bare : Bare algorithm
  hashAlgorithm_bare : Bare hashAlgorithm
  salt_hex : ∀ c ∈ salt, c ∈ "0123456789abcdefABCDEF".toList
  properties_ne : ∀ p ∈ properties, p.1 ≠ "apex.key".toList

/-- What one line of the output tells about a payload. -/
inductive Item where
  | algorithm (name : Str)
  | hashAlgorithm (name : Str)
  | salt (digits : Str)
  | treeSize (n : Nat)
  | property (key value : Str)

namespace Item

def label : Item → Str
  | algorithm _ => "Algorithm".toList
  | hashAlgorithm _ => "Hash Algorithm".toList
  | salt _ => "Salt".toList
  | treeSize _ => "Tree Size".toList
  | property _ _ => "Prop".toList

def shown (printable : Char → Bool) : Item → Str
  | algorithm name => name
  | hashAlgorithm name => name
  | salt digits => digits
  | treeSize n => Nat.toDigits 10 n ++ " bytes".toList
  | property key value => key ++ " -> ".toList ++ pyRepr printable value

end Item

section Output

variable (printable : Char → Bool)

/-- White space, the label, a colon, white space and what is shown. -/
def ShowsItem (item : Item) (line : Str) : Prop :=
  ∃ indent gap : Str, (∀ c ∈ indent, isSpace c = true) ∧ (∀ c ∈ gap, isSpace c = true) ∧
    line = indent ++ (item.label ++ ':' :: (gap ++ item.shown printable))

/-- A line that does not begin with one of the labels and a colon. -/
def IsOther (line : Str) : Prop :=
  ∀ key ∈ payloadKeys, ¬ key ++ [':'] <+: line.dropWhile isSpace

/-- Lines that show the items, in their order, between other lines. -/
inductive ShowsItems : List Item → List Str → Prop where
  | nil : ShowsItems [] []
  | other {items : List Item} {line : Str} {lines : List Str} :
      IsOther line → ShowsItems items lines → ShowsItems items (line :: lines)
  | item {item : Item} {items : List Item} {line : Str} {lines : List Str} :
      ShowsItem printable item line → ShowsItems items lines →
        ShowsItems (item :: items) (line :: lines)

def Payload.items (payload : Payload) : List Item :=
  [.algorithm payload.algorithm, .hashAlgorithm payload.hashAlgorithm, .salt payload.salt,
    .treeSize payload.treeSize, .property "apex.key".toList payload.apexKey] ++
    payload.properties.map fun p => .property p.1 p.2

/-- An output of `avbtool info_image` about the payload: its items in an order of their own. -/
structure IsOutput (payload : Payload) (items : List Item) (output : Str) : Prop where
  perm : items.Perm payload.items
  lines : ShowsItems printable items (partsFrom '\n' [] output)

end Output

section Lines

variable {printable : Char → Bool}

theorem dropWhile_blank_append
    {blank : Str} (h : ∀ c ∈ blank, isSpace c = true) (text : Str) :
    (blank ++ text).dropWhile isSpace = text.dropWhile isSpace :=
  List.dropWhile_append_of_pos h

theorem matchPayloadInfo_of_other
    {line : Str} (h : IsOther line) :
    matchPayloadInfo line = none := by
  rw [matchPayloadInfo, Option.map_eq_none_iff, List.find?_eq_none]
  intro key hkey hprefix
  exact h key hkey (List.isPrefixOf_iff_prefix.mp hprefix)

/-- The line of an item is read as its label and the text shown behind it. -/
theorem matchPayloadInfo_of_shows
    {item : Item} {line : Str} (h : ShowsItem printable item line) :
    matchPayloadInfo line = some (item.label, (item.shown printable).dropWhile isSpace) := by
  obtain ⟨indent, gap, hindent, hgap, rfl⟩ := h
  have hlabel (text : Str) : (indent ++ (item.label ++ ':' :: text)).dropWhile isSpace =
      item.label ++ ':' :: text := by
    rw [dropWhile_blank_append hindent]
    cases item <;> rfl
  have hfind (text : Str) :
      payloadKeys.find? (fun key => (key ++ [':']).isPrefixOf (item.label ++ ':' :: text)) =
        some item.label := by
    cases item <;> rfl
  have hdrop (text : Str) :
      (item.label ++ ':' :: text).drop (item.label.length + 1) = text := by
    rw [List.append_cons, List.drop_left' (by simp)]
  simp only [matchPayloadInfo]
  rw [hlabel, hfind, Option.map_some, hdrop, dropWhile_blank_append hgap]

theorem Bare.dropWhile_eq
    {text : Str} (h : Bare text) :
    text.dropWhile isSpace = text := by
  cases text with
  | nil => rfl
  | cons c text => rw [List.dropWhile_cons_of_neg (by simp [h c rfl])]

theorem bare_of_forall
    {text : Str} (h : ∀ c ∈ text, isSpace c = false) :
    Bare text :=
  fun c hc => h c (List.mem_of_mem_head? hc)

theorem Payload.salt_bare
    (payload : Payload) :
    Bare payload.salt := by
  have hhex : ∀ c ∈ "0123456789abcdefABCDEF".toList, isSpace c = false :=
    not_isSpace_of_all (by decide)
  exact bare_of_forall fun c hc => hhex c (payload.salt_hex c hc)

end Lines

section Reading

variable (printable : Char → Bool)

namespace Item

def text (item : Item) : Str :=
  (item.shown printable).dropWhile isSpace

/-- A property that can be taken apart, and everything that is no property. -/
def Readable : Item → Prop
  | property key value => (matchProperty ((property key value).text printable)).isSome = true
  | _ => True

/-- What is read from an item as the property of the key. -/
def apexKey? : Item → Option Str
  | property key value =>
      (matchProperty ((property key value).text printable)).bind fun parts =>
        if parts.1 = "apex.key".toList then some (stripQuotes parts.2) else none
  | _ => none

def stored? : Item → Option (Str × Str)
  | property key value =>
      ((property key value).apexKey? printable).map fun name => ("apex.key".toList, name)
  | item => some (item.label, item.text printable)

def store (payload_info : OrderedDict Str Str) (item : Item) : OrderedDict Str Str :=
  match item.stored? printable with
  | some e => payload_info.set e.1 e.2
  | none => payload_info

def valueOf (key : Str) (item : Item) : Option Str :=
  (item.stored? printable).bind fun e => if e.1 = key then some e.2 else none

end Item

variable {printable}

theorem readPayloadLine_property
    {line value : Str} (h : matchPayloadInfo line = some ("Prop".toList, value))
    {parts : Str × Str} (hparts : matchProperty value = some parts)
    (payload_info : OrderedDict Str Str) :
    readPayloadLine payload_info line =
      .ok (if parts.1 = "apex.key".toList then
        payload_info.set "apex.key".toList (stripQuotes parts.2) else payload_info) := by
  unfold readPayloadLine
  rw [h]
  simp only
  rw [if_pos trivial, hparts]
  simp only
  by_cases hkey : parts.1 = "apex.key".toList
  · rw [if_pos hkey, if_pos hkey, hkey]
  · rw [if_neg hkey, if_neg hkey]

theorem readPayloadLine_property_error
    {line value : Str} (h : matchPayloadInfo line = some ("Prop".toList, value))
    (hparts : matchProperty value = none) (payload_info : OrderedDict Str Str) :
    ∃ e, readPayloadLine payload_info line = .error e := by
  unfold readPayloadLine
  rw [h]
  simp only
  rw [if_pos trivial, hparts]
  exact ⟨_, rfl⟩

theorem readPayloadLine_field
    {line key value : Str} (h : matchPayloadInfo line = some (key, value))
    (hkey : key ≠ "Prop".toList) (payload_info : OrderedDict Str Str) :
    readPayloadLine payload_info line = .ok (payload_info.set key value) := by
  unfold readPayloadLine
  rw [h]
  simp only
  rw [if_neg hkey]

theorem fieldLabels_ne :
    ("Algorithm".toList ≠ "Prop".toList ∧ "Hash Algorithm".toList ≠ "Prop".toList) ∧
      "Salt".toList ≠ "Prop".toList ∧ "Tree Size".toList ≠ "Prop".toList := by
  decide

theorem readPayloadLine_of_readable
    {item : Item} {line : Str} (h : ShowsItem printable item line)
    (hread : item.Readable printable) (payload_info : OrderedDict Str Str) :
    readPayloadLine payload_info line = .ok (item.store printable payload_info) := by
  have hmatch := matchPayloadInfo_of_shows h
  cases item with
  | property key value =>
      obtain ⟨parts, hparts⟩ := Option.isSome_iff_exists.mp hread
      rw [readPayloadLine_property hmatch hparts, Item.store, Item.stored?, Item.apexKey?, hparts,
        Option.bind_some]
      by_cases hkey : parts.1 = "apex.key".toList
      · rw [if_pos hkey, if_pos hkey, Option.map_some]
      · rw [if_neg hkey, if_neg hkey, Option.map_none]
  | algorithm => exact readPayloadLine_field hmatch fieldLabels_ne.1.1 payload_info
  | hashAlgorithm => exact readPayloadLine_field hmatch fieldLabels_ne.1.2 payload_info
  | salt => exact readPayloadLine_field hmatch fieldLabels_ne.2.1 payload_info
  | treeSize => exact readPayloadLine_field hmatch fieldLabels_ne.2.2 payload_info

theorem readPayloadLine_of_not_readable
    {item : Item} {line : Str} (h : ShowsItem printable item line)
    (hread : ¬ item.Readable printable) (payload_info : OrderedDict Str Str) :
    ∃ e, readPayloadLine payload_info line = .error e := by
  cases item with
  | property key value =>
      exact readPayloadLine_property_error (matchPayloadInfo_of_shows h)
        (Option.not_isSome_iff_eq_none.mp hread) payload_info
  | _ => exact absurd trivial hread

theorem readPayloadLine_of_other
    {line : Str} (h : IsOther line) (payload_info : OrderedDict Str Str) :
    readPayloadLine payload_info line = .ok payload_info := by
  unfold readPayloadLine
  rw [matchPayloadInfo_of_other h]

/-- The loop over the lines stores the items one after another. -/
theorem foldlM_readPayloadLine
    {items : List Item} {lines : List Str} (h : ShowsItems printable items lines)
    (hread : ∀ item ∈ items, item.Readable printable) (payload_info : OrderedDict Str Str) :
    lines.foldlM readPayloadLine payload_info =
      .ok (items.foldl (fun d item => item.store printable d) payload_info) := by
  induction h generalizing payload_info with
  | nil => rfl
  | other hline _ ih =>
      rw [List.foldlM_cons, readPayloadLine_of_other hline]
      exact ih hread payload_info
  | item hline _ ih =>
      rw [List.foldlM_cons, readPayloadLine_of_readable hline (hread _ List.mem_cons_self)]
      exact ih (fun i hi => hread i (List.mem_cons_of_mem _ hi)) _

/-- A property that cannot be taken apart ends the loop. -/
theorem foldlM_readPayloadLine_error
    {items : List Item} {lines : List Str} (h : ShowsItems printable items lines)
    (hread : ∃ item ∈ items, ¬ item.Readable printable) (payload_info : OrderedDict Str Str) :
    ∃ e, lines.foldlM readPayloadLine payload_info = .error e := by
  induction h generalizing payload_info with
  | nil =>
      obtain ⟨item, hitem, _⟩ := hread
      exact absurd hitem List.not_mem_nil
  | other hline _ ih =>
      rw [List.foldlM_cons, readPayloadLine_of_other hline]
      exact ih hread payload_info
  | @item item items line lines hline _ ih =>
      rw [List.foldlM_cons]
      by_cases hitem : item.Readable printable
      · rw [readPayloadLine_of_readable hline hitem]
        refine ih ?_ _
        obtain ⟨i, hi, hnot⟩ := hread
        rcases List.mem_cons.mp hi with rfl | hi
        · exact absurd hitem hnot
        · exact ⟨i, hi, hnot⟩
      · obtain ⟨e, he⟩ := readPayloadLine_of_not_readable hline hitem payload_info
        rw [he]
        exact ⟨e, rfl⟩

theorem get?_store
    (item : Item) (payload_info : OrderedDict Str Str) (key : Str) :
    (item.store printable payload_info).get? key =
      (item.valueOf printable key).or (payload_info.get? key) := by
  unfold Item.store Item.valueOf
  cases item.stored? printable with
  | none => rfl
  | some e =>
      simp only [OrderedDict.get?_set, Option.bind_some]
      by_cases hkey : e.1 = key
      · rw [if_pos hkey.symm, if_pos hkey, Option.some_or]
      · rw [if_neg (Ne.symm hkey), if_neg hkey, Option.none_or]

theorem get?_foldl_store
    (items : List Item) (payload_info : OrderedDict Str Str) (key : Str) :
    (items.foldl (fun d item => item.store printable d) payload_info).get? key =
      ((items.filterMap (Item.valueOf printable key)).getLast?).or (payload_info.get? key) := by
  induction items generalizing payload_info with
  | nil => rfl
  | cons item items ih =>
      rw [List.foldl_cons, ih, get?_store, List.filterMap_cons]
      cases hvalue : item.valueOf printable key with
      | none => rw [Option.none_or]
      | some value =>
          rw [Option.some_or, List.getLast?_cons]
          cases (items.filterMap (Item.valueOf printable key)).getLast? <;> rfl

end Reading

section Found

variable {printable : Char → Bool} {payload : Payload} {items : List Item} {output : Str}

theorem valueOf_of_stored
    {item : Item} {label value : Str} (h : item.stored? printable = some (label, value))
    (key : Str) :
    item.valueOf printable key = if label = key then some value else none := by
  rw [Item.valueOf, h, Option.bind_some]

theorem stored?_property
    {name value found : Str} (h : (Item.property name value).apexKey? printable = some found) :
    (Item.property name value).stored? printable = some ("apex.key".toList, found) := by
  rw [Item.stored?, h, Option.map_some]

theorem valueOf_property
    {key : Str} (hkey : key ≠ "apex.key".toList) (name value : Str) :
    (Item.property name value).valueOf printable key = none := by
  cases hfound : (Item.property name value).apexKey? printable with
  | none => rw [Item.valueOf, Item.stored?, hfound, Option.map_none, Option.bind_none]
  | some found => rw [valueOf_of_stored (stored?_property hfound), if_neg hkey.symm]

theorem fieldLabels_ne_apexKey :
    ("Algorithm".toList ≠ "apex.key".toList ∧ "Hash Algorithm".toList ≠ "apex.key".toList) ∧
      "Salt".toList ≠ "apex.key".toList ∧ "Tree Size".toList ≠ "apex.key".toList := by
  decide

theorem valueOf_apexKey
    (item : Item) :
    item.valueOf printable "apex.key".toList = item.apexKey? printable := by
  cases item with
  | property name value =>
      cases hfound : (Item.property name value).apexKey? printable with
      | none => rw [Item.valueOf, Item.stored?, hfound, Option.map_none, Option.bind_none]
      | some found =>
          rw [valueOf_of_stored (stored?_property hfound)]
          exact if_pos rfl
  | algorithm =>
      rw [valueOf_of_stored rfl]
      exact if_neg fieldLabels_ne_apexKey.1.1
  | hashAlgorithm =>
      rw [valueOf_of_stored rfl]
      exact if_neg fieldLabels_ne_apexKey.1.2
  | salt =>
      rw [valueOf_of_stored rfl]
      exact if_neg fieldLabels_ne_apexKey.2.1
  | treeSize =>
      rw [valueOf_of_stored rfl]
      exact if_neg fieldLabels_ne_apexKey.2.2

theorem filterMap_valueOf
    (h : items.Perm payload.items) {key : Str} (hkey : key ≠ "apex.key".toList) {value : Str}
    (hvalue : [Item.algorithm payload.algorithm, .hashAlgorithm payload.hashAlgorithm,
      .salt payload.salt, .treeSize payload.treeSize].filterMap
        (Item.valueOf printable key) = [value]) :
    items.filterMap (Item.valueOf printable key) = [value] := by
  have hproperties : (Item.property "apex.key".toList payload.apexKey ::
      payload.properties.map fun p => Item.property p.1 p.2).filterMap
        (Item.valueOf printable key) = [] := by
    rw [List.filterMap_eq_nil_iff]
    intro item hitem
    rcases List.mem_cons.mp hitem with rfl | hitem
    · exact valueOf_property hkey _ _
    · obtain ⟨p, _, rfl⟩ := List.mem_map.mp hitem
      exact valueOf_property hkey _ _
  have hall : payload.items.filterMap (Item.valueOf printable key) = [value] := by
    rw [← List.append_nil [value], ← hvalue, ← hproperties, ← List.filterMap_append]
    rfl
  have hperm := h.filterMap (Item.valueOf printable key)
  rw [hall] at hperm
  exact List.perm_singleton.mp hperm

def storedItems (printable : Char → Bool) (items : List Item) : OrderedDict Str Str :=
  items.foldl (fun d item => item.store printable d) OrderedDict.empty

theorem get?_storedItems
    (key : Str) :
    (storedItems printable items).get? key =
      (items.filterMap (Item.valueOf printable key)).getLast? := by
  rw [storedItems, get?_foldl_store]
  exact Option.or_none

theorem get?_algorithm
    (h : items.Perm payload.items) :
    (storedItems printable items).get? "Algorithm".toList = some payload.algorithm := by
  rw [get?_storedItems, filterMap_valueOf h (by decide) rfl, List.getLast?_singleton]
  exact congrArg some payload.algorithm_bare.dropWhile_eq

theorem get?_hashAlgorithm
    (h : items.Perm payload.items) :
    (storedItems printable items).get? "Hash Algorithm".toList = some payload.hashAlgorithm := by
  rw [get?_storedItems, filterMap_valueOf h (by decide) rfl, List.getLast?_singleton]
  exact congrArg some payload.hashAlgorithm_bare.dropWhile_eq

theorem get?_salt
    (h : items.Perm payload.items) :
    (storedItems printable items).get? "Salt".toList = some payload.salt := by
  rw [get?_storedItems, filterMap_valueOf h (by decide) rfl, List.getLast?_singleton]
  exact congrArg some payload.salt_bare.dropWhile_eq

theorem hasNoTree_storedItems
    (h : items.Perm payload.items) :
    hasNoTree (storedItems printable items) = false := by
  rw [hasNoTree, get?_storedItems, filterMap_valueOf h (by decide) rfl, List.getLast?_singleton]

/-- The name that the program takes for the key: that of the last line read as the property. -/
def lastApexKey (printable : Char → Bool) (items : List Item) : Option Str :=
  (items.filterMap (Item.apexKey? printable)).getLast?

theorem get?_apexKey :
    (storedItems printable items).get? "apex.key".toList = lastApexKey printable items := by
  rw [get?_storedItems, lastApexKey, List.filterMap_congr fun item _ => valueOf_apexKey item]

theorem splitArrow_append
    {front : Str} (h : ∀ c ∈ front, isSpace c = false) (rest : Str) :
    splitArrow (front ++ " ->".toList ++ rest) = some (front, rest) := by
  induction front with
  | nil => rfl
  | cons c front ih =>
      rw [List.forall_mem_cons] at h
      rw [List.cons_append, List.cons_append, splitArrow, h.1, Bool.false_and,
        if_neg Bool.false_ne_true, ih h.2, Option.map_some]

/-- A property under a name without white space is read as it is printed. -/
theorem matchProperty_text
    {name : Str} (h : ∀ c ∈ name, isSpace c = false) (hne : name ≠ []) (value : Str) :
    matchProperty ((Item.property name value).text printable) =
      some (name, pyRepr printable value) := by
  have hshown : (Item.property name value).shown printable =
      name ++ " ->".toList ++ (' ' :: pyRepr printable value) := by
    simp [Item.shown]
  have hbare : Bare (name ++ " ->".toList ++ (' ' :: pyRepr printable value)) := by
    cases name with
    | nil => exact absurd rfl hne
    | cons c name =>
        intro d hd
        rw [List.cons_append, List.cons_append, List.head?_cons, Option.some.injEq] at hd
        exact hd ▸ h c List.mem_cons_self
  have hquote : isSpace (quoteOf value) = false := by
    unfold quoteOf
    split <;> rfl
  rw [Item.text, hshown, hbare.dropWhile_eq, matchProperty, splitArrow_append h, Option.map_some,
    List.dropWhile_cons_of_pos rfl, pyRepr, List.dropWhile_cons_of_neg (by simp [hquote])]

theorem apexKey_chars :
    ∀ c ∈ "apex.key".toList, isSpace c = false :=
  not_isSpace_of_all (by decide)

theorem apexKey?_property
    (value : Str) :
    (Item.property "apex.key".toList value).apexKey? printable =
      some (stripQuotes (pyRepr printable value)) := by
  rw [Item.apexKey?, matchProperty_text apexKey_chars (by decide), Option.bind_some]
  exact if_pos rfl

theorem exists_lastApexKey
    (h : items.Perm payload.items) :
    ∃ name, lastApexKey printable items = some name := by
  have hmem : Item.property "apex.key".toList payload.apexKey ∈ items := by
    rw [h.mem_iff]
    simp [Payload.items]
  have hread : stripQuotes (pyRepr printable payload.apexKey) ∈
      items.filterMap (Item.apexKey? printable) :=
    List.mem_filterMap.mpr ⟨_, hmem, apexKey?_property _⟩
  exact ⟨_, List.getLast?_eq_some_getLast (List.ne_nil_of_mem hread)⟩

end Found

section Invocation

/-- A call of `avbtool add_hashtree_footer`. -/
def isFooterCommand (cmd : List Str) : Bool :=
  cmd[1]? = some "add_hashtree_footer".toList

/-- The footer with the parameters of the payload, without a hashtree exactly if it has none. -/
def footerOf (payload : Payload) (avbtool payload_file payload_key : Str) (words : List Str) :
    List Str :=
  [avbtool, "add_hashtree_footer".toList,
    "--do_not_generate_fec".toList,
    "--algorithm".toList, payload.algorithm,
    "--key".toList, payload_key,
    "--prop".toList, "apex.key:".toList ++ payload.apexKey,
    "--image".toList, payload_file,
    "--salt".toList, payload.salt,
    "--hash_algorithm".toList, payload.hashAlgorithm] ++
  (if payload.treeSize = 0 then ["--no_hashtree".toList] else []) ++ words

/-- An APEX whose payload can be signed again: its files can be processed, and `avbtool` tells
about the payload that is taken out of it. -/
structure Resigned (printable : Char → Bool) (tools : Tools) (avbtool apex_file payload_key : Str)
    (signing_args : Option Str) (payload : Payload) where
  processed : Str
  payload_file : Str
  output : Str
  items : List Item
  processApexFile : tools.processApexFile apex_file payload_key signing_args = .ok processed
  extractPayload : tools.extractPayload processed = .ok payload_file
  pathExists : tools.pathExists payload_file = true
  info : tools.runAndCheckOutput
    [avbtool, "info_image".toList, "--image".toList, payload_file] = .ok output
  isOutput : IsOutput printable payload items output

/-- The only footer that is added has the parameters of the payload, and behind them the
arguments for the signer. -/
def KeepsParameters (payload : Payload) (avbtool payload_file payload_key : Str)
    (signing_args : Option Str) (commands : List (List Str)) : Prop :=
  ∃ words, signingWords signing_args = .ok words ∧
    commands.filter isFooterCommand = [footerOf payload avbtool payload_file payload_key words]

variable {printable : Char → Bool} {tools : Tools} {avbtool apex_file payload_key : Str}
variable {signing_args : Option Str} {payload : Payload}

theorem parseApexPayloadInfo_of_output
    {payload_file output : Str} (hexists : tools.pathExists payload_file = true)
    (hinfo : tools.runAndCheckOutput
      [avbtool, "info_image".toList, "--image".toList, payload_file] = .ok output) :
    parseApexPayloadInfo tools avbtool payload_file =
      ⟨[[avbtool, "info_image".toList, "--image".toList, payload_file]],
        readPayloadInfo payload_file output⟩ := by
  rw [parseApexPayloadInfo, if_pos hexists, runCommand, hinfo, Except.mapError,
    Outcome.mk_ok_bind]
  rfl

theorem readPayloadInfo_of_readable
    {items : List Item} {output : Str} (h : IsOutput printable payload items output)
    (hread : ∀ item ∈ items, item.Readable printable) (payload_file : Str) :
    readPayloadInfo payload_file output = .ok (storedItems printable items) := by
  have hfound : requiredKeys.find?
      (fun key => ((storedItems printable items).get? key).isNone) = none := by
    have hlast : ∃ name, lastApexKey printable items = some name := exists_lastApexKey h.perm
    obtain ⟨name, hname⟩ := hlast
    simp only [requiredKeys, List.find?_eq_none, List.forall_mem_cons, get?_algorithm h.perm,
      get?_salt h.perm, get?_hashAlgorithm h.perm, get?_apexKey, hname, Option.isNone_some]
    simp
  rw [readPayloadInfo, foldlM_readPayloadLine h.lines hread]
  change validatePayloadInfo payload_file (storedItems printable items) = _
  rw [validatePayloadInfo, hfound]

theorem readPayloadInfo_of_not_readable
    {items : List Item} {output : Str} (h : IsOutput printable payload items output)
    (hread : ∃ item ∈ items, ¬ item.Readable printable) (payload_file : Str) :
    ∃ e, readPayloadInfo payload_file output = .error e := by
  obtain ⟨e, he⟩ := foldlM_readPayloadLine_error h.lines hread OrderedDict.empty
  rw [readPayloadInfo, he]
  exact ⟨e, rfl⟩

theorem footers_verifyApexPayload
    (payload_file payload_key : Str) (no_hashtree : Bool) :
    (verifyApexPayload tools avbtool payload_file payload_key no_hashtree).commands.filter
      isFooterCommand = [] := by
  have hcommand (tail : List Str) :
      isFooterCommand ([avbtool, "verify_image".toList, "--image".toList, payload_file,
        "--key".toList, payload_key] ++ tail) = false := by
    have hne : some "verify_image".toList ≠ some "add_hashtree_footer".toList := by decide
    exact decide_eq_false hne
  unfold verifyApexPayload runCommand
  cases tools.runAndCheckOutput _ with
  | ok output =>
      rw [Except.mapError, Outcome.mk_ok_bind]
      exact List.filter_cons_of_neg (by rw [hcommand]; exact Bool.false_ne_true)
  | error e =>
      rw [Except.mapError, Outcome.mk_error_bind]
      exact List.filter_cons_of_neg (by rw [hcommand]; exact Bool.false_ne_true)

/-- The footer is added as soon as the arguments for the signer can be split. -/
theorem footers_signApexPayload
    (payload_file payload_key name algorithm salt hash_algorithm : Str) (no_hashtree : Bool) :
    (signApexPayload tools avbtool payload_file payload_key name algorithm salt hash_algorithm
        no_hashtree signing_args).commands.filter isFooterCommand =
      match signingWords signing_args with
      | .ok words =>
          [[avbtool, "add_hashtree_footer".toList,
            "--do_not_generate_fec".toList,
            "--algorithm".toList, algorithm,
            "--key".toList, payload_key,
            "--prop".toList, "apex.key:".toList ++ name,
            "--image".toList, payload_file,
            "--salt".toList, salt,
            "--hash_algorithm".toList, hash_algorithm] ++
          (if no_hashtree then ["--no_hashtree".toList] else []) ++ words]
      | .error _ => [] := by
  unfold signApexPayload
  cases signingWords signing_args with
  | error e => rfl
  | ok words =>
      have hflag (cmd : List Str) :
          (if no_hashtree then cmd ++ ["--no_hashtree".toList] else cmd) =
            cmd ++ if no_hashtree then ["--no_hashtree".toList] else [] := by
        cases no_hashtree with
        | false => exact (List.append_nil cmd).symm
        | true => rfl
      simp only [Outcome.ofExcept_ok_bind, hflag, runCommand]
      cases tools.runAndCheckOutput _ with
      | ok output =>
          rw [Except.mapError, Outcome.mk_ok_bind, List.filter_append,
            footers_verifyApexPayload, List.append_nil]
          rfl
      | error e => rfl

theorem lookupKey_of_get?
    {payload_info : OrderedDict Str Str} {key value : Str}
    (h : payload_info.get? key = some value) :
    lookupKey payload_info key = .ofExcept (.ok value) := by
  rw [lookupKey, h]
  rfl

theorem footers_of_not_readable
    (apex : Resigned printable tools avbtool apex_file payload_key signing_args payload)
    (hread : ∃ item ∈ apex.items, ¬ item.Readable printable) :
    (signUncompressedApex tools avbtool apex_file payload_key none
      signing_args).commands.filter isFooterCommand = [] := by
  obtain ⟨e, he⟩ := readPayloadInfo_of_not_readable apex.isOutput hread apex.payload_file
  simp only [signUncompressedApex, apex.processApexFile, apex.extractPayload,
    Outcome.ofExcept_ok_bind, parseApexPayloadInfo_of_output apex.pathExists apex.info, he,
    Outcome.mk_error_bind]
  rfl

/-- The footer of a run whose output can be read.  The tree size that is found there is not the
number 0, whatever it is. -/
theorem footers_of_readable
    (apex : Resigned printable tools avbtool apex_file payload_key signing_args payload)
    (hread : ∀ item ∈ apex.items, item.Readable printable)
    {name : Str} (hname : lastApexKey printable apex.items = some name) :
    (signUncompressedApex tools avbtool apex_file payload_key none
        signing_args).commands.filter isFooterCommand =
      match signingWords signing_args with
      | .ok words =>
          [[avbtool, "add_hashtree_footer".toList,
            "--do_not_generate_fec".toList,
            "--algorithm".toList, payload.algorithm,
            "--key".toList, payload_key,
            "--prop".toList, "apex.key:".toList ++ name,
            "--image".toList, apex.payload_file,
            "--salt".toList, payload.salt,
            "--hash_algorithm".toList, payload.hashAlgorithm] ++ words]
      | .error _ => [] := by
  have hperm := apex.isOutput.perm
  simp only [signUncompressedApex, apex.processApexFile, apex.extractPayload,
    Outcome.ofExcept_ok_bind, parseApexPayloadInfo_of_output apex.pathExists apex.info,
    readPayloadInfo_of_readable apex.isOutput hread, Outcome.mk_ok_bind, Option.getD_none,
    hasNoTree_storedItems hperm, lookupKey_of_get? (get?_algorithm hperm),
    lookupKey_of_get? (get?_salt hperm), lookupKey_of_get? (get?_hashAlgorithm hperm),
    lookupKey_of_get? (get?_apexKey.trans hname)]
  rw [List.filter_append, Outcome.commands_bind_ofExcept, footers_signApexPayload,
    List.filter_cons_of_neg (by simp [isFooterCommand]), List.filter_nil, List.nil_append]
  cases signingWords signing_args with
  | error e => rfl
  | ok words => rfl

/-- The footer is the payload's own if the name is and the payload has a hashtree. -/
theorem footer_eq_iff
    {payload_file name : Str} {words : List Str} :
    [avbtool, "add_hashtree_footer".toList,
      "--do_not_generate_fec".toList,
      "--algorithm".toList, payload.algorithm,
      "--key".toList, payload_key,
      "--prop".toList, "apex.key:".toList ++ name,
      "--image".toList, payload_file,
      "--salt".toList, payload.salt,
      "--hash_algorithm".toList, payload.hashAlgorithm] ++ words =
        footerOf payload avbtool payload_file payload_key words ↔
      payload.treeSize ≠ 0 ∧ name = payload.apexKey := by
  rw [footerOf]
  by_cases hn : payload.treeSize = 0
  · rw [if_pos hn]
    refine ⟨fun heq => ?_, fun h => absurd hn h.1⟩
    have hlength := congrArg List.length heq
    simp only [List.length_append, List.length_cons, List.length_nil] at hlength
    omega
  · rw [if_neg hn, List.append_nil, List.append_cancel_right_eq]
    constructor
    · intro heq
      simp only [List.cons.injEq, List.append_cancel_left_eq] at heq
      exact ⟨hn, heq.2.2.2.2.2.2.2.2.1⟩
    · rintro ⟨_, rfl⟩
      rfl

/-- A property whose name is neither empty nor has white space in it. -/
def PlainNames (payload : Payload) : Prop :=
  ∀ p ∈ payload.properties, p.1 ≠ [] ∧ ∀ c ∈ p.1, isSpace c = false

theorem readable_of_plainNames
    {items : List Item} (h : items.Perm payload.items) (hplain : PlainNames payload) :
    ∀ item ∈ items, item.Readable printable := by
  intro item hitem
  rw [h.mem_iff, Payload.items, List.mem_append, List.mem_map] at hitem
  rcases hitem with hown | ⟨p, hp, rfl⟩
  · simp only [List.mem_cons, List.not_mem_nil, or_false] at hown
    rcases hown with rfl | rfl | rfl | rfl | rfl
    · trivial
    · trivial
    · trivial
    · trivial
    · rw [Item.Readable, matchProperty_text apexKey_chars (by decide), Option.isSome_some]
  · rw [Item.Readable, matchProperty_text (hplain p hp).2 (hplain p hp).1, Option.isSome_some]

/-- With plain names the only line read as the property of the key is its own. -/
theorem lastApexKey_of_plainNames
    {items : List Item} (h : items.Perm payload.items) (hplain : PlainNames payload) :
    lastApexKey printable items = some (stripQuotes (pyRepr printable payload.apexKey)) := by
  have hothers : (payload.properties.map fun p => Item.property p.1 p.2).filterMap
      (Item.apexKey? printable) = [] := by
    rw [List.filterMap_eq_nil_iff]
    intro item hitem
    obtain ⟨p, hp, rfl⟩ := List.mem_map.mp hitem
    rw [Item.apexKey?, matchProperty_text (hplain p hp).2 (hplain p hp).1, Option.bind_some]
    exact if_neg (payload.properties_ne p hp)
  have hown : (Item.property "apex.key".toList payload.apexKey).apexKey? printable =
      some (stripQuotes (pyRepr printable payload.apexKey)) := apexKey?_property _
  have hall : payload.items.filterMap (Item.apexKey? printable) =
      [stripQuotes (pyRepr printable payload.apexKey)] := by
    rw [Payload.items, List.filterMap_append, hothers, List.append_nil,
      List.filterMap_cons_none rfl, List.filterMap_cons_none rfl, List.filterMap_cons_none rfl,
      List.filterMap_cons_none rfl, List.filterMap_cons_some hown, List.filterMap_nil]
  have hperm := h.filterMap (Item.apexKey? printable)
  rw [hall] at hperm
  rw [lastApexKey, List.perm_singleton.mp hperm, List.getLast?_singleton]

/-- The parameters are kept exactly if the payload has a hashtree, the arguments for the signer
can be split, every property can be taken apart, and the last line that is read as the property
of the key gives its value. -/
theorem keepsParameters_iff_read
    (apex : Resigned printable tools avbtool apex_file payload_key signing_args payload) :
    KeepsParameters payload avbtool apex.payload_file payload_key signing_args
        (signUncompressedApex tools avbtool apex_file payload_key none signing_args).commands ↔
      payload.treeSize ≠ 0 ∧ (∃ words, signingWords signing_args = .ok words) ∧
        (∀ item ∈ apex.items, item.Readable printable) ∧
        lastApexKey printable apex.items = some payload.apexKey := by
  by_cases hread : ∀ item ∈ apex.items, item.Readable printable
  · have hlast : ∃ name, lastApexKey printable apex.items = some name :=
      exists_lastApexKey apex.isOutput.perm
    obtain ⟨name, hname⟩ := hlast
    rw [KeepsParameters, footers_of_readable apex hread hname, hname, Option.some.injEq]
    cases hwords : signingWords signing_args with
    | error e => simp
    | ok words =>
        simp only [Except.ok.injEq, exists_eq_left', List.cons.injEq, and_true, footer_eq_iff,
          exists_eq', true_and]
        exact ⟨fun h => ⟨h.1, hread, h.2⟩, fun h => ⟨h.1, h.2.2⟩⟩
  · constructor
    · rintro ⟨words, _, hfooters⟩
      push Not at hread
      rw [footers_of_not_readable apex hread] at hfooters
      exact absurd hfooters (List.cons_ne_nil _ _).symm
    · exact fun h => absurd h.2.2.1 hread

/-- When the parameters are kept.  Under plain names of the other properties the conditions on
what is read say that the value of the key is a plain text. -/
theorem keepsParameters_iff
    (apex : Resigned printable tools avbtool apex_file payload_key signing_args payload) :
    (KeepsParameters payload avbtool apex.payload_file payload_key signing_args
        (signUncompressedApex tools avbtool apex_file payload_key none signing_args).commands ↔
      payload.treeSize ≠ 0 ∧ (∃ words, signingWords signing_args = .ok words) ∧
        (∀ item ∈ apex.items, item.Readable printable) ∧
        lastApexKey printable apex.items = some payload.apexKey) ∧
    (PlainNames payload →
      (((∀ item ∈ apex.items, item.Readable printable) ∧
          lastApexKey printable apex.items = some payload.apexKey) ↔
        Plain printable payload.apexKey)) := by
  refine ⟨keepsParameters_iff_read apex, fun hplain => ?_⟩
  rw [lastApexKey_of_plainNames apex.isOutput.perm hplain, Option.some.injEq,
    stripQuotes_pyRepr_iff]
  exact and_iff_right (readable_of_plainNames apex.isOutput.perm hplain)

end Invocation

section Sample

/-- A payload with a hashtree of the given size and a property of its own. -/
def samplePayload (n : Nat) : Payload where
  algorithm := "SHA256_RSA4096".toList
  hashAlgorithm := "sha256".toList
  salt := "5a17".toList
  treeSize := n
  apexKey := "com.android.runtime".toList
  properties := [("com.android.build".toList, "userdebug".toList)]
  algorithm_bare := bare_of_forall (not_isSpace_of_all (by decide))
  hashAlgorithm_bare := bare_of_forall (not_isSpace_of_all (by decide))
  salt_hex := by simp
  properties_ne := by decide

def sampleLines (n : Nat) : List Str :=
  (samplePayload n).items.map fun item =>
    item.label ++ ':' :: (" ".toList ++ item.shown fun _ => true)

def sampleOutput (n : Nat) : Str :=
  ['\n'].intercalate (sampleLines n)

def sampleTools (n : Nat) : Tools where
  processApexFile := fun apex_file _ _ => .ok apex_file
  extractPayload := fun _ => .ok "apex_payload.img".toList
  pathExists := fun _ => true
  runAndCheckOutput := fun _ => .ok (sampleOutput n)
  signContainer := fun apex_file _ => .ok apex_file

theorem isOutput_sample
    {n : Nat} (hlines : partsFrom '\n' [] (sampleOutput n) = sampleLines n) :
    IsOutput (fun _ => true) (samplePayload n) (samplePayload n).items (sampleOutput n) := by
  refine ⟨.refl _, ?_⟩
  rw [hlines, sampleLines]
  generalize (samplePayload n).items = items
  induction items with
  | nil => exact .nil
  | cons item items ih =>
      refine .item ⟨[], " ".toList, by simp, fun c hc => ?_, ?_⟩ ih
      · rw [List.mem_singleton.mp hc]
        rfl
      · rw [List.nil_append]

def sampleApex (n : Nat) (hlines : partsFrom '\n' [] (sampleOutput n) = sampleLines n) :
    Resigned (fun _ => true) (sampleTools n) "avbtool".toList "a.apex".toList "key.pem".toList none
      (samplePayload n) where
  processed := "a.apex".toList
  payload_file := "apex_payload.img".toList
  output := sampleOutput n
  items := (samplePayload n).items
  processApexFile := rfl
  extractPayload := rfl
  pathExists := rfl
  info := rfl
  isOutput := isOutput_sample hlines

theorem plainNames_sample
    (n : Nat) :
    PlainNames (samplePayload n) := by
  refine List.forall_mem_singleton.mpr ⟨by decide, fun c hc => ?_⟩
  have hchars : "com.android.build".toList.all (fun c => !isSpace c) = true := by decide
  simpa using List.all_eq_true.mp hchars c hc

/-- A payload of which `avbtool` prints `Tree Size: 0 bytes` gets a hashtree. -/
theorem not_keepsParameters_zero :
    IsOutput (fun _ => true) (samplePayload 0) (samplePayload 0).items (sampleOutput 0) ∧
      ¬ KeepsParameters (samplePayload 0) "avbtool".toList "apex_payload.img".toList
        "key.pem".toList none
        (signUncompressedApex (sampleTools 0) "avbtool".toList "a.apex".toList "key.pem".toList none
          none).commands := by
  have hlines : partsFrom '\n' [] (sampleOutput 0) = sampleLines 0 := by decide
  refine ⟨isOutput_sample hlines, ?_⟩
  intro hkept
  exact ((keepsParameters_iff_read (sampleApex 0 hlines)).mp hkept).1 rfl

/-- With a hashtree the parameters are kept. -/
theorem keepsParameters_sample :
    KeepsParameters (samplePayload 4096) "avbtool".toList "apex_payload.img".toList
      "key.pem".toList none
      (signUncompressedApex (sampleTools 4096) "avbtool".toList "a.apex".toList "key.pem".toList
        none none).commands := by
  have hlines : partsFrom '\n' [] (sampleOutput 4096) = sampleLines 4096 := by decide
  have hiff := keepsParameters_iff (sampleApex 4096 hlines)
  have hplain : Plain (fun _ => true) (samplePayload 4096).apexKey := by
    have hchars : (samplePayload 4096).apexKey.all (fun c => decide (c ≠ '\\') &&
        isPrintable (fun _ => true) c && !isQuote c) = true := by decide
    have hchar : ∀ c ∈ (samplePayload 4096).apexKey, (c ≠ '\\' ∧
        isPrintable (fun _ => true) c = true) ∧ isQuote c = false := by
      intro c hc
      simpa using List.all_eq_true.mp hchars c hc
    refine ⟨fun c hc => (hchar c hc).1, fun hboth => ?_, fun c hc => ?_, fun c hc => ?_⟩
    · exact absurd (hchar _ hboth.1).2 (by decide)
    · exact (hchar c (List.mem_of_mem_head? hc)).2
    · exact (hchar c (List.mem_of_mem_getLast? hc)).2
  exact hiff.1.mpr ⟨by decide, ⟨[], rfl⟩, (hiff.2 (plainNames_sample 4096)).mpr hplain⟩

end Sample

end ApexUtils
end AndroidBuild
