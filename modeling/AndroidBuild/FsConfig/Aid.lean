import AndroidBuild.Lib.IntLiteral
import AndroidBuild.Lib.Loop
import AndroidBuild.Lib.OrderedDict
import Mathlib

/-!
# Android IDs and the header that defines them

`AIDHeaderParser` reads the `#define AID_<name>` lines of a C header and the
ranges of ids that are reserved for partitions.
-/

namespace AndroidBuild
namespace FsConfig

open Text IntLiteral

/-- How a run ends that gives no result: `sys.exit`, or another exception. -/
inductive Failure where
  | exit (message : Str)
  | raised (exception : Str)
  deriving DecidableEq

section Strings

/-- `s`, when it starts with `p`, without `p`. -/
def behind (p s : Str) : Option Str :=
  if p.isPrefixOf s then some (s.drop p.length) else none

/-- `str(n)`. -/
def showInt : Int → Str
  | .ofNat n => Nat.toDigits 10 n
  | .negSucc n => '-' :: Nat.toDigits 10 (n + 1)

/-- `str((a, b))`. -/
def showRange (range : Int × Int) : Str :=
  "(".toList ++ showInt range.1 ++ ", ".toList ++ showInt range.2 ++ ")".toList

/-- `str(ranges)`. -/
def showRanges (ranges : List (Int × Int)) : Str :=
  "[".toList ++ (", ".toList).intercalate (ranges.map showRange) ++ "]".toList

/-- `Utils.in_any_range`. -/
def inAnyRange (value : Int) (ranges : List (Int × Int)) : Bool :=
  ranges.any (fun range => range.1 ≤ value && value ≤ range.2)

end Strings

section Aid

variable (U : Unicode)

/-- `AID._FIXUPS`. -/
def fixups : List (Str × Str) :=
  [("media_drm".toList, "mediadrm".toList), ("media_ex".toList, "mediaex".toList),
    ("media_codec".toList, "mediacodec".toList)]

/-- `AID._fixup_friendly`. -/
def fixupFriendly (friendly : Str) : Str :=
  (fixups.lookup friendly).getD friendly

/-- `AID.PREFIX`. -/
def aidPrefix : Str :=
  "AID_".toList

/-- `AID.is_friendly`. -/
def isFriendly (name : Str) : Bool :=
  !aidPrefix.isPrefixOf name

def friendlyName (identifier : Str) : Str :=
  fixupFriendly (U.lower (identifier.drop aidPrefix.length))

/-- `AID`: its value is a number, and its friendly name is short enough. -/
structure AID where
  identifier : Str
  value : Str
  found : Str
  loginShell : Str
  normalizedValue : Str
  friendly : Str
  isNumber : ∃ n, readInt U 0 value = some n ∧ normalizedValue = showInt n
  isFriendlyName : friendly = friendlyName U identifier
  isShort : friendly.length ≤ 31

/-- `AID.__init__`; the error is the text of its `ValueError`. -/
def AID.new (identifier value found loginShell : Str) : Except Str (AID U) :=
  match hn : readInt U 0 value with
  | none => .error ("Invalid \"value\", not aid number, got: \"".toList ++ value ++ "\"".toList)
  | some n =>
      if hlen : (friendlyName U identifier).length ≤ 31 then
        .ok {
          identifier := identifier
          value := value
          found := found
          loginShell := loginShell
          normalizedValue := showInt n
          friendly := friendlyName U identifier
          isNumber := ⟨n, hn, rfl⟩
          isFriendlyName := rfl
          isShort := hlen }
      else
        .error ("AID names must be under 32 characters \"".toList ++ friendlyName U identifier ++
          "\"".toList)

variable {U}

def AID.uid (aid : AID U) : Int :=
  (readInt U 0 aid.value).getD 0

theorem AID.readInt_value
    (aid : AID U) :
    readInt U 0 aid.value = some aid.uid := by
  obtain ⟨n, hn, -⟩ := aid.isNumber
  rw [AID.uid, hn, Option.getD_some]

theorem AID.normalizedValue_eq
    (aid : AID U) :
    aid.normalizedValue = showInt aid.uid := by
  obtain ⟨n, hn, hshow⟩ := aid.isNumber
  rw [hshow, AID.uid, hn, Option.getD_some]

theorem AID.new_eq_ok
    {identifier value found loginShell : Str} {aid : AID U}
    (h : AID.new U identifier value found loginShell = .ok aid) :
    aid.identifier = identifier ∧ aid.value = value := by
  unfold AID.new at h
  split at h
  · cases h
  · split at h
    · cases h
      exact ⟨rfl, rfl⟩
    · cases h

end Aid

section Patterns

variable (U : Unicode)

/-- `AIDHeaderParser._COLLISION_OK`. -/
def collisionOk : List Str :=
  ["AID_APP".toList, "AID_APP_START".toList, "AID_USER".toList, "AID_USER_OFFSET".toList]

/-- An identifier that a pattern of `AIDHeaderParser._SKIP_AIDS` matches. -/
def skipAid (identifier : Str) : Bool :=
  (match behind "AID_UNUSED".toList identifier with
    | some (c :: _) => c.isDigit
    | _ => false) ||
  "AID_APP".toList.isPrefixOf identifier || "AID_USER".toList.isPrefixOf identifier

/-- An identifier that ends with a text of `AIDHeaderParser._AID_SKIP_RANGE`. -/
def aidSkipRange (identifier : Str) : Bool :=
  "_START".toList.isSuffixOf identifier || "_END".toList.isSuffixOf identifier

/-- `AIDHeaderParser._AID_DEFINE`: the identifier of the line, and its value if it has one. -/
def aidDefine (line : Str) : Option (Str × Option Str) :=
  match wordsFrom [] line with
  | define :: identifier :: rest =>
      if define = "#define".toList ∧ aidPrefix.isPrefixOf identifier then
        some (identifier, rest.head?)
      else none
  | _ => none

/-- The groups of `AIDHeaderParser._RESERVED_RANGE`. -/
structure ReservedRange where
  partition : Str
  name : Option Str
  start : Bool
  value : Str

/-- `(?:(\d+)_)?` at the start of a text. -/
def rangeName (text : Str) : Option Str × Str :=
  match text.takeWhile (fun c => (U.decimal c).isSome),
      text.dropWhile (fun c => (U.decimal c).isSome) with
  | d :: digits, '_' :: rest => (some (d :: digits), rest)
  | _, _ => (none, text)

/-- `(START|END)` at the start of a text. -/
def rangeSide (text : Str) : Option (Bool × Str) :=
  match behind "START".toList text with
  | some rest => some (true, rest)
  | none => (behind "END".toList text).map (fun rest => (false, rest))

/-- `\s+(\d+)` at the start of a text. -/
def rangeValue (text : Str) : Option Str :=
  match text.takeWhile isSpace,
      (text.dropWhile isSpace).takeWhile (fun c => (U.decimal c).isSome) with
  | _ :: _, d :: digits => some (d :: digits)
  | _, _ => none

/-- `_RESERVED_(?:(\d+)_)?(START|END)\s+(\d+)` at the start of a text. -/
def rangeTail (text : Str) : Option (Option Str × Bool × Str) := do
  let rest ← behind "_RESERVED_".toList text
  let (name, rest) := rangeName U rest
  let (start, rest) ← rangeSide rest
  let value ← rangeValue U rest
  some (name, start, value)

/-- `(.+)` and the rest of the pattern; the longest partition is tried first. -/
def rangeFrom (partition : Str) : Str → Option ReservedRange
  | [] => none
  | c :: text =>
      match if c = '\n' then none else rangeFrom (partition ++ [c]) text with
      | some range => some range
      | none =>
          if partition = [] then none
          else (rangeTail U (c :: text)).map
            (fun r => ⟨partition, r.1, r.2.1, r.2.2⟩)

/-- `AIDHeaderParser._RESERVED_RANGE.match`. -/
def reservedRange (line : Str) : Option ReservedRange :=
  (behind "#define AID_".toList line).bind (rangeFrom U [])

end Patterns

section HeaderParser

variable (U : Unicode)

/-- The two ends of a range that are known so far. -/
abbrev OpenRange :=
  Option Int × Option Int

/-- The state of `AIDHeaderParser._parse`. -/
structure HeaderState where
  aidNameToValue : OrderedDict Str (AID U)
  aidValueToName : OrderedDict Str Str
  rangesByName : OrderedDict Str (OrderedDict Str OpenRange)

/-- `AIDHeaderParser`, once it has parsed its header. -/
structure AIDHeaderParser where
  aidNameToValue : OrderedDict Str (AID U)
  aidValueToName : OrderedDict Str Str
  ranges : OrderedDict Str (List (Int × Int))

variable {U}

/-- `AIDHeaderParser.aids`. -/
def AIDHeaderParser.aids (parser : AIDHeaderParser U) : List (AID U) :=
  parser.aidNameToValue.values

def errorMessage (aidHeader : Str) (lineno : Nat) (msg : Str) : Str :=
  "Error \"".toList ++ msg ++ "\" in file: \"".toList ++ aidHeader ++ "\" on line: ".toList ++
    Nat.toDigits 10 lineno

def setRange (aidHeader : Str) (lineno : Nat) (partition name : Str) (start : Bool) (value : Int)
    (rangesByName : OrderedDict Str (OrderedDict Str OpenRange)) :
    Except Failure (OrderedDict Str (OrderedDict Str OpenRange)) :=
  let byName := (rangesByName.get? partition).getD .empty
  let range := (byName.get? name).getD (none, none)
  if (if start then range.1 else range.2).isSome then
    .error (.exit (errorMessage aidHeader lineno
      ((if start then "Start".toList else "End".toList) ++ " of range ".toList ++ name ++
        " of partition ".toList ++ partition ++ " was already defined".toList)))
  else
    .ok (rangesByName.set partition
      (byName.set name (if start then (some value, range.2) else (range.1, some value))))

def parseRange (aidHeader : Str) (lineno : Nat) (line : Str)
    (rangesByName : OrderedDict Str (OrderedDict Str OpenRange)) :
    Except Failure (OrderedDict Str (OrderedDict Str OpenRange)) :=
  match reservedRange U line with
  | none => .ok rangesByName
  | some range =>
      match readInt U 0 range.value with
      | none => .error (.raised "ValueError".toList)
      | some value =>
          let partition := U.lower range.partition
          setRange aidHeader lineno
            (if partition = "oem".toList then "vendor".toList else partition)
            (range.name.getD "unnamed".toList) range.start value rangesByName

/-- `AIDHeaderParser._handle_aid`; the error is the text of its `ValueError`. -/
def headerHandleAid (aidHeader identifier value : Str) (st : HeaderState U) :
    Except Str (HeaderState U) := do
  let aid ← AID.new U identifier value aidHeader "/system/bin/sh".toList
  if aid.friendly ∈ st.aidNameToValue.keys then
    .error ("Duplicate aid \"".toList ++ identifier ++ "\"".toList)
  else if value ∈ st.aidValueToName.keys ∧ aid.identifier ∉ collisionOk then
    .error ("Duplicate aid value \"".toList ++ value ++ "\" for ".toList ++ identifier)
  else
    .ok { st with
      aidNameToValue := st.aidNameToValue.set aid.friendly aid
      aidValueToName := st.aidValueToName.set value aid.friendly }

def parseDefine (aidHeader : Str) (lineno : Nat) (line : Str) (st : HeaderState U) :
    Except Failure (HeaderState U) :=
  match aidDefine line with
  | none => .ok st
  | some (_, none) => .error (.raised "IndexError".toList)
  | some (identifier, some value) =>
      if skipAid identifier then .ok st
      else if aidSkipRange identifier then .ok st
      else
        match headerHandleAid aidHeader identifier value st with
        | .ok st' => .ok st'
        | .error exception =>
            .error (.exit (errorMessage aidHeader lineno
              (exception ++ " for \"".toList ++ identifier ++ "\"".toList)))

def parseLine (aidHeader : Str) (st : HeaderState U) (line : Str × Nat) :
    Except Failure (HeaderState U) := do
  let rangesByName ← parseRange (U := U) aidHeader line.2 line.1 st.rangesByName
  parseDefine aidHeader line.2 line.1 { st with rangesByName := rangesByName }

def closeRange (partition name : Str) : OpenRange → Except Failure (Int × Int)
  | (none, _) =>
      .error (.exit ("Range '".toList ++ name ++ "' for partition '".toList ++ partition ++
        "' had undefined start".toList))
  | (some _, none) =>
      .error (.exit ("Range '".toList ++ name ++ "' for partition '".toList ++ partition ++
        "' had undefined end".toList))
  | (some start, some stop) =>
      if start > stop then
        .error (.exit ("Range '".toList ++ name ++ "' for partition '".toList ++ partition ++
          "' had start after end. Start: ".toList ++ showInt start ++ ", end: ".toList ++
          showInt stop))
      else .ok (start, stop)

/-- The ranges of a partition are added to `_ranges`. -/
def closePartition (ranges : OrderedDict Str (List (Int × Int)))
    (entry : Str × OrderedDict Str OpenRange) :
    Except Failure (OrderedDict Str (List (Int × Int))) :=
  entry.2.entries.foldlM
    (fun ranges e => do
      let range ← closeRange entry.1 e.1 e.2
      .ok (ranges.set entry.1 ((ranges.get? entry.1).getD [] ++ [range])))
    ranges

/-- `AIDHeaderParser._is_overlap`. -/
def isOverlap (a b : Int × Int) : Bool :=
  max a.1 b.1 ≤ min a.2 b.2

def overlaps : List (Int × Int) → Option ((Int × Int) × (Int × Int))
  | [] => none
  | range :: ranges =>
      match ranges.find? (isOverlap range) with
      | some other => some (range, other)
      | none => overlaps ranges

def withinReserved (ranges : OrderedDict Str (List (Int × Int))) (value : Str) : Bool :=
  ranges.values.any (fun rs => inAnyRange ((readInt U 0 value).getD 0) rs)

/-- `AIDHeaderParser._process_and_check`; the message for an id within a range is
formatted with `%u` from a text, which is a `TypeError`. -/
def processAndCheck (parser : AIDHeaderParser U) : Except Failure (AIDHeaderParser U) :=
  match parser.ranges.values.findSome? overlaps with
  | some (a, b) =>
      .error (.exit ("Error processing parsed data: \"Overlapping OEM Ranges found ".toList ++
        showRange a ++ " and ".toList ++ showRange b ++ "\"".toList))
  | none =>
      if parser.aidValueToName.keys.any (withinReserved (U := U) parser.ranges) then
        .error (.raised "TypeError".toList)
      else .ok parser

/-- `AIDHeaderParser(aid_header)`, on the lines of the header. -/
def parseHeader (aidHeader : Str) (lines : List Str) : Except Failure (AIDHeaderParser U) := do
  let st ← lines.zipIdx.foldlM (parseLine aidHeader) ⟨.empty, .empty, .empty⟩
  let ranges ← st.rangesByName.entries.foldlM closePartition .empty
  processAndCheck ⟨st.aidNameToValue, st.aidValueToName, ranges⟩

end HeaderParser

end FsConfig
end AndroidBuild
