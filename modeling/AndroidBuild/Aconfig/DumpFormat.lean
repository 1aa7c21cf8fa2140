import AndroidBuild.Aconfig.Protos
import AndroidBuild.Lib.Placeholders
import AndroidBuild.Lib.Text

/-!
# Dumping flags in a custom format

`dump_custom_format` of `aconfig`, which replaces the placeholders of a format
one after the other by the fields of a flag.
-/

namespace AndroidBuild
namespace Aconfig

open Text (Str)
open Placeholders

section Debug

/-- `{:?}` of a state. -/
def FlagState.debug : FlagState → Str
  | .enabled => "ENABLED".toList
  | .disabled => "DISABLED".toList

/-- `{:?}` of a permission. -/
def FlagPermission.debug : FlagPermission → Str
  | .readOnly => "READ_ONLY".toList
  | .readWrite => "READ_WRITE".toList

/-- `{:?}` of a purpose. -/
def FlagPurpose.debug : FlagPurpose → Str
  | .unspecified => "PURPOSE_UNSPECIFIED".toList
  | .feature => "PURPOSE_FEATURE".toList
  | .bugfix => "PURPOSE_BUGFIX".toList

/-- `{}` of a Boolean. -/
def showBool (b : Bool) : Str :=
  if b then "true".toList else "false".toList

end Debug

section Dump

/-- `parts.join(", ")`. -/
def joinComma (parts : List Str) : Str :=
  ", ".toList.intercalate parts

def formatTrace (trace : List ProtoTracepoint) : Str :=
  joinComma (trace.map fun tp =>
    tp.source.toList ++ ": ".toList ++ tp.permission.debug ++ " + ".toList ++ tp.state.debug)

def formatTracePaths (trace : List ProtoTracepoint) : Str :=
  joinComma (trace.map fun tp => tp.source.toList)

def formatMetadata (metadata : Option ProtoFlagMetadata) : Str :=
  (purposeOf metadata).debug

/-- The placeholders in the order of their replacements, and the texts of their fields. -/
def placeholderTexts (flag : ProtoParsedFlag) : List (Str × Str) :=
  [("\x7bpackage\x7d".toList, flag.package.toList),
    ("\x7bname\x7d".toList, flag.name.toList),
    ("\x7bnamespace\x7d".toList, flag.flagNamespace.toList),
    ("\x7bdescription\x7d".toList, flag.description.toList),
    ("\x7bbug\x7d".toList, joinComma (flag.bug.map String.toList)),
    ("\x7bstate\x7d".toList, flag.state.debug),
    ("\x7bstate:bool\x7d".toList, showBool (flag.state = .enabled)),
    ("\x7bpermission\x7d".toList, flag.permission.debug),
    ("\x7btrace\x7d".toList, formatTrace flag.trace),
    ("\x7btrace:paths\x7d".toList, formatTracePaths flag.trace),
    ("\x7bis_fixed_read_only\x7d".toList, showBool flag.isFixedReadOnly),
    ("\x7bis_exported\x7d".toList, showBool flag.isExported),
    ("\x7bcontainer\x7d".toList, flag.container.toList),
    ("\x7bmetadata\x7d".toList, formatMetadata flag.metadata?),
    ("\x7bfully_qualified_name\x7d".toList, flag.fullyQualifiedName.toList)]

def dumpCustomFormat (flag : ProtoParsedFlag) (format : Str) : Str :=
  replaceAll (placeholderTexts flag) format ++ ['\n']

end Dump

section Faithful

variable (flag : ProtoParsedFlag) (format : Str)

/-- The output is the format with all its placeholders replaced at once, and each replacement
finds the placeholders of the format and no others. -/
structure ExpandsFormat : Prop where
  output : dumpCustomFormat flag format = substitute (placeholderTexts flag) format ++ ['\n']
  own : OwnOccurrences (placeholderTexts flag) format

theorem keys_placeholderTexts :
    (placeholderTexts flag).map Prod.fst = ["\x7bpackage\x7d".toList, "\x7bname\x7d".toList,
      "\x7bnamespace\x7d".toList, "\x7bdescription\x7d".toList, "\x7bbug\x7d".toList,
      "\x7bstate\x7d".toList, "\x7bstate:bool\x7d".toList, "\x7bpermission\x7d".toList,
      "\x7btrace\x7d".toList, "\x7btrace:paths\x7d".toList,
      "\x7bis_fixed_read_only\x7d".toList, "\x7bis_exported\x7d".toList, "\x7bcontainer\x7d".toList,
      "\x7bmetadata\x7d".toList, "\x7bfully_qualified_name\x7d".toList] :=
  rfl

theorem isPlaceholder_iff
    {p : Str} :
    IsPlaceholder '{' '}' p ↔
      p.head? = some '{' ∧ p.tail.getLast? = some '}' ∧
        '{' ∉ p.tail.dropLast ∧ '}' ∉ p.tail.dropLast := by
  constructor
  · rintro ⟨w, rfl, ho, hc⟩
    simp [ho, hc]
  · rintro ⟨hhead, hlast, ho, hc⟩
    cases p with
    | nil => cases hhead
    | cons a p =>
        cases hhead
        have hsplit := List.dropLast_append_getLast? (l := p) '}' hlast
        exact ⟨p.dropLast, by rw [hsplit], ho, hc⟩

theorem isPlaceholder_placeholderTexts :
    ∀ e ∈ placeholderTexts flag, IsPlaceholder '{' '}' e.1 := by
  intro e he
  have hkey := List.mem_map_of_mem (f := Prod.fst) he
  rw [keys_placeholderTexts] at hkey
  rw [isPlaceholder_iff]
  revert hkey
  generalize e.1 = p
  revert p
  decide

/-- A format is expanded faithfully exactly when no placeholder comes up in the texts that are
put in, or between them and the format. -/
theorem dumpCustomFormat_expands_iff
    (flag : ProtoParsedFlag) (format : Str) :
    ExpandsFormat flag format ↔ NoneArises (placeholderTexts flag) format := by
  have hnodup : ((placeholderTexts flag).map Prod.fst).Nodup := by
    rw [keys_placeholderTexts]
    decide
  rw [← replaceAll_faithful_iff (o := '{') (c := '}') (by decide)
    (isPlaceholder_placeholderTexts flag) hnodup]
  constructor
  · intro h
    exact ⟨List.append_cancel_right h.output, h.own⟩
  · intro h
    exact ⟨congrArg (· ++ ['\n']) h.1, h.2⟩

/-- A flag whose description tells of a placeholder. -/
def describedFlag : ProtoParsedFlag where
  package? := some "com.foo"
  name? := some "bar"; namespace? := some "ns"
  description? := some "see \x7bstate\x7d"
  bug := []
  state? := some (.known .enabled)
  permission? := some (.known .readOnly)
  trace := []
  isFixedReadOnly? := none
  isExported? := none
  container? := some "system"
  metadata? := none

/-- The description is expanded again. -/
theorem dumpCustomFormat_expandsDescription :
    dumpCustomFormat describedFlag "\x7bname\x7d: \x7bdescription\x7d".toList =
        "bar: see ENABLED\n".toList ∧
      substitute (placeholderTexts describedFlag) "\x7bname\x7d: \x7bdescription\x7d".toList ++
          ['\n'] = "bar: see \x7bstate\x7d\n".toList ∧
      ¬ ExpandsFormat describedFlag "\x7bname\x7d: \x7bdescription\x7d".toList := by
  have hdump : dumpCustomFormat describedFlag "\x7bname\x7d: \x7bdescription\x7d".toList =
      "bar: see ENABLED\n".toList := by
    decide +kernel
  have hsubstitute : substitute (placeholderTexts describedFlag)
      "\x7bname\x7d: \x7bdescription\x7d".toList ++ ['\n'] = "bar: see \x7bstate\x7d\n".toList := by
    decide +kernel
  refine ⟨hdump, hsubstitute, fun h => ?_⟩
  have houtput := h.output
  rw [hdump, hsubstitute] at houtput
  revert houtput
  decide

end Faithful

end Aconfig
end AndroidBuild
