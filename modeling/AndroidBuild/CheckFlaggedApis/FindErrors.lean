import AndroidBuild.Lib.Chain
import AndroidBuild.Lib.Loop
import AndroidBuild.Lib.OrderedDict
import AndroidBuild.Lib.Text

/-!
# Errors of flagged APIs

The symbols of `check-flagged-apis` and `findErrors`.  The names in a symbol
have been brought into the internal format, which has `/` as its only
delimiter.
-/

namespace AndroidBuild
namespace CheckFlaggedApis

open Text

section Symbols

def forbiddenChars : List Char :=
  ['#', '$', '.']

/-- A name in the internal format. -/
structure InternalName where
  name : Str
  allowed : ∀ c ∈ name, c ∉ forbiddenChars
deriving DecidableEq

def toInternalFormat (name : Str) : InternalName where
  name := name.map fun c => if c ∈ forbiddenChars then '/' else c
  allowed := by
    intro c hc
    obtain ⟨d, _, rfl⟩ := List.mem_map.mp hc
    split_ifs with h
    · decide
    · exact h

/-- A name in the internal format stays as it is. -/
@[simp] theorem toInternalFormat_name
    (n : InternalName) :
    toInternalFormat n.name = n := by
  obtain ⟨name, allowed⟩ := n
  rw [toInternalFormat, InternalName.mk.injEq]
  refine (List.map_congr_left fun c hc => ?_).trans (List.map_id name)
  rw [if_neg (allowed c hc)]
  rfl

inductive Symbol where
  | classSymbol (clazz : InternalName) (superclass : Option InternalName)
      (interfaces : Finset InternalName)
  | memberSymbol (clazz member : InternalName)
deriving DecidableEq

def createClass (clazz : Str) (superclass : Option Str) (interfaces : List Str) : Symbol :=
  .classSymbol (toInternalFormat clazz) (superclass.map toInternalFormat)
    (interfaces.map toInternalFormat).toFinset

def createMethod (clazz method : Str) : Symbol :=
  .memberSymbol (toInternalFormat clazz) (toInternalFormat method)

def Symbol.toPrettyString : Symbol → Str
  | .classSymbol clazz _ _ => clazz.name
  | .memberSymbol clazz member => clazz.name ++ '/' :: member.name

end Symbols

structure Flag where
  name : String
deriving DecidableEq

inductive ApiError where
  | enabledFlaggedApiNotPresent (symbol : Symbol) (flag : Flag)
  | disabledFlaggedApiIsPresent (symbol : Symbol) (flag : Flag)
  | unknownFlag (symbol : Symbol) (flag : Flag)
deriving DecidableEq

/-- The stack has a bound. -/
inductive KotlinError where
  | stackOverflow

section Contains

def findClass (output : List Symbol) (clazz : InternalName) :
    Option (Option InternalName × Finset InternalName) :=
  output.findSome? fun
    | .classSymbol c superclass interfaces =>
        if c = clazz then some (superclass, interfaces) else none
    | .memberSymbol _ _ => none

/-- One call for a member: the result, or the class of the recursive call. -/
def memberStep (output : List Symbol) (member clazz : InternalName) : InternalName ⊕ Bool :=
  if Symbol.memberSymbol clazz member ∈ output then .inr true
  else match findClass output clazz with
    | none => .inr false
    | some (superclass, interfaces) =>
        if ∃ i ∈ interfaces, createMethod i.name member.name ∈ output then .inr true
        else match superclass with
          | none => .inr false
          | some superclass => .inl (toInternalFormat superclass.name)

/-- `containsSymbol`, with a stack for `depth` calls. -/
def containsSymbol (depth : Nat) (output : List Symbol) (symbol : Symbol) :
    Except KotlinError Bool :=
  match symbol with
  | .classSymbol _ _ _ => .ok (decide (symbol ∈ output))
  | .memberSymbol clazz member =>
      match Chain.follow (memberStep output member) depth clazz with
      | none => .error .stackOverflow
      | some found => .ok found

end Contains

section Find

variable (flagged : List (Symbol × Flag)) (flags : OrderedDict Flag Bool)

/-- `isFlagEnabledForSymbol`; nothing when a flag has no value. -/
def isFlagEnabledForSymbol (symbol : Symbol) (flag : Flag) : Option Bool :=
  match symbol with
  | .classSymbol _ _ _ => flags.get? flag
  | .memberSymbol clazz _ =>
      match flags.get? flag with
      | none => none
      | some false => some false
      | some true =>
          match flagged.find? fun p => p.1.toPrettyString = clazz.name with
          | none => some true
          | some p => flags.get? p.2

def checkSymbol (depth : Nat) (output : List Symbol) (p : Symbol × Flag) :
    Except KotlinError (Option ApiError) :=
  match isFlagEnabledForSymbol flagged flags p.1 p.2 with
  | none => .ok (some (.unknownFlag p.1 p.2))
  | some true => (containsSymbol depth output p.1).map fun present =>
      if present then none else some (.enabledFlaggedApiNotPresent p.1 p.2)
  | some false => (containsSymbol depth output p.1).map fun present =>
      if present then some (.disabledFlaggedApiIsPresent p.1 p.2) else none

def findErrors (depth : Nat) (output : List Symbol) : Except KotlinError (Finset ApiError) :=
  flagged.foldlM (fun errors p => (checkSymbol flagged flags depth output p).map fun
    | none => errors
    | some e => insert e errors) ∅

end Find

end CheckFlaggedApis
end AndroidBuild
