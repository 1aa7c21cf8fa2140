import AndroidBuild.ProductConfig.Import

/-!
# `FlattenConfig.java`

The flattener walks the same statements as `node_fns.mk`, but it does not
clear the values of an inherited file: it keeps a set of the files it has
seen, and looks at each file once.  The values of a file go to the file that
was the first to reach it.

`FlattenConfig` finds every file of its input, and its stack never holds the
file it is asked for, as the files inherit one another without cycles; the
errors for these cases are left out.
-/

namespace AndroidBuild
namespace ProductConfig

/-- The UTF-16 code units of a string. -/
def utf16 (s : String) : List Nat :=
  s.toList.flatMap (fun c =>
    if c.toNat < 0x10000 then [c.toNat]
    else [0xD800 + (c.toNat - 0x10000) / 0x400, 0xDC00 + (c.toNat - 0x10000) % 0x400])

/-- The keys of a `TreeMap<Str, ...>`, in order. -/
def treeMapKeys (names : List String) : List String :=
  names.dedup.insertionSort (fun a b => ¬ utf16 b < utf16 a)

def inheritsOf (statements : List Statement) : List String :=
  statements.filterMap (fun statement => match statement with
    | .assign _ _ => none
    | .inherit node => some node)

inductive FlattenError where
  /-- `Value list found for SINGLE variable` -/
  | valueList (varName : String) (size : Nat)
  | exhausted
  deriving DecidableEq, Repr

namespace Makefiles

variable (p : Makefiles)

def statementsOf (n : String) : List Statement :=
  (p.files n).getD []

/-- The files that `forEachInheritAlpha` calls back for. -/
def inheritAlpha (n : String) : List String :=
  treeMapKeys (inheritsOf (p.statementsOf n))

def assignToListVar (vars : String → List String) (varName : String) (items : List (List String)) :
    String → List String :=
  Function.update vars varName ((vars varName).intercalate items)

/-- `appendToListVar`, for all variables of an inherited file. -/
def appendToListVars (vars child : String → List String) : String → List String :=
  fun v => vars v ++ child v

/-- The callbacks of the second loop of `flattenListVars`. -/
def flattenStatement (children : List (String × (String → List String)))
    (result : String → List String) : Statement → String → List String
  | .assign varName items =>
      if varName ∈ p.listVars then assignToListVar result varName items else result
  | .inherit node =>
      match children.lookup node with
      | none => result
      | some child => appendToListVars result child

/-- One file that `flattenListVars` inherits. -/
def flattenChild (flattenListVars : String → List String → (String → List String) × List String)
    (s : List (String × (String → List String)) × List String) (child : String) :
    List (String × (String → List String)) × List String :=
  if child ∈ s.2 then s
  else
    let r := flattenListVars child (child :: s.2)
    (s.1 ++ [(child, r.1)], r.2)

/-- `flattenListVars`, to the given depth of the call stack. -/
def flattenListVars : Nat → String → List String → (String → List String) × List String
  | 0, _, seen => (fun _ => [], seen)
  | depth + 1, filename, seen =>
      let s := (p.inheritAlpha filename).foldl (flattenChild (flattenListVars depth)) ([], seen)
      ((p.statementsOf filename).foldl (p.flattenStatement s.1) (fun _ => []), s.2)

/-- The assignments of `flattenSingleVars`: only the first value is taken. -/
def assignSingleVar (vars : String → Option (List String)) :
    Statement → Except FlattenError (String → Option (List String))
  | .assign varName items =>
      if varName ∈ p.singleValueVars ∧ vars varName = none then
        match items with
        | [value] => .ok (Function.update vars varName (some value))
        | _ => .error (.valueList varName items.length)
      else .ok vars
  | .inherit _ => .ok vars

/-- One file that `flattenSingleVars` inherits. -/
def flattenSingleChild
    (flattenSingleVars : (String → Option (List String)) × List String → String →
      Except FlattenError ((String → Option (List String)) × List String))
    (s : (String → Option (List String)) × List String) (child : String) :
    Except FlattenError ((String → Option (List String)) × List String) :=
  if child ∈ s.2 then .ok s else flattenSingleVars (s.1, child :: s.2) child

/-- `flattenSingleVars`, to the given depth of the call stack: `mVariables` and `seen2`. -/
def flattenSingleVars : Nat → (String → Option (List String)) × List String → String →
    Except FlattenError ((String → Option (List String)) × List String)
  | 0, _, _ => .error .exhausted
  | depth + 1, s, filename => do
      let vars ← (p.statementsOf filename).foldlM p.assignSingleVar s.1
      (p.inheritAlpha filename).foldlM (flattenSingleChild (flattenSingleVars depth)) (vars, s.2)

/-- `flatten`, for one root: the words of the product variables. -/
def flatten (depth : Nat) (root : String) : Except FlattenError (String → List String) := do
  let lists := (p.flattenListVars depth root []).1
  let (singles, _) ← p.flattenSingleVars depth (fun _ => none, []) root
  pure (fun v => if v ∈ p.singleValueVars then (singles v).getD [] else lists v)

end Makefiles

end ProductConfig
end AndroidBuild
