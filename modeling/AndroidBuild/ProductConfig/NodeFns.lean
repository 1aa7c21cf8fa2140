import Mathlib.Data.String.Basic
import AndroidBuild.Lib.Loop

/-!
# `node_fns.mk`

Product makefiles assign variables and inherit from one another.  Inheriting
appends a tag to every product variable.  After a makefile has been read, the
makefiles it inherits are imported, each once, and every tag is replaced by
the value of the variable in the inherited makefile, which is then cleared.

The value of a variable is a list of words; a word that starts with `@inherit:`
is a tag.
-/

namespace AndroidBuild
namespace ProductConfig

/-- A word of a variable, or a tag `@inherit:<node>`. -/
inductive Item where
  | word (text : String)
  | inherit (node : String)
  deriving DecidableEq, Repr

/-- `<var> := s₀ $(<var>) s₁ ... $(<var>) sₖ`, or `$(call inherit-product, <node>)`. -/
inductive Statement where
  | assign (var : String) (segments : List (List String))
  | inherit (node : String)
  deriving DecidableEq, Repr

/-- The makefiles and `_product_single_value_vars`, `_product_list_vars`. -/
structure Makefiles where
  files : String → Option (List Statement)
  singleValueVars : List String
  listVars : List String

inductive MakeError where
  | doesNotExist (node : String)
  | cycle (node inherited : String)
  | exhausted
  deriving DecidableEq, Repr

/-- The variables `<context>.<node>.<var>` and `<context>.<node>.seen`. -/
structure MakeState where
  vars : String → String → List Item
  seen : List String

namespace MakeState

def set (st : MakeState) (node var : String) (value : List Item) : MakeState :=
  { st with vars := Function.update st.vars node (Function.update (st.vars node) var value) }

theorem vars_set
    (st : MakeState) (node var : String) (value : List Item) (n v : String) :
    (st.set node var value).vars n v =
      if n = node ∧ v = var then value else st.vars n v := by
  unfold set
  by_cases hn : n = node
  · subst hn
    by_cases hv : v = var
    · subst hv
      simp
    · simp [hv]
  · simp [hn]

@[simp] theorem seen_set
    (st : MakeState) (node var : String) (value : List Item) :
    (st.set node var value).seen = st.seen := by
  rfl

end MakeState

def tagsOf (items : List Item) : List String :=
  items.filterMap (fun it => match it with
    | .word _ => none
    | .inherit node => some node)

def wordsOf (items : List Item) : List String :=
  items.filterMap (fun it => match it with
    | .word text => some text
    | .inherit _ => none)

/-- `$(sort ...)`: in order, without duplicates. -/
def makeSort (names : List String) : List String :=
  names.dedup.insertionSort (fun a b => ¬ b < a)

/-- Keep the first occurrence of `needle`. -/
def keepFirst (needle : Item) : Bool → List Item → List Item
  | _, [] => []
  | seen, it :: rest =>
      if it = needle then
        if seen then keepFirst needle true rest else it :: keepFirst needle true rest
      else it :: keepFirst needle seen rest

def uniqWord (haystack : List Item) (needle : Item) : List Item :=
  if 1 < haystack.count needle then keepFirst needle false haystack else haystack

namespace Makefiles

variable (p : Makefiles)

/-- `_product_var_list`. -/
def varList : List String :=
  p.singleValueVars ++ p.listVars

/-- One statement, on the variables of the makefile that is being read. -/
def runStatement (env : String → List Item) : Statement → String → List Item
  | .assign var segments =>
      Function.update env var ((env var).intercalate (segments.map (List.map Item.word)))
  | .inherit node => fun v => if v ∈ p.varList then env v ++ [.inherit node] else env v

/-- `include <node>`, after `clear-var-list`. -/
def readFile (statements : List Statement) : String → List Item :=
  statements.foldl p.runStatement (fun _ => [])

def getInheritedNodes (env : String → List Item) : List String :=
  makeSort (tagsOf (p.varList.flatMap env))

/-- Replace the tag of one inherited node in a variable of `node`. -/
def expandTag (node var : String) (st : MakeState) (i : String) : Except MakeError MakeState :=
  let unique := uniqWord (st.vars node var) (.inherit i)
  let expanded :=
    if var ∈ p.singleValueVars ∧ wordsOf unique ≠ [] then [] else st.vars i var
  let value := unique.flatMap (fun it => if it = .inherit i then expanded else [it])
  let st := (st.set node var value).set i var []
  if .inherit node ∈ value then .error (.cycle node i) else .ok st

def expandVar (node : String) (st : MakeState) (var : String) : Except MakeError MakeState :=
  (makeSort (tagsOf (st.vars node var))).foldlM (p.expandTag node var) st

def expandInheritedValues (st : MakeState) (node : String) : Except MakeError MakeState :=
  p.varList.foldlM (p.expandVar node) st

def copyVarList (st : MakeState) (node : String) (env : String → List Item) : MakeState :=
  let values := fun v => if v ∈ p.varList then env v else st.vars node v
  { st with vars := Function.update st.vars node values }

/-- One node of `_import-nodes-inner`. -/
def importInner (importNode : MakeState → String → Except MakeError MakeState)
    (st : MakeState) (node : String) : Except MakeError MakeState :=
  if p.files node = none then .error (.doesNotExist node)
  else if node ∈ st.seen then .ok st
  else importNode { st with seen := node :: st.seen } node

/-- `_import-node`, to the given depth of the call stack. -/
def importNode : Nat → MakeState → String → Except MakeError MakeState
  | 0, _, _ => .error .exhausted
  | depth + 1, st, node => do
      let env := p.readFile ((p.files node).getD [])
      let st ← (p.getInheritedNodes env).foldlM (p.importInner (importNode depth))
        (p.copyVarList st node env)
      p.expandInheritedValues st node

/-- `import-nodes` for one product: the values of its variables. -/
def importProduct (depth : Nat) (top : String) : Except MakeError (String → List Item) := do
  let st ← p.importInner (p.importNode depth) ⟨fun _ _ => [], []⟩ top
  pure (st.vars top)

end Makefiles

end ProductConfig
end AndroidBuild
