import AndroidBuild.Lib.OrderedDict
import AndroidBuild.ProductConfig.NodeFns

/-!
# `product_config.rbc`

A product configuration module fills a dictionary, whose lists may refer to
the modules it inherits.  `evaluateFinalizedProductVariables` visits the
modules below a top module in postfix order and moves the values of the
inherited modules into the dictionary of the module that inherits them.

The dictionaries are objects in a heap.  The lists are values: the functions
below only extend lists that they have created themselves.
-/

namespace AndroidBuild
namespace ProductConfig

/-- A value of a `cfg` dictionary.  A 1-tuple in a list is `Item.inherit`. -/
inductive Value where
  | list (items : List Item)
  | str (text : String)
  deriving DecidableEq, Repr

abbrev Cfg := OrderedDict String Value

/-- `val.append(_indirect(name))`, if the value is a list. -/
def Value.refer (name : String) : Value → Value
  | .list items => .list (items ++ [.inherit name])
  | .str text => .str text

/-- What a module does with its handle. -/
inductive PcmStatement where
  /-- `cfg[attr] = [...]` -/
  | setList (attr : String) (words : List String)
  /-- `setdefault(handle, attr)`, then `cfg[attr] += [...]` -/
  | append (attr : String) (words : List String)
  /-- `cfg[attr] = "..."` -/
  | setString (attr text : String)
  /-- `inherit(handle, name, pcm)` -/
  | inherit (name : String)
  deriving DecidableEq, Repr

inductive PcmError where
  | keyError (name : String)
  | typeError (attr : String)
  | notRun (name : String)
  | notReady (name : String)
  | tooManyIterations
  deriving DecidableEq, Repr

/-- `__h_new`. -/
structure Handle where
  cfg : Cfg := OrderedDict.empty
  inheritedModules : List String := []
  defaultListValue : List Item := []

namespace Handle

def setdefault (handle : Handle) (attr : String) : Handle :=
  if handle.cfg.get? attr = none then
    { handle with cfg := handle.cfg.set attr (.list handle.defaultListValue) }
  else handle

def inherit (handle : Handle) (name : String) : Handle where
  inheritedModules :=
    if name ∈ handle.inheritedModules then handle.inheritedModules
    else handle.inheritedModules ++ [name]
  defaultListValue := handle.defaultListValue ++ [.inherit name]
  cfg := handle.cfg.mapValues (Value.refer name)

def run (handle : Handle) : PcmStatement → Except PcmError Handle
  | .setList attr words =>
      .ok { handle with cfg := handle.cfg.set attr (.list (words.map Item.word)) }
  | .append attr words =>
      let handle := handle.setdefault attr
      match handle.cfg.get? attr with
      | some (.list items) =>
          .ok { handle with cfg := handle.cfg.set attr (.list (items ++ words.map Item.word)) }
      | _ => .error (.typeError attr)
  | .setString attr text => .ok { handle with cfg := handle.cfg.set attr (.str text) }
  | .inherit name => .ok (handle.inherit name)

end Handle

/-- `pcm(globals, handle)`. -/
def runPcm (pcm : List PcmStatement) : Except PcmError Handle :=
  pcm.foldlM Handle.run {}

/-- The dictionaries that have been created. -/
structure Heap where
  next : Nat
  cells : Nat → Cfg

namespace Heap

def alloc (h : Heap) (cfg : Cfg) : Heap :=
  ⟨h.next + 1, Function.update h.cells h.next cfg⟩

def write (h : Heap) (ref : Nat) (cfg : Cfg) : Heap :=
  { h with cells := Function.update h.cells ref cfg }

end Heap

/-- A module in `configs`, without its function. -/
structure Entry where
  cfg : Option Nat
  childrenNames : List String
  ready : Bool
  deriving DecidableEq, Repr

abbrev Configs := OrderedDict String Entry

namespace Configs

def entry (configs : Configs) (name : String) : Except PcmError Entry :=
  match configs.get? name with
  | some e => .ok e
  | none => .error (.keyError name)

def cfgOf (configs : Configs) (name : String) : Except PcmError Nat := do
  let e ← configs.entry name
  match e.cfg with
  | some ref => pure ref
  | none => .error (.notRun name)

end Configs

/-- `x[:-3]`. -/
def dropMk (x : String) : String :=
  String.ofList (x.toList.take (x.toList.length - 3))

def sortPcmNames (names : List String) : List String :=
  ((names.map (fun y => y ++ ".mk")).insertionSort (fun a b => ¬ a < b)).map dropMk

def addChild (configs : Configs) (child : String) : Configs :=
  if child ∈ configs.keys then configs else configs.set child ⟨none, [], false⟩

/-- The modules that are run: a loop over a stack, its top first. -/
def runPcms (pcms : String → List PcmStatement) :
    Nat → Heap × Configs → List String → Except PcmError (Heap × Configs)
  | _, s, [] => .ok s
  | 0, _, _ :: _ => .error .tooManyIterations
  | fuel + 1, (h, configs), name :: stack => do
      let e ← configs.entry name
      if e.cfg.isSome then runPcms pcms fuel (h, configs) stack
      else
        let handle ← runPcm (pcms name)
        let configs := configs.set name ⟨some h.next, handle.inheritedModules, false⟩
        let pushed := sortPcmNames handle.inheritedModules
        runPcms pcms fuel (h.alloc handle.cfg, pushed.foldl addChild configs)
          (pushed.reverse ++ stack)

/-- The first half of `_product_configuration`: all known modules. -/
def productConfigs (pcms : String → List PcmStatement) (top : String) :
    Except PcmError (Heap × Configs) :=
  runPcms pcms 1000 (⟨0, fun _ => OrderedDict.empty⟩, OrderedDict.empty.set top ⟨none, [], false⟩)
    [top]

/-- `configs_postfix`: a loop over a stack, its top first. -/
def configsPostfix (configs : Configs) :
    Nat → List (String × Bool) → List String → Except PcmError (List String)
  | _, [], names => .ok names
  | 0, _ :: _, _ => .error .tooManyIterations
  | fuel + 1, (name, true) :: stack, names => do
      let e ← configs.entry name
      let children := (sortPcmNames e.childrenNames).reverse
      configsPostfix configs fuel
        (children.map (fun child => (child, true)) ++ (name, false) :: stack) names
  | fuel + 1, (name, false) :: stack, names =>
      configsPostfix configs fuel stack (names ++ [name])

/-- The clone of one module, unless it is not needed. -/
def cloneConfig (names : List String) (s : Heap × Configs) (e : String × Entry) :
    Except PcmError (Heap × Configs) :=
  if e.1 ∉ names then .ok s
  else
    match e.2.cfg with
    | none => .error (.notRun e.1)
    | some ref => .ok (s.1.alloc (s.1.cells ref), s.2.set e.1 { e.2 with cfg := some s.1.next })

/-- `cloned_configs`. -/
def cloneConfigs (names : List String) (h : Heap) (configs : Configs) :
    Except PcmError (Heap × Configs) :=
  configs.entries.foldlM (cloneConfig names) (h, OrderedDict.empty)

/-- `__move_items`: the list that is extended, and the dictionaries after it. -/
def moveItems (h : Heap) (toList : List Item) (ref : Nat) (attr : String) :
    Except PcmError (List Item × Heap) :=
  match (h.cells ref).get? attr with
  | none => .ok (toList, h)
  | some (.list items) =>
      if items = [] then .ok (toList, h)
      else .ok (toList ++ items, h.write ref ((h.cells ref).erase attr))
  | some (.str text) => if text = "" then .ok (toList, h) else .error (.typeError attr)

/-- The loop of `_value_expand`. -/
structure Expanding where
  result : List Item
  expanded : List String
  heap : Heap

/-- One item of `_value_expand`. -/
def expandItem (configs : Configs) (attr : String) (s : Expanding) :
    Item → Except PcmError Expanding
  | .word text => .ok { s with result := s.result ++ [.word text] }
  | .inherit child => do
      if child ∈ s.expanded then pure s
      else
        let e ← configs.entry child
        if !e.ready then .error (.notReady child)
        else
          let ref ← configs.cfgOf child
          let (result, heap) ← moveItems s.heap s.result ref attr
          pure ⟨result, child :: s.expanded, heap⟩

def valueExpand (configs : Configs) (attr : String) (values : List Item) (h : Heap) :
    Except PcmError Expanding :=
  values.foldlM (expandItem configs attr) ⟨[], [], h⟩

/-- One attribute of `_substitute_inherited`. -/
def substituteAttr (configs : Configs) (ref : Nat) (h : Heap) (e : String × Value) :
    Except PcmError Heap :=
  match e.2 with
  | .str _ => .ok h
  | .list items => do
      let s ← valueExpand configs e.1 items h
      pure (s.heap.write ref ((s.heap.cells ref).set e.1 (.list s.result)))

def substituteInherited (configs : Configs) (ref : Nat) (h : Heap) : Except PcmError Heap :=
  (h.cells ref).entries.foldlM (substituteAttr configs ref) h

/-- `__move_items(cfg[attr], child_cfg, attr)`. -/
def moveAttr (ref childRef : Nat) (attr : String) (h : Heap) : Except PcmError Heap :=
  match (h.cells ref).get? attr with
  | some (.list items) => do
      let (items, h) ← moveItems h items childRef attr
      pure (h.write ref ((h.cells ref).set attr (.list items)))
  | _ => .error (.typeError attr)

/-- One attribute of a child, in the first loop of `_percolate_inherited`. -/
def percolateList (ref childRef : Nat) (s : Heap × List String) (e : String × Value) :
    Except PcmError (Heap × List String) :=
  match e.2 with
  | .str _ => .ok s
  | .list _ => do
      if e.1 ∈ s.2 then
        let h ← moveAttr ref childRef e.1 s.1
        pure (h, s.2)
      else if e.1 ∈ (s.1.cells ref).keys then pure s
      else
        let h ← moveAttr ref childRef e.1 (s.1.write ref ((s.1.cells ref).set e.1 (.list [])))
        pure (h, e.1 :: s.2)

/-- One attribute of a child, in the second loop of `_percolate_inherited`. -/
def percolateString (ref childRef : Nat) (h : Heap) (e : String × Value) : Heap :=
  match e.2 with
  | .list _ => h
  | .str _ =>
      if ((h.cells ref).get? e.1).getD (.str "") = .str "" then
        let h := h.write ref ((h.cells ref).set e.1 e.2)
        h.write childRef ((h.cells childRef).erase e.1)
      else h

/-- One child, in the first loop of `_percolate_inherited`. -/
def percolateLists (configs : Configs) (ref : Nat) (s : Heap × List String) (child : String) :
    Except PcmError (Heap × List String) := do
  let childRef ← configs.cfgOf child
  (s.1.cells childRef).entries.foldlM (percolateList ref childRef) s

/-- One child, in the second loop of `_percolate_inherited`. -/
def percolateStrings (configs : Configs) (ref : Nat) (h : Heap) (child : String) :
    Except PcmError Heap := do
  let childRef ← configs.cfgOf child
  pure ((h.cells childRef).entries.foldl (percolateString ref childRef) h)

/-- `sorted(names)`. -/
def sortNames (names : List String) : List String :=
  names.insertionSort (fun a b => ¬ b < a)

def percolateInherited (configs : Configs) (ref : Nat) (childrenNames : List String) (h : Heap) :
    Except PcmError Heap := do
  let (h, _) ← childrenNames.foldlM (percolateLists configs ref) (h, [])
  (sortNames childrenNames).foldlM (percolateStrings configs ref) h

def checkChildren (configs : Configs) : List String → Except PcmError Unit
  | [] => .ok ()
  | child :: rest => do
      let c ← configs.entry child
      if c.ready then checkChildren configs rest else .error (.notReady child)

/-- One module of the loop over `configs_postfix`. -/
def evaluatePcm (s : Heap × Configs) (name : String) : Except PcmError (Heap × Configs) := do
  let e ← s.2.entry name
  let ref ← s.2.cfgOf name
  if e.ready then pure s
  else
    checkChildren s.2 e.childrenNames
    let h ← substituteInherited s.2 ref s.1
    let h ← percolateInherited s.2 ref e.childrenNames h
    pure (h, s.2.set name { e with ready := true })

/-- `evaluate_finalized_product_variables`: the dictionary of the top module,
and the dictionaries after the call. -/
def evaluateFinalizedProductVariables (h : Heap) (configs : Configs) (top : String) :
    Except PcmError (Cfg × Heap) := do
  let names ← configsPostfix configs 1000 [(top, true)] []
  let cloned ← cloneConfigs names h configs
  let s ← names.foldlM evaluatePcm cloned
  let ref ← s.2.cfgOf top
  pure (s.1.cells ref, s.1)

def evaluateAll (configs : Configs) (h : Heap) : List String → Except PcmError (List Cfg)
  | [] => .ok []
  | top :: tops => do
      let (cfg, h) ← evaluateFinalizedProductVariables h configs top
      let cfgs ← evaluateAll configs h tops
      pure (cfg :: cfgs)

end ProductConfig
end AndroidBuild
