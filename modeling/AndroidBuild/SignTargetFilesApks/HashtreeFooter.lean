import AndroidBuild.Lib.Loop
import AndroidBuild.SignTargetFilesApks.AvbInfo

/-!
# Re-signing a hashtree footer

`ReplaceKeyInAvbHashtreeFooter`.  Its helper for the hashtree descriptor reads
the variable `info` of the function around it and not its argument, so that the
root digest of the first output is compared with itself.
-/

namespace AndroidBuild
namespace SignTargetFilesApks

open Text

section Values

mutual

/-- `==`; the entries of dictionaries are compared in order. -/
def Info.same : Info → Info → Bool
  | .text s, .text t => decide (s = t)
  | .list l, .list m => Info.sameItems l m
  | .dict d, .dict e => Info.sameEntries d e
  | _, _ => false

def Info.sameItems : List Info → List Info → Bool
  | [], [] => true
  | x :: l, y :: m => Info.same x y && Info.sameItems l m
  | _, _ => false

def Info.sameEntries : List (Str × Info) → List (Str × Info) → Bool
  | [], [] => true
  | (k, v) :: d, (k', v') :: e => decide (k = k') && Info.same v v' && Info.sameEntries d e
  | _, _ => false

end

mutual

-- one induction on the three kinds of values; the other two parts are its cases
@[simp] theorem Info.same_self : ∀ i : Info, Info.same i i = true
  | .text s => by simp [Info.same]
  | .list l => by rw [Info.same, Info.sameItems_self l]
  | .dict d => by rw [Info.same, Info.sameEntries_self d]

theorem Info.sameItems_self : ∀ l : List Info, Info.sameItems l l = true
  | [] => by rw [Info.sameItems]
  | x :: l => by rw [Info.sameItems, Info.same_self x, Info.sameItems_self l]; rfl

theorem Info.sameEntries_self : ∀ d : List (Str × Info), Info.sameEntries d d = true
  | [] => by rw [Info.sameEntries]
  | (k, v) :: d => by
      rw [Info.sameEntries, Info.same_self v, Info.sameEntries_self d]
      simp

end

def Info.field? (key : Str) : Info → Option Info
  | .dict entries => entries.lookup key
  | _ => none

/-- `x.get(key)`. -/
def Info.get (key : Str) : Info → Except AvbError (Option Info)
  | .dict entries => .ok (entries.lookup key)
  | _ => .error .attributeError

/-- `x[key]`. -/
def Info.index (key : Str) : Info → Except AvbError Info
  | .dict entries =>
      match entries.lookup key with
      | some value => .ok value
      | none => .error .keyError
  | _ => .error .typeError

/-- `key in x`. -/
def Info.hasKey (key : Str) : Info → Bool
  | .text s => decide (key <:+: s)
  | .list items => items.any fun x => Info.same x (.text key)
  | .dict entries => (entries.lookup key).isSome

def iterItems : Option Info → Except AvbError (List Info)
  | none => .error .typeError
  | some (.text s) => .ok (s.map fun c => .text [c])
  | some (.list items) => .ok items
  | some (.dict entries) => .ok (entries.map fun e => .text e.1)

def commandText : Option Info → Except AvbError Str
  | some (.text s) => .ok s
  | _ => .error .typeError

def removeSuffix (suffix s : Str) : Str :=
  if suffix <:+ s then s.take (s.length - suffix.length) else s

/-- `x.removesuffix(" bytes")`. -/
def sizeText : Option Info → Except AvbError Str
  | some (.text s) => .ok (removeSuffix " bytes".toList s)
  | _ => .error .attributeError

end Values

section ReplaceKey

/-- What the three calls of `avbtool` give for their commands. -/
structure Avbtool where
  before : List Str → Except AvbError Str
  addHashtreeFooter : List Str → Except AvbError Str
  after : List Str → Except AvbError Str

def getAvbInfo (run : List Str → Except AvbError Str) (avbtool image : Str) :
    Except AvbError Info := do
  let info_raw ← run [avbtool, "info_image".toList, "--image".toList, image]
  parseAvbInfo info_raw

/-- `GetAvbHashtreeDescriptor`; `info` is the variable of the function around it. -/
def getAvbHashtreeDescriptor (info _avb_info : Info) : Except AvbError Info := do
  let descriptors ← info.get "Descriptors".toList
  let items ← iterItems descriptors
  match items.filter (Info.hasKey "Hashtree descriptor".toList) with
  | [x] => x.index "Hashtree descriptor".toList
  | _ => .error .valueError

def propArguments (x : Info) : Except AvbError (List Str) := do
  let prop_wrapped ← x.get "Prop".toList
  match prop_wrapped with
  | some (.dict [(key, .text value)]) => .ok ["--prop".toList, key ++ ':' :: value]
  | some (.dict [(_, _)]) => .error .typeError
  | some (.dict _) => .error .valueError
  | _ => .error .attributeError

/-- The command that is run, after all its arguments have been collected. -/
def footerCommand (avbtool new_key new_algorithm image : Str) (info hashtree_descriptor : Info) :
    Except AvbError (List Str) := do
  let partitionName ← hashtree_descriptor.get "Partition Name".toList
  let imageSize ← info.get "Image size".toList
  let partitionSize ← sizeText imageSize
  let hashAlgorithm ← hashtree_descriptor.get "Hash Algorithm".toList
  let salt ← hashtree_descriptor.get "Salt".toList
  let descriptors ← info.get "Descriptors".toList
  let items ← iterItems descriptors
  let props ← (items.filter (Info.hasKey "Prop".toList)).mapM propArguments
  let partitionName ← commandText partitionName
  let hashAlgorithm ← commandText hashAlgorithm
  let salt ← commandText salt
  .ok ([avbtool, "add_hashtree_footer".toList, "--key".toList, new_key,
    "--algorithm".toList, new_algorithm, "--partition_name".toList, partitionName,
    "--partition_size".toList, partitionSize, "--hash_algorithm".toList, hashAlgorithm,
    "--salt".toList, salt, "--do_not_generate_fec".toList, "--image".toList, image] ++
      props.flatten)

/-- `misc_info['avb_avbtool']`. -/
def avbAvbtool (misc_info : OrderedDict Str Str) : Except AvbError Str :=
  match misc_info.get? "avb_avbtool".toList with
  | some avbtool => .ok avbtool
  | none => .error .keyError

def checkRootDigest : Option Info → Option Info → Except AvbError Unit
  | none, none => .ok ()
  | some d, some d' => if Info.same d d' then .ok () else .error .assertionError
  | _, _ => .error .assertionError

def replaceKeyInAvbHashtreeFooter (tool : Avbtool) (image new_key new_algorithm : Str)
    (misc_info : OrderedDict Str Str) : Except AvbError Unit := do
  let avbtool ← avbAvbtool misc_info
  let info ← getAvbInfo tool.before avbtool image
  let hashtree_descriptor ← getAvbHashtreeDescriptor info info
  let cmd ← footerCommand avbtool new_key new_algorithm image info hashtree_descriptor
  let _ ← tool.addHashtreeFooter cmd
  let _new_info ← getAvbInfo tool.after avbtool image
  let new_hashtree_descriptor ← getAvbHashtreeDescriptor info info
  let root_digest ← hashtree_descriptor.get "Root Digest".toList
  let new_root_digest ← new_hashtree_descriptor.get "Root Digest".toList
  checkRootDigest root_digest new_root_digest

end ReplaceKey

end SignTargetFilesApks
end AndroidBuild
