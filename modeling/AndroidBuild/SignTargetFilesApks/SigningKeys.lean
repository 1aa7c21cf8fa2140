import AndroidBuild.Lib.Loop
import AndroidBuild.Lib.OrderedDict
import AndroidBuild.Lib.SetMap
import Mathlib.Data.String.Basic

/-!
# The keys that packages are signed with

`GetApkCerts` and `GetApexKeys`.  Both edit a dictionary in place, in the
order of the rules that the command line gives.
-/

namespace AndroidBuild
namespace SignTargetFilesApks

/-- The options that the two functions read. -/
structure Options where
  override_apk_keys : Option String
  override_apex_keys : Option String
  key_map : OrderedDict String String
  extra_apks : OrderedDict String String
  extra_apex_payload_keys : OrderedDict String String

def presigned : String := "PRESIGNED"

def specialCertStrings : List String :=
  ["PRESIGNED", "EXTERNAL"]

/-- `key_map.get(key, key)`. -/
def remap (key_map : OrderedDict String String) (key : String) : String :=
  (key_map.get? key).getD key

/-- An empty key on the command line means a presigned package. -/
def orPresigned (key : String) : String :=
  if key = "" then presigned else key

section GetApkCerts

variable (options : Options)

/-- The dictionary and the packages that may still be dropped. -/
structure CertState where
  certmap : OrderedDict String String
  remaining_apks : Finset String

def overrideCerts (certmap : OrderedDict String String) : CertState :=
  match options.override_apk_keys with
  | some key => ⟨certmap.mapValues fun _ => key, ∅⟩
  | none => ⟨certmap, certmap.keys.toFinset⟩

def remapCert (s : CertState) (e : String × String) : CertState :=
  match options.key_map.get? e.2 with
  | some key => ⟨s.certmap.set e.1 key, s.remaining_apks.erase e.1⟩
  | none =>
      if e.2 = presigned then ⟨s.certmap, s.remaining_apks.erase e.1⟩ else s

def setExtra (s : CertState) (e : String × String) : CertState :=
  ⟨s.certmap.set e.1 (remap options.key_map (orPresigned e.2)), s.remaining_apks.erase e.1⟩

/-- `order` is the order of the set of the packages to drop. -/
def getApkCerts (order : HashOrder String) (certmap : OrderedDict String String) :
    OrderedDict String String :=
  let s := overrideCerts options certmap
  let s := s.certmap.entries.foldl (remapCert options) s
  let s := options.extra_apks.entries.foldl (setExtra options) s
  (order.iterate s.remaining_apks).foldl OrderedDict.erase s.certmap

end GetApkCerts

section GetApexKeys

structure ApexKeys where
  payload_key : String
  container_key : String
  sign_tool : Option String

inductive KeyError where
  | assertionError

variable (options : Options) (key_map : OrderedDict String String)

def overrideApexKeys (keys_info : OrderedDict String ApexKeys) : OrderedDict String ApexKeys :=
  let keys_info := match options.override_apex_keys with
    | some key => keys_info.mapValues fun v => { v with payload_key := key }
    | none => keys_info
  let keys_info := match options.override_apk_keys with
    | some key => keys_info.mapValues fun v =>
        { v with container_key := remap key_map key }
    | none => keys_info
  let keys_info := options.extra_apex_payload_keys.entries.foldl (fun d e =>
    d.modify e.1 fun v => { v with payload_key := orPresigned e.2 }) keys_info
  let keys_info := keys_info.mapValues fun v =>
    { v with container_key := remap key_map v.container_key }
  options.extra_apks.entries.foldl (fun d e =>
    d.modify e.1 fun v =>
      { v with container_key := remap key_map (orPresigned e.2) }) keys_info

def presignApex (d : OrderedDict String ApexKeys) (e : String × ApexKeys) :
    Except KeyError (OrderedDict String ApexKeys) :=
  if e.2.container_key ≠ presigned then .ok d
  else if (options.extra_apex_payload_keys.get? e.1).getD "" ≠ "" then .error .assertionError
  else .ok (d.set e.1 ⟨presigned, presigned, none⟩)

def getApexKeys (keys_info : OrderedDict String ApexKeys) :
    Except KeyError (OrderedDict String ApexKeys) :=
  let keys_info := overrideApexKeys options key_map keys_info
  keys_info.entries.foldlM (presignApex options) keys_info

end GetApexKeys

end SignTargetFilesApks
end AndroidBuild
