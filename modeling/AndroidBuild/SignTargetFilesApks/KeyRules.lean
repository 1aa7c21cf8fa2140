import AndroidBuild.SignTargetFilesApks.SigningKeys
import Mathlib

/-!
# The rules for signing keys

The key of a package is its -e option, else the key that overrides all, else
the recorded one, and it is remapped once.  An APK whose recorded certificate
is left as it is has to be dropped, unless the certificate is special.
-/

namespace AndroidBuild
namespace SignTargetFilesApks

section Rules

variable (options : Options) (key_map : OrderedDict String String)

def chosenKey (name recorded : String) : String :=
  match options.extra_apks.get? name with
  | some key => orPresigned key
  | none => options.override_apk_keys.getD recorded

def apkRule (certmap : OrderedDict String String) (apk : String) : Option String :=
  match options.extra_apks.get? apk, certmap.get? apk with
  | some key, _ => some (remap options.key_map (orPresigned key))
  | none, none => none
  | none, some cert =>
      if options.override_apk_keys = none ∧ options.key_map.get? cert = none ∧
        cert ∉ specialCertStrings then none
      else some (remap options.key_map (options.override_apk_keys.getD cert))

end Rules

section Apks

variable (options : Options)

theorem get?_overrideCerts
    (certmap : OrderedDict String String) (apk : String) :
    (overrideCerts options certmap).certmap.get? apk =
      (certmap.get? apk).map (options.override_apk_keys.getD ·) := by
  unfold overrideCerts
  cases options.override_apk_keys with
  | none => simp
  | some key => simp [OrderedDict.get?_mapValues]

theorem mem_remaining_overrideCerts
    (certmap : OrderedDict String String) (apk : String) :
    apk ∈ (overrideCerts options certmap).remaining_apks ↔
      options.override_apk_keys = none ∧ apk ∈ certmap.keys := by
  unfold overrideCerts
  cases options.override_apk_keys with
  | none => simp
  | some key => simp

/-- The certificates of the rest of the loop are not changed by an iteration. -/
theorem get?_foldl_remapCert
    {l : List (String × String)} (hl : (l.map Prod.fst).Nodup) (s : CertState) (apk : String) :
    (l.foldl (remapCert options) s).certmap.get? apk =
      match l.lookup apk with
      | none => s.certmap.get? apk
      | some cert => ((options.key_map.get? cert).or (s.certmap.get? apk)) := by
  induction l generalizing s with
  | nil => rfl
  | cons e l ih =>
      obtain ⟨apk', cert⟩ := e
      rw [List.map_cons, List.nodup_cons] at hl
      rw [List.foldl_cons, ih hl.2]
      have hstep : (remapCert options s (apk', cert)).certmap.get? apk =
          if apk = apk' then (options.key_map.get? cert).or (s.certmap.get? apk)
          else s.certmap.get? apk := by
        unfold remapCert
        cases options.key_map.get? cert with
        | none =>
            simp only [Option.none_or, ite_self]
            split_ifs <;> rfl
        | some key =>
            simp only [OrderedDict.get?_set, Option.some_or]
      rw [hstep]
      by_cases hk : apk = apk'
      · subst hk
        have hnone : l.lookup apk = none := by
          rw [List.lookup_eq_none_iff]
          intro p hp
          rw [bne_iff_ne]
          rintro rfl
          exact hl.1 (List.mem_map.mpr ⟨p, hp, rfl⟩)
        rw [hnone]
        simp
      · have hb : (apk == apk') = false := by simpa using hk
        simp only [List.lookup, hb, if_neg hk]

theorem mem_remaining_foldl_remapCert
    (l : List (String × String)) (s : CertState) (apk : String) :
    apk ∈ (l.foldl (remapCert options) s).remaining_apks ↔
      apk ∈ s.remaining_apks ∧ ∀ cert, (apk, cert) ∈ l →
        options.key_map.get? cert = none ∧ cert ≠ presigned := by
  induction l generalizing s with
  | nil => simp
  | cons e l ih =>
      obtain ⟨apk', cert⟩ := e
      have hstep : apk ∈ (remapCert options s (apk', cert)).remaining_apks ↔
          apk ∈ s.remaining_apks ∧ (apk = apk' →
            options.key_map.get? cert = none ∧ cert ≠ presigned) := by
        unfold remapCert
        cases options.key_map.get? cert with
        | some key => simp [Finset.mem_erase, and_comm]
        | none =>
            simp only
            split_ifs with hcert
            · simp [Finset.mem_erase, hcert, and_comm]
            · simp [hcert]
      rw [List.foldl_cons, ih, hstep]
      constructor
      · rintro ⟨⟨hmem, hfirst⟩, hrest⟩
        refine ⟨hmem, fun c hc => ?_⟩
        rcases List.mem_cons.mp hc with heq | hc
        · cases heq
          exact hfirst rfl
        · exact hrest c hc
      · rintro ⟨hmem, hall⟩
        refine ⟨⟨hmem, ?_⟩, fun c hc => hall c (List.mem_cons_of_mem _ hc)⟩
        rintro rfl
        exact hall cert List.mem_cons_self

theorem certmap_foldl_setExtra
    (l : List (String × String)) (s : CertState) :
    (l.foldl (setExtra options) s).certmap =
      l.foldl (fun d e => d.set e.1 (remap options.key_map (orPresigned e.2))) s.certmap := by
  induction l generalizing s with
  | nil => rfl
  | cons e l ih => exact ih _

theorem mem_remaining_foldl_setExtra
    (l : List (String × String)) (s : CertState) (apk : String) :
    apk ∈ (l.foldl (setExtra options) s).remaining_apks ↔
      apk ∈ s.remaining_apks ∧ apk ∉ l.map Prod.fst := by
  induction l generalizing s with
  | nil => simp
  | cons e l ih =>
      rw [List.foldl_cons, ih, List.map_cons, List.mem_cons]
      change apk ∈ s.remaining_apks.erase e.1 ∧ _ ↔ _
      rw [Finset.mem_erase]
      tauto

theorem get?_remapped
    (certmap : OrderedDict String String) (apk : String) :
    let s := overrideCerts options certmap
    (s.certmap.entries.foldl (remapCert options) s).certmap.get? apk =
      (certmap.get? apk).map fun cert =>
        remap options.key_map (options.override_apk_keys.getD cert) := by
  intro s
  rw [get?_foldl_remapCert options s.certmap.nodup]
  change (match s.certmap.get? apk with | none => _ | some cert => _) = _
  rw [get?_overrideCerts]
  cases certmap.get? apk with
  | none => rfl
  | some cert =>
      simp only [Option.map_some, remap]
      cases options.key_map.get? (options.override_apk_keys.getD cert) <;> rfl

theorem mem_dropped
    (certmap : OrderedDict String String) (apk : String) :
    let s := overrideCerts options certmap
    let t := s.certmap.entries.foldl (remapCert options) s
    apk ∈ (options.extra_apks.entries.foldl (setExtra options) t).remaining_apks ↔
      options.extra_apks.get? apk = none ∧ options.override_apk_keys = none ∧
        ∃ cert, certmap.get? apk = some cert ∧ options.key_map.get? cert = none ∧
          cert ≠ presigned := by
  intro s t
  rw [mem_remaining_foldl_setExtra, mem_remaining_foldl_remapCert, mem_remaining_overrideCerts]
  change _ ∧ apk ∉ options.extra_apks.keys ↔ _
  rw [← OrderedDict.get?_eq_none_iff, and_comm]
  refine and_congr_right fun _ => ?_
  rw [and_assoc]
  refine and_congr_right fun hoverride => ?_
  have hcertmap : s.certmap = certmap := by
    change (overrideCerts options certmap).certmap = certmap
    rw [overrideCerts, hoverride]
  rw [hcertmap, OrderedDict.mem_keys_iff]
  constructor
  · rintro ⟨⟨cert, hget⟩, hall⟩
    exact ⟨cert, hget, hall cert (OrderedDict.mem_of_get? hget)⟩
  · rintro ⟨cert, hget, hcert⟩
    refine ⟨⟨cert, hget⟩, fun c hc => ?_⟩
    rw [OrderedDict.get?_of_mem certmap hc, Option.some.injEq] at hget
    rwa [hget]

theorem get?_getApkCerts
    (order : HashOrder String) (certmap : OrderedDict String String) (apk : String) :
    (getApkCerts options order certmap).get? apk =
      match options.extra_apks.get? apk, certmap.get? apk with
      | some key, _ => some (remap options.key_map (orPresigned key))
      | none, none => none
      | none, some cert =>
          if options.override_apk_keys = none ∧ options.key_map.get? cert = none ∧
            cert ≠ presigned then none
          else some (remap options.key_map (options.override_apk_keys.getD cert)) := by
  let s := overrideCerts options certmap
  let t := s.certmap.entries.foldl (remapCert options) s
  have hvalue : (options.extra_apks.entries.foldl (setExtra options) t).certmap.get? apk =
      ((options.extra_apks.get? apk).map fun key => remap options.key_map (orPresigned key)).or
        ((certmap.get? apk).map fun cert =>
          remap options.key_map (options.override_apk_keys.getD cert)) := by
    rw [certmap_foldl_setExtra, ← get?_remapped]
    exact OrderedDict.get?_foldl_entries t.certmap options.extra_apks
      (fun key => remap options.key_map (orPresigned key)) apk
  have hdropped := mem_dropped options certmap apk
  rw [getApkCerts, OrderedDict.get?_foldl_erase, hvalue]
  simp only [HashOrder.mem_iterate, hdropped]
  cases hextra : options.extra_apks.get? apk with
  | some key => simp
  | none =>
      cases hcert : certmap.get? apk with
      | none => simp
      | some cert =>
          simp only [true_and, Option.some.injEq, exists_eq_left', Option.map_none,
            Option.none_or, Option.map_some]

end Apks

section Apexes

variable (options : Options) (key_map : OrderedDict String String)

/-- The container key that the code gives an APEX.  The key that overrides all has been remapped
before the loop that remaps. -/
def codedContainer (apex : String) (v : ApexKeys) : String :=
  match options.extra_apks.get? apex, options.override_apk_keys with
  | some key, _ => remap key_map (orPresigned key)
  | none, some key => remap key_map (remap key_map key)
  | none, none => remap key_map v.container_key

def payloadRule (apex : String) (v : ApexKeys) : String :=
  match options.extra_apex_payload_keys.get? apex with
  | some key => orPresigned key
  | none => options.override_apex_keys.getD v.payload_key

def containerRule (apex : String) (v : ApexKeys) : String :=
  remap key_map (chosenKey options apex v.container_key)

/-- A presigned container has a presigned payload and no tool. -/
def finishKeys (v : ApexKeys) : ApexKeys :=
  if v.container_key = presigned then ⟨presigned, presigned, none⟩ else v

/-- A payload key on the command line, for a container that is presigned. -/
def Invalid (container : String → ApexKeys → String) (keys_info : OrderedDict String ApexKeys)
    (apex : String) : Prop :=
  (∃ v, keys_info.get? apex = some v ∧ container apex v = presigned) ∧
    (options.extra_apex_payload_keys.get? apex).getD "" ≠ ""

/-- The outcome is the one of the rules with the given container keys. -/
def Follows (container : String → ApexKeys → String) (keys_info : OrderedDict String ApexKeys)
    (outcome : Except KeyError (OrderedDict String ApexKeys)) : Prop :=
  (outcome = .error .assertionError ↔ ∃ apex, Invalid options container keys_info apex) ∧
    ∀ d, outcome = .ok d → ∀ apex, d.get? apex = (keys_info.get? apex).map fun v =>
      finishKeys ⟨payloadRule options apex v, container apex v, v.sign_tool⟩

theorem get?_foldl_extra
    {f : String → ApexKeys → ApexKeys} (e : OrderedDict String String)
    (d : OrderedDict String ApexKeys) (k : String) :
    (e.entries.foldl (fun d x => d.modify x.1 (f x.2)) d).get? k =
      (d.get? k).map fun v => ((e.get? k).map fun x => f x v).getD v := by
  rw [OrderedDict.get?_foldl_modify e.nodup d f k]
  have hlookup : e.entries.lookup k = e.get? k := rfl
  rw [hlookup]
  cases e.get? k with
  | none => simp
  | some w => simp

/-- The keys before the last loop. -/
theorem get?_overrideApexKeys
    (keys_info : OrderedDict String ApexKeys) (apex : String) :
    (overrideApexKeys options key_map keys_info).get? apex =
      (keys_info.get? apex).map fun v =>
        ⟨payloadRule options apex v, codedContainer options key_map apex v, v.sign_tool⟩ := by
  have hpayload : ∀ d : OrderedDict String ApexKeys,
      (options.extra_apex_payload_keys.entries.foldl (fun d e =>
        d.modify e.1 fun v => { v with payload_key := orPresigned e.2 }) d).get? apex =
      (d.get? apex).map fun v => ((options.extra_apex_payload_keys.get? apex).map fun key =>
        { v with payload_key := orPresigned key }).getD v := fun d =>
    get?_foldl_extra (f := fun key v => { v with payload_key := orPresigned key }) _ d apex
  have hcontainer : ∀ d : OrderedDict String ApexKeys,
      (options.extra_apks.entries.foldl (fun d e => d.modify e.1 fun v =>
        { v with container_key := remap key_map (orPresigned e.2) }) d).get? apex =
      (d.get? apex).map fun v => ((options.extra_apks.get? apex).map fun key =>
        { v with container_key := remap key_map (orPresigned key) }).getD v := fun d =>
    get?_foldl_extra (f := fun key v => { v with container_key := remap key_map (orPresigned key) })
      _ d apex
  unfold overrideApexKeys payloadRule codedContainer
  simp only [hcontainer, hpayload, OrderedDict.get?_mapValues]
  cases options.override_apex_keys <;> cases options.override_apk_keys <;>
    cases options.extra_apex_payload_keys.get? apex <;>
    cases options.extra_apks.get? apex <;>
    cases hkeys : keys_info.get? apex <;>
    simp [OrderedDict.get?_mapValues, hkeys]

theorem foldlM_presignApex
    {l : List (String × ApexKeys)} (hl : (l.map Prod.fst).Nodup)
    (d : OrderedDict String ApexKeys) :
    (l.foldlM (presignApex options) d = .error .assertionError ↔
      ∃ e ∈ l, e.2.container_key = presigned ∧
        (options.extra_apex_payload_keys.get? e.1).getD "" ≠ "") ∧
    ∀ d', l.foldlM (presignApex options) d = .ok d' → ∀ apex, d'.get? apex =
      match l.lookup apex with
      | none => d.get? apex
      | some v => if v.container_key = presigned then some ⟨presigned, presigned, none⟩
          else d.get? apex := by
  induction l generalizing d with
  | nil =>
      refine ⟨by simp [pure, Except.pure], ?_⟩
      rintro d' ⟨⟩ apex
      rfl
  | cons e l ih =>
      obtain ⟨name, v⟩ := e
      rw [List.map_cons, List.nodup_cons] at hl
      have hnone : l.lookup name = none := by
        rw [List.lookup_eq_none_iff]
        intro p hp
        rw [bne_iff_ne]
        rintro rfl
        exact hl.1 (List.mem_map.mpr ⟨p, hp, rfl⟩)
      rw [List.foldlM_cons, List.exists_mem_cons_iff]
      unfold presignApex
      dsimp only
      split_ifs with hcontainer hoverride
      · obtain ⟨herror, hok⟩ := ih hl.2 d
        refine ⟨?_, ?_⟩
        · simp only [hcontainer, false_and, false_or]
          exact herror
        · intro d' hd' apex
          rw [hok d' hd' apex]
          by_cases hk : apex = name
          · subst hk
            simp [hnone, hcontainer]
          · have hb : (apex == name) = false := by simpa using hk
            simp only [List.lookup, hb]
      · rw [not_not] at hcontainer
        refine ⟨iff_of_true rfl (Or.inl ⟨hcontainer, hoverride⟩), ?_⟩
        rintro d' ⟨⟩
      · rw [not_not] at hcontainer
        rw [not_not] at hoverride
        obtain ⟨herror, hok⟩ := ih hl.2 (d.set name ⟨presigned, presigned, none⟩)
        refine ⟨?_, ?_⟩
        · simp only [hoverride, ne_eq, not_true_eq_false, and_false, false_or]
          exact herror
        · intro d' hd' apex
          rw [hok d' hd' apex, OrderedDict.get?_set]
          by_cases hk : apex = name
          · subst hk
            simp [hnone, hcontainer]
          · have hb : (apex == name) = false := by simpa using hk
            simp only [List.lookup, hb, if_neg hk]

/-- The code follows the rules, with the container keys that it computes. -/
theorem follows_codedContainer
    (keys_info : OrderedDict String ApexKeys) :
    Follows options (codedContainer options key_map) keys_info
      (getApexKeys options key_map keys_info) := by
  have hget := get?_overrideApexKeys options key_map keys_info
  obtain ⟨herror, hok⟩ := foldlM_presignApex options
    (overrideApexKeys options key_map keys_info).nodup (overrideApexKeys options key_map keys_info)
  refine ⟨herror.trans ⟨?_, ?_⟩, ?_⟩
  · rintro ⟨⟨apex, w⟩, he, hcontainer, hoverride⟩
    have hw := OrderedDict.get?_of_mem _ he
    rw [hget, Option.map_eq_some_iff] at hw
    obtain ⟨v, hv, rfl⟩ := hw
    exact ⟨apex, ⟨v, hv, hcontainer⟩, hoverride⟩
  · rintro ⟨apex, ⟨v, hv, hcontainer⟩, hoverride⟩
    refine ⟨(apex, ⟨payloadRule options apex v, codedContainer options key_map apex v,
      v.sign_tool⟩), OrderedDict.mem_of_get? ?_, hcontainer, hoverride⟩
    rw [hget, hv]
    rfl
  · intro d hd apex
    rw [hok d hd apex]
    have hlookup : (overrideApexKeys options key_map keys_info).entries.lookup apex =
        (overrideApexKeys options key_map keys_info).get? apex := rfl
    rw [hlookup, hget]
    cases keys_info.get? apex with
    | none => rfl
    | some v =>
        simp only [Option.map_some, finishKeys]
        split_ifs <;> rfl

/-- The override is remapped once, an APEX that it concerns does not exist, or the run fails
because of an APEX that it does not concern. -/
def OverrideOnce (keys_info : OrderedDict String ApexKeys) : Prop :=
  ∀ key, options.override_apk_keys = some key →
    remap key_map (remap key_map key) = remap key_map key ∨
    (∀ apex ∈ keys_info.keys, options.extra_apks.get? apex ≠ none) ∨
    ∃ apex ∈ keys_info.keys, ∃ extra, options.extra_apks.get? apex = some extra ∧
      remap key_map (orPresigned extra) = presigned ∧
      (options.extra_apex_payload_keys.get? apex).getD "" ≠ ""

theorem container_of_extra
    {apex : String} {v : ApexKeys} {extra : String}
    (h : options.extra_apks.get? apex = some extra) :
    codedContainer options key_map apex v = remap key_map (orPresigned extra) ∧
      containerRule options key_map apex v = remap key_map (orPresigned extra) := by
  simp [codedContainer, containerRule, chosenKey, h]

theorem container_of_override
    {apex : String} {v : ApexKeys} {key : String} (h : options.extra_apks.get? apex = none)
    (hkey : options.override_apk_keys = some key) :
    codedContainer options key_map apex v = remap key_map (remap key_map key) ∧
      containerRule options key_map apex v = remap key_map key := by
  simp [codedContainer, containerRule, chosenKey, h, hkey]

theorem container_of_recorded
    {apex : String} {v : ApexKeys} (h : options.override_apk_keys = none) :
    codedContainer options key_map apex v = containerRule options key_map apex v := by
  unfold codedContainer containerRule chosenKey
  rw [h]
  cases options.extra_apks.get? apex <;> rfl

/-- Rules with the same container keys have the same outcomes. -/
theorem Follows.congr
    {container container' : String → ApexKeys → String} {keys_info : OrderedDict String ApexKeys}
    {outcome : Except KeyError (OrderedDict String ApexKeys)}
    (h : Follows options container keys_info outcome)
    (hsame : ∀ apex v, keys_info.get? apex = some v → container apex v = container' apex v) :
    Follows options container' keys_info outcome := by
  have hinvalid : ∀ apex, Invalid options container keys_info apex ↔
      Invalid options container' keys_info apex := by
    intro apex
    refine and_congr_left fun _ => exists_congr fun v => and_congr_right fun hv => ?_
    rw [hsame apex v hv]
  refine ⟨h.1.trans (exists_congr hinvalid), fun d hd apex => ?_⟩
  rw [h.2 d hd apex]
  cases hv : keys_info.get? apex with
  | none => rfl
  | some v => rw [Option.map_some, Option.map_some, hsame apex v hv]

theorem finishKeys_container
    (v : ApexKeys) :
    (finishKeys v).container_key = v.container_key := by
  unfold finishKeys
  split_ifs with h
  · exact h.symm
  · rfl

/-- `GetApexKeys` follows the rules iff the override is remapped once where it matters. -/
theorem follows_containerRule_iff
    (keys_info : OrderedDict String ApexKeys) :
    Follows options (containerRule options key_map) keys_info
        (getApexKeys options key_map keys_info) ↔
      OverrideOnce options key_map keys_info := by
  have hcoded := follows_codedContainer options key_map keys_info
  constructor
  · intro hrule key hkey
    by_contra hnot
    rw [not_or, not_or] at hnot
    obtain ⟨htwice, hextra, hinvalid⟩ := hnot
    -- no package with an -e option makes the run fail
    have hother : ∀ container : String → ApexKeys → String, (∀ apex v extra,
        options.extra_apks.get? apex = some extra →
          container apex v = remap key_map (orPresigned extra)) →
        ∀ apex, Invalid options container keys_info apex →
          options.extra_apks.get? apex = none := by
      rintro container hcontainer apex ⟨⟨v, hv, hpresigned⟩, hoverride⟩
      cases hget : options.extra_apks.get? apex with
      | none => rfl
      | some extra =>
          refine absurd ⟨apex, OrderedDict.mem_keys_iff.mpr ⟨v, hv⟩, extra, hget, ?_, hoverride⟩
            hinvalid
          rw [← hcontainer apex v extra hget, hpresigned]
    cases hrun : getApexKeys options key_map keys_info with
    | error e =>
        cases e
        rw [hrun] at hcoded hrule
        obtain ⟨apex, hbad⟩ := hcoded.1.mp rfl
        obtain ⟨apex', hbad'⟩ := hrule.1.mp rfl
        have hnone := hother _ (fun a v x hx => (container_of_extra options key_map hx).1) apex hbad
        have hnone' :=
          hother _ (fun a v x hx => (container_of_extra options key_map hx).2) apex' hbad'
        obtain ⟨⟨v, _, hpresigned⟩, _⟩ := hbad
        obtain ⟨⟨v', _, hpresigned'⟩, _⟩ := hbad'
        rw [(container_of_override options key_map hnone hkey).1] at hpresigned
        rw [(container_of_override options key_map hnone' hkey).2] at hpresigned'
        exact htwice (hpresigned.trans hpresigned'.symm)
    | ok d =>
        rw [not_forall] at hextra
        obtain ⟨apex, hextra⟩ := hextra
        rw [Classical.not_imp, not_not] at hextra
        obtain ⟨v, hv⟩ := OrderedDict.mem_keys_iff.mp hextra.1
        have hsame := (hcoded.2 d hrun apex).symm.trans (hrule.2 d hrun apex)
        rw [hv, Option.map_some, Option.map_some, Option.some.injEq] at hsame
        have hcontainer := congrArg ApexKeys.container_key hsame
        rw [finishKeys_container, finishKeys_container,
          (container_of_override options key_map hextra.2 hkey).1,
          (container_of_override options key_map hextra.2 hkey).2] at hcontainer
        exact htwice hcontainer
  · intro honce
    cases hkey : options.override_apk_keys with
    | none =>
        exact hcoded.congr options fun apex v _ => container_of_recorded options key_map hkey
    | some key =>
        rcases honce key hkey with htwice | hextra | ⟨apex, hmem, extra, hextra, hpresigned, hover⟩
        · refine hcoded.congr options fun apex v _ => ?_
          cases hget : options.extra_apks.get? apex with
          | none =>
              obtain ⟨hcode, hrule⟩ := container_of_override options key_map (v := v) hget hkey
              rw [hcode, hrule, htwice]
          | some extra =>
              obtain ⟨hcode, hrule⟩ := container_of_extra options key_map (v := v) hget
              rw [hcode, hrule]
        · refine hcoded.congr options fun apex v hv => ?_
          obtain ⟨extra, hget⟩ := Option.ne_none_iff_exists'.mp
            (hextra apex (OrderedDict.mem_keys_iff.mpr ⟨v, hv⟩))
          obtain ⟨hcode, hrule⟩ := container_of_extra options key_map (v := v) hget
          rw [hcode, hrule]
        · obtain ⟨v, hv⟩ := OrderedDict.mem_keys_iff.mp hmem
          obtain ⟨hcode, hrule⟩ := container_of_extra options key_map (v := v) hextra
          have hrun := hcoded.1.mpr ⟨apex, ⟨v, hv, hcode.trans hpresigned⟩, hover⟩
          rw [hrun]
          refine ⟨iff_of_true rfl ⟨apex, ⟨v, hv, hrule.trans hpresigned⟩, hover⟩, ?_⟩
          rintro d ⟨⟩

end Apexes

section Claim

variable (options : Options)

/-- No APK that could be dropped has been signed externally. -/
def NoExternal (certmap : OrderedDict String String) : Prop :=
  ∀ apk, certmap.get? apk = some "EXTERNAL" → options.extra_apks.get? apk = none →
    options.override_apk_keys = none → options.key_map.get? "EXTERNAL" ≠ none

theorem getApkCerts_iff
    (certmap : OrderedDict String String) :
    (∀ order apk, (getApkCerts options order certmap).get? apk = apkRule options certmap apk) ↔
      NoExternal options certmap := by
  constructor
  · intro hrule apk hcert hextra hoverride hmap
    have hapk := hrule default apk
    rw [get?_getApkCerts, apkRule, hextra, hcert] at hapk
    simp [hoverride, hmap, presigned, specialCertStrings] at hapk
  · intro hexternal order apk
    rw [get?_getApkCerts, apkRule]
    cases hextra : options.extra_apks.get? apk with
    | some key => rfl
    | none =>
        cases hcert : certmap.get? apk with
        | none => rfl
        | some cert =>
            simp only
            have hspecial : options.override_apk_keys = none ∧ options.key_map.get? cert = none →
                (cert ≠ presigned ↔ cert ∉ specialCertStrings) := by
              rintro ⟨hoverride, hmap⟩
              have hne : cert ≠ "EXTERNAL" := by
                rintro rfl
                exact hexternal apk hcert hextra hoverride hmap
              simp [specialCertStrings, presigned, hne]
            refine if_congr ?_ rfl rfl
            rw [← and_assoc, ← and_assoc]
            exact and_congr_right hspecial

/-- The keys of the APKs and of the APEXes follow the rules, each under its own condition. -/
theorem signingKeys_iff
    (certmap key_map : OrderedDict String String) (keys_info : OrderedDict String ApexKeys) :
    ((∀ order apk, (getApkCerts options order certmap).get? apk = apkRule options certmap apk) ↔
      NoExternal options certmap) ∧
    (Follows options (containerRule options key_map) keys_info
        (getApexKeys options key_map keys_info) ↔
      OverrideOnce options key_map keys_info) :=
  ⟨getApkCerts_iff options certmap, follows_containerRule_iff options key_map keys_info⟩

/-- No option but, perhaps, a key for all packages. -/
def plainOptions (override_apk_keys : Option String) : Options :=
  ⟨override_apk_keys, none, OrderedDict.empty, OrderedDict.empty, OrderedDict.empty⟩

/-- The chain `a`, `b`, `c`. -/
def chainMap : OrderedDict String String :=
  ⟨[("a", "b"), ("b", "c")], by decide⟩

def singleApex : OrderedDict String ApexKeys :=
  ⟨[("x.apex", ⟨"payload", "container", none⟩)], by decide⟩

def externalCerts : OrderedDict String String :=
  ⟨[("x.apk", "EXTERNAL")], by decide⟩

/-- An external certificate is dropped, and an override is remapped twice. -/
theorem signingKeys_external_twice :
    (getApkCerts (plainOptions none) HashOrder.sorted externalCerts).get? "x.apk" = none ∧
    apkRule (plainOptions none) externalCerts "x.apk" = some "EXTERNAL" ∧
    ¬ Follows (plainOptions (some "a")) (containerRule (plainOptions (some "a")) chainMap)
      singleApex (getApexKeys (plainOptions (some "a")) chainMap singleApex) := by
  refine ⟨by decide +kernel, by decide +kernel, ?_⟩
  rw [follows_containerRule_iff]
  intro honce
  rcases honce "a" rfl with htwice | hextra | ⟨_, _, _, hextra, _⟩
  · exact absurd htwice (by decide)
  · exact hextra "x.apex" (by decide) rfl
  · cases hextra

end Claim

end SignTargetFilesApks
end AndroidBuild
