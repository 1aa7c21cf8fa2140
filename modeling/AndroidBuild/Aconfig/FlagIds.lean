import AndroidBuild.Aconfig.FlagGroups
import AndroidBuild.Aconfig.StorageCreate

/-!
# Flag ids of the generated code and of the storage

`assign_flag_ids` numbers the flags that the storage keeps, in the order of
their names.  The generated library numbers all flags of its cache and the
flag table those that were grouped into a package.
-/

namespace AndroidBuild
namespace Aconfig

section Verified

def keptNames (flags : List ParsedFlag) : List String :=
  (flags.filter shouldIncludeFlag).map (fun pf => pf.name)

theorem verifyNext_eq_ok
    {previous r : Option ParsedFlag} {pf : ParsedFlag} (h : verifyNext previous pf = .ok r) :
    r = some pf ∧ verifyFlag pf = .ok () ∧
      ∀ q, previous = some q → q.fullyQualifiedName < pf.fullyQualifiedName := by
  cases previous with
  | none =>
      obtain ⟨_, hflag, h⟩ := Loop.bind_eq_ok.mp h
      cases h
      exact ⟨rfl, hflag, nofun⟩
  | some q =>
      simp only [verifyNext] at h
      split at h
      · cases h
      · rename_i hne
        split at h
        · cases h
        · rename_i hlt
          obtain ⟨_, hflag, h⟩ := Loop.bind_eq_ok.mp h
          cases h
          refine ⟨rfl, hflag, ?_⟩
          rintro _ ⟨⟩
          exact lt_of_le_of_ne (not_lt.mp hlt) hne

/-- Verified flags are in the order of their full names. -/
theorem verifyFields_sorted
    {flags : List ParsedFlag} (h : verifyFields flags = .ok ()) :
    flags.Pairwise (fun a b => a.fullyQualifiedName < b.fullyQualifiedName) ∧
      ∀ pf ∈ flags, verifyFlag pf = .ok () := by
  obtain ⟨last, hrun, _⟩ := Loop.bind_eq_ok.mp h
  -- the previous flag has the largest name so far
  have hall := Loop.forLoop_ok (fun done r =>
    (∀ a ∈ done, ∃ q, r = some q ∧ a.fullyQualifiedName ≤ q.fullyQualifiedName) ∧
    done.Pairwise (fun a b => a.fullyQualifiedName < b.fullyQualifiedName) ∧
    ∀ pf ∈ done, verifyFlag pf = .ok ()) hrun ⟨by simp, .nil, by simp⟩ ?_
  · exact ⟨hall.2.1, hall.2.2⟩
  · rintro done pf rest r r' _ ⟨hlast, hsorted, hflags⟩ hnext
    obtain ⟨rfl, hflag, hlt⟩ := verifyNext_eq_ok hnext
    have hbelow : ∀ a ∈ done, a.fullyQualifiedName < pf.fullyQualifiedName := by
      intro a ha
      obtain ⟨q, hq, hle⟩ := hlast a ha
      exact lt_of_le_of_lt hle (hlt q hq)
    refine ⟨?_, ?_, ?_⟩
    · intro a ha
      refine ⟨pf, rfl, ?_⟩
      rcases List.mem_append.mp ha with ha | ha
      · exact (hbelow a ha).le
      · rw [List.mem_singleton.mp ha]
    · rw [List.pairwise_append]
      refine ⟨hsorted, List.pairwise_singleton _ _, ?_⟩
      intro a ha b hb
      rw [List.mem_singleton.mp hb]
      exact hbelow a ha
    · intro q hq
      rcases List.mem_append.mp hq with hq | hq
      · exact hflags q hq
      · rw [List.mem_singleton.mp hq]
        exact hflag

theorem nodup_names_of_verifyFields
    {flags : List ParsedFlag} (h : verifyFields flags = .ok ()) {package : String}
    (hpackage : ∀ pf ∈ flags, pf.package = package) :
    (flags.map (fun pf => pf.name)).Nodup := by
  refine List.pairwise_map.mpr ((verifyFields_sorted h).1.imp_of_mem ?_)
  intro a b ha hb hlt hname
  have hsame : a.fullyQualifiedName = b.fullyQualifiedName := by
    rw [ParsedFlag.fullyQualifiedName, ParsedFlag.fullyQualifiedName, hpackage a ha,
      hpackage b hb, hname]
  exact absurd hlt (hsame ▸ lt_irrefl _)

theorem name_ne_empty
    {pf : ParsedFlag} (h : verifyFlag pf = .ok ()) :
    pf.name ≠ "" := by
  intro hempty
  have hname : isValidNameIdent pf.name = false := by
    rw [hempty]
    decide
  simp only [verifyFlag, hname] at h
  split at h
  · cases h
  · split at h
    · cases h
    · simp at h

end Verified

section Ids

theorem keptNames_append
    (flags more : List ParsedFlag) :
    keptNames (flags ++ more) = keptNames flags ++ keptNames more := by
  rw [keptNames, List.filter_append, List.map_append]
  rfl

theorem getElem?_concat_iff
    {l : List String} {last : String} (hlast : last ∉ l) (i : Nat) (name : String) :
    (l ++ [last])[i]? = some name ↔
      if name = last then i = l.length else l[i]? = some name := by
  by_cases hi : i < l.length
  · rw [List.getElem?_append_left hi]
    split
    case isTrue hname =>
        subst hname
        refine iff_of_false (fun h => hlast (List.mem_of_getElem? h)) (by omega)
    case isFalse => rfl
  · rw [List.getElem?_append_right (by omega)]
    have hnone : l[i]? = none := List.getElem?_eq_none (by omega)
    rw [hnone]
    rcases hk : i - l.length with _ | k
    · have hi' : i = l.length := by omega
      simp only [List.getElem?_cons_zero, Option.some.injEq, hi', eq_comm]
      split <;> simp_all
    · simp only [List.getElem?_cons_succ, List.getElem?_nil, reduceCtorEq, false_iff]
      split
      · omega
      · exact nofun

theorem assignFlagIds_spec
    {package : String} {flags : List ParsedFlag} {ids : String → Option UInt16}
    (h : assignFlagIds package flags = .ok ids) (hnodup : (keptNames flags).Nodup) :
    (∀ pf ∈ flags, pf.package = package) ∧ (keptNames flags).length ≤ 65535 ∧
      flags.IsChain (fun a b => ¬ b.name < a.name) ∧
      ∀ name id, ids name = some id ↔
        ∃ i, (keptNames flags)[i]? = some name ∧ id = UInt16.ofNat i := by
  rw [assignFlagIds] at h
  split at h
  · cases h
  · rename_i hchain
    obtain ⟨⟨ids', n⟩, hrun, h⟩ := Loop.bind_eq_ok.mp h
    cases h
    have hall := Loop.forLoop_ok (fun done s => (∀ pf ∈ done, pf.package = package) ∧
      s.2 = (keptNames done).length ∧ s.2 ≤ 65535 ∧
      ∀ name id, s.1 name = some id ↔
        ∃ i, (keptNames done)[i]? = some name ∧ id = UInt16.ofNat i) hrun
      ⟨by simp, rfl, by simp, by simp [keptNames]⟩ ?_
    · obtain ⟨hpackage, hlength, hle, hids⟩ := hall
      exact ⟨hpackage, hlength ▸ hle, not_not.mp hchain, hids⟩
    · rintro done pf rest ⟨ids, n⟩ r' hflags ⟨hpackage, hlength, hle, hids⟩ hstep
      replace hlength : n = (keptNames done).length := hlength
      rw [assignFlagId] at hstep
      split_ifs at hstep with hother hmany hkeep
      · cases hstep
        have hone : keptNames [pf] = [pf.name] := by simp [keptNames, hkeep]
        have hnew : pf.name ∉ keptNames done := by
          intro hmem
          rw [hflags, ← List.singleton_append, keptNames_append, keptNames_append, hone,
            List.nodup_append] at hnodup
          exact hnodup.2.2 pf.name hmem pf.name (by simp) rfl
        refine ⟨?_, ?_, by omega, ?_⟩
        · intro q hq
          rcases List.mem_append.mp hq with hq | hq
          · exact hpackage q hq
          · rw [List.mem_singleton.mp hq]
            exact (not_not.mp hother).symm
        · rw [keptNames_append, hone, List.length_append, ← hlength]
          rfl
        · intro name id
          rw [keptNames_append, hone]
          simp only [getElem?_concat_iff hnew]
          by_cases hname : name = pf.name
          · rw [hname, Function.update_self, Option.some.injEq, hlength]
            simp [eq_comm]
          · rw [Function.update_of_ne hname, hids]
            simp [hname]
      · cases hstep
        have hnone : keptNames [pf] = [] := by simp [keptNames, hkeep]
        rw [keptNames_append, hnone, List.append_nil]
        refine ⟨?_, hlength, hle, hids⟩
        intro q hq
        rcases List.mem_append.mp hq with hq | hq
        · exact hpackage q hq
        · rw [List.mem_singleton.mp hq]
          exact (not_not.mp hother).symm

end Ids

section Nodes

def storedFlagType (pf : ParsedFlag) : StoredFlagType :=
  if pf.isFixedReadOnly then .fixedReadOnlyBoolean
  else match pf.permission with
    | .readWrite => .readWriteBoolean
    | .readOnly => .readOnlyBoolean

def FlagTableNode.unlinked (node : FlagTableNode) : FlagTableNode :=
  { node with nextOffset := none }

def PackageTableNode.unlinked (node : PackageTableNode) : PackageTableNode :=
  { node with nextOffset := none }

theorem createNode_eq_ok
    {packageId numBuckets : UInt32} {ids : String → Option UInt16} {pf : ParsedFlag}
    {w : FlagTableNode × Nat} :
    createNode packageId numBuckets ids pf = .ok w ↔
      ∃ fid, ids pf.name = some fid ∧ w = (⟨packageId, pf.name, storedFlagType pf, fid, none⟩,
        FlagTableNode.findBucketIndex packageId pf.name numBuckets.toNat) := by
  rw [createNode]
  split
  · rename_i hnone
    simp [hnone]
  · rename_i fid hsome
    simp only [hsome, Option.some.injEq, exists_eq_left', Except.ok.injEq]
    exact eq_comm

theorem liftError_eq_ok
    {α : Type} {x : Except AconfigError α} {a : α} :
    liftError x = .ok a ↔ x = .ok a := by
  cases x with
  | ok b => simp [liftError]
  | error e => cases e <;> simp [liftError]

/-- The nodes of a flag table are those of the flags of the packages. -/
theorem mem_createFlagTable
    {container : String} {packages : List FlagPackage} {version : UInt32} {t : FlagTable}
    (hrun : createFlagTable container packages version = .ok t) :
    (∀ p ∈ packages, ∃ ids, assignFlagIds p.packageName p.retain.booleanFlags = .ok ids) ∧
      ∀ node, node ∈ t.nodes.map FlagTableNode.unlinked ↔
        ∃ p ∈ packages, ∃ ids, assignFlagIds p.packageName p.retain.booleanFlags = .ok ids ∧
          ∃ pf ∈ p.retain.booleanFlags, ∃ fid, ids pf.name = some fid ∧
            node = ⟨p.packageId, pf.name, storedFlagType pf, fid, none⟩ := by
  obtain ⟨numFlags, _, hrun⟩ := Loop.bind_eq_ok.mp hrun
  obtain ⟨numBuckets, _, hrun⟩ := Loop.bind_eq_ok.mp hrun
  obtain ⟨lists, hlists, hrun⟩ := Loop.bind_eq_ok.mp hrun
  have hnodes : (t.nodes.map FlagTableNode.unlinked).Perm
      (lists.flatten.map (fun w => w.1.unlinked)) := by
    refine createTable_nodes FlagTableNode.unlinked ?_ hrun
    intro node x
    rfl
  have hpackage : ∀ p ∈ packages, ∃ ws, createNodes p numBuckets = .ok ws := by
    intro p hp
    obtain ⟨i, hi, rfl⟩ := List.mem_iff_getElem.mp hp
    have hall := List.forall₂_iff_get.mp (Loop.mapM_eq_ok.mp hlists)
    have hget := hall.2 i hi (hall.1 ▸ hi)
    exact ⟨_, liftError_eq_ok.mp hget⟩
  constructor
  · intro p hp
    obtain ⟨ws, hws⟩ := hpackage p hp
    obtain ⟨ids, hids, _⟩ := Loop.bind_eq_ok.mp hws
    exact ⟨ids, hids⟩
  · intro node
    rw [hnodes.mem_iff]
    simp only [List.mem_map, List.mem_flatten, Loop.mem_of_mapM_eq_ok hlists, liftError_eq_ok]
    constructor
    · rintro ⟨w, ⟨ws, ⟨p, hp, hws⟩, hw⟩, rfl⟩
      obtain ⟨ids, hids, hws⟩ := Loop.bind_eq_ok.mp hws
      obtain ⟨pf, hpf, hnode⟩ := (Loop.mem_of_mapM_eq_ok hws).mp hw
      obtain ⟨fid, hfid, rfl⟩ := createNode_eq_ok.mp hnode
      exact ⟨p, hp, ids, hids, pf, hpf, fid, hfid, rfl⟩
    · rintro ⟨p, hp, ids, hids, pf, hpf, fid, hfid, rfl⟩
      obtain ⟨ws, hws⟩ := hpackage p hp
      obtain ⟨ids', hids', hrest⟩ := Loop.bind_eq_ok.mp hws
      obtain rfl : ids = ids' := by
        rw [FlagPackage.retain] at hids
        rw [hids] at hids'
        exact Except.ok.inj hids'
      have hw := (Loop.mem_of_mapM_eq_ok hrest).mpr
        ⟨pf, hpf, createNode_eq_ok.mpr ⟨fid, hfid, rfl⟩⟩
      exact ⟨_, ⟨ws, ⟨p, hp, hws⟩, hw⟩, rfl⟩

theorem mem_createPackageTable
    {container : String} {packages : List FlagPackage} {version : UInt32} {t : PackageTable}
    (hrun : createPackageTable container packages version = .ok t) (node : PackageTableNode) :
    node ∈ t.nodes.map PackageTableNode.unlinked ↔
      ∃ p ∈ packages, node = ⟨p.packageName, p.packageId, p.fingerprint, p.redactExportedReads,
        p.booleanStartIndex, none⟩ := by
  obtain ⟨numBuckets, _, hrun⟩ := Loop.bind_eq_ok.mp hrun
  have hnodes : (t.nodes.map PackageTableNode.unlinked).Perm
      ((packages.map (fun p => packageNode p numBuckets)).map (fun w => w.1.unlinked)) := by
    refine createTable_nodes PackageTableNode.unlinked ?_ hrun
    intro node x
    rfl
  rw [hnodes.mem_iff, List.map_map, List.mem_map]
  constructor
  · rintro ⟨p, hp, rfl⟩
    exact ⟨p, hp, rfl⟩
  · rintro ⟨p, hp, rfl⟩
    exact ⟨p, hp, rfl⟩

end Nodes

section Packages

variable {flags : List ParsedFlag} {packages : List FlagPackage}

theorem Grouped.mem_booleanFlags
    (h : Grouped flags packages) {p : FlagPackage} (hp : p ∈ packages) {pf : ParsedFlag}
    (hpf : pf ∈ p.booleanFlags) :
    pf ∈ flags ∧ shouldIncludeFlag pf = true ∧ pf.package = p.packageName := by
  rw [h.booleanFlags p hp] at hpf
  simpa [packageFlags] using mem_of_mem_distinctFlags hpf

theorem Grouped.retain_booleanFlags
    (h : Grouped flags packages) {p : FlagPackage} (hp : p ∈ packages) :
    p.retain.booleanFlags = p.booleanFlags := by
  refine List.filter_eq_self.mpr ?_
  intro pf hpf
  exact (h.mem_booleanFlags hp hpf).2.1

theorem Grouped.keptNames_eq
    (h : Grouped flags packages) {p : FlagPackage} (hp : p ∈ packages) :
    keptNames p.retain.booleanFlags = p.flagNames := by
  have hretain := h.retain_booleanFlags hp
  rw [keptNames, hretain, h.flagNames p hp, ← hretain, FlagPackage.retain]
  simp

theorem Grouped.nodup_flagNames
    (h : Grouped flags packages) {p : FlagPackage} (hp : p ∈ packages) :
    p.flagNames.Nodup := by
  rw [h.flagNames p hp, h.booleanFlags p hp]
  exact nodup_distinctFlags _

theorem Grouped.booleanFlags_ne_nil
    (h : Grouped flags packages) {p : FlagPackage} (hp : p ∈ packages) :
    p.booleanFlags ≠ [] := by
  intro hnil
  have hsome := (h.complete p.packageName).mpr ⟨p, hp, rfl⟩
  refine hsome (List.eq_nil_iff_forall_not_mem.mpr ?_)
  intro pf hpf
  have hname := mem_names_distinctFlags.mpr (List.mem_map_of_mem (f := fun q => q.name) hpf)
  rw [← h.booleanFlags p hp, hnil] at hname
  simp at hname

theorem Grouped.assignFlagIds
    (h : Grouped flags packages) {p : FlagPackage} (hp : p ∈ packages)
    {ids : String → Option UInt16}
    (hids : assignFlagIds p.packageName p.retain.booleanFlags = .ok ids) :
    p.flagNames.length ≤ 65535 ∧ p.flagNames.Pairwise (· < ·) ∧
      ∀ name id, ids name = some id ↔
        ∃ i, p.flagNames[i]? = some name ∧ id = UInt16.ofNat i := by
  have hkept := h.keptNames_eq hp
  have hnodup := h.nodup_flagNames hp
  obtain ⟨_, hlength, hchain, hnumbers⟩ := assignFlagIds_spec hids (hkept ▸ hnodup)
  rw [hkept] at hlength hnumbers
  refine ⟨hlength, ?_, hnumbers⟩
  have hle : p.flagNames.Pairwise (· ≤ ·) := by
    rw [h.flagNames p hp, ← h.retain_booleanFlags hp]
    refine List.pairwise_map.mpr (List.isChain_iff_pairwise.mp (hchain.imp ?_))
    intro a b hab
    exact not_lt.mp hab
  exact (hle.and hnodup).imp (fun hboth => lt_of_le_of_ne hboth.1 hboth.2)

theorem length_lt_of_completePackages
    {version : UInt32} {redact : Bool} {start : UInt32} {groups : List FlagPackage}
    (h : completePackages version redact start groups = .ok packages)
    (hflags : ∀ p ∈ packages, p.booleanFlags ≠ [] ∧ p.booleanFlags.length < 2 ^ 32) :
    start.toNat + packages.length < 2 ^ 32 := by
  induction groups generalizing start packages with
  | nil =>
      cases h
      exact start.toNat_lt
  | cons g groups ih =>
      obtain ⟨next, hnext, h⟩ := Loop.bind_eq_ok.mp h
      obtain ⟨completed, hcompleted, h⟩ := Loop.bind_eq_ok.mp h
      cases h
      rw [List.forall_mem_cons] at hflags
      have hg : g.booleanFlags ≠ [] ∧ g.booleanFlags.length < 2 ^ 32 := hflags.1
      have hsum := Checked.add_eq_ok.mp hnext
      rw [UInt32.toNat_ofNat_of_lt' hg.2] at hsum
      have hpos := List.length_pos_of_ne_nil hg.1
      have hlt := ih hcompleted hflags.2
      rw [List.length_cons]
      omega

end Packages

section Tables

variable {caches : List (List ParsedFlag)} {version : UInt32} {redact : Bool} {container : String}
  {packages : List FlagPackage} {packageTable : PackageTable} {flagTable : FlagTable}

/-- Packages with the same id are the same. -/
theorem packageId_inj
    (hpackages : groupFlagsByPackage caches version redact = .ok packages)
    (hft : createFlagTable container packages version = .ok flagTable)
    {p q : FlagPackage} (hp : p ∈ packages) (hq : q ∈ packages)
    (hid : p.packageId = q.packageId) :
    p = q := by
  have hgrouped := groupFlagsByPackage_grouped hpackages
  have hlength : (0 : UInt32).toNat + packages.length < 2 ^ 32 := by
    refine length_lt_of_completePackages hpackages ?_
    intro r hr
    obtain ⟨ids, hids⟩ := (mem_createFlagTable hft).1 r hr
    have hle := (hgrouped.assignFlagIds hr hids).1
    rw [hgrouped.flagNames r hr, List.length_map] at hle
    exact ⟨hgrouped.booleanFlags_ne_nil hr, by omega⟩
  obtain ⟨i, hi, rfl⟩ := List.mem_iff_getElem.mp hp
  obtain ⟨j, hj, rfl⟩ := List.mem_iff_getElem.mp hq
  rw [hgrouped.ids i _ (List.getElem?_eq_getElem hi), hgrouped.ids j _ (List.getElem?_eq_getElem hj),
    ← UInt32.toNat_inj, UInt32.toNat_ofNat_of_lt' (show i < 2 ^ 32 by omega),
    UInt32.toNat_ofNat_of_lt' (show j < 2 ^ 32 by omega)] at hid
  subst hid
  rfl

theorem flagIndex_iff
    (hpackages : groupFlagsByPackage caches version redact = .ok packages)
    (hft : createFlagTable container packages version = .ok flagTable)
    {p : FlagPackage} (hp : p ∈ packages) (name : String) (id : UInt16) :
    (∃ node ∈ flagTable.nodes, node.packageId = p.packageId ∧ node.flagName = name ∧
      node.flagIndex = id) ↔ ∃ i, p.flagNames[i]? = some name ∧ id = UInt16.ofNat i := by
  have hgrouped := groupFlagsByPackage_grouped hpackages
  obtain ⟨hassigned, hnodes⟩ := mem_createFlagTable hft
  obtain ⟨ids, hids⟩ := hassigned p hp
  rw [← (hgrouped.assignFlagIds hp hids).2.2]
  constructor
  · rintro ⟨node, hnode, hid, rfl, rfl⟩
    obtain ⟨q, hq, ids', hids', pf, hpf, fid, hfid, hunlinked⟩ :=
      (hnodes _).mp (List.mem_map_of_mem hnode)
    have hpid : node.packageId = q.packageId := congrArg FlagTableNode.packageId hunlinked
    have hname : node.flagName = pf.name := congrArg FlagTableNode.flagName hunlinked
    have hindex : node.flagIndex = fid := congrArg FlagTableNode.flagIndex hunlinked
    obtain rfl := packageId_inj hpackages hft hp hq (hid.symm.trans hpid)
    rw [hids] at hids'
    cases hids'
    rw [hname, hindex, hfid]
  · intro hid
    obtain ⟨i, hi, _⟩ := ((hgrouped.assignFlagIds hp hids).2.2 name id).mp hid
    have hmem := List.mem_of_getElem? hi
    rw [hgrouped.flagNames p hp, ← hgrouped.retain_booleanFlags hp] at hmem
    obtain ⟨pf, hpf, rfl⟩ := List.mem_map.mp hmem
    have hthere := (hnodes ⟨p.packageId, pf.name, storedFlagType pf, id, none⟩).mpr
      ⟨p, hp, ids, hids, pf, hpf, id, hid, rfl⟩
    obtain ⟨node, hnode, hunlinked⟩ := List.mem_map.mp hthere
    refine ⟨node, hnode, ?_, ?_, ?_⟩
    · exact congrArg FlagTableNode.packageId hunlinked
    · exact congrArg FlagTableNode.flagName hunlinked
    · exact congrArg FlagTableNode.flagIndex hunlinked

theorem packageNode_of_name
    (hpackages : groupFlagsByPackage caches version redact = .ok packages)
    (hpt : createPackageTable container packages version = .ok packageTable)
    (hversion : 2 ≤ version) {node : PackageTableNode} (hnode : node ∈ packageTable.nodes) :
    ∃ p ∈ packages, node.packageName = p.packageName ∧ node.packageId = p.packageId ∧
      node.fingerprint = computeFlagsFingerprint p.flagNames := by
  obtain ⟨p, hp, hunlinked⟩ := (mem_createPackageTable hpt _).mp (List.mem_map_of_mem hnode)
  refine ⟨p, hp, congrArg PackageTableNode.packageName hunlinked,
    congrArg PackageTableNode.packageId hunlinked, ?_⟩
  rw [← groupFlagsByPackage_fingerprint hpackages hversion hp]
  exact congrArg PackageTableNode.fingerprint hunlinked

theorem exists_packageNode
    (hpackages : groupFlagsByPackage caches version redact = .ok packages)
    (hpt : createPackageTable container packages version = .ok packageTable) {package : String}
    (hflags : packageFlags caches.flatten package ≠ []) :
    ∃ p ∈ packages, ∃ node ∈ packageTable.nodes, p.packageName = package ∧
      node.packageName = package ∧ node.fingerprint = p.fingerprint := by
  obtain ⟨p, hp, rfl⟩ := ((groupFlagsByPackage_grouped hpackages).complete package).mp hflags
  obtain ⟨node, hnode, hunlinked⟩ := List.mem_map.mp
    ((mem_createPackageTable hpt _).mpr ⟨p, hp, rfl⟩)
  exact ⟨p, hp, node, hnode, rfl, congrArg PackageTableNode.packageName hunlinked,
    congrArg PackageTableNode.fingerprint hunlinked⟩

end Tables

section Codegen

variable {flags : List ParsedFlag} {mode : CodegenMode} {cfg : CodegenConfig}

/-- Production and test code is generated from the flags as they are. -/
theorem modifyParsedFlagsBasedOnMode_eq_ok
    {modified : List ParsedFlag} (h : modifyParsedFlagsBasedOnMode flags mode = .ok modified)
    (hmode : mode = .production ∨ mode = .test) :
    modified = flags := by
  have hsame : ∀ l : List ParsedFlag, l.mapM (modifyFlag mode) = .ok l := by
    intro l
    refine Loop.mapM_eq_ok.mpr (List.forall₂_same.mpr ?_)
    intro pf _
    rcases hmode with rfl | rfl <;> rfl
  obtain ⟨mapped, hmapped, h⟩ := Loop.bind_eq_ok.mp h
  have hflags : mapped = flags := by
    rw [hsame] at hmapped
    rcases hmode with rfl | rfl <;> exact (Except.ok.inj hmapped).symm
  split at h
  · cases h
  · cases h
    exact hflags

theorem findUniquePackage_eq_some
    {package : String} (h : findUniquePackage flags = some package) :
    ∀ pf ∈ flags, pf.package = package := by
  cases flags with
  | nil => cases h
  | cons first rest =>
      rw [findUniquePackage] at h
      split at h
      · cases h
      · rename_i hany
        cases h
        simpa using hany

theorem createJavaLib_eq_ok
    (h : createJavaLib flags mode = .ok cfg) (hmode : mode = .production ∨ mode = .test) :
    verifyFields flags = .ok () ∧ assignFlagIds cfg.package flags = .ok cfg.flagIds ∧
      (∀ pf ∈ flags, pf.package = cfg.package) ∧
      cfg.packageFingerprint = computeFlagsFingerprint (keptNames flags) := by
  obtain ⟨_, hverified, h⟩ := Loop.bind_eq_ok.mp h
  obtain ⟨modified, hmodified, h⟩ := Loop.bind_eq_ok.mp h
  obtain rfl := modifyParsedFlagsBasedOnMode_eq_ok hmodified hmode
  split at h
  · cases h
  · rename_i package hpackage
    obtain ⟨names, hnames, h⟩ := Loop.bind_eq_ok.mp h
    obtain ⟨ids, hids, h⟩ := Loop.bind_eq_ok.mp h
    cases h
    refine ⟨hverified, hids, findUniquePackage_eq_some hpackage, ?_⟩
    rw [extractFlagNames, hpackage] at hnames
    cases hnames
    rfl

theorem createJavaLib_flagIds
    (h : createJavaLib flags mode = .ok cfg) (hmode : mode = .production ∨ mode = .test) :
    (keptNames flags).length ≤ 65535 ∧ (keptNames flags).Pairwise (· < ·) ∧
      ∀ name id, cfg.flagIds name = some id ↔
        ∃ i, (keptNames flags)[i]? = some name ∧ id = UInt16.ofNat i := by
  obtain ⟨hverified, hids, hpackage, _⟩ := createJavaLib_eq_ok h hmode
  have hnodup : (keptNames flags).Nodup :=
    (nodup_names_of_verifyFields hverified hpackage).sublist (List.filter_sublist.map _)
  obtain ⟨_, hlength, hchain, hnumbers⟩ := assignFlagIds_spec hids hnodup
  refine ⟨hlength, ?_, hnumbers⟩
  have hle : (keptNames flags).Pairwise (· ≤ ·) := by
    have hflags : flags.Pairwise (fun a b => a.name ≤ b.name) := by
      refine List.isChain_iff_pairwise.mp (hchain.imp ?_)
      intro a b hab
      exact not_lt.mp hab
    exact List.pairwise_map.mpr (hflags.sublist List.filter_sublist)
  exact (hle.and hnodup).imp (fun hboth => lt_of_le_of_ne hboth.1 hboth.2)

end Codegen

end Aconfig
end AndroidBuild
