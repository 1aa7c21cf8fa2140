import AndroidBuild.Aconfig.FlagIds

/-!
# Fingerprints of the flags of a package

The generated library and the storage files carry a fingerprint of the flag
names.  Made from the same cache they agree, on the fingerprint and on the
flag ids.  Made from different caches, equal fingerprints should mean equal
names; but the fingerprint is a hash of the names one after the other, without
anything between them, so it does not tell all sets of names apart.
-/

namespace AndroidBuild
namespace Aconfig

section Agreement

theorem packageFlags_of_cache
    {flags : List ParsedFlag} {before after : List (List ParsedFlag)} {package : String}
    (hflags : ∀ pf ∈ flags, pf.package = package)
    (hother : ∀ cache ∈ before ++ after, ∀ pf ∈ cache, pf.package ≠ package) :
    packageFlags (before ++ flags :: after).flatten package = flags.filter shouldIncludeFlag := by
  have hnone : ∀ caches : List (List ParsedFlag),
      (∀ cache ∈ caches, ∀ pf ∈ cache, pf.package ≠ package) →
      packageFlags caches.flatten package = [] := by
    intro caches hcaches
    refine List.filter_eq_nil_iff.mpr ?_
    intro pf hpf
    obtain ⟨cache, hcache, hmem⟩ := List.mem_flatten.mp hpf
    simp [hcaches cache hcache pf hmem]
  have hbefore := hnone before (fun cache hcache => hother cache (by simp [hcache]))
  have hafter := hnone after (fun cache hcache => hother cache (by simp [hcache]))
  have hthis : packageFlags flags package = flags.filter shouldIncludeFlag := by
    refine List.filter_congr ?_
    intro pf hpf
    simp [hflags pf hpf]
  rw [packageFlags] at hbefore hafter hthis ⊢
  rw [List.flatten_append, List.flatten_cons, List.filter_append, List.filter_append, hbefore,
    hafter, hthis, List.nil_append, List.append_nil]

/-- The generated library and the storage agree on the fingerprint and on the flag ids. -/
theorem createJavaLib_storage
    {flags : List ParsedFlag} {mode : CodegenMode} {cfg : CodegenConfig}
    (hcfg : createJavaLib flags mode = .ok cfg) (hmode : mode = .production ∨ mode = .test)
    {before after : List (List ParsedFlag)}
    (hother : ∀ cache ∈ before ++ after, ∀ pf ∈ cache, pf.package ≠ cfg.package)
    {version : UInt32} (hversion : 2 ≤ version) {redact : Bool} {container : String}
    {packages : List FlagPackage} {packageTable : PackageTable} {flagTable : FlagTable}
    (hpackages : groupFlagsByPackage (before ++ flags :: after) version redact = .ok packages)
    (hpt : createPackageTable container packages version = .ok packageTable)
    (hft : createFlagTable container packages version = .ok flagTable) :
    ∀ pf ∈ flags, shouldIncludeFlag pf = true →
      (∃ node ∈ packageTable.nodes, node.packageName = cfg.package) ∧
      ∀ node ∈ packageTable.nodes, node.packageName = cfg.package →
        node.fingerprint = cfg.packageFingerprint ∧
        (∃ flagNode ∈ flagTable.nodes,
          flagNode.packageId = node.packageId ∧ flagNode.flagName = pf.name) ∧
        ∀ flagNode ∈ flagTable.nodes, flagNode.packageId = node.packageId →
          flagNode.flagName = pf.name → cfg.flagIds pf.name = some flagNode.flagIndex := by
  intro pf hpf hkeep
  obtain ⟨hverified, _, hpackage, hfingerprint⟩ := createJavaLib_eq_ok hcfg hmode
  have hgrouped := groupFlagsByPackage_grouped hpackages
  have hcache := packageFlags_of_cache hpackage hother
  -- the storage collects the names that the code is generated from
  have hnames : ∀ p ∈ packages, p.packageName = cfg.package → p.flagNames = keptNames flags := by
    intro p hp hname
    have hnodup : (keptNames flags).Nodup :=
      (nodup_names_of_verifyFields hverified hpackage).sublist (List.filter_sublist.map _)
    rw [hgrouped.flagNames p hp, hgrouped.booleanFlags p hp, hname, hcache,
      distinctFlags_eq_self hnodup]
    rfl
  have hids := (createJavaLib_flagIds hcfg hmode).2.2
  constructor
  · have hne : packageFlags (before ++ flags :: after).flatten cfg.package ≠ [] := by
      rw [hcache]
      exact List.ne_nil_of_mem (List.mem_filter.mpr ⟨hpf, hkeep⟩)
    obtain ⟨_, _, node, hnode, _, hname, _⟩ := exists_packageNode hpackages hpt hne
    exact ⟨node, hnode, hname⟩
  · intro node hnode hname
    obtain ⟨p, hp, hpname, hpid, hpfingerprint⟩ :=
      packageNode_of_name hpackages hpt hversion hnode
    have hpnames := hnames p hp (hpname.symm.trans hname)
    rw [hpid, hpfingerprint, hpnames, hfingerprint]
    refine ⟨rfl, ?_, ?_⟩
    · obtain ⟨i, hi⟩ := List.mem_iff_getElem?.mp
        (List.mem_map_of_mem (f := fun q => q.name) (List.mem_filter.mpr ⟨hpf, hkeep⟩))
      obtain ⟨flagNode, hflagNode, hid, hflagName, _⟩ :=
        (flagIndex_iff hpackages hft hp pf.name (UInt16.ofNat i)).mpr ⟨i, hpnames ▸ hi, rfl⟩
      exact ⟨flagNode, hflagNode, hid, hflagName⟩
    · intro flagNode hflagNode hid hflagName
      rw [hids, ← hpnames]
      exact (flagIndex_iff hpackages hft hp pf.name flagNode.flagIndex).mp
        ⟨flagNode, hflagNode, hid, hflagName, rfl⟩

def systemFlag (package name : String) (state : FlagState) : ParsedFlag :=
  ⟨package, name, some "system", state, .readOnly, false, false, some .none⟩

theorem exists_ok_of_isSome
    {ε α : Type} {x : Except ε α} (h : x.toOption.isSome = true) :
    ∃ a, x = .ok a := by
  cases x with
  | ok a => exact ⟨a, rfl⟩
  | error e => cases h

def createTables (container : String) (caches : List (List ParsedFlag)) (version : UInt32) :
    Checked AconfigError (List FlagPackage × PackageTable × FlagTable) := do
  let packages ← groupFlagsByPackage caches version false
  let packageTable ← createPackageTable container packages version
  let flagTable ← createFlagTable container packages version
  pure (packages, packageTable, flagTable)

theorem createTables_eq_ok
    {container : String} {caches : List (List ParsedFlag)} {version : UInt32}
    {r : List FlagPackage × PackageTable × FlagTable}
    (h : createTables container caches version = .ok r) :
    groupFlagsByPackage caches version false = .ok r.1 ∧
      createPackageTable container r.1 version = .ok r.2.1 ∧
      createFlagTable container r.1 version = .ok r.2.2 := by
  obtain ⟨packages, hpackages, h⟩ := Loop.bind_eq_ok.mp h
  obtain ⟨packageTable, hpt, h⟩ := Loop.bind_eq_ok.mp h
  obtain ⟨flagTable, hft, h⟩ := Loop.bind_eq_ok.mp h
  cases h
  exact ⟨hpackages, hpt, hft⟩

/-- The second flag of the package is not kept, so the third one has the id 1. -/
theorem createJavaLib_storage_example :
    let flags := [systemFlag "com.a" "x" .enabled, systemFlag "com.a" "y" .disabled,
      systemFlag "com.a" "z" .enabled]
    ∃ cfg packages packageTable flagTable,
      createJavaLib flags .production = .ok cfg ∧
      groupFlagsByPackage ([[systemFlag "com.b" "z" .enabled]] ++ flags :: []) 2 false =
        .ok packages ∧
      createPackageTable "system" packages 2 = .ok packageTable ∧
      createFlagTable "system" packages 2 = .ok flagTable ∧
      (∃ node ∈ packageTable.nodes, node.packageName = cfg.package) ∧
      ∀ node ∈ packageTable.nodes, node.packageName = cfg.package →
        node.fingerprint = cfg.packageFingerprint ∧
        ∀ flagNode ∈ flagTable.nodes, flagNode.packageId = node.packageId →
          flagNode.flagName = "z" → cfg.flagIds "z" = some flagNode.flagIndex := by
  intro flags
  obtain ⟨cfg, hcfg⟩ := exists_ok_of_isSome (x := createJavaLib flags .production)
    (by decide +kernel)
  obtain ⟨r, hr⟩ := exists_ok_of_isSome (x := createTables "system"
    ([[systemFlag "com.b" "z" .enabled]] ++ flags :: []) 2) (by decide +kernel)
  obtain ⟨hpackages, hpt, hft⟩ := createTables_eq_ok hr
  have hpackage := (createJavaLib_eq_ok hcfg (.inl rfl)).2.2.1
    (systemFlag "com.a" "x" .enabled) (by simp [flags])
  have hall := createJavaLib_storage hcfg (.inl rfl) (by
    rw [← hpackage]
    decide) (by decide) hpackages hpt hft (systemFlag "com.a" "z" .enabled) (by simp [flags])
    (by decide)
  refine ⟨cfg, r.1, r.2.1, r.2.2, hcfg, hpackages, hpt, hft, hall.1, ?_⟩
  intro node hnode hname
  exact ⟨(hall.2 node hnode hname).1, (hall.2 node hnode hname).2.2⟩

end Agreement

section Fingerprints

def hashedBytes (names : List String) : List UInt8 :=
  ((sortNames names).map bytesOf).flatten

def sipHash (bytes : List UInt8) : BitVec 64 :=
  (SipHasher13.new.write bytes).finish

theorem computeFlagsFingerprint_eq
    (names : List String) :
    computeFlagsFingerprint names = sipHash (hashedBytes names) := by
  have hone := foldl_write [hashedBytes names]
  rw [List.foldl_cons, List.foldl_nil, List.flatten_singleton] at hone
  rw [computeFlagsFingerprint, sipHash, hone, hashedBytes, ← foldl_write, List.foldl_map]

theorem sortNames_eq_self
    {names : List String} (h : names.Pairwise (· < ·)) :
    sortNames names = names := by
  refine List.Pairwise.insertionSort_eq (h.imp ?_)
  intro a b hab
  exact not_lt.mpr hab.le

theorem bytesOf_ne_nil
    {name : String} (h : name ≠ "") :
    bytesOf name ≠ [] := by
  intro hnil
  refine h (String.utf8ByteSize_eq_zero_iff.mp ?_)
  rw [← String.size_toByteArray]
  exact congrArg List.length hnil

/-- Names that are not empty do not fit behind others with the same bytes. -/
theorem eq_of_begins_of_hashedBytes
    {names stored : List String} (hnames : names.Pairwise (· < ·))
    (hstored : stored.Pairwise (· < ·)) (hempty : ∀ name ∈ stored, name ≠ "")
    ( hprefix : names <+: stored) (hbytes : hashedBytes names = hashedBytes stored) :
    names = stored := by
  obtain ⟨rest, rfl⟩ := hprefix
  rw [hashedBytes, hashedBytes, sortNames_eq_self hnames, sortNames_eq_self hstored,
    List.map_append, List.flatten_append] at hbytes
  have hnil := List.flatten_eq_nil_iff.mp (List.append_right_eq_self.mp hbytes.symm)
  have hrest : rest = [] := by
    refine List.eq_nil_iff_forall_not_mem.mpr ?_
    intro name hname
    refine bytesOf_ne_nil (hempty name (by simp [hname])) (hnil _ (List.mem_map_of_mem hname))
  rw [hrest, List.append_nil]

end Fingerprints

section Check

def storageNames (caches : List (List ParsedFlag)) (package : String) : List String :=
  (distinctFlags (packageFlags caches.flatten package)).map (fun pf => pf.name)

/-- Every id of the generated library is the index of the flag with the same name. -/
def CodegenConfig.Refers (cfg : CodegenConfig) (node : PackageTableNode) (flagTable : FlagTable) :
    Prop :=
  ∀ name id, cfg.flagIds name = some id →
    (∃ flagNode ∈ flagTable.nodes, flagNode.packageId = node.packageId ∧
      flagNode.flagIndex = id) ∧
    ∀ flagNode ∈ flagTable.nodes, flagNode.packageId = node.packageId →
      flagNode.flagIndex = id → flagNode.flagName = name

variable {flags : List ParsedFlag} {mode : CodegenMode} {cfg : CodegenConfig}
  {caches : List (List ParsedFlag)} {version : UInt32} {redact : Bool} {container : String}
  {packages : List FlagPackage} {packageTable : PackageTable} {flagTable : FlagTable}
  {node : PackageTableNode}

theorem ofNat_inj_of_le
    {i j : Nat} (hi : i < 65535) (hj : j < 65535) (h : UInt16.ofNat i = UInt16.ofNat j) :
    i = j := by
  rwa [← UInt16.toNat_inj, UInt16.toNat_ofNat_of_lt' (show i < 2 ^ 16 by omega),
    UInt16.toNat_ofNat_of_lt' (show j < 2 ^ 16 by omega)] at h

theorem refers_iff
    (hcfg : createJavaLib flags mode = .ok cfg) (hmode : mode = .production ∨ mode = .test)
    (hversion : 2 ≤ version)
    (hpackages : groupFlagsByPackage caches version redact = .ok packages)
    (hpt : createPackageTable container packages version = .ok packageTable)
    (hft : createFlagTable container packages version = .ok flagTable)
    (hnode : node ∈ packageTable.nodes) (hname : node.packageName = cfg.package) :
    cfg.Refers node flagTable ↔ keptNames flags <+: storageNames caches cfg.package := by
  obtain ⟨p, hp, hpname, hpid, _⟩ := packageNode_of_name hpackages hpt hversion hnode
  have hgrouped := groupFlagsByPackage_grouped hpackages
  have hstored : p.flagNames = storageNames caches cfg.package := by
    rw [hgrouped.flagNames p hp, hgrouped.booleanFlags p hp, ← hpname, hname]
    rfl
  obtain ⟨hkept, _, hids⟩ := createJavaLib_flagIds hcfg hmode
  have hlength : p.flagNames.length ≤ 65535 := by
    obtain ⟨ids, hids⟩ := (mem_createFlagTable hft).1 p hp
    exact (hgrouped.assignFlagIds hp hids).1
  have hindex := flagIndex_iff hpackages hft hp
  rw [← hstored, List.prefix_iff_getElem?, CodegenConfig.Refers, hpid]
  constructor
  · intro h i hi
    obtain ⟨⟨flagNode, hflagNode, hid, hfid⟩, hnames⟩ :=
      h _ (UInt16.ofNat i) ((hids _ _).mpr ⟨i, List.getElem?_eq_getElem hi, rfl⟩)
    have hflagName := hnames flagNode hflagNode hid hfid
    obtain ⟨j, hj, hij⟩ := (hindex _ _).mp ⟨flagNode, hflagNode, hid, hflagName, hfid⟩
    have hjlt := (List.getElem?_eq_some_iff.mp hj).1
    obtain rfl := ofNat_inj_of_le (by omega) (by omega) hij
    exact hj
  · intro h name id hid
    obtain ⟨i, hi, rfl⟩ := (hids name id).mp hid
    obtain ⟨hlt, hget⟩ := List.getElem?_eq_some_iff.mp hi
    have hthere := h i hlt
    rw [hget] at hthere
    have hilt := (List.getElem?_eq_some_iff.mp hthere).1
    constructor
    · obtain ⟨flagNode, hflagNode, hfid, _, hindex⟩ := (hindex name _).mpr ⟨i, hthere, rfl⟩
      exact ⟨flagNode, hflagNode, hfid, hindex⟩
    · intro flagNode hflagNode hfid hflagIndex
      obtain ⟨j, hj, hij⟩ := (hindex flagNode.flagName (UInt16.ofNat i)).mp
        ⟨flagNode, hflagNode, hfid, rfl, hflagIndex⟩
      have hjlt := (List.getElem?_eq_some_iff.mp hj).1
      rw [← ofNat_inj_of_le (by omega) (by omega) hij, hthere] at hj
      exact (Option.some.inj hj).symm

/-- The names in the storage are verified and in order. -/
theorem storageNames_spec
    (hverified : ∀ cache ∈ caches, verifyFields cache = .ok ())
    (hpackages : groupFlagsByPackage caches version redact = .ok packages)
    (hft : createFlagTable container packages version = .ok flagTable)
    {p : FlagPackage} (hp : p ∈ packages) :
    p.flagNames = storageNames caches p.packageName ∧
      (storageNames caches p.packageName).Pairwise (· < ·) ∧
      ∀ name ∈ storageNames caches p.packageName, name ≠ "" := by
  have hgrouped := groupFlagsByPackage_grouped hpackages
  have hstored : p.flagNames = storageNames caches p.packageName := by
    rw [hgrouped.flagNames p hp, hgrouped.booleanFlags p hp]
    rfl
  obtain ⟨ids, hids⟩ := (mem_createFlagTable hft).1 p hp
  refine ⟨hstored, hstored ▸ (hgrouped.assignFlagIds hp hids).2.1, ?_⟩
  intro name hname
  obtain ⟨pf, hpf, rfl⟩ := List.mem_map.mp hname
  obtain ⟨cache, hcache, hmem⟩ := List.mem_flatten.mp
    (List.mem_filter.mp (mem_of_mem_distinctFlags hpf)).1
  exact name_ne_empty ((verifyFields_sorted (hverified cache hcache)).2 pf hmem)

/-- The check of the fingerprint suffices unless different names have the same bytes. -/
theorem refers_of_fingerprint_iff
    (hcfg : createJavaLib flags mode = .ok cfg) (hmode : mode = .production ∨ mode = .test)
    (hverified : ∀ cache ∈ caches, verifyFields cache = .ok ()) (hversion : 2 ≤ version)
    (hpackages : groupFlagsByPackage caches version redact = .ok packages)
    (hpt : createPackageTable container packages version = .ok packageTable)
    (hft : createFlagTable container packages version = .ok flagTable)
    (hnode : node ∈ packageTable.nodes) (hname : node.packageName = cfg.package)
    (hinjective : sipHash (hashedBytes (keptNames flags)) =
        sipHash (hashedBytes (storageNames caches cfg.package)) →
      hashedBytes (keptNames flags) = hashedBytes (storageNames caches cfg.package)) :
    (cfg.packageFingerprint = node.fingerprint → cfg.Refers node flagTable) ↔
      (keptNames flags = storageNames caches cfg.package ∨
        hashedBytes (keptNames flags) ≠ hashedBytes (storageNames caches cfg.package)) := by
  obtain ⟨p, hp, hpname, _, hfingerprint⟩ := packageNode_of_name hpackages hpt hversion hnode
  obtain ⟨hstored, hsorted, hempty⟩ := storageNames_spec hverified hpackages hft hp
  rw [← hpname, hname] at hstored hsorted hempty
  have hequal : cfg.packageFingerprint = node.fingerprint ↔
      hashedBytes (keptNames flags) = hashedBytes (storageNames caches cfg.package) := by
    rw [hfingerprint, hstored, (createJavaLib_eq_ok hcfg hmode).2.2.2, computeFlagsFingerprint_eq,
      computeFlagsFingerprint_eq]
    exact ⟨hinjective, congrArg sipHash⟩
  rw [hequal, refers_iff hcfg hmode hversion hpackages hpt hft hnode hname, or_iff_not_imp_right,
    not_not]
  refine imp_congr_right ?_
  intro hbytes
  constructor
  · intro h
    exact eq_of_begins_of_hashedBytes (createJavaLib_flagIds hcfg hmode).2.1 hsorted hempty h hbytes
  · intro h
    rw [h]

theorem refers_of_fingerprint_example :
    let flags := [systemFlag "com.a" "x" .enabled, systemFlag "com.a" "z" .enabled]
    ∃ cfg packages packageTable flagTable,
      createJavaLib flags .production = .ok cfg ∧
      groupFlagsByPackage [flags] 2 false = .ok packages ∧
      createPackageTable "system" packages 2 = .ok packageTable ∧
      createFlagTable "system" packages 2 = .ok flagTable ∧
      ∃ node ∈ packageTable.nodes, node.packageName = cfg.package ∧
        (cfg.packageFingerprint = node.fingerprint → cfg.Refers node flagTable) := by
  intro flags
  obtain ⟨cfg, hcfg⟩ := exists_ok_of_isSome (x := createJavaLib flags .production)
    (by decide +kernel)
  obtain ⟨r, hr⟩ := exists_ok_of_isSome (x := createTables "system" [flags] 2) (by decide +kernel)
  obtain ⟨hpackages, hpt, hft⟩ := createTables_eq_ok hr
  have hpackage := (createJavaLib_eq_ok hcfg (.inl rfl)).2.2.1
    (systemFlag "com.a" "x" .enabled) (by simp [flags])
  have hstored : keptNames flags = storageNames [flags] cfg.package := by
    rw [← hpackage]
    decide
  have hflags : packageFlags [flags].flatten "com.a" ≠ [] := by decide
  obtain ⟨_, _, node, hnode, _, hname, _⟩ := exists_packageNode hpackages hpt hflags
  have hcom : node.packageName = cfg.package := hname.trans hpackage
  refine ⟨cfg, r.1, r.2.1, r.2.2, hcfg, hpackages, hpt, hft, node, hnode, hcom, ?_⟩
  refine (refers_of_fingerprint_iff hcfg (.inl rfl) ?_ (by decide) hpackages hpt hft hnode hcom
    (fun _ => by rw [hstored])).mpr (.inl hstored)
  intro cache hcache
  rw [List.mem_singleton.mp hcache]
  exact (createJavaLib_eq_ok hcfg (.inl rfl)).1

/-- The flags `a` and `bc` have the fingerprint of `ab` and `c`. -/
theorem refers_of_fingerprint_fails :
    let flags := [systemFlag "com.a" "a" .enabled, systemFlag "com.a" "bc" .enabled]
    let caches := [[systemFlag "com.a" "ab" .enabled, systemFlag "com.a" "c" .enabled]]
    hashedBytes (keptNames flags) = hashedBytes (storageNames caches "com.a") ∧
    ∃ cfg packages packageTable flagTable,
      createJavaLib flags .production = .ok cfg ∧ cfg.package = "com.a" ∧
      (∀ cache ∈ caches, verifyFields cache = .ok ()) ∧
      groupFlagsByPackage caches 2 false = .ok packages ∧
      createPackageTable "system" packages 2 = .ok packageTable ∧
      createFlagTable "system" packages 2 = .ok flagTable ∧
      ∃ node ∈ packageTable.nodes, node.packageName = cfg.package ∧
        cfg.packageFingerprint = node.fingerprint ∧ ¬ cfg.Refers node flagTable := by
  intro flags caches
  have hbytes : hashedBytes (keptNames flags) = hashedBytes (storageNames caches "com.a") := by
    decide +kernel
  obtain ⟨cfg, hcfg⟩ := exists_ok_of_isSome (x := createJavaLib flags .production)
    (by decide +kernel)
  obtain ⟨r, hr⟩ := exists_ok_of_isSome (x := createTables "system" caches 2) (by decide +kernel)
  obtain ⟨hpackages, hpt, hft⟩ := createTables_eq_ok hr
  have hpackage : cfg.package = "com.a" := ((createJavaLib_eq_ok hcfg (.inl rfl)).2.2.1
    (systemFlag "com.a" "a" .enabled) (by simp [flags])).symm
  have hverified : ∀ cache ∈ caches, verifyFields cache = .ok () := by decide +kernel
  have hflags : packageFlags caches.flatten "com.a" ≠ [] := by decide
  obtain ⟨p, hp, node, hnode, hname, hnodeName, hfingerprint⟩ :=
    exists_packageNode hpackages hpt hflags
  have hcom : node.packageName = cfg.package := hnodeName.trans hpackage.symm
  refine ⟨hbytes, cfg, r.1, r.2.1, r.2.2, hcfg, hpackage, hverified, hpackages, hpt, hft, node,
    hnode, hcom, ?_, ?_⟩
  · have hstored := (storageNames_spec hverified hpackages hft hp).1
    rw [(createJavaLib_eq_ok hcfg (.inl rfl)).2.2.2, hfingerprint,
      groupFlagsByPackage_fingerprint hpackages (by decide) hp, hstored, hname,
      computeFlagsFingerprint_eq, computeFlagsFingerprint_eq, hbytes]
  · rw [refers_iff hcfg (.inl rfl) (by decide) hpackages hpt hft hnode hcom, hpackage]
    decide

end Check

end Aconfig
end AndroidBuild
