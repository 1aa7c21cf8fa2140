import AndroidBuild.Aconfig.Flags

/-!
# The packages of the storage files

`group_flags_by_package` collects the flags of all caches that the storage
keeps.  A package has the flags that the caches have for it, the first of each
name, in the order of the caches.
-/

namespace AndroidBuild
namespace Aconfig

section Distinct

def distinctFlags (flags : List ParsedFlag) : List ParsedFlag :=
  flags.foldl (fun kept pf => if pf.name ∈ kept.map (fun q => q.name) then kept else kept ++ [pf])
    []

theorem distinctFlags_concat
    (flags : List ParsedFlag) (pf : ParsedFlag) :
    distinctFlags (flags ++ [pf]) =
      if pf.name ∈ (distinctFlags flags).map (fun q => q.name) then distinctFlags flags
      else distinctFlags flags ++ [pf] := by
  rw [distinctFlags, List.foldl_append]
  rfl

theorem nodup_distinctFlags
    (flags : List ParsedFlag) :
    ((distinctFlags flags).map (fun q => q.name)).Nodup := by
  induction flags using List.reverseRecOn with
  | nil => exact List.nodup_nil
  | append_singleton flags pf ih =>
      rw [distinctFlags_concat]
      split
      · exact ih
      · rw [List.map_append, List.nodup_append]
        refine ⟨ih, by simp, ?_⟩
        intro a ha b hb hab
        simp only [List.map_cons, List.map_nil, List.mem_singleton] at hb
        subst hab hb
        contradiction

theorem mem_names_distinctFlags
    {flags : List ParsedFlag} {name : String} :
    name ∈ (distinctFlags flags).map (fun q => q.name) ↔ name ∈ flags.map (fun q => q.name) := by
  induction flags using List.reverseRecOn with
  | nil => rfl
  | append_singleton flags pf ih =>
      rw [distinctFlags_concat, List.map_append, List.mem_append, ← ih]
      split
      case isTrue h =>
          simp only [List.map_cons, List.map_nil, List.mem_singleton]
          constructor
          · exact Or.inl
          · rintro (hname | rfl)
            · exact hname
            · exact h
      case isFalse h => rw [List.map_append, List.mem_append]

theorem mem_of_mem_distinctFlags
    {flags : List ParsedFlag} {pf : ParsedFlag} (h : pf ∈ distinctFlags flags) :
    pf ∈ flags := by
  induction flags using List.reverseRecOn with
  | nil => exact h
  | append_singleton flags q ih =>
      rw [distinctFlags_concat] at h
      rw [List.mem_append]
      split at h
      · exact .inl (ih h)
      · rcases List.mem_append.mp h with h | h
        · exact .inl (ih h)
        · exact .inr h

/-- Nothing is left out when the names are distinct. -/
theorem distinctFlags_eq_self
    {flags : List ParsedFlag} (h : (flags.map (fun q => q.name)).Nodup) :
    distinctFlags flags = flags := by
  induction flags using List.reverseRecOn with
  | nil => rfl
  | append_singleton flags pf ih =>
      rw [List.map_append, List.nodup_append] at h
      rw [distinctFlags_concat, ih h.1, if_neg]
      intro hmem
      exact h.2.2 pf.name hmem pf.name (by simp) rfl

end Distinct

section Grouping

def packageFlags (flags : List ParsedFlag) (package : String) : List ParsedFlag :=
  flags.filter (fun pf => shouldIncludeFlag pf && pf.package = package)

theorem packageFlags_concat
    (flags : List ParsedFlag) (pf : ParsedFlag) (package : String) :
    packageFlags (flags ++ [pf]) package =
      if shouldIncludeFlag pf = true ∧ pf.package = package then packageFlags flags package ++ [pf]
      else packageFlags flags package := by
  rw [packageFlags, List.filter_append]
  split
  case isTrue h => simp [packageFlags, h.1, h.2]
  case isFalse h => simp [packageFlags, h]

/-- What the first loop has collected from `flags`. -/
structure Grouped (flags : List ParsedFlag) (packages : List FlagPackage) : Prop where
  names : (packages.map (fun p => p.packageName)).Nodup
  ids : ∀ i p, packages[i]? = some p → p.packageId = UInt32.ofNat i
  flagNames : ∀ p ∈ packages, p.flagNames = p.booleanFlags.map (fun pf => pf.name)
  booleanFlags : ∀ p ∈ packages,
    p.booleanFlags = distinctFlags (packageFlags flags p.packageName)
  complete : ∀ package, packageFlags flags package ≠ [] ↔
    ∃ p ∈ packages, p.packageName = package

theorem grouped_nil :
    Grouped [] [] := by
  refine ⟨List.nodup_nil, by simp, by simp, by simp, ?_⟩
  simp [packageFlags]

@[simp] theorem insert_packageName
    (p : FlagPackage) (pf : ParsedFlag) :
    (p.insert pf).packageName = p.packageName := by
  rw [FlagPackage.insert]
  split <;> rfl

@[simp] theorem insert_packageId
    (p : FlagPackage) (pf : ParsedFlag) :
    (p.insert pf).packageId = p.packageId := by
  rw [FlagPackage.insert]
  split <;> rfl

theorem insert_flagNames
    {p : FlagPackage} (pf : ParsedFlag)
    (h : p.flagNames = p.booleanFlags.map (fun q => q.name)) :
    (p.insert pf).flagNames = (p.insert pf).booleanFlags.map (fun q => q.name) := by
  rw [FlagPackage.insert]
  split
  · exact h
  · simp [h]

theorem insert_booleanFlags
    {p : FlagPackage} {pf : ParsedFlag} {flags : List ParsedFlag}
    (hnames : p.flagNames = p.booleanFlags.map (fun q => q.name))
    (hflags : p.booleanFlags = distinctFlags flags) :
    (p.insert pf).booleanFlags = distinctFlags (flags ++ [pf]) := by
  rw [distinctFlags_concat, ← hflags, ← hnames, FlagPackage.insert]
  split <;> rfl

/-- A flag that the storage does not keep. -/
theorem Grouped.skip
    {flags : List ParsedFlag} {packages : List FlagPackage} (h : Grouped flags packages)
    {pf : ParsedFlag} (hkeep : ¬ shouldIncludeFlag pf = true) :
    Grouped (flags ++ [pf]) packages := by
  have hsame : ∀ package, packageFlags (flags ++ [pf]) package = packageFlags flags package := by
    intro package
    rw [packageFlags_concat, if_neg (fun hboth => hkeep hboth.1)]
  refine ⟨h.names, h.ids, h.flagNames, ?_, ?_⟩
  · intro p hp
    rw [hsame, h.booleanFlags p hp]
  · intro package
    rw [hsame, h.complete]

theorem Grouped.insert
    {flags : List ParsedFlag} {packages : List FlagPackage} (h : Grouped flags packages)
    {pf : ParsedFlag} (hkeep : shouldIncludeFlag pf = true)
    (hthere : ∃ p ∈ packages, p.packageName = pf.package) :
    Grouped (flags ++ [pf])
      (packages.map (fun p => if p.packageName = pf.package then p.insert pf else p)) := by
  have hname : ∀ p : FlagPackage,
      (if p.packageName = pf.package then p.insert pf else p).packageName = p.packageName := by
    intro p
    split
    · exact insert_packageName p pf
    · rfl
  refine ⟨?_, ?_, ?_, ?_, ?_⟩
  · have hnames : (fun p : FlagPackage => p.packageName) ∘
        (fun p => if p.packageName = pf.package then p.insert pf else p) =
          fun p => p.packageName := funext hname
    rw [List.map_map, hnames]
    exact h.names
  · intro i p' hp'
    rw [List.getElem?_map, Option.map_eq_some_iff] at hp'
    obtain ⟨p, hp, rfl⟩ := hp'
    rw [← h.ids i p hp]
    split
    · exact insert_packageId p pf
    · rfl
  · intro p' hp'
    obtain ⟨p, hp, rfl⟩ := List.mem_map.mp hp'
    split
    · exact insert_flagNames pf (h.flagNames p hp)
    · exact h.flagNames p hp
  · intro p' hp'
    obtain ⟨p, hp, rfl⟩ := List.mem_map.mp hp'
    rw [hname, packageFlags_concat]
    split
    case isTrue hpackage =>
        rw [if_pos ⟨hkeep, hpackage.symm⟩]
        exact insert_booleanFlags (h.flagNames p hp) (h.booleanFlags p hp)
    case isFalse hpackage =>
        rw [if_neg (fun hboth => hpackage hboth.2.symm)]
        exact h.booleanFlags p hp
  · intro package
    have hmem : (∃ p' ∈ packages.map (fun p => if p.packageName = pf.package then p.insert pf
        else p), p'.packageName = package) ↔ ∃ p ∈ packages, p.packageName = package := by
      constructor
      · rintro ⟨p', hp', rfl⟩
        obtain ⟨p, hp, rfl⟩ := List.mem_map.mp hp'
        exact ⟨p, hp, (hname p).symm⟩
      · rintro ⟨p, hp, rfl⟩
        exact ⟨_, List.mem_map.mpr ⟨p, hp, rfl⟩, hname p⟩
    rw [hmem, packageFlags_concat]
    split
    case isTrue hpackage =>
        refine iff_of_true (by simp) ?_
        rw [← hpackage.2]
        exact hthere
    case isFalse => exact h.complete package

theorem Grouped.push
    {flags : List ParsedFlag} {packages : List FlagPackage} (h : Grouped flags packages)
    {pf : ParsedFlag} (hkeep : shouldIncludeFlag pf = true)
    (hnew : ∀ p ∈ packages, p.packageName ≠ pf.package) :
    Grouped (flags ++ [pf])
      (packages ++ [(FlagPackage.new pf.package (UInt32.ofNat packages.length)).insert pf]) := by
  have hnone : packageFlags flags pf.package = [] := by
    by_contra hne
    obtain ⟨p, hp, hpackage⟩ := (h.complete pf.package).mp hne
    exact hnew p hp hpackage
  have hother : ∀ package, package ≠ pf.package →
      packageFlags (flags ++ [pf]) package = packageFlags flags package := by
    intro package hne
    rw [packageFlags_concat, if_neg (fun hboth => hne hboth.2.symm)]
  refine ⟨?_, ?_, ?_, ?_, ?_⟩
  · rw [List.map_append, List.nodup_append]
    refine ⟨h.names, by simp, ?_⟩
    intro a ha b hb hab
    obtain ⟨p, hp, rfl⟩ := List.mem_map.mp ha
    simp only [List.map_cons, List.map_nil, List.mem_singleton, insert_packageName] at hb
    exact hnew p hp (hab.trans hb)
  · intro i p hp
    rcases List.getElem?_eq_some_iff.mp hp with ⟨hlt, hget⟩
    rw [List.length_append, List.length_singleton] at hlt
    by_cases hi : i < packages.length
    · rw [List.getElem?_append_left hi] at hp
      exact h.ids i p hp
    · obtain rfl : i = packages.length := by omega
      rw [List.getElem?_concat_length, Option.some.injEq] at hp
      rw [← hp, insert_packageId]
      rfl
  · intro p hp
    rcases List.mem_append.mp hp with hp | hp
    · exact h.flagNames p hp
    · rw [List.mem_singleton.mp hp]
      exact insert_flagNames pf rfl
  · intro p hp
    rcases List.mem_append.mp hp with hp | hp
    · rw [hother _ (hnew p hp), h.booleanFlags p hp]
    · rw [List.mem_singleton.mp hp, insert_packageName]
      have hpackage : (FlagPackage.new pf.package (UInt32.ofNat packages.length)).packageName =
          pf.package := rfl
      rw [hpackage, packageFlags_concat, if_pos ⟨hkeep, rfl⟩]
      refine insert_booleanFlags rfl ?_
      rw [hnone]
      rfl
  · intro package
    by_cases hpackage : package = pf.package
    · subst hpackage
      refine iff_of_true ?_ ⟨_, List.mem_append_right _ (List.mem_singleton_self _), ?_⟩
      · rw [packageFlags_concat, if_pos ⟨hkeep, rfl⟩]
        simp
      · exact insert_packageName _ _
    · rw [hother _ hpackage, h.complete]
      simp only [List.mem_append, List.mem_singleton, or_and_right, exists_or, exists_eq_left,
        insert_packageName]
      refine (or_iff_left ?_).symm
      intro hnewName
      exact hpackage hnewName.symm

theorem Grouped.step
    {flags : List ParsedFlag} {packages : List FlagPackage} (h : Grouped flags packages)
    (pf : ParsedFlag) :
    Grouped (flags ++ [pf]) (insertFlag packages pf) := by
  rw [insertFlag]
  split
  case isTrue hskip => exact h.skip (by simpa using hskip)
  case isFalse hkeep =>
      replace hkeep : shouldIncludeFlag pf = true := by simpa using hkeep
      split
      case isTrue hany =>
          refine h.insert hkeep ?_
          simpa using hany
      case isFalse hany =>
          refine h.push hkeep ?_
          simpa using hany

theorem grouped_foldl
    (flags : List ParsedFlag) :
    Grouped flags (flags.foldl insertFlag []) := by
  induction flags using List.reverseRecOn with
  | nil => exact grouped_nil
  | append_singleton flags pf ih =>
      rw [List.foldl_append]
      exact ih.step pf

theorem completePackages_eq_ok
    {version : UInt32} {redact : Bool} {start : UInt32} {groups packages : List FlagPackage}
    (h : completePackages version redact start groups = .ok packages) :
    List.Forall₂ (fun g p => ∃ i, p = completePackage version redact g i) groups packages := by
  induction groups generalizing start packages with
  | nil =>
      cases h
      exact .nil
  | cons g groups ih =>
      obtain ⟨next, _, h⟩ := Loop.bind_eq_ok.mp h
      obtain ⟨completed, hcompleted, h⟩ := Loop.bind_eq_ok.mp h
      cases h
      exact .cons ⟨start, rfl⟩ (ih hcompleted)

def FlagPackage.collected (p : FlagPackage) :
    String × UInt32 × List String × List ParsedFlag :=
  (p.packageName, p.packageId, p.flagNames, p.booleanFlags)

theorem completePackages_collected
    {version : UInt32} {redact : Bool} {start : UInt32} {groups packages : List FlagPackage}
    (h : completePackages version redact start groups = .ok packages) :
    packages.map FlagPackage.collected = groups.map FlagPackage.collected := by
  have hall := completePackages_eq_ok h
  clear h
  induction hall with
  | nil => rfl
  | cons hp _ ih =>
      obtain ⟨i, rfl⟩ := hp
      rw [List.map_cons, List.map_cons, ih]
      rfl

theorem Grouped.congr
    {flags : List ParsedFlag} {groups packages : List FlagPackage} (h : Grouped flags groups)
    (hsame : packages.map FlagPackage.collected = groups.map FlagPackage.collected) :
    Grouped flags packages := by
  have hmem : ∀ p ∈ packages, ∃ g ∈ groups, g.collected = p.collected := by
    intro p hp
    have hcollected := List.mem_map_of_mem (f := FlagPackage.collected) hp
    rw [hsame] at hcollected
    exact List.mem_map.mp hcollected
  have hback : ∀ g ∈ groups, ∃ p ∈ packages, p.collected = g.collected := by
    intro g hg
    have hcollected := List.mem_map_of_mem (f := FlagPackage.collected) hg
    rw [← hsame] at hcollected
    exact List.mem_map.mp hcollected
  refine ⟨?_, ?_, ?_, ?_, ?_⟩
  · have hnames := congrArg (List.map Prod.fst) hsame
    rw [List.map_map, List.map_map] at hnames
    exact hnames ▸ h.names
  · intro i p hp
    have hi : (packages.map FlagPackage.collected)[i]? = some p.collected := by
      rw [List.getElem?_map, hp]
      rfl
    rw [hsame, List.getElem?_map, Option.map_eq_some_iff] at hi
    obtain ⟨g, hg, hgp⟩ := hi
    rw [← h.ids i g hg]
    exact (congrArg (fun c => c.2.1) hgp).symm
  · intro p hp
    obtain ⟨g, hg, hgp⟩ := hmem p hp
    have hnames : g.flagNames = p.flagNames := congrArg (fun c => c.2.2.1) hgp
    have hflags : g.booleanFlags = p.booleanFlags := congrArg (fun c => c.2.2.2) hgp
    rw [← hnames, ← hflags, h.flagNames g hg]
  · intro p hp
    obtain ⟨g, hg, hgp⟩ := hmem p hp
    have hname : g.packageName = p.packageName := congrArg (fun c => c.1) hgp
    have hflags : g.booleanFlags = p.booleanFlags := congrArg (fun c => c.2.2.2) hgp
    rw [← hname, ← hflags, h.booleanFlags g hg]
  · intro package
    rw [h.complete]
    constructor
    · rintro ⟨g, hg, rfl⟩
      obtain ⟨p, hp, hpg⟩ := hback g hg
      exact ⟨p, hp, congrArg (fun c => c.1) hpg⟩
    · rintro ⟨p, hp, rfl⟩
      obtain ⟨g, hg, hgp⟩ := hmem p hp
      exact ⟨g, hg, congrArg (fun c => c.1) hgp⟩

/-- The packages of the storage files. -/
theorem groupFlagsByPackage_grouped
    {caches : List (List ParsedFlag)} {version : UInt32} {redact : Bool}
    {packages : List FlagPackage} (h : groupFlagsByPackage caches version redact = .ok packages) :
    Grouped caches.flatten packages :=
  (grouped_foldl caches.flatten).congr (completePackages_collected h)

theorem groupFlagsByPackage_fingerprint
    {caches : List (List ParsedFlag)} {version : UInt32} {redact : Bool}
    {packages : List FlagPackage} (h : groupFlagsByPackage caches version redact = .ok packages)
    (hversion : 2 ≤ version) {p : FlagPackage} (hp : p ∈ packages) :
    p.fingerprint = computeFlagsFingerprint p.flagNames := by
  have hall := completePackages_eq_ok h
  generalize caches.flatten.foldl insertFlag [] = groups at hall
  clear h
  induction hall with
  | nil => cases hp
  | cons hfirst _ ih =>
      rcases List.mem_cons.mp hp with rfl | hp
      · obtain ⟨i, rfl⟩ := hfirst
        exact if_pos hversion
      · exact ih hp

end Grouping

end Aconfig
end AndroidBuild
