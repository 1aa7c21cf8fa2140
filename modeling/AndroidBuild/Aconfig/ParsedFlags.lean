import AndroidBuild.Aconfig.ParseFlags

/-!
# The result of parsing

Every declaration gives one flag, whose state, permission, trace and storage
backend are those that the last of its values leaves.  Nothing panics but the
check of the mainline beta namespaces, and that only on exported flags of
platform containers.
-/

namespace AndroidBuild
namespace Aconfig

section Avoids

open Loop

theorem ensure_avoids
    (condition : Bool) (message : String) :
    Avoids .panic (ensure condition message) := by
  cases condition <;> exact nofun

theorem forM_avoids
    {α : Type} {f : α → Checked String Unit} {l : List α}
    (h : ∀ a ∈ l, Avoids .panic (f a)) :
    Avoids .panic (l.forM f) := by
  induction l with
  | nil => exact avoids_ok
  | cons a l ih =>
      rw [List.forall_mem_cons] at h
      exact Avoids.bind h.1 (fun _ _ => ih h.2)

theorem ensureRequiredFields_avoids
    (type : String) (fields : List (String × Bool)) :
    Avoids .panic (ensureRequiredFields type fields) :=
  forM_avoids (fun _ _ => ensure_avoids _ _)

theorem verifyFields_declaration_avoids
    (d : ProtoFlagDeclaration) :
    Avoids .panic d.verifyFields := by
  refine (ensureRequiredFields_avoids _ _).bind (fun _ _ => ?_)
  refine (ensure_avoids _ _).bind (fun _ _ => ?_)
  refine (ensure_avoids _ _).bind (fun _ _ => ?_)
  refine (ensure_avoids _ _).bind (fun _ _ => ?_)
  exact (ensure_avoids _ _).bind (fun _ _ => ensure_avoids _ _)

theorem verifyFields_declarations_avoids
    (pdf : ProtoFlagDeclarations) :
    Avoids .panic pdf.verifyFields := by
  refine (ensureRequiredFields_avoids _ _).bind (fun _ _ => ?_)
  refine (ensure_avoids _ _).bind (fun _ _ => ?_)
  refine (ensure_avoids _ _).bind (fun _ _ => ?_)
  exact forM_avoids (fun d _ => verifyFields_declaration_avoids d)

theorem verifyFields_value_avoids
    (fv : ProtoFlagValue) :
    Avoids .panic fv.verifyFields := by
  refine (ensureRequiredFields_avoids _ _).bind (fun _ _ => ?_)
  exact (ensure_avoids _ _).bind (fun _ _ => ensure_avoids _ _)

theorem verifyFields_tracepoint_avoids
    (tp : ProtoTracepoint) :
    Avoids .panic tp.verifyFields :=
  (ensureRequiredFields_avoids _ _).bind (fun _ _ => ensure_avoids _ _)

theorem verifyFields_parsedFlag_avoids
    (pf : ProtoParsedFlag) :
    Avoids .panic pf.verifyFields := by
  refine (ensureRequiredFields_avoids _ _).bind (fun _ _ => ?_)
  refine (ensure_avoids _ _).bind (fun _ _ => ?_)
  refine (ensure_avoids _ _).bind (fun _ _ => ?_)
  refine (ensure_avoids _ _).bind (fun _ _ => ?_)
  refine (ensure_avoids _ _).bind (fun _ _ => ?_)
  refine (ensure_avoids _ _).bind (fun _ _ => ?_)
  refine (ensure_avoids _ _).bind (fun _ _ => ?_)
  refine (forM_avoids (fun tp _ => verifyFields_tracepoint_avoids tp)).bind (fun _ _ => ?_)
  refine (ensure_avoids _ _).bind (fun _ _ => ?_)
  refine Avoids.bind ?_ (fun _ _ => ?_)
  · rw [ProtoParsedFlag.verifyFixedReadOnly]
    split
    · exact (ensure_avoids _ _).bind (fun _ _ => forM_avoids (fun _ _ => ensure_avoids _ _))
    · exact avoids_ok
  · rw [ProtoParsedFlag.verifyStorage]
    split <;> exact ensure_avoids _ _

theorem addContext_avoids
    {α : Type} {x : Checked String α} (h : Avoids .panic x) (context : String) :
    Avoids .panic (addContext context x) := by
  intro hpanic
  exact h (Checked.mapErr_eq_panic.mp hpanic)

theorem withContext_avoids
    {α : Type} (context : String) (x : Except String α) :
    Avoids .panic (withContext context x) := by
  cases x <;> exact nofun

theorem avoids_panic_cases
    {ε α : Type} {x : Checked ε α} (h : Avoids .panic x) :
    (∃ a, x = .ok a) ∨ ∃ e, x = .error (.err e) := by
  rcases x with (e | _) | a
  · exact .inr ⟨e, rfl⟩
  · exact absurd rfl h
  · exact .inl ⟨a, rfl⟩

end Avoids

section Declare

variable (args : ParseArgs)

theorem assignStorageBackend_eq
    {pf : ProtoParsedFlag} {d : ProtoFlagDeclaration} {m : ProtoFlagMetadata}
    (hcontainer : pf.container = args.container) (hnamespace : pf.flagNamespace = d.flagNamespace)
    (hmetadata : pf.metadata? = some m) :
    assignStorageBackend args.beta pf =
      .ok { pf with metadata? := some (m.setStorage (args.storageFor d pf.permission)) } := by
  have hstorage : (if pf.permission == .readOnly then StorageBackend.none
      else if args.beta.elim false (fun namespaces => namespaces.isMainlineBetaFlag pf)
      then .deviceConfig else .aconfigd) = args.storageFor d pf.permission := by
    rw [ParseArgs.storageFor]
    cases hpermission : pf.permission with
    | readOnly => rfl
    | readWrite =>
        cases hbeta : args.beta with
        | none => rfl
        | some namespaces =>
            cases hsetting : namespaces.namespaces d.flagNamespace with
            | none => simp [MainlineBetaNamespaces.isMainlineBetaFlag, hnamespace, hsetting]
            | some setting =>
                simp [MainlineBetaNamespaces.isMainlineBetaFlag, hnamespace, hsetting, hcontainer]
  rw [← hstorage, assignStorageBackend.eq_def, hmetadata]
  cases args.beta with
  | none => rfl
  | some namespaces => rfl

theorem assignStorageBackend_parsedFlag
    (source : String) (d : ProtoFlagDeclaration) :
    assignStorageBackend args.beta (args.parsedFlag source d) =
      .ok (args.finalFlag [] source d) := by
  have hassign : assignStorageBackend args.beta (args.parsedFlag source d) = _ :=
    assignStorageBackend_eq args (d := d) rfl rfl rfl
  rw [hassign]
  rfl

/-- The check of the namespaces panics on exported flags that it lets through. -/
theorem verifyMainlineBetaNamespaceFlag_eq_panic
    (source : String) (d : ProtoFlagDeclaration) :
    verifyMainlineBetaNamespaceFlag args.beta (args.finalFlag [] source d) = .error .panic ↔
      args.PanicsOn d := by
  have hnamespace : (args.finalFlag [] source d).flagNamespace = d.flagNamespace := rfl
  have hcontainer : (args.finalFlag [] source d).container = args.container := rfl
  have hexported : (args.finalFlag [] source d).isExported = d.isExported := rfl
  rw [verifyMainlineBetaNamespaceFlag.eq_def, ParseArgs.PanicsOn]
  cases hbeta : args.beta with
  | none => simp
  | some beta =>
      simp only [MainlineBetaNamespaces.hasFlag, MainlineBetaNamespaces.supportsContainer,
        MainlineBetaNamespaces.supportsExportedMode, hnamespace, hcontainer, hexported]
      cases hsetting : beta.namespaces d.flagNamespace with
      | none => simp [hsetting]
      | some setting =>
          by_cases hsame : setting.container = args.container
          · cases hallow : setting.allowExported <;> cases hflag : d.isExported <;>
              simp [hsame, hallow, hsetting, ensure, bind, Except.bind, pure, Except.pure]
          · by_cases hplatform : args.container ∈ platformContainers
            · cases hflag : d.isExported <;>
                simp [hsame, hplatform, hsetting, ensure, bind, Except.bind, pure, Except.pure]
            · simp [hsame, hplatform, ensure, bind, Except.bind]

theorem declareFlag_cases
    (source : String) {flags : ProtoParsedFlags} {names : List String}
    (hnames : flags.map (fun pf => pf.name) = names) {d : ProtoFlagDeclaration}
    (hd : d.verifyFields = .ok ()) :
    (args.PanicsOn d ∧ declareFlag args source flags d = .error .panic) ∨
    (¬ args.PanicsOn d ∧ ¬ args.Accepted names source d ∧
      ∃ e, declareFlag args source flags d = .error (.err e)) ∨
    (¬ args.PanicsOn d ∧ args.Accepted names source d ∧
      declareFlag args source flags d = .ok (flags ++ [args.finalFlag [] source d])) := by
  have hname : (args.finalFlag [] source d).name = d.name := rfl
  have hcontext : addContext ("failed to parse " ++ source) d.verifyFields = .ok () := by
    rw [hd]
    rfl
  have hfresh : flags.all (fun other => other.name != d.name) = true ↔ d.name ∉ names := by
    rw [← hnames, List.all_eq_true, List.mem_map, not_exists]
    simp
  have hpanics := verifyMainlineBetaNamespaceFlag_eq_panic args source d
  rw [declareFlag, hcontext]
  simp only [assignStorageBackend_parsedFlag, bind, Except.bind, hname]
  rcases hbeta : verifyMainlineBetaNamespaceFlag args.beta (args.finalFlag [] source d) with
    (e | _) | _
  · rw [hbeta] at hpanics
    refine .inr (.inl ⟨fun h => ?_, fun h => ?_, e, rfl⟩)
    · cases hpanics.mpr h
    · cases hbeta.symm.trans h.1
  · exact .inl ⟨hpanics.mp hbeta, rfl⟩
  · rw [hbeta] at hpanics
    have hnot : ¬ args.PanicsOn d := fun h => nomatch hpanics.mpr h
    rcases avoids_panic_cases (verifyFields_parsedFlag_avoids (args.finalFlag [] source d)) with
      ⟨_, hverify⟩ | ⟨e, hverify⟩
    · by_cases hmem : d.name ∈ names
      · refine .inr (.inl ⟨hnot, fun h => h.2.2 hmem, ?_⟩)
        have hall : flags.all (fun other => other.name != d.name) = false :=
          Bool.eq_false_iff.mpr (fun h => hfresh.mp h hmem)
        simp only [hverify, hall, ensure]
        exact ⟨_, rfl⟩
      · refine .inr (.inr ⟨hnot, ⟨hbeta, hverify, hmem⟩, ?_⟩)
        simp only [hverify, hfresh.mpr hmem, ensure]
        rfl
    · refine .inr (.inl ⟨hnot, fun h => ?_, e, ?_⟩)
      · cases hverify.symm.trans h.2.1
      · simp only [hverify]

theorem declareFlags_cases
    (source : String) {flags : ProtoParsedFlags} {names : List String}
    (hnames : flags.map (fun pf => pf.name) = names) {ds : List ProtoFlagDeclaration}
    (hds : ∀ d ∈ ds, d.verifyFields = .ok ()) :
    (¬ args.NonePanics source names ds ∧
      ds.foldlM (declareFlag args source) flags = .error .panic) ∨
    (args.NonePanics source names ds ∧ ¬ args.AllAccepted source names ds ∧
      ∃ e, ds.foldlM (declareFlag args source) flags = .error (.err e)) ∨
    (args.NonePanics source names ds ∧ args.AllAccepted source names ds ∧
      ds.foldlM (declareFlag args source) flags =
        .ok (flags ++ ds.map (args.finalFlag [] source))) := by
  induction ds generalizing flags names with
  | nil => exact .inr (.inr ⟨trivial, trivial, by simp [pure, Except.pure]⟩)
  | cons d ds ih =>
      rw [List.forall_mem_cons] at hds
      rw [ParseArgs.NonePanics, ParseArgs.AllAccepted, List.foldlM_cons]
      rcases declareFlag_cases args source hnames hds.1 with ⟨hpanics, hdeclare⟩ |
        ⟨hnot, hrefused, e, hdeclare⟩ | ⟨hnot, haccepted, hdeclare⟩
      · refine .inl ⟨fun h => h.1 hpanics, ?_⟩
        rw [hdeclare]
        rfl
      · refine .inr (.inl ⟨⟨hnot, fun h => absurd h hrefused⟩, fun h => hrefused h.1, e, ?_⟩)
        rw [hdeclare]
        rfl
      · have hnext : (flags ++ [args.finalFlag [] source d]).map (fun pf => pf.name) =
            names ++ [d.name] := by
          rw [List.map_append, hnames]
          rfl
        rw [hdeclare]
        rcases ih hnext hds.2 with ⟨hpanics, hloop⟩ | ⟨hnone, hrefused, e, hloop⟩ |
          ⟨hnone, hall, hloop⟩
        · exact .inl ⟨fun h => hpanics (h.2 haccepted), hloop⟩
        · exact .inr (.inl ⟨⟨hnot, fun _ => hnone⟩, fun h => hrefused h.2, e, hloop⟩)
        · refine .inr (.inr ⟨⟨hnot, fun _ => hnone⟩, ⟨haccepted, hall⟩, hloop.trans ?_⟩)
          rw [List.append_assoc]
          rfl

theorem readDeclarations_avoids
    (input : Input) :
    Loop.Avoids .panic (readDeclarations args input) := by
  refine (withContext_avoids _ _).bind (fun _ _ => ?_)
  refine (withContext_avoids _ _).bind (fun pdf _ => ?_)
  refine (addContext_avoids (verifyFields_declarations_avoids pdf) _).bind (fun _ _ => ?_)
  refine (ensure_avoids _ _).bind (fun _ _ => ?_)
  exact (ensure_avoids _ _).bind (fun _ _ => Loop.avoids_ok)

theorem forM_eq_ok
    {α : Type} {f : α → Checked String Unit} {l : List α} (h : l.forM f = .ok ()) :
    ∀ a ∈ l, f a = .ok () := by
  induction l with
  | nil => simp
  | cons a l ih =>
      obtain ⟨_, ha, hl⟩ := Loop.bind_eq_ok.mp h
      exact List.forall_mem_cons.mpr ⟨ha, ih hl⟩

theorem verifyFields_of_readDeclarations
    {input : Input} {pdf : ProtoFlagDeclarations} (h : readDeclarations args input = .ok pdf) :
    ∀ d ∈ pdf.flag, d.verifyFields = .ok () := by
  obtain ⟨_, _, h⟩ := Loop.bind_eq_ok.mp h
  obtain ⟨_, _, h⟩ := Loop.bind_eq_ok.mp h
  obtain ⟨_, hverify, h⟩ := Loop.bind_eq_ok.mp h
  obtain ⟨_, _, h⟩ := Loop.bind_eq_ok.mp h
  obtain ⟨_, _, h⟩ := Loop.bind_eq_ok.mp h
  cases h
  obtain ⟨_, _, hverify⟩ := Loop.bind_eq_ok.mp (Checked.mapErr_eq_ok.mp hverify)
  obtain ⟨_, _, hverify⟩ := Loop.bind_eq_ok.mp hverify
  obtain ⟨_, _, hverify⟩ := Loop.bind_eq_ok.mp hverify
  exact forM_eq_ok hverify

theorem nodup_of_allAccepted
    {source : String} {names : List String} {ds : List ProtoFlagDeclaration}
    (h : args.AllAccepted source names ds) (hnodup : names.Nodup) :
    (names ++ ds.map (fun d => d.name)).Nodup := by
  induction ds generalizing names with
  | nil => simpa using hnodup
  | cons d ds ih =>
      have hnext : (names ++ [d.name]).Nodup := by
        rw [List.nodup_append]
        refine ⟨hnodup, by simp, ?_⟩
        intro a ha b hb hab
        rw [List.mem_singleton.mp hb] at hab
        exact h.1.2.2 (hab ▸ ha)
      have hrest := ih h.2 hnext
      rwa [List.append_assoc, List.singleton_append] at hrest

theorem declareFiles_cases
    (inputs : List Input) {flags : ProtoParsedFlags} {names : List String}
    (hnames : flags.map (fun pf => pf.name) = names) (hnodup : names.Nodup) :
    (¬ args.NoFilePanics names inputs ∧
      inputs.foldlM (declareFile args) flags = .error .panic) ∨
    (args.NoFilePanics names inputs ∧
      ∃ e, inputs.foldlM (declareFile args) flags = .error (.err e)) ∨
    (args.NoFilePanics names inputs ∧
      (∀ input ∈ inputs, ∃ pdf, readDeclarations args input = .ok pdf) ∧
      (names ++ (inputs.flatMap args.declarationsOf).map (fun sd => sd.2.name)).Nodup ∧
      inputs.foldlM (declareFile args) flags = .ok (flags ++
        (inputs.flatMap args.declarationsOf).map (fun sd => args.finalFlag [] sd.1 sd.2))) := by
  induction inputs generalizing flags names with
  | nil => exact .inr (.inr ⟨trivial, by simp, by simpa using hnodup, by simp [pure, Except.pure]⟩)
  | cons input inputs ih =>
      rw [ParseArgs.NoFilePanics, List.foldlM_cons, declareFile]
      rcases avoids_panic_cases (readDeclarations_avoids args input) with ⟨pdf, hread⟩ | ⟨e, hread⟩
      · simp only [hread, Except.ok.injEq, forall_eq']
        change (_ ∧ (pdf.flag.foldlM (declareFlag args input.source) flags >>= _) = _) ∨
          (_ ∧ ∃ e, (pdf.flag.foldlM (declareFlag args input.source) flags >>= _) = _) ∨
          (_ ∧ _ ∧ _ ∧ (pdf.flag.foldlM (declareFlag args input.source) flags >>= _) = _)
        rcases declareFlags_cases args input.source hnames
          (verifyFields_of_readDeclarations args hread) with ⟨hpanics, hloop⟩ |
          ⟨hnone, hrefused, e, hloop⟩ | ⟨hnone, hall, hloop⟩
        · refine .inl ⟨fun h => hpanics h.1, ?_⟩
          rw [hloop]
          rfl
        · refine .inr (.inl ⟨⟨hnone, fun h => absurd h hrefused⟩, e, ?_⟩)
          rw [hloop]
          rfl
        · have hdeclared : args.declarationsOf input =
              pdf.flag.map (fun d => (input.source, d)) := by
            rw [ParseArgs.declarationsOf, hread]
          have hnext : (flags ++ pdf.flag.map (args.finalFlag [] input.source)).map
              (fun pf => pf.name) = names ++ pdf.flag.map (fun d => d.name) := by
            rw [List.map_append, hnames, List.map_map]
            rfl
          rw [hloop]
          rcases ih hnext (nodup_of_allAccepted args hall hnodup) with ⟨hpanics, hfiles⟩ |
            ⟨hnofile, e, hfiles⟩ | ⟨hnofile, hreads, hdistinct, hfiles⟩
          · exact .inl ⟨fun h => hpanics (h.2 hall), hfiles⟩
          · exact .inr (.inl ⟨⟨hnone, fun _ => hnofile⟩, e, hfiles⟩)
          · refine .inr (.inr ⟨⟨hnone, fun _ => hnofile⟩, ?_, ?_, hfiles.trans ?_⟩)
            · exact List.forall_mem_cons.mpr ⟨⟨pdf, hread⟩, hreads⟩
            · rw [List.flatMap_cons, hdeclared, List.map_append, List.map_map]
              rwa [List.append_assoc] at hdistinct
            · rw [List.flatMap_cons, hdeclared, List.map_append, List.map_map, List.append_assoc]
              rfl
      · refine .inr (.inl ⟨fun pdf h => ?_, e, ?_⟩)
        · cases hread.symm.trans h
        · rw [hread]
          rfl

end Declare

section Values

variable (args : ParseArgs)

/-- The value is for the flag. -/
def ParseArgs.Matches (value : ProtoFlagValue) (d : ProtoFlagDeclaration) : Prop :=
  value.package = args.package ∧ value.name = d.name

theorem valuesFor_concat_of_matches
    {args : ParseArgs} {values : List (String × ProtoFlagValue)} {v : String × ProtoFlagValue}
    {d : ProtoFlagDeclaration} (h : args.Matches v.2 d) :
    args.valuesFor (values ++ [v]) d = args.valuesFor values d ++ [v] := by
  rw [ParseArgs.valuesFor, List.filter_append]
  simp [ParseArgs.valuesFor, h.1, h.2]

theorem finalFlag_concat_of_not_matches
    {args : ParseArgs} {values : List (String × ProtoFlagValue)} {v : String × ProtoFlagValue}
    {source : String} {d : ProtoFlagDeclaration} (h : ¬ args.Matches v.2 d) :
    args.finalFlag (values ++ [v]) source d = args.finalFlag values source d := by
  have hvalues : args.valuesFor (values ++ [v]) d = args.valuesFor values d := by
    rw [ParseArgs.valuesFor, List.filter_append]
    rw [ParseArgs.Matches, not_and] at h
    simpa [ParseArgs.valuesFor] using h
  rw [ParseArgs.finalFlag, ParseArgs.finalFlag, ParseArgs.finalState, ParseArgs.finalState,
    ParseArgs.finalPermission, ParseArgs.finalPermission, hvalues]

/-- The permission after a value that is let through. -/
theorem finalPermission_concat
    {args : ParseArgs} {values : List (String × ProtoFlagValue)} {v : String × ProtoFlagValue}
    {d : ProtoFlagDeclaration} (h : args.Matches v.2 d)
    (hfixed : d.isFixedReadOnly = true → v.2.permission = .readOnly) :
    args.finalPermission (values ++ [v]) d = args.valuePermission v.2 := by
  rw [ParseArgs.finalPermission, valuesFor_concat_of_matches h, ParseArgs.valuePermission]
  cases hforce : args.options.forceReadOnly with
  | true => simp
  | false =>
      cases hflag : d.isFixedReadOnly with
      | true => simp [hfixed hflag]
      | false => simp

/-- The storage backend follows the permission. -/
theorem changePermission_eq
    {pf : ProtoParsedFlag} {d : ProtoFlagDeclaration} {permission permission' : FlagPermission}
    {purpose : Option (EnumOrUnknown FlagPurpose)}
    (hcontainer : pf.container = args.container) (hnamespace : pf.flagNamespace = d.flagNamespace)
    (hpermission : pf.permission? = some (.known permission'))
    (hmetadata : pf.metadata? = some ⟨purpose, some (.known (args.storageFor d permission'))⟩) :
    changePermission args permission pf = .ok { pf with
      permission? := some (.known permission)
      metadata? := some ⟨purpose, some (.known (args.storageFor d permission))⟩ } := by
  have hget : pf.permission = permission' := by
    rw [ProtoParsedFlag.permission, hpermission]
    rfl
  rw [changePermission, hget]
  split
  · have hassign : assignStorageBackend args.beta
        { pf with permission? := some (.known permission) } = _ :=
      assignStorageBackend_eq args hcontainer hnamespace hmetadata
    rw [hassign]
    rfl
  · rename_i hsame
    obtain rfl := not_not.mp hsame
    rw [← hpermission, ← hmetadata]

theorem applyValue_cases
    {values : List (String × ProtoFlagValue)} {v : String × ProtoFlagValue} {source : String}
    {d : ProtoFlagDeclaration} (h : args.Matches v.2 d) :
    (∃ e, applyValue args v.1 v.2 (args.finalFlag values source d) = .error (.err e)) ∨
      applyValue args v.1 v.2 (args.finalFlag values source d) =
        .ok (args.finalFlag (values ++ [v]) source d) := by
  have hflag : (args.finalFlag values source d).isFixedReadOnly = d.isFixedReadOnly := rfl
  rw [applyValue, hflag]
  by_cases hok : (!d.isFixedReadOnly || v.2.permission == .readOnly) = true
  · have hfixed : d.isFixedReadOnly = true → v.2.permission = .readOnly := by
      intro hd
      simpa [hd] using hok
    have hnew : args.finalPermission (values ++ [v]) d = _ := finalPermission_concat h hfixed
    have hvalues : args.valuesFor (values ++ [v]) d = _ := valuesFor_concat_of_matches h
    have hstate : args.finalState (values ++ [v]) d = v.2.state := by
      rw [ParseArgs.finalState, hvalues]
      simp
    have hresult : args.finalFlag (values ++ [v]) source d = { args.finalFlag values source d with
        state? := some (.known v.2.state)
        permission? := some (.known (args.valuePermission v.2))
        trace := (args.finalFlag values source d).trace ++ [⟨some v.1, some (.known v.2.state),
          some (.known (args.valuePermission v.2))⟩]
        metadata? := some ⟨some (.known (purposeOf d.metadata?)),
          some (.known (args.storageFor d (args.valuePermission v.2)))⟩ } := by
      rw [ParseArgs.finalFlag, hstate, hnew, hvalues, List.map_append]
      rfl
    have hchange : changePermission args (args.valuePermission v.2)
        { args.finalFlag values source d with state? := some (.known v.2.state) } = _ :=
      changePermission_eq args (d := d) rfl rfl rfl rfl
    right
    rw [hok, hresult]
    exact Loop.bind_eq_ok.mpr ⟨(), rfl, Loop.bind_eq_ok.mpr ⟨_, hchange, rfl⟩⟩
  · left
    rw [Bool.not_eq_true] at hok
    rw [hok]
    exact ⟨_, rfl⟩

def ParseArgs.finalFlags (declared : List (String × ProtoFlagDeclaration))
    (values : List (String × ProtoFlagValue)) : ProtoParsedFlags :=
  declared.map (fun sd => args.finalFlag values sd.1 sd.2)

/-- How one value changes the flags. -/
theorem updateFlag_cases
    {declared : List (String × ProtoFlagDeclaration)}
    (hnodup : (declared.map (fun sd => sd.2.name)).Nodup)
    (values : List (String × ProtoFlagValue)) (v : String × ProtoFlagValue) :
    (∃ e, updateFlag args v.1 v.2 (args.finalFlags declared values) = .error (.err e)) ∨
      updateFlag args v.1 v.2 (args.finalFlags declared values) =
        .ok (args.finalFlags declared (values ++ [v])) := by
  induction declared with
  | nil => exact .inr rfl
  | cons sd declared ih =>
      rw [List.map_cons, List.nodup_cons] at hnodup
      have hmatch : ((args.finalFlag values sd.1 sd.2).package == v.2.package &&
          (args.finalFlag values sd.1 sd.2).name == v.2.name) = true ↔ args.Matches v.2 sd.2 := by
        rw [Bool.and_eq_true, beq_iff_eq, beq_iff_eq, ParseArgs.Matches, eq_comm,
          eq_comm (b := v.2.name)]
        rfl
      rw [ParseArgs.finalFlags, ParseArgs.finalFlags, List.map_cons, List.map_cons, updateFlag]
      by_cases hvalue : args.Matches v.2 sd.2
      · -- the other flags have other names
        have hothers : declared.map (fun sd => args.finalFlag (values ++ [v]) sd.1 sd.2) =
            declared.map (fun sd => args.finalFlag values sd.1 sd.2) := by
          refine List.map_congr_left ?_
          intro other hother
          refine finalFlag_concat_of_not_matches ?_
          intro hboth
          refine hnodup.1 ?_
          rw [← hvalue.2, hboth.2]
          exact List.mem_map_of_mem (f := fun sd => sd.2.name) hother
        rw [if_pos (hmatch.mpr hvalue), hothers]
        rcases applyValue_cases args hvalue with ⟨e, happly⟩ | happly
        · rw [happly]
          exact .inl ⟨e, rfl⟩
        · rw [happly]
          exact .inr rfl
      · rw [if_neg (fun h => hvalue (hmatch.mp h)), finalFlag_concat_of_not_matches hvalue]
        rcases ih hnodup.2 with ⟨e, hupdate⟩ | hupdate
        · rw [ParseArgs.finalFlags] at hupdate
          rw [hupdate]
          exact .inl ⟨e, rfl⟩
        · rw [ParseArgs.finalFlags, ParseArgs.finalFlags] at hupdate
          rw [hupdate]
          exact .inr rfl

theorem setFileValues_cases
    {declared : List (String × ProtoFlagDeclaration)}
    (hnodup : (declared.map (fun sd => sd.2.name)).Nodup) (source : String)
    (values : List ProtoFlagValue) (before : List (String × ProtoFlagValue)) :
    (∃ e, values.foldlM (setValue args source) (args.finalFlags declared before) =
      .error (.err e)) ∨
    values.foldlM (setValue args source) (args.finalFlags declared before) =
      .ok (args.finalFlags declared (before ++ values.map (fun v => (source, v)))) := by
  induction values generalizing before with
  | nil =>
      right
      rw [List.map_nil, List.append_nil]
      rfl
  | cons v values ih =>
      rw [List.foldlM_cons, setValue]
      have hverify := addContext_avoids (verifyFields_value_avoids v) ("failed to parse " ++ source)
      rcases avoids_panic_cases hverify with ⟨_, hok⟩ | ⟨e, herror⟩
      · rw [hok]
        rcases updateFlag_cases args hnodup before (source, v) with ⟨e, hupdate⟩ | hupdate
        · left
          refine ⟨e, ?_⟩
          change (updateFlag args source v (args.finalFlags declared before) >>= _) = _
          rw [hupdate]
          rfl
        · change (∃ e, (updateFlag args source v (args.finalFlags declared before) >>= _) = _) ∨
            (updateFlag args source v (args.finalFlags declared before) >>= _) = _
          rw [hupdate]
          have hrest := ih (before ++ [(source, v)])
          rwa [List.append_assoc] at hrest
      · left
        rw [herror]
        exact ⟨e, rfl⟩

theorem readValues_avoids
    (input : Input) :
    Loop.Avoids .panic (readValues args input) := by
  refine (withContext_avoids _ _).bind (fun _ _ => ?_)
  refine (withContext_avoids _ _).bind (fun values _ => ?_)
  have hverify := forM_avoids (fun (v : ProtoFlagValue) (_ : v ∈ values) =>
    verifyFields_value_avoids v)
  exact (addContext_avoids hverify _).bind (fun _ _ => Loop.avoids_ok)

theorem setValueFiles_cases
    {declared : List (String × ProtoFlagDeclaration)}
    (hnodup : (declared.map (fun sd => sd.2.name)).Nodup) (inputs : List Input)
    (before : List (String × ProtoFlagValue)) :
    (∃ e, inputs.foldlM (setValues args) (args.finalFlags declared before) = .error (.err e)) ∨
    ((∀ input ∈ inputs, ∃ values, readValues args input = .ok values) ∧
      inputs.foldlM (setValues args) (args.finalFlags declared before) =
        .ok (args.finalFlags declared (before ++ inputs.flatMap args.valuesOf))) := by
  induction inputs generalizing before with
  | nil =>
      right
      rw [List.flatMap_nil, List.append_nil]
      exact ⟨by simp, rfl⟩
  | cons input inputs ih =>
      rw [List.foldlM_cons, setValues]
      rcases avoids_panic_cases (readValues_avoids args input) with ⟨values, hread⟩ | ⟨e, hread⟩
      · have hvalues : args.valuesOf input = values.map (fun v => (input.source, v)) := by
          rw [ParseArgs.valuesOf, hread]
        rw [hread, List.flatMap_cons, hvalues, ← List.append_assoc, List.forall_mem_cons]
        change (∃ e, (values.foldlM (setValue args input.source)
          (args.finalFlags declared before) >>= _) = _) ∨ (_ ∧ (values.foldlM
            (setValue args input.source) (args.finalFlags declared before) >>= _) = _)
        rcases setFileValues_cases args hnodup input.source values before with ⟨e, hset⟩ | hset
        · left
          rw [hset]
          exact ⟨e, rfl⟩
        · rw [hset]
          rcases ih (before ++ values.map (fun v => (input.source, v))) with hrest | ⟨hreads, hrest⟩
          · exact .inl hrest
          · exact .inr ⟨⟨⟨values, hread⟩, hreads⟩, hrest⟩
      · left
        rw [hread]
        exact ⟨e, rfl⟩

end Values

section Parse

/-- Comparing flags with tracepoints does not panic. -/
theorem verifyNeighbours_avoids
    {previous : Option ProtoParsedFlag} {pf : ProtoParsedFlag}
    (hprevious : ∀ prev ∈ previous, prev.trace ≠ []) (hpf : pf.trace ≠ []) :
    Loop.Avoids .panic (verifyNeighbours previous pf) := by
  have hpath : ∀ q : ProtoParsedFlag, q.trace ≠ [] → Loop.Avoids .panic q.pathToDeclaration := by
    intro q hq
    rw [ProtoParsedFlag.pathToDeclaration]
    split
    · contradiction
    · exact Loop.avoids_ok
  cases previous with
  | none => exact Loop.avoids_ok
  | some prev =>
      rw [verifyNeighbours]
      split_ifs
      · exact Loop.avoids_ok
      · refine (hpath prev (hprevious prev rfl)).bind (fun _ _ => ?_)
        exact (hpath pf hpf).bind (fun _ _ h => by cases h)
      · intro h
        cases h

theorem verifyParsedFlags_avoids
    {l : ProtoParsedFlags} (h : ∀ pf ∈ l, pf.trace ≠ []) :
    Loop.Avoids .panic (verifyParsedFlags l) := by
  refine Loop.Avoids.bind ?_ (fun _ _ => Loop.avoids_ok)
  refine Loop.forLoop_avoids (fun _ previous => ∀ prev ∈ previous, prev.trace ≠ []) _ _ (by simp) ?_
  intro done pf rest previous hl hprevious
  have hpf : pf.trace ≠ [] := h pf (by simp [hl])
  refine ⟨?_, ?_⟩
  · refine (verifyNeighbours_avoids hprevious hpf).bind (fun _ _ => ?_)
    exact (verifyFields_parsedFlag_avoids pf).bind (fun _ _ => Loop.avoids_ok)
  · intro s hs
    obtain ⟨-, -, rfl⟩ := verifyParsedFlag_eq_ok.mp hs
    intro prev hprev
    cases hprev
    exact hpf

/-- The tracepoints of a flag that is fixed read-only are read-only. -/
theorem ProtoParsedFlag.Verified.trace_permission
    {pf : ProtoParsedFlag} (h : pf.Verified) (hfixed : pf.isFixedReadOnly = true)
    {tp : ProtoTracepoint} (htp : tp ∈ pf.trace) :
    tp.permission = .readOnly := by
  obtain ⟨_, _, h⟩ := Loop.bind_eq_ok.mp h
  obtain ⟨_, _, h⟩ := Loop.bind_eq_ok.mp h
  obtain ⟨_, _, h⟩ := Loop.bind_eq_ok.mp h
  obtain ⟨_, _, h⟩ := Loop.bind_eq_ok.mp h
  obtain ⟨_, _, h⟩ := Loop.bind_eq_ok.mp h
  obtain ⟨_, _, h⟩ := Loop.bind_eq_ok.mp h
  obtain ⟨_, _, h⟩ := Loop.bind_eq_ok.mp h
  obtain ⟨_, _, h⟩ := Loop.bind_eq_ok.mp h
  obtain ⟨_, _, h⟩ := Loop.bind_eq_ok.mp h
  obtain ⟨_, hreadOnly, _⟩ := Loop.bind_eq_ok.mp h
  rw [ProtoParsedFlag.verifyFixedReadOnly, if_pos hfixed] at hreadOnly
  obtain ⟨_, _, htrace⟩ := Loop.bind_eq_ok.mp hreadOnly
  exact beq_iff_eq.mp (ensure_eq_ok.mp (forM_eq_ok htrace tp htp))

variable (args : ParseArgs)

/-- What the result says about the declarations and the values. -/
structure ParsedFrom (declarations values : List Input) (flags : ProtoParsedFlags) : Prop where
  declarationsRead : ∀ input ∈ declarations, ∃ pdf, readDeclarations args input = .ok pdf
  valuesRead : ∀ input ∈ values, ∃ l, readValues args input = .ok l
  /-- the flags are those of the declarations, with their last values -/
  perm : flags.Perm (args.finalFlags (declarations.flatMap args.declarationsOf)
    (values.flatMap args.valuesOf))
  sorted : flags.Pairwise (fun a b => a.fullyQualifiedName < b.fullyQualifiedName)
  readOnly : ∀ pf ∈ flags, pf.isFixedReadOnly = true ∨ args.options.forceReadOnly = true →
    pf.permission = .readOnly
  lastTracepoint : ∀ pf ∈ flags, ∃ tp, pf.trace.getLast? = some tp ∧ tp.state = pf.state ∧
    tp.permission = pf.permission
  storageNone : ∀ pf ∈ flags, pf.storage = .none ↔ pf.permission = .readOnly
  storageDeviceConfig : ∀ pf ∈ flags, pf.storage = .deviceConfig ↔ pf.permission = .readWrite ∧
    ∃ beta, args.beta = some beta ∧ ∃ setting, beta.namespaces pf.flagNamespace = some setting ∧
      setting.container = pf.container
  storageOther : ∀ pf ∈ flags, pf.storage ≠ .none → pf.storage ≠ .deviceConfig →
    pf.storage = .aconfigd
  readWrite : args.options.allowReadWrite = false → ∀ pf ∈ flags, pf.permission ≠ .readWrite

theorem storageFor_eq_none
    {d : ProtoFlagDeclaration} {permission : FlagPermission} :
    args.storageFor d permission = .none ↔ permission = .readOnly := by
  rw [ParseArgs.storageFor]
  split_ifs with hpermission hbeta <;> simp [hpermission]

theorem storageFor_eq_deviceConfig
    {d : ProtoFlagDeclaration} {permission : FlagPermission} :
    args.storageFor d permission = .deviceConfig ↔ permission = .readWrite ∧
      ∃ beta, args.beta = some beta ∧ ∃ setting,
        beta.namespaces d.flagNamespace = some setting ∧ setting.container = args.container := by
  have hown : (args.beta.bind (fun beta => beta.namespaces d.flagNamespace)).any
      (fun setting => setting.container == args.container) = true ↔
      ∃ beta, args.beta = some beta ∧ ∃ setting,
        beta.namespaces d.flagNamespace = some setting ∧ setting.container = args.container := by
    cases hbeta : args.beta with
    | none => simp
    | some beta => cases hsetting : beta.namespaces d.flagNamespace <;> simp [hsetting]
  rw [← hown, ParseArgs.storageFor]
  cases permission with
  | readOnly => simp
  | readWrite => simp

theorem storageFor_eq_aconfigd
    {d : ProtoFlagDeclaration} {permission : FlagPermission}
    (hnone : args.storageFor d permission ≠ .none)
    (hdevice : args.storageFor d permission ≠ .deviceConfig) :
    args.storageFor d permission = .aconfigd := by
  rw [ParseArgs.storageFor] at hnone hdevice ⊢
  split_ifs at hnone hdevice ⊢
  · exact absurd rfl hnone
  · exact absurd rfl hdevice
  · rfl

/-- The last tracepoint of a flag has its state and permission. -/
theorem lastTracepoint_finalFlag
    {values : List (String × ProtoFlagValue)} {source : String} {d : ProtoFlagDeclaration}
    (hverified : (args.finalFlag values source d).Verified) :
    ∃ tp, (args.finalFlag values source d).trace.getLast? = some tp ∧
      tp.state = (args.finalFlag values source d).state ∧
      tp.permission = (args.finalFlag values source d).permission := by
  have hstate : (args.finalFlag values source d).state = args.finalState values d := rfl
  have hpermission : (args.finalFlag values source d).permission = args.finalPermission values d :=
    rfl
  have htrace : (args.finalFlag values source d).trace =
      ⟨some source, some (.known .disabled), some (.known (args.declaredPermission d))⟩ ::
        (args.valuesFor values d).map (fun v => ⟨some v.1, some (.known v.2.state),
          some (.known (args.valuePermission v.2))⟩) := rfl
  rcases List.eq_nil_or_concat' (args.valuesFor values d) with hnil | ⟨l, v, hconcat⟩
  · rw [htrace, hstate, hpermission, ParseArgs.finalState, ParseArgs.finalPermission, hnil]
    exact ⟨_, rfl, rfl, rfl⟩
  · have hlast : (args.finalFlag values source d).trace.getLast? = some ⟨some v.1,
        some (.known v.2.state), some (.known (args.valuePermission v.2))⟩ := by
      rw [htrace, hconcat, List.map_append, ← List.cons_append]
      exact List.getLast?_concat
    refine ⟨_, hlast, ?_, ?_⟩
    · rw [hstate, ParseArgs.finalState, hconcat]
      simp [ProtoTracepoint.state, enumOr]
    · rw [hpermission]
      cases hforce : args.options.forceReadOnly with
      | true => simp [ProtoTracepoint.permission, enumOr, ParseArgs.valuePermission,
          ParseArgs.finalPermission, hforce]
      | false =>
          cases hfixed : d.isFixedReadOnly with
          | true =>
              have htp := hverified.trace_permission hfixed (List.mem_of_getLast? hlast)
              rw [htp, ParseArgs.finalPermission, hfixed]
              rfl
          | false =>
              rw [ParseArgs.finalPermission, hconcat, hfixed, hforce]
              simp [ProtoTracepoint.permission, enumOr, ParseArgs.valuePermission, hforce]

theorem checkReadWrite_avoids
    (flags : ProtoParsedFlags) :
    Loop.Avoids .panic (checkReadWrite args flags) := by
  rw [checkReadWrite]
  split
  · exact Loop.avoids_ok
  · split <;> exact nofun

theorem checkReadWrite_eq_ok
    {flags : ProtoParsedFlags} (h : checkReadWrite args flags = .ok ())
    (hallow : args.options.allowReadWrite = false) :
    ∀ pf ∈ flags, pf.permission ≠ .readWrite := by
  rw [checkReadWrite, hallow] at h
  simp only [Bool.false_eq_true, if_false] at h
  split at h
  · cases h
  · rename_i hnone
    simpa using hnone

def finishParse (flags : ProtoParsedFlags) : Checked String ProtoParsedFlags := do
  checkReadWrite args flags
  let flags := KeySort.sortByKey ProtoParsedFlag.fullyQualifiedName flags
  verifyParsedFlags flags
  pure flags

theorem finishParse_cases
    {declarations values : List Input}
    (hreads : ∀ input ∈ declarations, ∃ pdf, readDeclarations args input = .ok pdf)
    (hvalues : ∀ input ∈ values, ∃ l, readValues args input = .ok l) :
    (∃ e, finishParse args (args.finalFlags (declarations.flatMap args.declarationsOf)
      (values.flatMap args.valuesOf)) = .error (.err e)) ∨
    ∃ flags, finishParse args (args.finalFlags (declarations.flatMap args.declarationsOf)
      (values.flatMap args.valuesOf)) = .ok flags ∧
        ParsedFrom args declarations values flags := by
  generalize hfinal : args.finalFlags (declarations.flatMap args.declarationsOf)
    (values.flatMap args.valuesOf) = final
  have hperm : (KeySort.sortByKey ProtoParsedFlag.fullyQualifiedName final).Perm final :=
    KeySort.perm_sortByKey final
  have hmem : ∀ pf ∈ KeySort.sortByKey ProtoParsedFlag.fullyQualifiedName final,
      ∃ source d, pf = args.finalFlag (values.flatMap args.valuesOf) source d := by
    intro pf hpf
    rw [hperm.mem_iff, ← hfinal] at hpf
    obtain ⟨sd, _, rfl⟩ := List.mem_map.mp hpf
    exact ⟨sd.1, sd.2, rfl⟩
  have hverify : Loop.Avoids .panic
      (verifyParsedFlags (KeySort.sortByKey ProtoParsedFlag.fullyQualifiedName final)) := by
    refine verifyParsedFlags_avoids ?_
    intro pf hpf
    obtain ⟨source, d, rfl⟩ := hmem pf hpf
    exact List.cons_ne_nil _ _
  rw [finishParse]
  rcases avoids_panic_cases (checkReadWrite_avoids args final) with ⟨_, hcheck⟩ | ⟨e, hcheck⟩
  · rcases avoids_panic_cases hverify with ⟨_, hok⟩ | ⟨e, herror⟩
    · right
      obtain ⟨hsorted, hverified⟩ := verifyParsedFlags_eq_ok.mp hok
      refine ⟨_, ?_, hreads, hvalues, hfinal ▸ hperm, hsorted, ?_, ?_, ?_, ?_, ?_, ?_⟩
      · simp only [hcheck, hok, bind, Except.bind, pure, Except.pure]
      · intro pf hpf hreadOnly
        obtain ⟨source, d, rfl⟩ := hmem pf hpf
        have hd : d.isFixedReadOnly = true ∨ args.options.forceReadOnly = true := hreadOnly
        exact if_pos (by simpa using hd)
      · intro pf hpf
        have hpf' := hverified pf hpf
        obtain ⟨source, d, rfl⟩ := hmem pf hpf
        exact lastTracepoint_finalFlag args hpf'
      · intro pf hpf
        obtain ⟨source, d, rfl⟩ := hmem pf hpf
        exact storageFor_eq_none args
      · intro pf hpf
        obtain ⟨source, d, rfl⟩ := hmem pf hpf
        exact storageFor_eq_deviceConfig args
      · intro pf hpf hnone hdevice
        obtain ⟨source, d, rfl⟩ := hmem pf hpf
        exact storageFor_eq_aconfigd args hnone hdevice
      · intro hallow pf hpf
        exact checkReadWrite_eq_ok args hcheck hallow pf (hperm.mem_iff.mp hpf)
    · left
      refine ⟨e, ?_⟩
      simp only [hcheck, herror, bind, Except.bind]
  · left
    rw [hcheck]
    exact ⟨e, rfl⟩

/-- How a run ends. -/
theorem parseFlags_cases
    (declarations values : List Input) :
    (¬ args.NoFilePanics [] declarations ∧
      parseFlags args declarations values = .error .panic) ∨
    (args.NoFilePanics [] declarations ∧
      ((∃ e, parseFlags args declarations values = .error (.err e)) ∨
        ∃ flags, parseFlags args declarations values = .ok flags ∧
          ParsedFrom args declarations values flags)) := by
  rw [parseFlags]
  have hnames : ([] : ProtoParsedFlags).map (fun pf => pf.name) = [] := rfl
  rcases declareFiles_cases args declarations hnames List.nodup_nil with ⟨hpanics, hdeclare⟩ |
    ⟨hnone, e, hdeclare⟩ | ⟨hnone, hreads, hnodup, hdeclare⟩
  · refine .inl ⟨hpanics, ?_⟩
    rw [hdeclare]
    rfl
  · refine .inr ⟨hnone, .inl ⟨e, ?_⟩⟩
    rw [hdeclare]
    rfl
  · refine .inr ⟨hnone, ?_⟩
    rw [List.nil_append] at hnodup hdeclare
    rw [hdeclare]
    change (∃ e, (values.foldlM (setValues args) (args.finalFlags _ []) >>= _) = _) ∨
      ∃ flags, (values.foldlM (setValues args) (args.finalFlags _ []) >>= _) = _ ∧ _
    rcases setValueFiles_cases args hnodup values [] with ⟨e, hset⟩ | ⟨hvalues, hset⟩
    · left
      rw [hset]
      exact ⟨e, rfl⟩
    · rw [hset, List.nil_append]
      exact finishParse_cases args hreads hvalues

/-- `parse_flags` returns, with the flags of the declarations and their values, exactly if no
exported flag of a platform container reaches the check of the namespaces. -/
theorem parseFlags_iff
    (declarations values : List Input) :
    (parseFlags args declarations values ≠ .error .panic ∧
      ∀ flags, parseFlags args declarations values = .ok flags →
        ParsedFrom args declarations values flags) ↔ args.NoFilePanics [] declarations := by
  rcases parseFlags_cases args declarations values with ⟨hpanics, hparse⟩ |
    ⟨hnone, ⟨e, hparse⟩ | ⟨flags, hparse, hflags⟩⟩
  · rw [hparse]
    exact iff_of_false (fun h => h.1 rfl) hpanics
  · rw [hparse]
    exact iff_of_true ⟨nofun, nofun⟩ hnone
  · rw [hparse]
    refine iff_of_true ⟨nofun, ?_⟩ hnone
    rintro _ ⟨⟩
    exact hflags

/-- An exported flag in a namespace of the module `com.android.x`. -/
def exportedDeclaration : ProtoFlagDeclaration where
  name? := some "a"; namespace? := some "beta"
  description? := some "text"
  bug := ["123"]
  isFixedReadOnly? := none
  isExported? := some true
  metadata? := none

/-- The system container declares the flag. -/
def platformArgs : ParseArgs where
  textFormat :=
    ⟨fun _ => .ok ⟨some "com.a", [exportedDeclaration], some "system"⟩, fun _ => .ok []⟩
  package := "com.a"
  container := "system"
  beta := some ⟨fun s => if s = "beta" then some ⟨"com.android.x", true⟩ else none⟩
  options := ⟨.readWrite, true, false⟩

theorem parseFlags_panics :
    parseFlags platformArgs [⟨"a.aconfig", .ok ""⟩] [] = .error .panic := by
  decide +kernel

end Parse

end Aconfig
end AndroidBuild
