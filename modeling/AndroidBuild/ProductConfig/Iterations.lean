import AndroidBuild.Lib.GraphPaths
import AndroidBuild.ProductConfig.Readiness

/-!
# The bounds of `_product_configuration`

Both loops over a stack stop after 1000 rounds.  The first runs every module
once, so its rounds are bounded by the number of edges, with cycles or without.
The second does not remember the modules it has seen: it takes two rounds for
every path from the top module, and fails as soon as there are more than 500.
-/

namespace AndroidBuild
namespace ProductConfig

open Loop PostOrder GraphPaths

section Definitions

/-- `runPcms`, and the names of the modules whose function is called. -/
def runPcmsCalls (pcms : String → List PcmStatement) :
    Nat → Heap × Configs → List String → List String × Except PcmError (Heap × Configs)
  | _, s, [] => ([], .ok s)
  | 0, _, _ :: _ => ([], .error .tooManyIterations)
  | fuel + 1, (h, configs), name :: stack =>
      match configs.entry name with
      | .error e => ([], .error e)
      | .ok e =>
          if e.cfg.isSome then runPcmsCalls pcms fuel (h, configs) stack
          else
            match runPcm (pcms name) with
            | .error e => ([name], .error e)
            | .ok handle =>
                let configs := configs.set name ⟨some h.next, handle.inheritedModules, false⟩
                let pushed := sortPcmNames handle.inheritedModules
                let rest := runPcmsCalls pcms fuel
                  (h.alloc handle.cfg, pushed.foldl addChild configs) (pushed.reverse ++ stack)
                (name :: rest.1, rest.2)

theorem runPcmsCalls_snd
    (pcms : String → List PcmStatement) (fuel : Nat) (s : Heap × Configs) (stack : List String) :
    (runPcmsCalls pcms fuel s stack).2 = runPcms pcms fuel s stack := by
  induction fuel generalizing s stack with
  | zero =>
      cases stack with
      | nil => rfl
      | cons name stack => rfl
  | succ fuel ih =>
      cases stack with
      | nil => rfl
      | cons name stack =>
          obtain ⟨h, configs⟩ := s
          rw [runPcmsCalls, runPcms]
          cases configs.entry name with
          | error e => rfl
          | ok e =>
              simp only [bind, Except.bind]
              split
              · exact ih _ _
              · cases runPcm (pcms name) with
                | error e => rfl
                | ok handle => exact ih _ _

/-- The modules that `productConfigs` calls, and its result. -/
def productConfigsCalls (pcms : String → List PcmStatement) (top : String) :
    List String × Except PcmError (Heap × Configs) :=
  runPcmsCalls pcms 1000
    (⟨0, fun _ => OrderedDict.empty⟩, OrderedDict.empty.set top ⟨none, [], false⟩) [top]

/-- `_product_configuration`.  The modules with artifact path requirements are
evaluated before the top module, in the order of their names. -/
def productConfiguration (pcms : String → List PcmStatement) (requiresArtifacts : String → Bool)
    (top : String) : Except PcmError (List Cfg) := do
  let (h, configs) ← productConfigs pcms top
  let required := sortNames ((configs.keys.filter requiresArtifacts).map (fun x => x ++ ".mk"))
  evaluateAll configs h (required.map dropMk ++ [top])

end Definitions

section RunPcms

variable {pcms : String → List PcmStatement} {top : String}

def ran (configs : Configs) (n : String) : Bool :=
  (configs.get? n).any (fun e => e.cfg.isSome)

theorem ran_run
    (l children : List String) (configs : Configs) (name : String) (r : Nat) (n : String) :
    ran (l.foldl addChild (configs.set name ⟨some r, children, false⟩)) n =
      (decide (n = name) || ran configs n) := by
  rw [ran, ran, get?_addChildren, OrderedDict.get?_set]
  by_cases hn : n = name
  · simp [hn]
  · rw [if_neg hn, decide_eq_false hn, Bool.false_or]
    split
    · rename_i hnew
      rw [hnew.2]
      rfl
    · rfl

/-- The state of the loop that runs the modules below `top`. -/
structure Running (pcms : String → List PcmStatement) (top : String) (s : Heap × Configs)
    (stack : List String) : Prop where
  inv : RunInv pcms s stack
  stacked : ∀ n ∈ stack, n ∈ s.2.keys
  reached : ∀ n ∈ s.2.keys, Relation.ReflTransGen (Edge (modulesOf pcms).children) top n

theorem Running.ran
    {s : Heap × Configs} (h : Running pcms top s []) {n : String} (hn : n ∈ s.2.keys) :
    ran s.2 n = true := by
  obtain ⟨e, he⟩ := OrderedDict.mem_keys_iff.mp hn
  rcases h.inv.entries n e he with ⟨_, hstack⟩ | ⟨r, rfl, _⟩
  · cases hstack
  · rw [ProductConfig.ran, he]
    rfl

/-- A module that has been run is not run again. -/
theorem Running.skip
    {s : Heap × Configs} {name : String} {stack : List String}
    (h : Running pcms top s (name :: stack)) (hran : ProductConfig.ran s.2 name = true) :
    Running pcms top s stack := by
  refine ⟨⟨?_, h.inv.closed⟩, fun n hn => h.stacked n (List.mem_cons_of_mem _ hn), h.reached⟩
  intro n e he
  rcases h.inv.entries n e he with ⟨hnone, hstack⟩ | hdone
  · refine Or.inl ⟨hnone, (List.mem_cons.mp hstack).resolve_left ?_⟩
    rintro rfl
    rw [ProductConfig.ran, he, hnone] at hran
    cases hran
  · exact Or.inr hdone

theorem Running.run
    {h : Heap} {configs : Configs} {name : String} {stack : List String}
    (hs : Running pcms top (h, configs) (name :: stack)) {handle : Handle}
    (hrun : runPcm (pcms name) = .ok handle) :
    Running pcms top (h.alloc handle.cfg, (sortPcmNames handle.inheritedModules).foldl addChild
        (configs.set name ⟨some h.next, handle.inheritedModules, false⟩))
      ((sortPcmNames handle.inheritedModules).reverse ++ stack) := by
  have hchildren : (modulesOf pcms).children name = handle.inheritedModules := by
    simp only [modulesOf, hrun]
  refine ⟨hs.inv.run hrun, ?_, ?_⟩
  · intro n hn
    rw [mem_keys_addChildren, OrderedDict.mem_keys_set]
    rcases List.mem_append.mp hn with hn | hn
    · exact Or.inl (List.mem_reverse.mp hn)
    · exact Or.inr (Or.inr (hs.stacked n (List.mem_cons_of_mem _ hn)))
  · intro n hn
    have hname := hs.reached name (hs.stacked name List.mem_cons_self)
    rw [mem_keys_addChildren, OrderedDict.mem_keys_set] at hn
    rcases hn with hn | rfl | hn
    · refine hname.tail ?_
      rw [Edge, hchildren]
      exact (sortPcmNames_perm _).mem_iff.mp hn
    · exact hname
    · exact hs.reached n hn

/-- The children that are still to be pushed by the modules in `modules`. -/
def unpushed (pcms : String → List PcmStatement) (modules : Finset String) (configs : Configs) :
    Nat :=
  ∑ n ∈ modules with ran configs n = false, ((modulesOf pcms).children n).length

theorem unpushed_run
    (pcms : String → List PcmStatement) {modules : Finset String} {configs : Configs} {name : String} (hname : name ∈ modules)
    (hran : ran configs name = false) (l children : List String) (r : Nat) :
    ((modulesOf pcms).children name).length +
        unpushed pcms modules (l.foldl addChild (configs.set name ⟨some r, children, false⟩)) =
      unpushed pcms modules configs := by
  have hfilter : (modules.filter (fun n => ran (l.foldl addChild
        (configs.set name ⟨some r, children, false⟩)) n = false)) =
      (modules.filter (fun n => ran configs n = false)).erase name := by
    ext n
    rw [Finset.mem_erase, Finset.mem_filter, Finset.mem_filter, ran_run, Bool.or_eq_false_iff,
      decide_eq_false_iff_not, and_left_comm]
  rw [unpushed, unpushed, hfilter]
  exact Finset.add_sum_erase _ (fun n => ((modulesOf pcms).children n).length)
    (Finset.mem_filter.mpr ⟨hname, hran⟩)

/-- The loop ends within its bound, and calls every module below `top` once. -/
theorem runPcmsCalls_spec
    {modules : Finset String}
    (hmodules : ∀ n, Relation.ReflTransGen (Edge (modulesOf pcms).children) top n → n ∈ modules)
    (hruns : ∀ n ∈ modules, ∃ handle, runPcm (pcms n) = .ok handle)
    (fuel : Nat) {s : Heap × Configs} {stack : List String} (hs : Running pcms top s stack)
    (hfuel : stack.length + unpushed pcms modules s.2 ≤ fuel) :
    ∃ calls t, runPcmsCalls pcms fuel s stack = (calls, .ok t) ∧ Running pcms top t [] ∧
      calls.Nodup ∧ (∀ n, n ∈ calls ↔ n ∈ t.2.keys ∧ ran s.2 n = false) ∧
      ∀ n ∈ s.2.keys, n ∈ t.2.keys := by
  have hdone : ∀ s : Heap × Configs, Running pcms top s [] → ∀ n,
      n ∈ ([] : List String) ↔ n ∈ s.2.keys ∧ ran s.2 n = false := by
    intro s hs n
    constructor
    · intro hn
      cases hn
    · rintro ⟨hn, hran⟩
      rw [hs.ran hn] at hran
      cases hran
  induction fuel generalizing s stack with
  | zero =>
      cases stack with
      | nil => exact ⟨[], s, rfl, hs, List.nodup_nil, hdone s hs, fun _ hn => hn⟩
      | cons name stack =>
          rw [List.length_cons] at hfuel
          omega
  | succ fuel ih =>
      cases stack with
      | nil => exact ⟨[], s, rfl, hs, List.nodup_nil, hdone s hs, fun _ hn => hn⟩
      | cons name stack =>
          obtain ⟨h, configs⟩ := s
          rw [List.length_cons] at hfuel
          have hkey := hs.stacked name List.mem_cons_self
          obtain ⟨e, he⟩ := OrderedDict.mem_keys_iff.mp hkey
          have hentry : configs.entry name = .ok e := by rw [Configs.entry, he]
          have hisSome : ran configs name = e.cfg.isSome := by rw [ran, he]; rfl
          rw [runPcmsCalls, hentry]
          by_cases hran : ran configs name = true
          · simp only [← hisSome, hran, if_true]
            exact ih (hs.skip hran) (by dsimp only at hfuel ⊢; omega)
          · rw [Bool.not_eq_true] at hran
            have hmem := hmodules name (hs.reached name hkey)
            obtain ⟨handle, hrun⟩ := hruns name hmem
            have hchildren : (modulesOf pcms).children name = handle.inheritedModules := by
              simp only [modulesOf, hrun]
            have hunpushed := unpushed_run pcms hmem hran (sortPcmNames handle.inheritedModules)
              handle.inheritedModules h.next
            have hlength := (sortPcmNames_perm handle.inheritedModules).length_eq
            obtain ⟨calls, t, hcalls, ht, hnodup, hmemcalls, hkeys⟩ := ih (hs.run hrun) (by
              rw [List.length_append, List.length_reverse, hlength]
              rw [hchildren] at hunpushed
              dsimp only at hfuel ⊢
              omega)
            have hname : name ∈ t.2.keys := by
              refine hkeys name ?_
              rw [mem_keys_addChildren, OrderedDict.mem_keys_set]
              exact Or.inr (Or.inl rfl)
            refine ⟨name :: calls, t, ?_, ht, List.nodup_cons.mpr ⟨?_, hnodup⟩, ?_, ?_⟩
            · simp only [← hisSome, hran, Bool.false_eq_true, if_false, hrun, hcalls]
            · intro hmemname
              have hran' := ((hmemcalls name).mp hmemname).2
              rw [ran_run, decide_eq_true rfl] at hran'
              cases hran'
            · intro n
              rw [List.mem_cons, hmemcalls, ran_run, Bool.or_eq_false_iff, decide_eq_false_iff_not]
              constructor
              · rintro (rfl | ⟨hn, _, hran'⟩)
                · exact ⟨hname, hran⟩
                · exact ⟨hn, hran'⟩
              · rintro ⟨hn, hran'⟩
                by_cases hnn : n = name
                · exact Or.inl hnn
                · exact Or.inr ⟨hn, hnn, hran'⟩
            · intro n hn
              refine hkeys n ?_
              rw [mem_keys_addChildren, OrderedDict.mem_keys_set]
              exact Or.inr (Or.inr hn)

end RunPcms

section Postfix

variable {M : Modules} {h : Heap} {configs : Configs}

/-- The rounds that an entry of the stack needs, counting paths of at most `depth` edges. -/
def roundsOf (M : Modules) (depth : Nat) : String × Bool → Nat
  | (n, true) => 2 * countPaths M.children depth n
  | (_, false) => 1

def roundsOfStack (M : Modules) (depth : Nat) (stack : List (String × Bool)) : Nat :=
  (stack.map (roundsOf M depth)).sum

theorem roundsOfStack_cons (depth : Nat) (e : String × Bool) (stack : List (String × Bool)) :
    roundsOfStack M depth (e :: stack) = roundsOf M depth e + roundsOfStack M depth stack := by
  rw [roundsOfStack, List.map_cons, List.sum_cons]
  rfl

theorem roundsOfStack_le_succ (depth : Nat) (stack : List (String × Bool)) :
    roundsOfStack M depth stack ≤ roundsOfStack M (depth + 1) stack := by
  refine List.sum_le_sum ?_
  rintro ⟨n, before⟩ _
  cases before with
  | false => exact le_rfl
  | true => exact Nat.mul_le_mul_left 2 (countPaths_le_succ depth n)

/-- A module whose children are pushed. -/
theorem roundsOfStack_push (depth : Nat) (n : String) (stack : List (String × Bool)) :
    1 + roundsOfStack M depth ((M.order n).map (fun child => (child, true)) ++ (n, false) :: stack) =
      roundsOf M (depth + 1) (n, true) + roundsOfStack M depth stack := by
  have hperm : (M.order n).Perm (M.children n) :=
    (List.reverse_perm _).trans (sortPcmNames_perm _)
  have hsum : (((M.order n).map (fun child => (child, true))).map (roundsOf M depth)).sum =
      2 * ((M.children n).map (countPaths M.children depth)).sum := by
    rw [List.map_map, ← List.sum_map_mul_left]
    exact (hperm.map _).sum_eq
  rw [roundsOfStack, List.map_append, List.sum_append, hsum, List.map_cons, List.sum_cons,
    roundsOf, roundsOf, countPaths_succ, roundsOfStack]
  omega

/-- The loop ends within its bound iff the paths below its stack do. -/
theorem configsPostfix_rounds
    (hrec : Recorded M h configs) (fuel : Nat) {stack : List (String × Bool)} (names : List String)
    (hstack : ∀ e ∈ stack, e.1 ∈ configs.keys) :
    ((∀ depth, roundsOfStack M depth stack ≤ fuel) →
        ∃ order, configsPostfix configs fuel stack names = .ok order) ∧
      ((∃ depth, fuel < roundsOfStack M depth stack) →
        configsPostfix configs fuel stack names = .error .tooManyIterations) := by
  have hempty : ∀ fuel names, ((∀ depth, roundsOfStack M depth [] ≤ fuel) →
        ∃ order, configsPostfix configs fuel [] names = .ok order) ∧
      ((∃ depth, fuel < roundsOfStack M depth []) →
        configsPostfix configs fuel [] names = .error .tooManyIterations) := by
    intro fuel names
    refine ⟨fun _ => ⟨names, by rw [configsPostfix]⟩, ?_⟩
    rintro ⟨depth, hdepth⟩
    exact absurd hdepth (Nat.not_lt_zero fuel)
  induction fuel generalizing stack names with
  | zero =>
      cases stack with
      | nil => exact hempty 0 names
      | cons e stack =>
          refine ⟨?_, fun _ => rfl⟩
          intro hall
          have hpos : 0 < roundsOf M 0 e := by
            obtain ⟨n, before⟩ := e
            cases before with
            | false => exact Nat.one_pos
            | true => exact Nat.mul_pos (by omega) (countPaths_pos 0 n)
          have hzero := hall 0
          rw [roundsOfStack_cons] at hzero
          omega
  | succ fuel ih =>
      cases stack with
      | nil => exact hempty (fuel + 1) names
      | cons e stack =>
          obtain ⟨n, before⟩ := e
          rw [List.forall_mem_cons] at hstack
          cases before with
          | false =>
              rw [configsPostfix]
              have hcons : ∀ depth, roundsOfStack M depth ((n, false) :: stack) =
                  1 + roundsOfStack M depth stack :=
                fun depth => roundsOfStack_cons depth (n, false) stack
              constructor
              · intro hall
                refine (ih _ hstack.2).1 ?_
                intro depth
                have hle := hall depth
                rw [hcons] at hle
                omega
              · rintro ⟨depth, hlt⟩
                refine (ih _ hstack.2).2 ⟨depth, ?_⟩
                rw [hcons] at hlt
                omega
          | true =>
              obtain ⟨r, hentry⟩ := hrec.entry_eq hstack.1
              rw [configsPostfix, hentry]
              have hpush : ∀ e ∈ (M.order n).map (fun child => (child, true)) ++
                  (n, false) :: stack, e.1 ∈ configs.keys := by
                intro e he
                rcases List.mem_append.mp he with he | he
                · obtain ⟨c, hc, rfl⟩ := List.mem_map.mp he
                  exact hrec.closed n hstack.1 c (mem_order.mp hc)
                · rcases List.mem_cons.mp he with rfl | he
                  · exact hstack.1
                  · exact hstack.2 e he
              constructor
              · intro hall
                refine (ih _ hpush).1 ?_
                intro depth
                have hle := hall (depth + 1)
                have hmono := roundsOfStack_le_succ (M := M) depth stack
                have hrounds := roundsOfStack_push (M := M) depth n stack
                rw [roundsOfStack_cons] at hle
                omega
              · rintro ⟨depth, hlt⟩
                refine (ih _ hpush).2 ⟨depth, ?_⟩
                have hrounds := roundsOfStack_push (M := M) depth n stack
                have hmore : roundsOf M depth (n, true) ≤ roundsOf M (depth + 1) (n, true) :=
                  Nat.mul_le_mul_left 2 (countPaths_le_succ depth n)
                rw [roundsOfStack_cons] at hlt
                omega

/-- Modules that wait for their children, and the order of those that do not. -/
structure Visiting (M : Modules) (configs : Configs) (stack : List (String × Bool))
    (names : List String) : Prop where
  waiting : ∀ before n after, stack = before ++ (n, false) :: after →
    ∀ c ∈ M.children n, c ∈ names ∨ c ∈ before.map Prod.fst
  first : ChildrenFirst M.children names
  stacked : ∀ e ∈ stack, e.1 ∈ configs.keys
  known : ∀ n ∈ names, n ∈ configs.keys

/-- The children of a module are pushed above it. -/
theorem Visiting.push
    {stack : List (String × Bool)} {names : List String} {n : String}
    (hrec : Recorded M h configs) (hv : Visiting M configs ((n, true) :: stack) names) :
    Visiting M configs ((M.order n).map (fun child => (child, true)) ++ (n, false) :: stack)
      names := by
  have hn := hv.stacked (n, true) List.mem_cons_self
  refine ⟨?_, hv.first, ?_, hv.known⟩
  · intro before m after hsplit c hc
    rcases List.append_eq_append_iff.mp hsplit with ⟨rest, hbefore, hrest⟩ | ⟨rest, hpushed, hrest⟩
    · cases rest with
      | nil =>
          rw [List.nil_append, List.cons.injEq, Prod.mk.injEq] at hrest
          obtain ⟨⟨rfl, _⟩, _⟩ := hrest
          refine Or.inr ?_
          rw [hbefore, List.append_nil, List.map_map]
          exact List.mem_map.mpr ⟨c, mem_order.mpr hc, rfl⟩
      | cons e rest =>
          rw [List.cons_append, List.cons.injEq] at hrest
          obtain ⟨rfl, hrest⟩ := hrest
          rcases hv.waiting ((n, true) :: rest) m after (by rw [hrest]; rfl) c hc with hc | hc
          · exact Or.inl hc
          · refine Or.inr ?_
            rw [hbefore, List.map_append]
            exact List.mem_append_right _ hc
    · cases rest with
      | nil =>
          rw [List.nil_append, List.cons.injEq, Prod.mk.injEq] at hrest
          obtain ⟨⟨rfl, _⟩, _⟩ := hrest
          refine Or.inr ?_
          rw [List.append_nil] at hpushed
          rw [← hpushed, List.map_map]
          exact List.mem_map.mpr ⟨c, mem_order.mpr hc, rfl⟩
      | cons e rest =>
          rw [List.cons_append, List.cons.injEq] at hrest
          have hmem : (m, false) ∈ (M.order n).map (fun child => (child, true)) := by
            rw [hpushed, hrest.1]
            exact List.mem_append_right _ List.mem_cons_self
          obtain ⟨d, _, hd⟩ := List.mem_map.mp hmem
          cases hd
  · intro e he
    rcases List.mem_append.mp he with he | he
    · obtain ⟨c, hc, rfl⟩ := List.mem_map.mp he
      exact hrec.closed n hn c (mem_order.mp hc)
    · rcases List.mem_cons.mp he with rfl | he
      · exact hn
      · exact hv.stacked e (List.mem_cons_of_mem _ he)

/-- A module is visited after its children. -/
theorem Visiting.visit
    {stack : List (String × Bool)} {names : List String} {n : String}
    (hv : Visiting M configs ((n, false) :: stack) names) :
    Visiting M configs stack (names ++ [n]) := by
  refine ⟨?_, ?_, fun e he => hv.stacked e (List.mem_cons_of_mem _ he), ?_⟩
  · intro before m after hsplit c hc
    rcases hv.waiting ((n, false) :: before) m after (by rw [hsplit]; rfl) c hc with hc | hc
    · exact Or.inl (List.mem_append_left _ hc)
    · rcases List.mem_cons.mp hc with rfl | hc
      · exact Or.inl (by simp)
      · exact Or.inr hc
  · refine hv.first.append ?_
    intro before m after hsplit c hc
    have hnil : before = [] ∧ m = n := by
      cases before with
      | nil =>
          rw [List.nil_append, List.cons.injEq] at hsplit
          exact ⟨rfl, hsplit.1.symm⟩
      | cons e before =>
          rw [List.cons_append, List.cons.injEq] at hsplit
          exact absurd hsplit.2.symm (by simp)
    rw [hnil.2] at hc
    rcases hv.waiting [] n stack rfl c hc with hc | hc
    · exact Or.inl hc
    · cases hc
  · intro m hm
    rcases List.mem_append.mp hm with hm | hm
    · exact hv.known m hm
    · rw [List.mem_singleton.mp hm]
      exact hv.stacked (n, false) List.mem_cons_self

theorem configsPostfix_order
    (hrec : Recorded M h configs) {fuel : Nat} {stack : List (String × Bool)}
    {names order : List String} (hv : Visiting M configs stack names)
    (hrun : configsPostfix configs fuel stack names = .ok order) :
    Visiting M configs [] order ∧ (∀ n ∈ names, n ∈ order) ∧ ∀ e ∈ stack, e.1 ∈ order := by
  have hempty : ∀ fuel names, Visiting M configs [] names →
      configsPostfix configs fuel [] names = .ok order →
      Visiting M configs [] order ∧ (∀ n ∈ names, n ∈ order) ∧
        ∀ e ∈ ([] : List (String × Bool)), e.1 ∈ order := by
    intro fuel names hv hrun
    rw [configsPostfix] at hrun
    cases hrun
    exact ⟨hv, fun _ hn => hn, by simp⟩
  induction fuel generalizing stack names with
  | zero =>
      cases stack with
      | nil => exact hempty 0 names hv hrun
      | cons e stack => cases hrun
  | succ fuel ih =>
      cases stack with
      | nil => exact hempty (fuel + 1) names hv hrun
      | cons e stack =>
          obtain ⟨n, before⟩ := e
          cases before with
          | false =>
              rw [configsPostfix] at hrun
              obtain ⟨horder, hnames, hstack⟩ := ih hv.visit hrun
              refine ⟨horder, fun m hm => hnames m (List.mem_append_left _ hm), ?_⟩
              rw [List.forall_mem_cons]
              exact ⟨hnames n (by simp), hstack⟩
          | true =>
              obtain ⟨r, hentry⟩ := hrec.entry_eq (hv.stacked (n, true) List.mem_cons_self)
              rw [configsPostfix, hentry] at hrun
              obtain ⟨horder, hnames, hstack⟩ := ih (hv.push hrec) hrun
              refine ⟨horder, hnames, ?_⟩
              rw [List.forall_mem_cons]
              exact ⟨hstack (n, false) (by simp), fun e he => hstack e (by simp [he])⟩

end Postfix

section ProductConfiguration

variable {pcms : String → List PcmStatement} {top : String}

/-- The edges of the inheritance graph. -/
abbrev Inherits (pcms : String → List PcmStatement) : String → String → Prop :=
  Edge (modulesOf pcms).children

/-- A cycle can be reached, or there are more than 500 paths from `top`. -/
def TooManyPaths (pcms : String → List PcmStatement) (top : String) : Prop :=
  (∃ n, Relation.ReflTransGen (Inherits pcms) top n ∧ Relation.TransGen (Inherits pcms) n n) ∨
    ∃ paths : Finset (List String), 500 < paths.card ∧
      ∀ path ∈ paths, IsPath (modulesOf pcms).children top path

theorem tooManyPaths_iff :
    TooManyPaths pcms top ↔ ∃ depth, 500 < countPaths (modulesOf pcms).children depth top := by
  rw [TooManyPaths, ← exists_countPaths_iff (nodup_children pcms)]
  constructor
  · rintro (⟨n, hreach, hcycle⟩ | h)
    · obtain ⟨depth, hdepth⟩ := countPaths_of_cycle hcycle 500
      obtain ⟨more, hmore⟩ := countPaths_of_reflTransGen hreach depth
      exact ⟨more, hdepth.trans_le hmore⟩
    · exact h
  · exact Or.inr

theorem TooManyPaths.of_reachable
    {n : String} (hreach : Relation.ReflTransGen (Inherits pcms) top n)
    (h : TooManyPaths pcms n) :
    TooManyPaths pcms top := by
  obtain ⟨depth, hdepth⟩ := tooManyPaths_iff.mp h
  obtain ⟨more, hmore⟩ := countPaths_of_reflTransGen hreach depth
  exact tooManyPaths_iff.mpr ⟨more, hdepth.trans_le hmore⟩

/-- One evaluation: the paths decide whether its bound is exceeded. -/
theorem evaluateFinalizedProductVariables_bound
    {h : Heap} {configs : Configs} (hrec : Recorded (modulesOf pcms) h configs)
    (htop : top ∈ configs.keys) :
    (TooManyPaths pcms top →
        evaluateFinalizedProductVariables h configs top = .error .tooManyIterations) ∧
      (¬ TooManyPaths pcms top → Yields PcmError.IsTypeError
        (fun r => h.next ≤ r.2.next ∧ ∀ k < h.next, r.2.cells k = h.cells k)
        (evaluateFinalizedProductVariables h configs top)) := by
  have hstack : ∀ e ∈ [(top, true)], e.1 ∈ configs.keys := by
    intro e he
    rw [List.mem_singleton.mp he]
    exact htop
  have hrounds : ∀ depth, roundsOfStack (modulesOf pcms) depth [(top, true)] =
      2 * countPaths (modulesOf pcms).children depth top :=
    fun _ => rfl
  obtain ⟨hfinishes, hfails⟩ := configsPostfix_rounds hrec 1000 [] hstack
  rw [evaluateFinalizedProductVariables_eq]
  constructor
  · intro hmany
    obtain ⟨depth, hdepth⟩ := tooManyPaths_iff.mp hmany
    rw [hfails ⟨depth, by rw [hrounds]; omega⟩]
    rfl
  · intro hfew
    rw [tooManyPaths_iff] at hfew
    obtain ⟨order, horder⟩ := hfinishes (by
      intro depth
      rw [hrounds]
      by_contra hlt
      exact hfew ⟨depth, by omega⟩)
    have hv : Visiting (modulesOf pcms) configs [(top, true)] [] := by
      refine ⟨?_, ?_, hstack, by simp⟩
      · intro before n after hsplit
        have hmem : (n, false) ∈ [(top, true)] := by
          rw [hsplit]
          exact List.mem_append_right _ List.mem_cons_self
        rw [List.mem_singleton, Prod.mk.injEq] at hmem
        exact absurd hmem.2 Bool.false_ne_true
      · intro before n after hsplit
        simp at hsplit
    obtain ⟨hvisited, _, hmem⟩ := configsPostfix_order hrec hv horder
    rw [horder]
    exact evaluateInOrder_ready hrec (referred_modulesOf pcms) hvisited.known hvisited.first
      (hmem (top, true) (List.mem_singleton_self _))

theorem evaluateAll_bound
    {h : Heap} {configs : Configs} (hrec : Recorded (modulesOf pcms) h configs)
    {tops : List String} (htops : ∀ t ∈ tops, t ∈ configs.keys) :
    ((∃ t ∈ tops, TooManyPaths pcms t) →
        evaluateAll configs h tops = .error .tooManyIterations ∨
          1 < tops.length ∧ ∃ attr, evaluateAll configs h tops = .error (.typeError attr)) ∧
      ((∀ t ∈ tops, ¬ TooManyPaths pcms t) →
        Yields PcmError.IsTypeError (fun _ => True) (evaluateAll configs h tops)) := by
  induction tops generalizing h with
  | nil => exact ⟨by simp, fun _ => trivial⟩
  | cons t tops ih =>
      rw [List.forall_mem_cons] at htops
      obtain ⟨hfails, hyields⟩ := evaluateFinalizedProductVariables_bound hrec htops.1
      rw [evaluateAll]
      constructor
      · rintro ⟨m, hm, hmany⟩
        by_cases ht : TooManyPaths pcms t
        · rw [hfails ht]
          exact Or.inl rfl
        · have hmem : m ∈ tops := by
            rcases List.mem_cons.mp hm with rfl | hm
            · exact absurd hmany ht
            · exact hm
          have hlength : 1 < (t :: tops).length := by
            rw [List.length_cons]
            exact Nat.succ_lt_succ (List.length_pos_of_mem hmem)
          have hresult := hyields ht
          cases hrun : evaluateFinalizedProductVariables h configs t with
          | error e =>
              rw [hrun] at hresult
              obtain ⟨attr, rfl⟩ := hresult
              exact Or.inr ⟨hlength, attr, rfl⟩
          | ok r =>
              rw [hrun] at hresult
              rcases (ih (hrec.mono hresult.1 hresult.2) htops.2).1 ⟨m, hmem, hmany⟩ with
                hrest | ⟨_, attr, hrest⟩
              · exact Or.inl (by simp only [bind, Except.bind, hrest])
              · exact Or.inr ⟨hlength, attr, by simp only [bind, Except.bind, hrest]⟩
      · intro hfew
        rw [List.forall_mem_cons] at hfew
        refine Yields.bind (hyields hfew.1) ?_
        rintro ⟨cfg, h'⟩ ⟨hnext, hold⟩
        exact Yields.bind ((ih (hrec.mono hnext hold) htops.2).2 hfew.2) fun _ _ => trivial

theorem Running.start :
    Running pcms top
      (⟨0, fun _ => OrderedDict.empty⟩, OrderedDict.empty.set top ⟨none, [], false⟩) [top] := by
  have hget : ∀ n e, (OrderedDict.empty.set top ⟨none, [], false⟩ : Configs).get? n = some e →
      n = top ∧ e = ⟨none, [], false⟩ := by
    intro n e he
    rw [OrderedDict.get?_set] at he
    split_ifs at he with hn
    · cases he
      exact ⟨hn, rfl⟩
    · cases he
  refine ⟨⟨?_, ?_⟩, ?_, ?_⟩
  · intro n e he
    obtain ⟨rfl, rfl⟩ := hget n e he
    exact Or.inl ⟨rfl, List.mem_singleton_self n⟩
  · intro n e r he hr
    obtain ⟨_, rfl⟩ := hget n e he
    cases hr
  · intro n hn
    rw [List.mem_singleton.mp hn, OrderedDict.mem_keys_set]
    exact Or.inl rfl
  · intro n hn
    obtain ⟨e, he⟩ := OrderedDict.mem_keys_iff.mp hn
    rw [(hget n e he).1]

/-- Every module below `top` is run once, with cycles or without. -/
theorem productConfigsCalls_spec
    {modules : Finset String} (htop : top ∈ modules)
    (hclosed : ∀ n ∈ modules, ∀ c ∈ (modulesOf pcms).children n, c ∈ modules)
    (hruns : ∀ n ∈ modules, ∃ handle, runPcm (pcms n) = .ok handle)
    (hedges : ∑ n ∈ modules, ((modulesOf pcms).children n).length < 1000) :
    ∃ calls h configs, productConfigsCalls pcms top = (calls, .ok (h, configs)) ∧ calls.Nodup ∧
      (∀ n, n ∈ calls ↔ Relation.ReflTransGen (Inherits pcms) top n) ∧
      (∀ n, n ∈ configs.keys ↔ Relation.ReflTransGen (Inherits pcms) top n) ∧
      Recorded (modulesOf pcms) h configs := by
  have hmodules : ∀ n, Relation.ReflTransGen (Inherits pcms) top n → n ∈ modules := by
    intro n hn
    induction hn with
    | refl => exact htop
    | tail _ hedge ih => exact hclosed _ ih _ hedge
  have hunpushed : unpushed pcms modules (OrderedDict.empty.set top ⟨none, [], false⟩) ≤
      ∑ n ∈ modules, ((modulesOf pcms).children n).length :=
    Finset.sum_le_sum_of_subset (Finset.filter_subset _ _)
  obtain ⟨calls, ⟨h, configs⟩, hcalls, hrunning, hnodup, hmem, hkeys⟩ :=
    runPcmsCalls_spec hmodules hruns 1000 Running.start
      ((Nat.add_le_add_left hunpushed 1).trans (by omega))
  have hrec : Recorded (modulesOf pcms) h configs := hrunning.inv.recorded
  have hreached : ∀ n, n ∈ configs.keys ↔ Relation.ReflTransGen (Inherits pcms) top n := by
    intro n
    refine ⟨hrunning.reached n, ?_⟩
    intro hn
    induction hn with
    | refl => exact hkeys top (OrderedDict.mem_keys_set.mpr (Or.inl rfl))
    | tail _ hedge ih => exact hrec.closed _ ih _ hedge
  have hnone : ∀ n, ran (OrderedDict.empty.set top ⟨none, [], false⟩) n = false := by
    intro n
    rw [ran, OrderedDict.get?_set]
    split_ifs
    · rfl
    · rfl
  refine ⟨calls, h, configs, hcalls, hnodup, ?_, hreached, hrec⟩
  intro n
  rw [hmem, ← hreached n]
  exact and_iff_left (hnone n)

/-- `_product_configuration` runs every module once.  It fails for too many
iterations when a cycle can be reached or when more than 500 paths start at the
top module, and then only, unless a module with artifact path requirements has
stopped it before with a value of the wrong type. -/
theorem productConfiguration_spec
    (requiresArtifacts : String → Bool) {modules : Finset String} (htop : top ∈ modules)
    (hclosed : ∀ n ∈ modules, ∀ c ∈ (modulesOf pcms).children n, c ∈ modules)
    (hruns : ∀ n ∈ modules, ∃ handle, runPcm (pcms n) = .ok handle)
    (hedges : ∑ n ∈ modules, ((modulesOf pcms).children n).length < 1000) :
    (∃ calls s, productConfigsCalls pcms top = (calls, .ok s) ∧ calls.Nodup ∧
      ∀ n, n ∈ calls ↔ Relation.ReflTransGen (Inherits pcms) top n) ∧
    (productConfiguration pcms requiresArtifacts top = .error .tooManyIterations →
      TooManyPaths pcms top) ∧
    (TooManyPaths pcms top →
      productConfiguration pcms requiresArtifacts top = .error .tooManyIterations ∨
        (∃ n, Relation.ReflTransGen (Inherits pcms) top n ∧ requiresArtifacts n = true) ∧
          ∃ attr, productConfiguration pcms requiresArtifacts top = .error (.typeError attr)) ∧
    ∀ n, productConfiguration pcms requiresArtifacts top ≠ .error (.notReady n) ∧
      productConfiguration pcms requiresArtifacts top ≠ .error (.notRun n) := by
  obtain ⟨calls, h, configs, hcalls, hnodup, hmem, hreached, hrec⟩ :=
    productConfigsCalls_spec htop hclosed hruns hedges
  have hconfigs : productConfigs pcms top = .ok (h, configs) := by
    rw [productConfigs, ← runPcmsCalls_snd]
    exact congrArg Prod.snd hcalls
  have hrequired : ∀ n, n ∈ (sortNames ((configs.keys.filter requiresArtifacts).map
        (fun x => x ++ ".mk"))).map dropMk ↔ n ∈ configs.keys ∧ requiresArtifacts n = true := by
    intro n
    have hperm : ∀ x, x ∈ sortNames ((configs.keys.filter requiresArtifacts).map
        (fun x => x ++ ".mk")) ↔ x ∈ (configs.keys.filter requiresArtifacts).map
        (fun x => x ++ ".mk") := fun x => (List.perm_insertionSort _ _).mem_iff
    simp only [List.mem_map, hperm, List.mem_filter]
    constructor
    · rintro ⟨_, ⟨x, hx, rfl⟩, rfl⟩
      rw [dropMk_append]
      exact hx
    · intro hn
      exact ⟨n ++ ".mk", ⟨n, hn, rfl⟩, dropMk_append n⟩
  have heq : productConfiguration pcms requiresArtifacts top = evaluateAll configs h
      ((sortNames ((configs.keys.filter requiresArtifacts).map (fun x => x ++ ".mk"))).map dropMk ++
        [top]) := by
    rw [productConfiguration, hconfigs]
    rfl
  have htops : ∀ t ∈ (sortNames ((configs.keys.filter requiresArtifacts).map
      (fun x => x ++ ".mk"))).map dropMk ++ [top], t ∈ configs.keys := by
    intro t ht
    rcases List.mem_append.mp ht with ht | ht
    · exact ((hrequired t).mp ht).1
    · rw [List.mem_singleton.mp ht, hreached]
  obtain ⟨hmany, hfew⟩ := evaluateAll_bound hrec htops
  rw [← heq] at hmany hfew
  have hyields : ¬ TooManyPaths pcms top →
      Yields PcmError.IsTypeError (fun _ => True)
        (productConfiguration pcms requiresArtifacts top) :=
    fun hpaths => hfew fun t ht hmanyt =>
      hpaths (hmanyt.of_reachable ((hreached t).mp (htops t ht)))
  refine ⟨⟨calls, (h, configs), hcalls, hnodup, hmem⟩, ?_, ?_, ?_⟩
  · intro herror
    by_contra hpaths
    have hresult := hyields hpaths
    rw [herror] at hresult
    obtain ⟨attr, hattr⟩ := hresult
    cases hattr
  · intro hpaths
    rcases hmany ⟨top, List.mem_append_right _ (List.mem_singleton_self top), hpaths⟩ with
      h | ⟨hlength, htype⟩
    · exact Or.inl h
    · refine Or.inr ⟨?_, htype⟩
      rw [List.length_append, List.length_singleton] at hlength
      obtain ⟨n, hn⟩ := List.exists_mem_of_length_pos (Nat.pos_of_lt_add_left hlength)
      obtain ⟨hkey, hrequires⟩ := (hrequired n).mp hn
      exact ⟨n, (hreached n).mp hkey, hrequires⟩
  · intro n
    by_cases hpaths : TooManyPaths pcms top
    · rcases hmany ⟨top, List.mem_append_right _ (List.mem_singleton_self top), hpaths⟩ with
        h | ⟨_, attr, h⟩
      · rw [h]
        exact ⟨by simp, by simp⟩
      · rw [h]
        exact ⟨by simp, by simp⟩
    · have hresult := hyields hpaths
      constructor
      · intro herror
        rw [herror] at hresult
        obtain ⟨attr, hattr⟩ := hresult
        cases hattr
      · intro herror
        rw [herror] at hresult
        obtain ⟨attr, hattr⟩ := hresult
        cases hattr

def sharedBase : String → List PcmStatement
  | "top" => [.inherit "a", .inherit "b"]
  | "a" => [.inherit "base"]
  | "b" => [.inherit "base"]
  | _ => []

theorem productConfiguration_sharedBase :
    (∃ calls s, productConfigsCalls sharedBase "top" = (calls, .ok s) ∧ calls.Nodup ∧
      ∀ n, n ∈ calls ↔ Relation.ReflTransGen (Inherits sharedBase) "top" n) ∧
    ∀ n, productConfiguration sharedBase (fun _ => false) "top" ≠ .error (.notReady n) := by
  have hclosed : ∀ n ∈ ({"top", "a", "b", "base"} : Finset String),
      ∀ c ∈ (modulesOf sharedBase).children n, c ∈ ({"top", "a", "b", "base"} : Finset String) := by
    decide +kernel
  have hruns : ∀ n ∈ ({"top", "a", "b", "base"} : Finset String),
      ∃ handle, runPcm (sharedBase n) = .ok handle := by
    intro n hn
    simp only [Finset.mem_insert, Finset.mem_singleton] at hn
    rcases hn with rfl | rfl | rfl | rfl
    · exact ⟨_, rfl⟩
    · exact ⟨_, rfl⟩
    · exact ⟨_, rfl⟩
    · exact ⟨_, rfl⟩
  obtain ⟨hcalls, _, _, hready⟩ := productConfiguration_spec (fun _ => false)
    (by decide : "top" ∈ ({"top", "a", "b", "base"} : Finset String)) hclosed hruns
    (by decide +kernel)
  exact ⟨hcalls, fun n => (hready n).1⟩

def ladderModules : List String :=
  ["m0", "m1", "m2", "m3", "m4", "m5", "m6", "m7", "m8", "m9", "m10", "m11", "m12"]

/-- Every module inherits the two modules behind it. -/
def ladder (n : String) : List PcmStatement :=
  ((ladderModules.drop (ladderModules.idxOf n + 1)).take 2).map PcmStatement.inherit

theorem idxOf_lt_of_inherits
    {n c : String} (h : Inherits ladder n c) :
    ladderModules.idxOf n < ladderModules.idxOf c := by
  have hmem := inherit_of_child h
  rw [ladder, List.mem_map] at hmem
  obtain ⟨_, hmem, ⟨⟩⟩ := hmem
  by_cases hn : n ∈ ladderModules
  · have hall : ladderModules.all (fun n =>
        ((ladderModules.drop (ladderModules.idxOf n + 1)).take 2).all (fun c =>
          decide (ladderModules.idxOf n < ladderModules.idxOf c))) = true := by
      decide +kernel
    rw [List.all_eq_true] at hall
    exact of_decide_eq_true (List.all_eq_true.mp (hall n hn) c hmem)
  · rw [List.idxOf_of_notMem hn, List.drop_eq_nil_of_le (Nat.le_succ _)] at hmem
    cases hmem

/-- The error of a loop that does not settle. -/
def failsByIterations {α : Type} : Except PcmError α → Bool
  | .error .tooManyIterations => true
  | _ => false

theorem eq_of_failsByIterations
    {α : Type} {result : Except PcmError α} (h : failsByIterations result = true) :
    result = .error .tooManyIterations := by
  cases result with
  | ok a => cases h
  | error e => cases e <;> first | rfl | cases h

/-- Thirteen modules with 23 edges and no cycle, but 609 paths. -/
theorem productConfiguration_ladder :
    ∑ n ∈ ladderModules.toFinset, ((modulesOf ladder).children n).length = 23 ∧
    (∀ n, ¬ Relation.TransGen (Inherits ladder) n n) ∧
    productConfiguration ladder (fun _ => false) "m0" = .error .tooManyIterations := by
  have hrank : ∀ n m, Relation.TransGen (Inherits ladder) n m →
      ladderModules.idxOf n < ladderModules.idxOf m := by
    intro n m h
    induction h with
    | single hedge => exact idxOf_lt_of_inherits hedge
    | tail _ hedge ih => exact ih.trans (idxOf_lt_of_inherits hedge)
  refine ⟨by decide +kernel, fun n h => (hrank n n h).false, ?_⟩
  exact eq_of_failsByIterations (by decide +kernel)

end ProductConfiguration

end ProductConfig
end AndroidBuild
