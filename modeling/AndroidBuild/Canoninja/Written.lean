import AndroidBuild.Canoninja.Names
import AndroidBuild.Lib.Loop

/-!
# What is written for a Ninja file

The rules of a file with their texts, and what `Generate` writes for each line
when it succeeds.
-/

namespace AndroidBuild
namespace Canoninja

section Rules

/-- The rules of a file, each with its text: what stands behind its name and its body. -/
def rules : List Bytes → List (Bytes × List Bytes)
  | [] => []
  | line :: rest =>
      if rulePrefix <+: line then
        ((ruleName line).bytes, (ruleName line).behind line :: ruleBody rest) :: rules rest
      else rules rest

variable (sha1 : Bytes → Bytes)

def digestOf (ls : List Bytes) (name : Bytes) : Option Bytes :=
  ((rules ls).find? fun r => r.1 = name).map fun r => textDigest sha1 r.2

/-- Every rule has a name of its own. -/
structure HasRuleNames (ls : List Bytes) : Prop where
  ne_nil : ∀ r ∈ rules ls, r.1 ≠ []
  nodup : ((rules ls).map Prod.fst).Nodup

theorem ruleDigests_ok
    {n : Nat} {acc d : OrderedDict Bytes Bytes} {ls : List Bytes}
    (h : ruleDigests sha1 n acc ls = .ok d) :
    HasRuleNames ls ∧ (∀ r ∈ rules ls, acc.get? r.1 = none) ∧
      ∀ k, d.get? k = (digestOf sha1 ls k).or (acc.get? k) := by
  induction ls generalizing n acc with
  | nil =>
      cases h
      exact ⟨⟨by simp [rules], by simp [rules]⟩, by simp [rules], fun k => rfl⟩
  | cons line rest ih =>
      rw [ruleDigests] at h
      dsimp only at h
      split_ifs at h with hrule hname hdefined
      · obtain ⟨⟨hne, hnodup⟩, hnone, hget⟩ := ih h
        have hrules : rules (line :: rest) =
            ((ruleName line).bytes, (ruleName line).behind line :: ruleBody rest) ::
              rules rest := by
          rw [rules, if_pos hrule]
        have hother : ∀ r ∈ rules rest, r.1 ≠ (ruleName line).bytes := by
          intro r hr heq
          have := hnone r hr
          rw [OrderedDict.get?_set, if_pos heq] at this
          cases this
        rw [hrules]
        refine ⟨⟨?_, ?_⟩, ?_, fun k => ?_⟩
        · rw [hrules]
          exact List.forall_mem_cons.mpr ⟨hname, hne⟩
        · rw [hrules, List.map_cons, List.nodup_cons]
          refine ⟨fun hmem => ?_, hnodup⟩
          obtain ⟨r, hr, heq⟩ := List.mem_map.mp hmem
          exact hother r hr heq
        · refine List.forall_mem_cons.mpr ⟨by simpa using hdefined, fun r hr => ?_⟩
          have := hnone r hr
          rwa [OrderedDict.get?_set, if_neg (hother r hr)] at this
        · rw [hget, OrderedDict.get?_set, digestOf, digestOf, hrules]
          by_cases hk : k = (ruleName line).bytes
          · have hnot : (rules rest).find? (fun r => r.1 = k) = none := by
              rw [List.find?_eq_none]
              intro r hr
              rw [hk]
              simpa using hother r hr
            rw [hnot, if_pos hk, List.find?_cons_of_pos (by simpa using hk.symm)]
            rfl
          · rw [if_neg hk, List.find?_cons_of_neg (by simpa using Ne.symm hk)]
      · obtain ⟨⟨hne, hnodup⟩, hnone, hget⟩ := ih h
        have hrules : rules (line :: rest) = rules rest := by
          rw [rules, if_neg hrule]
        rw [hrules]
        refine ⟨⟨by rwa [hrules], by rwa [hrules]⟩, hnone, fun k => ?_⟩
        rw [hget, digestOf, digestOf, hrules]

theorem ruleDigests_total
    {ls : List Bytes} (hnames : HasRuleNames ls) {acc : OrderedDict Bytes Bytes}
    (hacc : ∀ r ∈ rules ls, acc.get? r.1 = none) (n : Nat) :
    ∃ d, ruleDigests sha1 n acc ls = .ok d := by
  induction ls generalizing n acc with
  | nil => exact ⟨acc, rfl⟩
  | cons line rest ih =>
      obtain ⟨hne, hnodup⟩ := hnames
      rw [rules] at hne hnodup hacc
      rw [ruleDigests]
      split_ifs at hne hnodup hacc with hrule
      · rw [List.forall_mem_cons] at hne hacc
        rw [List.map_cons, List.nodup_cons] at hnodup
        rw [if_pos hrule]
        dsimp only
        rw [if_neg hne.1, if_neg (by rw [hacc.1]; simp)]
        refine ih ⟨hne.2, hnodup.2⟩ (fun r hr => ?_) _
        rw [OrderedDict.get?_set, if_neg, hacc.2 r hr]
        intro heq
        exact hnodup.1 (List.mem_map.mpr ⟨r, hr, heq⟩)
      · rw [if_neg hrule]
        exact ih ⟨hne, hnodup⟩ hacc _

/-- The digest of a rule. -/
theorem digestOf_eq_some_iff
    {ls : List Bytes} (h : HasRuleNames ls) {name d : Bytes} :
    digestOf sha1 ls name = some d ↔
      ∃ text, (name, text) ∈ rules ls ∧ textDigest sha1 text = d := by
  rw [digestOf, Option.map_eq_some_iff]
  constructor
  · rintro ⟨⟨name', text⟩, hfind, rfl⟩
    have hname : name' = name := by
      simpa using List.find?_some hfind
    subst hname
    exact ⟨text, List.mem_of_find?_eq_some hfind, rfl⟩
  · rintro ⟨text, hmem, rfl⟩
    cases hfind : (rules ls).find? fun r => r.1 = name with
    | none =>
        have := List.find?_eq_none.mp hfind _ hmem
        simp at this
    | some r =>
        have hname : r.1 = name := by
          simpa using List.find?_some hfind
        have hr := List.inj_on_of_nodup_map h.nodup (List.mem_of_find?_eq_some hfind) hmem hname
        exact ⟨r, rfl, by rw [hr]⟩

theorem mem_rules
    {ls : List Bytes} {line : Bytes} (hline : line ∈ ls) (hrule : rulePrefix <+: line) :
    ∃ text, ((ruleName line).bytes, text) ∈ rules ls := by
  induction ls with
  | nil => cases hline
  | cons l rest ih =>
      rw [rules]
      rcases List.mem_cons.mp hline with rfl | hline
      · rw [if_pos hrule]
        exact ⟨_, List.mem_cons_self⟩
      · obtain ⟨text, htext⟩ := ih hline
        refine ⟨text, ?_⟩
        split_ifs
        · exact List.mem_cons_of_mem _ htext
        · exact htext

end Rules

section Written

/-- What is written for a line, when the rules have these digests. -/
inductive Written (digest : Bytes → Option Bytes) (line : Bytes) : Bytes → Prop
  | rule {pre name post d : Bytes} (h : RuleSplit line pre name post)
      (hd : digest name = some d) : Written digest line (pre ++ (d ++ post))
  | build {pre name post d : Bytes} (h : BuildSplit line pre name post) (hne : name ≠ phonyRule)
      (hd : digest name = some d) : Written digest line (pre ++ (d ++ post))
  | phony {pre post : Bytes} (h : BuildSplit line pre phonyRule post) : Written digest line line
  | plain (hbuild : ¬ buildPrefix <+: line) (hrule : ¬ rulePrefix <+: line) :
      Written digest line line

variable {ruleDigest : OrderedDict Bytes Bytes}

theorem rewriteLine_ok_iff
    {n : Nat} {line w : Bytes}
    (hrule : rulePrefix <+: line →
      (ruleName line).bytes ≠ [] ∧ ∃ d, ruleDigest.get? (ruleName line).bytes = some d) :
    rewriteLine ruleDigest n line = .ok w ↔ Written ruleDigest.get? line w := by
  constructor
  · intro h
    rw [rewriteLine] at h
    split_ifs at h with hbuild hrule'
    · obtain ⟨brn, hbrn, h⟩ := Loop.bind_eq_ok.mp h
      split_ifs at h with hphony hnil
      · cases h
        have hne : brn.bytes ≠ [] := by
          rw [hphony]
          decide
        obtain ⟨pre, post, hsplit⟩ := exists_buildSplit hbuild hbrn hne
        rw [hphony] at hsplit
        exact .phony hsplit
      · obtain ⟨pre, post, hsplit⟩ := exists_buildSplit hbuild hbrn hnil
        have hslice : brn = ⟨pre.length, brn.bytes⟩ :=
          Except.ok.inj (hbrn.symm.trans hsplit.getBuildRuleName_eq)
        cases hd : ruleDigest.get? brn.bytes with
        | none =>
            rw [hd] at h
            cases h
        | some d =>
            rw [hd] at h
            dsimp only at h
            rw [before_eq hslice hsplit.eq, behind_eq hslice hsplit.eq, List.append_assoc] at h
            rw [← Except.ok.inj h]
            exact .build hsplit hphony hd
    · obtain ⟨hne, d, hd⟩ := hrule hrule'
      obtain ⟨pre, post, hsplit⟩ := exists_ruleSplit hrule' hne
      have hslice := hsplit.ruleName_eq
      dsimp only at h
      rw [before_eq hslice hsplit.eq, behind_eq hslice hsplit.eq, hd, Option.getD_some,
        List.append_assoc] at h
      rw [← Except.ok.inj h]
      exact .rule hsplit hd
    · cases h
      exact .plain hbuild hrule'
  · intro h
    cases h with
    | rule hsplit hd =>
        rw [rewriteLine, if_neg (not_buildPrefix hsplit.rulePrefix), if_pos hsplit.rulePrefix,
          hsplit.ruleName_eq]
        dsimp only
        rw [before_eq rfl hsplit.eq, behind_eq rfl hsplit.eq, hd, Option.getD_some,
          List.append_assoc]
    | build hsplit hne hd =>
        rw [rewriteLine, if_pos hsplit.buildPrefix, hsplit.getBuildRuleName_eq]
        change (if _ = phonyRule then _ else _) = _
        rw [if_neg hne]
        dsimp only
        rw [if_neg hsplit.isName.ne_nil, hd]
        dsimp only
        rw [before_eq rfl hsplit.eq, behind_eq rfl hsplit.eq, List.append_assoc]
    | phony hsplit =>
        rw [rewriteLine, if_pos hsplit.buildPrefix, hsplit.getBuildRuleName_eq]
        rfl
    | plain hbuild hrule' =>
        rw [rewriteLine, if_neg hbuild, if_neg hrule']

theorem rewriteLines_ok_iff
    {n : Nat} {ls ws : List Bytes}
    (hrules : ∀ line ∈ ls, rulePrefix <+: line →
      (ruleName line).bytes ≠ [] ∧ ∃ d, ruleDigest.get? (ruleName line).bytes = some d) :
    rewriteLines ruleDigest n ls = .ok ws ↔ List.Forall₂ (Written ruleDigest.get?) ls ws := by
  induction ls generalizing n ws with
  | nil =>
      rw [rewriteLines, List.forall₂_nil_left_iff, Except.ok.injEq, eq_comm]
  | cons line rest ih =>
      rw [List.forall_mem_cons] at hrules
      rw [rewriteLines, Loop.bind_eq_ok, List.forall₂_cons_left_iff]
      constructor
      · rintro ⟨w, hw, h⟩
        obtain ⟨more, hmore, h⟩ := Loop.bind_eq_ok.mp h
        exact ⟨w, more, (rewriteLine_ok_iff hrules.1).mp hw, (ih hrules.2).mp hmore,
          (Except.ok.inj h).symm⟩
      · rintro ⟨w, more, hw, hmore, rfl⟩
        exact ⟨w, (rewriteLine_ok_iff hrules.1).mpr hw,
          Loop.bind_eq_ok.mpr ⟨more, (ih hrules.2).mpr hmore, rfl⟩⟩

/-- `Generate` succeeds when each rule has a name of its own and each line has something to be
written. -/
theorem generate_ok_iff
    (sha1 : Bytes → Bytes) {buffer out : Bytes} :
    generate sha1 buffer = .ok out ↔
      HasRuleNames (lines buffer) ∧ ∃ ws, out = ws.flatten ∧
        List.Forall₂ (Written (digestOf sha1 (lines buffer))) (lines buffer) ws := by
  have hspec : ∀ d, ruleDigests sha1 1 OrderedDict.empty (lines buffer) = .ok d →
      HasRuleNames (lines buffer) ∧ d.get? = digestOf sha1 (lines buffer) ∧
        ∀ line ∈ lines buffer, rulePrefix <+: line →
          (ruleName line).bytes ≠ [] ∧ ∃ x, d.get? (ruleName line).bytes = some x := by
    intro d hd
    obtain ⟨hnames, _, hget⟩ := ruleDigests_ok sha1 hd
    have hdigest : d.get? = digestOf sha1 (lines buffer) := by
      funext k
      rw [hget]
      exact Option.or_none
    refine ⟨hnames, hdigest, fun line hline hrule => ?_⟩
    obtain ⟨text, htext⟩ := mem_rules hline hrule
    refine ⟨hnames.ne_nil _ htext, textDigest sha1 text, ?_⟩
    rw [hdigest]
    exact (digestOf_eq_some_iff sha1 hnames).mpr ⟨text, htext, rfl⟩
  rw [generate, Loop.bind_eq_ok]
  constructor
  · rintro ⟨d, hd, h⟩
    obtain ⟨ws, hws, h⟩ := Loop.bind_eq_ok.mp h
    obtain ⟨hnames, hdigest, hrules⟩ := hspec d hd
    rw [rewriteLines_ok_iff hrules, hdigest] at hws
    exact ⟨hnames, ws, (Except.ok.inj h).symm, hws⟩
  · rintro ⟨hnames, ws, rfl, hws⟩
    have hempty : ∀ r ∈ rules (lines buffer),
        (OrderedDict.empty : OrderedDict Bytes Bytes).get? r.1 = none := fun _ _ => rfl
    obtain ⟨d, hd⟩ := ruleDigests_total sha1 hnames hempty 1
    obtain ⟨_, hdigest, hrules⟩ := hspec d hd
    refine ⟨d, hd, Loop.bind_eq_ok.mpr ⟨ws, ?_, rfl⟩⟩
    rw [rewriteLines_ok_iff hrules, hdigest]
    exact hws

end Written

end Canoninja
end AndroidBuild
