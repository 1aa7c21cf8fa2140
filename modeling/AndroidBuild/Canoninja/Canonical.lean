import AndroidBuild.Canoninja.Written
import AndroidBuild.Lib.Sha1

/-!
# Canonical Ninja files are canonical

The output does not depend on the names of the rules, and two files with the
same output have the same lines but for these names, with the same rule texts
behind each build line.  A second run finds nothing to change.
-/

namespace AndroidBuild
namespace Canoninja

section Digests

theorem hexByte_inj :
    ∀ i < 16, ∀ j < 16, (ascii "0123456789abcdef").getD i 0 =
      (ascii "0123456789abcdef").getD j 0 → i = j := by
  decide

theorem isSpace_hexByte :
    ∀ i < 16, isSpace ((ascii "0123456789abcdef").getD i 0) = false := by
  decide

theorem encodeToString_cons
    (x : UInt8) (b : Bytes) :
    encodeToString (x :: b) =
      (ascii "0123456789abcdef").getD (x.toNat / 16) 0 ::
        (ascii "0123456789abcdef").getD (x.toNat % 16) 0 :: encodeToString b :=
  rfl

theorem encodeToString_injective :
    Function.Injective encodeToString := by
  intro b
  induction b with
  | nil =>
      rintro (_ | ⟨y, b'⟩) h
      · rfl
      · cases h
  | cons x b ih =>
      rintro (_ | ⟨y, b'⟩) h
      · cases h
      · have hx := x.toNat_lt
        have hy := y.toNat_lt
        rw [encodeToString_cons, encodeToString_cons] at h
        obtain ⟨hhigh, h⟩ := List.cons.inj h
        obtain ⟨hlow, h⟩ := List.cons.inj h
        have hdiv := hexByte_inj _ (by omega) _ (by omega) hhigh
        have hmod := hexByte_inj _ (by omega) _ (by omega) hlow
        have hbyte : x = y := UInt8.toNat_inj.mp (by omega)
        rw [hbyte, ih h]

variable (sha1 : Bytes → Bytes)

theorem isName_textDigest
    (text : List Bytes) :
    IsName (textDigest sha1 text) := by
  refine ⟨by simp [textDigest, ascii], fun b hb => ?_⟩
  rw [textDigest, List.mem_append] at hb
  rcases hb with hb | hb
  · obtain rfl := List.mem_singleton.mp hb
    rfl
  · rw [encodeToString, List.mem_flatMap] at hb
    obtain ⟨x, _, hb⟩ := hb
    have hx := x.toNat_lt
    rcases List.mem_cons.mp hb with rfl | hb
    · exact isSpace_hexByte _ (by omega)
    · obtain rfl := List.mem_singleton.mp hb
      exact isSpace_hexByte _ (by omega)

theorem textDigest_ne_phony
    (text : List Bytes) :
    textDigest sha1 text ≠ phonyRule := by
  intro h
  cases h

def hashedTexts (buffer : Bytes) : Set Bytes :=
  {b | ∃ r ∈ rules (lines buffer), b ∈ r.2 ∨ b = r.2.flatMap sha1}

variable {sha1}

/-- Digests of one length can be told apart in a row. -/
theorem map_eq_of_flatMap_eq
    (hlen : ∀ b, (sha1 b).length = 20) {t t' : List Bytes}
    (h : t.flatMap sha1 = t'.flatMap sha1) :
    t.map sha1 = t'.map sha1 := by
  induction t generalizing t' with
  | nil =>
      cases t' with
      | nil => rfl
      | cons b t' =>
          have hlength := congrArg List.length h
          rw [List.flatMap_cons, List.length_append, hlen, List.flatMap_nil,
            List.length_nil] at hlength
          omega
  | cons b t ih =>
      cases t' with
      | nil =>
          have hlength := congrArg List.length h
          rw [List.flatMap_cons, List.length_append, hlen, List.flatMap_nil,
            List.length_nil] at hlength
          omega
      | cons b' t' =>
          rw [List.flatMap_cons, List.flatMap_cons] at h
          obtain ⟨hb, ht⟩ := List.append_inj h ((hlen b).trans (hlen b').symm)
          rw [List.map_cons, List.map_cons, hb, ih ht]

/-- Rules with the same digest have the same text. -/
theorem text_eq_of_digest_eq
    (hlen : ∀ b, (sha1 b).length = 20) {M M' : Bytes}
    (hinj : Set.InjOn sha1 (hashedTexts sha1 M ∪ hashedTexts sha1 M'))
    {name name' : Bytes} {t t' : List Bytes} (ht : (name, t) ∈ rules (lines M))
    (ht' : (name', t') ∈ rules (lines M')) (h : textDigest sha1 t = textDigest sha1 t') :
    t = t' := by
  have hsum : sha1 (t.flatMap sha1) = sha1 (t'.flatMap sha1) :=
    encodeToString_injective (List.append_cancel_left h)
  have hflat : t.flatMap sha1 = t'.flatMap sha1 :=
    hinj (Or.inl ⟨_, ht, Or.inr rfl⟩) (Or.inr ⟨_, ht', Or.inr rfl⟩) hsum
  have hmap := map_eq_of_flatMap_eq hlen hflat
  have hlines : ∀ b ∈ t, ∀ b' ∈ t', sha1 b = sha1 b' → b = b' := fun b hb b' hb' =>
    hinj (Or.inl ⟨_, ht, Or.inl hb⟩) (Or.inr ⟨_, ht', Or.inl hb'⟩)
  clear hsum hflat ht ht' h
  induction t generalizing t' with
  | nil => exact (List.map_eq_nil_iff.mp hmap.symm).symm
  | cons b t ih =>
      cases t' with
      | nil => cases hmap
      | cons b' t' =>
          rw [List.map_cons, List.map_cons, List.cons.injEq] at hmap
          rw [hlines b List.mem_cons_self b' List.mem_cons_self hmap.1]
          rw [ih hmap.2 fun c hc c' hc' =>
            hlines c (List.mem_cons_of_mem _ hc) c' (List.mem_cons_of_mem _ hc')]

end Digests

section Keeping

/-- One line replaces another: it is the same, or another name stands in the same place. -/
inductive Keeps : Bytes → Bytes → Prop
  | same (line : Bytes) : Keeps line line
  | name {pre name name' post : Bytes} (h : IsName name) (h' : IsName name') :
      Keeps (pre ++ (name ++ post)) (pre ++ (name' ++ post))

theorem IsName.no_newline
    {name : Bytes} (h : IsName name) :
    newline ∉ name := by
  intro hmem
  have := h.no_space _ hmem
  cases this

theorem AreLines.of_keeps
    {ls ws : List Bytes} (h : AreLines ls) (hkeeps : List.Forall₂ Keeps ls ws) :
    AreLines ws := by
  induction h generalizing ws with
  | nil =>
      cases hkeeps
      exact .nil
  | last hne hline =>
      obtain ⟨w, _, hw, hnil, rfl⟩ := List.forall₂_cons_left_iff.mp hkeeps
      cases hnil
      cases hw with
      | same => exact .last hne hline
      | name h h' =>
          simp only [List.mem_append, not_or] at hline
          refine .last ?_ ?_
          · simp [h'.ne_nil]
          · simp only [List.mem_append, not_or]
            exact ⟨hline.1, h'.no_newline, hline.2.2⟩
  | @cons front rest hfront _ ih =>
      obtain ⟨w, more, hw, hmore, rfl⟩ := List.forall₂_cons_left_iff.mp hkeeps
      generalize hline : front ++ [newline] = line at hw
      cases hw with
      | same =>
          rw [← hline]
          exact .cons hfront (ih hmore)
      | @name pre name name' post h h' =>
          have hpost : post ≠ [] := by
            rintro rfl
            rw [List.append_nil] at hline
            have hlast := congrArg List.getLast? hline
            rw [List.getLast?_concat, List.getLast?_append_of_ne_nil _ h.ne_nil] at hlast
            exact h.no_newline (List.mem_of_getLast? hlast.symm)
          obtain ⟨post', c, rfl⟩ : ∃ post' c, post = post' ++ [c] :=
            ⟨post.dropLast, post.getLast hpost, (List.dropLast_append_getLast hpost).symm⟩
          have hsplit : front ++ [newline] = (pre ++ (name ++ post')) ++ [c] := by
            rw [hline]
            simp
          obtain ⟨rfl, hc⟩ := List.append_inj' hsplit rfl
          cases hc
          simp only [List.mem_append, not_or] at hfront
          have hfront' : newline ∉ pre ++ (name' ++ post') := by
            simp only [List.mem_append, not_or]
            exact ⟨hfront.1, h'.no_newline, hfront.2.2⟩
          have hw : pre ++ (name' ++ (post' ++ [newline])) =
              (pre ++ (name' ++ post')) ++ [newline] := by
            simp
          rw [hw]
          exact .cons hfront' (ih hmore)

theorem Written.keeps
    {sha1 : Bytes → Bytes} {ls : List Bytes} {line w : Bytes}
    (h : Written (digestOf sha1 ls) line w) :
    Keeps line w := by
  have hname : ∀ {n d}, digestOf sha1 ls n = some d → IsName d := by
    intro n d hd
    obtain ⟨r, _, rfl⟩ := Option.map_eq_some_iff.mp hd
    exact isName_textDigest sha1 r.2
  cases h with
  | rule hsplit hd =>
      rw [hsplit.eq]
      exact .name hsplit.isName (hname hd)
  | build hsplit _ hd =>
      rw [hsplit.eq]
      exact .name hsplit.isName (hname hd)
  | phony _ => exact .same line
  | plain _ _ => exact .same line

end Keeping

section Rename

def renameLine (ρ : Bytes → Bytes) (line : Bytes) : Bytes :=
  if buildPrefix <+: line then
    match getBuildRuleName line with
    | .ok brn => brn.before line ++ (ρ brn.bytes ++ brn.behind line)
    | .error _ => line
  else if rulePrefix <+: line then
    (ruleName line).before line ++ (ρ (ruleName line).bytes ++ (ruleName line).behind line)
  else line

def rename (ρ : Bytes → Bytes) (buffer : Bytes) : Bytes :=
  ((lines buffer).map (renameLine ρ)).flatten

/-- The rules of a file get new names; `phony` is no rule and stays. -/
structure Renaming (ρ : Bytes → Bytes) (buffer : Bytes) : Prop where
  isName : ∀ r ∈ rules (lines buffer), IsName (ρ r.1)
  injective : ∀ r ∈ rules (lines buffer), ∀ r' ∈ rules (lines buffer),
    ρ r.1 = ρ r'.1 → r.1 = r'.1
  ne_phony : ∀ r ∈ rules (lines buffer), r.1 ≠ phonyRule → ρ r.1 ≠ phonyRule
  phony : ρ phonyRule = phonyRule

variable {ρ : Bytes → Bytes}

theorem RuleSplit.renameLine_eq
    {line pre name post : Bytes} (h : RuleSplit line pre name post) :
    renameLine ρ line = pre ++ (ρ name ++ post) := by
  rw [renameLine, if_neg (not_buildPrefix h.rulePrefix), if_pos h.rulePrefix,
    before_eq h.ruleName_eq h.eq, behind_eq h.ruleName_eq h.eq, h.ruleName_eq]

theorem BuildSplit.renameLine_eq
    {line pre name post : Bytes} (h : BuildSplit line pre name post) :
    renameLine ρ line = pre ++ (ρ name ++ post) := by
  rw [renameLine, if_pos h.buildPrefix, h.getBuildRuleName_eq]
  dsimp only
  rw [before_eq rfl h.eq, behind_eq rfl h.eq]

theorem renameLine_plain
    {line : Bytes} (hbuild : ¬ buildPrefix <+: line) (hrule : ¬ rulePrefix <+: line) :
    renameLine ρ line = line := by
  rw [renameLine, if_neg hbuild, if_neg hrule]

variable {sha1 : Bytes → Bytes} {buffer : Bytes}

/-- A name with a digest is the name of a rule. -/
theorem exists_rule_of_digestOf
    {ls : List Bytes} {name d : Bytes} (h : digestOf sha1 ls name = some d) :
    ∃ text, (name, text) ∈ rules ls ∧ textDigest sha1 text = d := by
  obtain ⟨⟨name', text⟩, hfind, hd⟩ := Option.map_eq_some_iff.mp h
  have hname : name' = name := by
    simpa using List.find?_some hfind
  rw [← hname]
  exact ⟨text, List.mem_of_find?_eq_some hfind, hd⟩

/-- The kind of a line stays, and a line that starts with a blank stays as it is. -/
theorem renameLine_kind
    (hρ : Renaming ρ buffer) {line w : Bytes}
    (h : Written (digestOf sha1 (lines buffer)) line w) :
    Keeps line (renameLine ρ line) ∧ (renameLine ρ line).head? = line.head? ∧
      (line.head? = some blank → renameLine ρ line = line) ∧
        (rulePrefix <+: renameLine ρ line ↔ rulePrefix <+: line) := by
  cases h with
  | rule hsplit hd =>
      obtain ⟨text, hrule, _⟩ := exists_rule_of_digestOf hd
      have hnew := hsplit.replace (hρ.isName _ hrule)
      obtain ⟨k, hk⟩ := hsplit.before
      rw [hsplit.renameLine_eq]
      refine ⟨?_, ?_, ?_, iff_of_true hnew.rulePrefix hsplit.rulePrefix⟩
      · rw [hsplit.eq]
        exact .name hsplit.isName (hρ.isName _ hrule)
      · rw [hsplit.eq, hk]
        rfl
      · intro hblank
        rw [hsplit.eq, hk] at hblank
        cases hblank
  | build hsplit hne hd =>
      obtain ⟨text, hrule, _⟩ := exists_rule_of_digestOf hd
      have hnew := hsplit.replace (hρ.isName _ hrule)
      obtain ⟨front, k, _, ⟨rest, hrest⟩, hpre⟩ := hsplit.before
      rw [hsplit.renameLine_eq]
      refine ⟨?_, ?_, ?_, iff_of_false (fun h => not_buildPrefix h hnew.buildPrefix)
        (fun h => not_buildPrefix h hsplit.buildPrefix)⟩
      · rw [hsplit.eq]
        exact .name hsplit.isName (hρ.isName _ hrule)
      · rw [hsplit.eq, hpre, ← hrest]
        rfl
      · intro hblank
        rw [hsplit.eq, hpre, ← hrest] at hblank
        cases hblank
  | phony hsplit =>
      have hsame : renameLine ρ line = line := by
        rw [hsplit.renameLine_eq, hρ.phony, ← hsplit.eq]
      rw [hsame]
      exact ⟨.same line, rfl, fun _ => rfl, Iff.rfl⟩
  | plain hbuild hrule =>
      rw [renameLine_plain hbuild hrule]
      exact ⟨.same line, rfl, fun _ => rfl, Iff.rfl⟩

theorem ruleBody_map
    {f : Bytes → Bytes} {rest : List Bytes}
    (hf : ∀ line ∈ rest, (f line).head? = line.head? ∧
      (line.head? = some blank → f line = line)) :
    ruleBody (rest.map f) = ruleBody rest := by
  induction rest with
  | nil => rfl
  | cons line rest ih =>
      rw [List.forall_mem_cons] at hf
      unfold ruleBody at ih ⊢
      rw [List.map_cons, List.takeWhile_cons, List.takeWhile_cons, hf.1.1, ih hf.2]
      by_cases hblank : line.head? = some blank
      · rw [hf.1.2 hblank]
      · simp [hblank]

/-- The rules of the renamed lines have the same texts. -/
theorem rules_map
    (hρ : Renaming ρ buffer) {ls : List Bytes}
    (hls : ∀ line ∈ ls, ∃ w, Written (digestOf sha1 (lines buffer)) line w) :
    rules (ls.map (renameLine ρ)) = (rules ls).map fun r => (ρ r.1, r.2) := by
  induction ls with
  | nil => rfl
  | cons line rest ih =>
      rw [List.forall_mem_cons] at hls
      obtain ⟨⟨w, hw⟩, hrest⟩ := hls
      have hbody : ruleBody (rest.map (renameLine ρ)) = ruleBody rest := by
        refine ruleBody_map fun l hl => ?_
        obtain ⟨w', hw'⟩ := hrest l hl
        obtain ⟨_, hhead, hblank, _⟩ := renameLine_kind hρ hw'
        exact ⟨hhead, hblank⟩
      obtain ⟨_, _, _, hkind⟩ := renameLine_kind hρ hw
      rw [List.map_cons, rules, rules, ih hrest, hbody]
      by_cases hrule : rulePrefix <+: line
      · rw [if_pos hrule, if_pos (hkind.mpr hrule), List.map_cons]
        cases hw with
        | rule hsplit hd =>
            obtain ⟨text, htext, _⟩ := exists_rule_of_digestOf hd
            have hnew := hsplit.replace (hρ.isName _ htext)
            rw [hsplit.renameLine_eq, hnew.ruleName_eq, hsplit.ruleName_eq,
              behind_eq rfl hnew.eq, behind_eq rfl hsplit.eq]
        | build hsplit _ _ => exact absurd hsplit.buildPrefix (not_buildPrefix hrule)
        | phony hsplit => exact absurd hsplit.buildPrefix (not_buildPrefix hrule)
        | plain _ hno => exact absurd hrule hno
      · rw [if_neg hrule, if_neg (fun h => hrule (hkind.mp h))]

theorem exists_of_forall₂
    {R : Bytes → Bytes → Prop} {ls ws : List Bytes} (h : List.Forall₂ R ls ws) {line : Bytes}
    (hline : line ∈ ls) :
    ∃ w, R line w := by
  induction h with
  | nil => cases hline
  | cons hw _ ih =>
      rcases List.mem_cons.mp hline with rfl | hline
      · exact ⟨_, hw⟩
      · exact ih hline

/-- Renaming the rules does not change the output. -/
theorem generate_rename
    {out : Bytes} (h : generate sha1 buffer = .ok out) (hρ : Renaming ρ buffer) :
    generate sha1 (rename ρ buffer) = .ok out := by
  obtain ⟨hnames, ws, rfl, hws⟩ := (generate_ok_iff sha1).mp h
  have hwritten : ∀ line ∈ lines buffer,
      ∃ w, Written (digestOf sha1 (lines buffer)) line w := by
    intro line hline
    exact exists_of_forall₂ hws hline
  have hlines : lines (rename ρ buffer) = (lines buffer).map (renameLine ρ) := by
    refine (AreLines.of_keeps (areLines_lines buffer) ?_).lines_flatten
    rw [List.forall₂_map_right_iff, List.forall₂_same]
    intro line hline
    obtain ⟨w, hw⟩ := hwritten line hline
    exact (renameLine_kind hρ hw).1
  have hrules := rules_map hρ hwritten
  have hnames' : HasRuleNames ((lines buffer).map (renameLine ρ)) := by
    constructor
    · intro r hr
      rw [hrules] at hr
      obtain ⟨r', hr', rfl⟩ := List.mem_map.mp hr
      exact (hρ.isName r' hr').ne_nil
    · have hmap : ((rules (lines buffer)).map fun r => (ρ r.1, r.2)).map Prod.fst =
          ((rules (lines buffer)).map Prod.fst).map ρ := by
        rw [List.map_map, List.map_map]
        rfl
      rw [hrules, hmap]
      refine hnames.nodup.map_on fun n hn n' hn' heq => ?_
      obtain ⟨r, hr, rfl⟩ := List.mem_map.mp hn
      obtain ⟨r', hr', rfl⟩ := List.mem_map.mp hn'
      exact hρ.injective r hr r' hr' heq
  have hdigest : ∀ {name d}, digestOf sha1 (lines buffer) name = some d →
      digestOf sha1 ((lines buffer).map (renameLine ρ)) (ρ name) = some d := by
    intro name d hd
    obtain ⟨text, htext, hd⟩ := (digestOf_eq_some_iff sha1 hnames).mp hd
    refine (digestOf_eq_some_iff sha1 hnames').mpr ⟨text, ?_, hd⟩
    rw [hrules]
    exact List.mem_map.mpr ⟨_, htext, rfl⟩
  refine (generate_ok_iff sha1).mpr ?_
  rw [hlines]
  refine ⟨hnames', ws, rfl, ?_⟩
  rw [List.forall₂_map_left_iff]
  refine hws.imp fun line w hw => ?_
  cases hw with
  | rule hsplit hd =>
      obtain ⟨text, htext, _⟩ := exists_rule_of_digestOf hd
      rw [hsplit.renameLine_eq]
      exact .rule (hsplit.replace (hρ.isName _ htext)) (hdigest hd)
  | build hsplit hne hd =>
      obtain ⟨text, htext, _⟩ := exists_rule_of_digestOf hd
      rw [hsplit.renameLine_eq]
      exact .build (hsplit.replace (hρ.isName _ htext)) (hρ.ne_phony _ htext hne) (hdigest hd)
  | phony hsplit =>
      have hsame : renameLine ρ line = line := by
        rw [hsplit.renameLine_eq, hρ.phony, ← hsplit.eq]
      rw [hsame]
      exact .phony hsplit
  | plain hbuild hrule =>
      rw [renameLine_plain hbuild hrule]
      exact .plain hbuild hrule

end Rename

section Faithful

/-- Two lines are the same but for a name in the same place; the rules of build lines have the
same text. -/
inductive SameLine (ls ls' : List Bytes) : Bytes → Bytes → Prop
  | rule {pre name name' post line line' : Bytes} (h : RuleSplit line pre name post)
      (h' : RuleSplit line' pre name' post) : SameLine ls ls' line line'
  | build {pre name name' post line line' : Bytes} (h : BuildSplit line pre name post)
      (h' : BuildSplit line' pre name' post) {text : List Bytes}
      (htext : (name, text) ∈ rules ls) (htext' : (name', text) ∈ rules ls') :
      SameLine ls ls' line line'
  | phony {pre post line : Bytes} (h : BuildSplit line pre phonyRule post) :
      SameLine ls ls' line line
  | plain {line : Bytes} (hbuild : ¬ buildPrefix <+: line) (hrule : ¬ rulePrefix <+: line) :
      SameLine ls ls' line line

variable {sha1 : Bytes → Bytes} {M M' : Bytes}

/-- The line that is written has the digest where the line has its name. -/
theorem Written.kind
    {ls : List Bytes} {line w : Bytes} (h : Written (digestOf sha1 ls) line w) :
    (∃ pre name post text, RuleSplit line pre name post ∧ (name, text) ∈ rules ls ∧
        RuleSplit w pre (textDigest sha1 text) post) ∨
      (∃ pre name post text, BuildSplit line pre name post ∧ (name, text) ∈ rules ls ∧
        BuildSplit w pre (textDigest sha1 text) post) ∨
      (∃ pre post, BuildSplit line pre phonyRule post ∧ w = line) ∨
      ¬ buildPrefix <+: line ∧ ¬ rulePrefix <+: line ∧ w = line := by
  cases h with
  | rule hsplit hd =>
      obtain ⟨text, htext, rfl⟩ := exists_rule_of_digestOf hd
      exact Or.inl ⟨_, _, _, text, hsplit, htext,
        hsplit.replace (isName_textDigest sha1 text)⟩
  | build hsplit _ hd =>
      obtain ⟨text, htext, rfl⟩ := exists_rule_of_digestOf hd
      exact Or.inr (Or.inl ⟨_, _, _, text, hsplit, htext,
        hsplit.replace (isName_textDigest sha1 text)⟩)
  | phony hsplit => exact Or.inr (Or.inr (Or.inl ⟨_, _, hsplit, rfl⟩))
  | plain hbuild hno => exact Or.inr (Or.inr (Or.inr ⟨hbuild, hno, rfl⟩))

theorem sameLine_of_written
    (hlen : ∀ b, (sha1 b).length = 20)
    (hinj : Set.InjOn sha1 (hashedTexts sha1 M ∪ hashedTexts sha1 M')) {line line' w : Bytes}
    (h : Written (digestOf sha1 (lines M)) line w)
    (h' : Written (digestOf sha1 (lines M')) line' w) :
    SameLine (lines M) (lines M') line line' := by
  rcases h.kind with ⟨pre, name, post, text, hsplit, htext, hw⟩ |
    ⟨pre, name, post, text, hsplit, htext, hw⟩ | ⟨pre, post, hsplit, hw⟩ | ⟨hbuild, hrule, hw⟩
  · -- a rule line
    rcases h'.kind with ⟨pre', name', post', text', hsplit', htext', hw'⟩ |
      ⟨pre', name', post', text', hsplit', htext', hw'⟩ | ⟨pre', post', hsplit', hw'⟩ |
      ⟨hbuild', hrule', hw'⟩
    · obtain ⟨rfl, _, rfl⟩ := hw.unique hw'
      exact .rule hsplit hsplit'
    · exact absurd hw'.buildPrefix (not_buildPrefix hw.rulePrefix)
    · rw [hw'] at hw
      exact absurd hsplit'.buildPrefix (not_buildPrefix hw.rulePrefix)
    · rw [hw'] at hw
      exact absurd hw.rulePrefix hrule'
  · -- a build line
    rcases h'.kind with ⟨pre', name', post', text', hsplit', htext', hw'⟩ |
      ⟨pre', name', post', text', hsplit', htext', hw'⟩ | ⟨pre', post', hsplit', hw'⟩ |
      ⟨hbuild', hrule', hw'⟩
    · exact absurd hw.buildPrefix (not_buildPrefix hw'.rulePrefix)
    · obtain ⟨rfl, hdigest, rfl⟩ := hw.unique hw'
      obtain rfl := text_eq_of_digest_eq hlen hinj htext htext' hdigest
      exact .build hsplit hsplit' htext htext'
    · rw [hw'] at hw
      exact absurd (hw.unique hsplit').2.1 (textDigest_ne_phony sha1 text)
    · rw [hw'] at hw
      exact absurd hw.buildPrefix hbuild'
  · -- a phony build line
    subst hw
    rcases h'.kind with ⟨pre', name', post', text', hsplit', htext', hw'⟩ |
      ⟨pre', name', post', text', hsplit', htext', hw'⟩ | ⟨pre', post', hsplit', hw'⟩ |
      ⟨hbuild', hrule', hw'⟩
    · exact absurd hsplit.buildPrefix (not_buildPrefix hw'.rulePrefix)
    · exact absurd (hw'.unique hsplit).2.1 (textDigest_ne_phony sha1 text')
    · subst hw'
      exact .phony hsplit
    · subst hw'
      exact .phony hsplit
  · -- any other line
    subst hw
    rcases h'.kind with ⟨pre', name', post', text', hsplit', htext', hw'⟩ |
      ⟨pre', name', post', text', hsplit', htext', hw'⟩ | ⟨pre', post', hsplit', hw'⟩ |
      ⟨hbuild', hrule', hw'⟩
    · exact absurd hw'.rulePrefix hrule
    · exact absurd hw'.buildPrefix hbuild
    · subst hw'
      exact .plain hbuild hrule
    · subst hw'
      exact .plain hbuild hrule

theorem sameLines_of_generate
    (hlen : ∀ b, (sha1 b).length = 20)
    (hinj : Set.InjOn sha1 (hashedTexts sha1 M ∪ hashedTexts sha1 M')) {out : Bytes}
    (h : generate sha1 M = .ok out) (h' : generate sha1 M' = .ok out) :
    List.Forall₂ (SameLine (lines M) (lines M')) (lines M) (lines M') := by
  obtain ⟨_, ws, rfl, hws⟩ := (generate_ok_iff sha1).mp h
  obtain ⟨_, ws', hflatten, hws'⟩ := (generate_ok_iff sha1).mp h'
  have hlines := ((areLines_lines M).of_keeps (hws.imp fun _ _ hw => hw.keeps)).lines_flatten
  have hlines' := ((areLines_lines M').of_keeps (hws'.imp fun _ _ hw => hw.keeps)).lines_flatten
  obtain rfl : ws = ws' := by
    rw [← hlines, hflatten, hlines']
  rw [List.forall₂_iff_get] at hws hws' ⊢
  refine ⟨hws.1.trans hws'.1.symm, fun i hi hi' => ?_⟩
  exact sameLine_of_written hlen hinj (hws.2 i hi (hws.1 ▸ hi)) (hws'.2 i hi' (hws.1 ▸ hi))

/-- The output is canonical: it does not depend on the names of the rules, and it tells the rest
of the file. -/
theorem generate_canonical
    (sha1 : Bytes → Bytes) (hlen : ∀ b, (sha1 b).length = 20) :
    (∀ M out ρ, generate sha1 M = .ok out → Renaming ρ M →
        generate sha1 (rename ρ M) = .ok out) ∧
      ∀ M M' out, Set.InjOn sha1 (hashedTexts sha1 M ∪ hashedTexts sha1 M') →
        generate sha1 M = .ok out → generate sha1 M' = .ok out →
          List.Forall₂ (SameLine (lines M) (lines M')) (lines M) (lines M') :=
  ⟨fun _ _ _ h hρ => generate_rename h hρ,
    fun _ _ _ hinj h h' => sameLines_of_generate hlen hinj h h'⟩

/-- A file whose rule gets another name has the same output. -/
theorem generate_canonical_sample :
    ∃ out, generate Sha1.sum (ascii "rule a\n c\nbuild x: a\n") = .ok out ∧
      generate Sha1.sum (ascii "rule cc\n c\nbuild x: cc\n") = .ok out := by
  have hcanonical := generate_canonical Sha1.sum Sha1.length_sum
  have hrules : rules (lines (ascii "rule a\n c\nbuild x: a\n")) =
      [(ascii "a", [ascii "\n", ascii " c\n"])] := by
    decide +kernel
  have hnames : ∀ r ∈ rules (lines (ascii "rule a\n c\nbuild x: a\n")),
      IsName (if r.1 = ascii "a" then ascii "cc" else r.1) := by
    rw [hrules]
    rintro r hr
    rw [List.mem_singleton.mp hr, if_pos rfl]
    exact ⟨by decide, by simp [ascii, isSpace]⟩
  have hok : (generate Sha1.sum (ascii "rule a\n c\nbuild x: a\n")).isOk := by
    decide +kernel
  cases hout : generate Sha1.sum (ascii "rule a\n c\nbuild x: a\n") with
  | error e => rw [hout] at hok; cases hok
  | ok out =>
      have hrename := hcanonical.1 (ascii "rule a\n c\nbuild x: a\n") out
        (fun name => if name = ascii "a" then ascii "cc" else name) hout
        ⟨hnames, by rw [hrules]; decide, by rw [hrules]; decide, rfl⟩
      exact ⟨out, rfl, hrename⟩

end Faithful

section SecondRun

variable {sha1 : Bytes → Bytes} {buffer : Bytes}

/-- A line of a rule's body is written as it is, and no other line becomes one. -/
theorem Written.head
    {ls : List Bytes} {line w : Bytes} (h : Written (digestOf sha1 ls) line w) :
    w.head? = line.head? ∧ (line.head? = some blank → w = line) := by
  have hother : ∀ c, c ≠ blank → line.head? = some c → w.head? = some c →
      w.head? = line.head? ∧ (line.head? = some blank → w = line) := by
    intro c hc hline hw
    exact ⟨hw.trans hline.symm, fun h => absurd (Option.some.inj (hline.symm.trans h)) hc⟩
  rcases h.kind with ⟨pre, name, post, text, hsplit, _, hw⟩ |
    ⟨pre, name, post, text, hsplit, _, hw⟩ | ⟨_, _, _, hw⟩ | ⟨_, _, hw⟩
  · obtain ⟨k, hk⟩ := hsplit.before
    exact hother 114 (by decide) (by rw [hsplit.eq, hk]; rfl) (by rw [hw.eq, hk]; rfl)
  · obtain ⟨front, k, _, ⟨rest, hrest⟩, hpre⟩ := hsplit.before
    exact hother 98 (by decide) (by rw [hsplit.eq, hpre, ← hrest]; rfl)
      (by rw [hw.eq, hpre, ← hrest]; rfl)
  · exact ⟨congrArg List.head? hw, fun _ => hw⟩
  · exact ⟨congrArg List.head? hw, fun _ => hw⟩

theorem ruleBody_written
    {all ls ws : List Bytes} (h : List.Forall₂ (Written (digestOf sha1 all)) ls ws) :
    ruleBody ws = ruleBody ls := by
  induction h with
  | nil => rfl
  | @cons line w rest more hw _ ih =>
      obtain ⟨hhead, hsame⟩ := hw.head
      unfold ruleBody at ih ⊢
      rw [List.takeWhile_cons, List.takeWhile_cons, hhead, ih]
      by_cases hblank : line.head? = some blank
      · rw [hsame hblank]
      · simp [hblank]

/-- The rules of the lines that are written have the digests as names and the same texts. -/
theorem rules_written
    {all ls ws : List Bytes} (hnames : HasRuleNames all) (hsub : rules ls ⊆ rules all)
    (h : List.Forall₂ (Written (digestOf sha1 all)) ls ws) :
    rules ws = (rules ls).map fun r => (textDigest sha1 r.2, r.2) := by
  induction h with
  | nil => rfl
  | @cons line w rest more hw hrest ih =>
      have hother : ¬ rulePrefix <+: line → ¬ rulePrefix <+: w →
          rules (w :: more) = (rules (line :: rest)).map fun r => (textDigest sha1 r.2, r.2) := by
        intro hline hwritten
        rw [rules, if_neg hline] at hsub
        rw [rules, if_neg hwritten, ih hsub, rules, if_neg hline]
      rcases hw.kind with ⟨pre, name, post, text, hsplit, htext, hwritten⟩ |
        ⟨pre, name, post, text, hsplit, htext, hwritten⟩ | ⟨pre, post, hsplit, hwritten⟩ |
        ⟨_, hrule, hwritten⟩
      · have hrules : rules (line :: rest) = (name, post :: ruleBody rest) :: rules rest := by
          rw [rules, if_pos hsplit.rulePrefix, hsplit.ruleName_eq, behind_eq rfl hsplit.eq]
        rw [hrules] at hsub ⊢
        obtain ⟨hmem, hsub⟩ := List.cons_subset.mp hsub
        have hsame : text = post :: ruleBody rest :=
          congrArg Prod.snd (List.inj_on_of_nodup_map hnames.nodup htext hmem rfl)
        rw [rules, if_pos hwritten.rulePrefix, hwritten.ruleName_eq, behind_eq rfl hwritten.eq,
          ruleBody_written hrest, ih hsub, hsame]
        rfl
      · exact hother (fun h => not_buildPrefix h hsplit.buildPrefix)
          (fun h => not_buildPrefix h hwritten.buildPrefix)
      · have hno : ¬ rulePrefix <+: line := fun h => not_buildPrefix h hsplit.buildPrefix
        exact hother hno (hwritten ▸ hno)
      · exact hother hrule (hwritten ▸ hrule)

theorem Written.again
    {ls ws : List Bytes} (hdigest : ∀ r ∈ rules ls,
      digestOf sha1 ws (textDigest sha1 r.2) = some (textDigest sha1 r.2)) {line w : Bytes}
    (h : Written (digestOf sha1 ls) line w) :
    Written (digestOf sha1 ws) w w := by
  rcases h.kind with ⟨pre, name, post, text, _, htext, hw⟩ |
    ⟨pre, name, post, text, _, htext, hw⟩ | ⟨pre, post, hsplit, rfl⟩ | ⟨hbuild, hrule, rfl⟩
  · have hwritten := Written.rule hw (hdigest _ htext)
    rwa [← hw.eq] at hwritten
  · have hwritten := Written.build hw (textDigest_ne_phony sha1 text) (hdigest _ htext)
    rwa [← hw.eq] at hwritten
  · exact .phony hsplit
  · exact .plain hbuild hrule

/-- When every rule has a name, the names are redefined or there is no error. -/
theorem ruleDigests_cases
    {ls : List Bytes} (hne : ∀ r ∈ rules ls, r.1 ≠ []) (n : Nat)
    (acc : OrderedDict Bytes Bytes) :
    (∃ d, ruleDigests sha1 n acc ls = .ok d) ∨
      ∃ m name, ruleDigests sha1 n acc ls = .error (.ruleRedefined m name) := by
  induction ls generalizing n acc with
  | nil => exact Or.inl ⟨acc, rfl⟩
  | cons line rest ih =>
      rw [rules] at hne
      rw [ruleDigests]
      split_ifs at hne with hrule
      · rw [List.forall_mem_cons] at hne
        rw [if_pos hrule]
        dsimp only
        rw [if_neg hne.1]
        split_ifs
        · exact Or.inr ⟨n, _, rfl⟩
        · exact ih hne.2 _ _
      · rw [if_neg hrule]
        exact ih hne _ _

/-- The texts of the rules have digests of their own. -/
def DistinctDigests (sha1 : Bytes → Bytes) (buffer : Bytes) : Prop :=
  ((rules (lines buffer)).map fun r => textDigest sha1 r.2).Nodup

/-- The output is a fixed point: a second run writes the same bytes or, when two rules of the file
have texts with one digest, meets a redefined rule. -/
theorem generate_again
    {out : Bytes} (h : generate sha1 buffer = .ok out) :
    (DistinctDigests sha1 buffer → generate sha1 out = .ok out) ∧
      (¬ DistinctDigests sha1 buffer →
        ∃ n name, generate sha1 out = .error (.ruleRedefined n name)) := by
  obtain ⟨hnames, ws, rfl, hws⟩ := (generate_ok_iff sha1).mp h
  have hlines : lines ws.flatten = ws :=
    ((areLines_lines buffer).of_keeps (hws.imp fun _ _ hw => hw.keeps)).lines_flatten
  have hrules := rules_written hnames (List.Subset.refl _) hws
  have hfst : (rules ws).map Prod.fst =
      (rules (lines buffer)).map fun r => textDigest sha1 r.2 := by
    rw [hrules, List.map_map]
    rfl
  have hne : ∀ r ∈ rules ws, r.1 ≠ [] := by
    intro r hr
    rw [hrules] at hr
    obtain ⟨r', _, rfl⟩ := List.mem_map.mp hr
    exact (isName_textDigest sha1 r'.2).ne_nil
  refine ⟨fun hdistinct => ?_, fun hdistinct => ?_⟩
  · have hnames' : HasRuleNames ws := ⟨hne, by rw [hfst]; exact hdistinct⟩
    rw [generate_ok_iff, hlines]
    refine ⟨hnames', ws, rfl, List.forall₂_same.mpr fun w hw => ?_⟩
    obtain ⟨line, hline⟩ := exists_of_forall₂ hws.flip hw
    refine Written.again (fun r hr => ?_) hline
    refine (digestOf_eq_some_iff sha1 hnames').mpr ⟨r.2, ?_, rfl⟩
    rw [hrules]
    exact List.mem_map.mpr ⟨r, hr, rfl⟩
  · rcases @ruleDigests_cases sha1 _ hne 1 .empty with ⟨d, hd⟩ | ⟨n, name, hd⟩
    · have hnodup := (ruleDigests_ok sha1 hd).1.nodup
      rw [hfst] at hnodup
      exact absurd hnodup hdistinct
    · refine ⟨n, name, ?_⟩
      rw [generate, hlines, hd]
      rfl

def sampleFile : Bytes :=
  ascii "rule a\n c\nrule b\n d\nbuild x: a\nbuild y: b\n"

/-- A file with two rules is written again as it is. -/
theorem generate_again_sample :
    ∃ out, generate Sha1.sum sampleFile = .ok out ∧ generate Sha1.sum out = .ok out := by
  have hdistinct : DistinctDigests Sha1.sum sampleFile := by
    unfold DistinctDigests
    decide +kernel
  have hok : (generate Sha1.sum sampleFile).isOk := by
    decide +kernel
  cases hout : generate Sha1.sum sampleFile with
  | error e =>
      rw [hout] at hok
      cases hok
  | ok out => exact ⟨out, rfl, (generate_again hout).1 hdistinct⟩

end SecondRun
end Canoninja
end AndroidBuild
