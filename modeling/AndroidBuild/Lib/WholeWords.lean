import Mathlib.Data.List.SplitBy
import Mathlib.Tactic

/-!
# Replacing whole words

A text is cut into runs, the words and what stands between them.  Replacing
every whole word that equals a pattern by another word acts on the runs one by
one, so that replacements in a row compose run by run.
-/

namespace AndroidBuild
namespace WholeWords

universe u

variable {α : Type u} [DecidableEq α] (isWord : α → Bool) (fold : α → α)

section Scan

variable (pattern new : List α)

/-- A place with a word character on exactly one side. -/
def boundary (before after : Option α) : Bool :=
  before.any isWord != after.any isWord

/-- The pattern between two boundaries stands at the front of the text; characters are
compared after folding. -/
def matchesAt (before : Option α) (text : List α) : Bool :=
  boundary isWord before text.head? &&
    (text.take pattern.length).map fold == pattern.map fold &&
    boundary isWord ((text.take pattern.length).getLast?.or before)
      (text.drop pattern.length).head?

/-- The matches are replaced from left to right; `skip` characters belong to the last one. -/
def replaceFrom : Option α → Nat → List α → List α
  | before, _, [] => if matchesAt isWord fold pattern before [] then new else []
  | _, skip + 1, c :: rest => replaceFrom (some c) skip rest
  | before, 0, c :: rest =>
      if matchesAt isWord fold pattern before (c :: rest) then
        if pattern = [] then new ++ c :: replaceFrom (some c) 0 rest
        else new ++ replaceFrom (some c) (pattern.length - 1) rest
      else c :: replaceFrom (some c) 0 rest

/-- Every whole word of the text that equals the pattern is replaced. -/
def replaceWords (text : List α) : List α :=
  replaceFrom isWord fold pattern new none 0 text

end Scan

section Runs

/-- The words of a text and what stands between them. -/
def runs (text : List α) : List (List α) :=
  text.splitBy fun a b => isWord a == isWord b

/-- Runs of word characters and of others take turns; the first has the given kind. -/
inductive Alternates : Bool → List (List α) → Prop
  | nil (b : Bool) : Alternates b []
  | cons {b : Bool} {run : List α} {rest : List (List α)}
      (hne : run ≠ []) (hrun : ∀ c ∈ run, isWord c = b) (hrest : Alternates (!b) rest) :
      Alternates b (run :: rest)

variable {isWord}

omit [DecidableEq α] in
theorem Alternates.head?_flatten
    {b : Bool} {ls : List (List α)} (h : Alternates isWord b ls) (hls : ls ≠ []) :
    ∃ c, ls.flatten.head? = some c ∧ isWord c = b := by
  cases h with
  | nil => exact absurd rfl hls
  | @cons b run rest hne hrun hrest =>
      obtain ⟨c, tail, rfl⟩ := List.exists_cons_of_ne_nil hne
      exact ⟨c, rfl, hrun c List.mem_cons_self⟩

omit [DecidableEq α] in
/-- The runs of a text that is made of runs. -/
theorem Alternates.runs_flatten
    {b : Bool} {ls : List (List α)} (h : Alternates isWord b ls) :
    runs isWord ls.flatten = ls := by
  induction h with
  | nil => rfl
  | @cons b run rest hne hrun hrest ih =>
      have hchain : run.IsChain fun x y => (isWord x == isWord y) = true := by
        refine List.Pairwise.isChain (List.pairwise_of_forall_mem_list fun x hx y hy => ?_)
        rw [hrun x hx, hrun y hy, beq_self_eq_true]
      have hapart : ∀ x ∈ run.getLast?, ∀ y ∈ rest.flatten.head?,
          (isWord x == isWord y) = false := by
        intro x hx y hy
        by_cases hrest' : rest = []
        · rw [hrest'] at hy
          cases hy
        · obtain ⟨c, hc, hclass⟩ := hrest.head?_flatten hrest'
          obtain rfl : c = y := Option.some.inj (hc.symm.trans hy)
          rw [hrun x (List.mem_of_getLast? hx), hclass]
          cases b <;> rfl
      rw [List.flatten_cons, runs, List.splitBy_append hapart, List.splitBy_of_isChain hne hchain,
        ← runs, ih]
      rfl

omit [DecidableEq α] in
/-- The characters of a run are of one kind. -/
theorem isWord_of_mem_runs
    {text run : List α} (h : run ∈ runs isWord text) :
    ∃ b, ∀ c ∈ run, isWord c = b := by
  have htrans : IsTrans α fun x y => (isWord x == isWord y) = true :=
    ⟨fun x y z hxy hyz => by rw [beq_iff_eq] at *; exact hxy.trans hyz⟩
  have hpair := List.isChain_iff_pairwise.mp (List.isChain_of_mem_splitBy h)
  obtain ⟨c, tail, rfl⟩ := List.exists_cons_of_ne_nil (List.ne_nil_of_mem_splitBy h)
  refine ⟨isWord c, fun d hd => ?_⟩
  rcases List.mem_cons.mp hd with rfl | hd
  · rfl
  · exact (beq_iff_eq.mp (List.rel_of_pairwise_cons hpair hd)).symm

omit [DecidableEq α] in
theorem alternates_runs
    (text : List α) :
    ∃ b, Alternates isWord b (runs isWord text) := by
  have hne : [] ∉ runs isWord text := List.nil_notMem_splitBy _ _
  have hkind : ∀ run ∈ runs isWord text, ∃ b, ∀ c ∈ run, isWord c = b :=
    fun run => isWord_of_mem_runs
  have hchain : (runs isWord text).IsChain fun a b =>
      ∃ ha hb, (isWord (a.getLast ha) == isWord (b.head hb)) = false :=
    List.isChain_getLast_head_splitBy (fun a b => isWord a == isWord b) text
  generalize runs isWord text = ls at hne hkind hchain
  induction ls with
  | nil => exact ⟨true, .nil true⟩
  | cons run rest ih =>
      rw [List.mem_cons, not_or] at hne
      obtain ⟨b, hb⟩ := hkind run List.mem_cons_self
      refine ⟨b, .cons (Ne.symm hne.1) hb ?_⟩
      obtain ⟨b', hb'⟩ := ih hne.2 (fun m hm => hkind m (List.mem_cons_of_mem _ hm)) hchain.tail
      cases rest with
      | nil => exact .nil _
      | cons next rest =>
          obtain ⟨ha, hb'', hdiff⟩ := (List.isChain_cons_cons.mp hchain).1
          rw [hb _ (List.getLast_mem ha)] at hdiff
          cases hb' with
          | cons _ hnext _ =>
              rw [hnext _ (List.head_mem hb'')] at hdiff
              have : b' = !b := by
                cases b <;> cases b' <;> simp_all
              rw [← this]
              exact .cons hb'' hnext ‹_›

end Runs

section Replace

/-- The words that a pattern can stand for and its replacement consist of word characters. -/
structure IsWordPair (pattern new : List α) : Prop where
  pattern_ne_nil : pattern ≠ []
  pattern_word : ∀ c, fold c ∈ pattern.map fold → isWord c = true
  new_ne_nil : new ≠ []
  new_word : ∀ c ∈ new, isWord c = true

/-- A run is replaced when it is the pattern. -/
def replaceRun (pattern new run : List α) : List α :=
  if run.map fold = pattern.map fold then new else run

variable {isWord fold} {pattern new : List α}

/-- A match starts at a boundary with a word character behind. -/
theorem matchesAt_eq_false
    (h : IsWordPair isWord fold pattern new) {before : Option α} {c : α} {rest : List α}
    (hc : before.any isWord = true ∨ isWord c = false) :
    matchesAt isWord fold pattern before (c :: rest) = false := by
  rw [Bool.eq_false_iff]
  intro hmatch
  rw [matchesAt, Bool.and_eq_true, Bool.and_eq_true, beq_iff_eq] at hmatch
  obtain ⟨⟨hboundary, hword⟩, _⟩ := hmatch
  obtain ⟨p, tail, rfl⟩ := List.exists_cons_of_ne_nil h.pattern_ne_nil
  have hc' : isWord c = true := by
    refine h.pattern_word c ?_
    rw [← hword]
    exact List.mem_cons_self
  rcases hc with hc | hc
  · rw [boundary, hc, List.head?_cons, Option.any_some, hc'] at hboundary
    cases hboundary
  · rw [hc'] at hc
    cases hc

/-- Inside a run nothing matches. -/
theorem replaceFrom_append
    (h : IsWordPair isWord fold pattern new) {run : List α} {b : Bool}
    (hrun : ∀ c ∈ run, isWord c = b) {before : Option α} (hb : b = true → before.any isWord = true)
    (rest : List α) :
    replaceFrom isWord fold pattern new before 0 (run ++ rest) =
      run ++ replaceFrom isWord fold pattern new (run.getLast?.or before) 0 rest := by
  induction run generalizing before with
  | nil => rfl
  | cons c run ih =>
      have hc := hrun c List.mem_cons_self
      have hno : matchesAt isWord fold pattern before (c :: (run ++ rest)) = false := by
        refine matchesAt_eq_false h ?_
        cases b with
        | true => exact Or.inl (hb rfl)
        | false => exact Or.inr hc
      have hafter : b = true → (some c).any isWord = true := by
        intro hb
        rw [Option.any_some, hc, hb]
      rw [List.cons_append, replaceFrom, hno, if_neg Bool.false_ne_true,
        ih (fun d hd => hrun d (List.mem_cons_of_mem _ hd)) hafter, List.cons_append]
      cases run <;> simp [List.getLast?_cons]

/-- The characters of a match are passed over. -/
theorem replaceFrom_skip
    (run : List α) (before : Option α) (rest : List α) :
    replaceFrom isWord fold pattern new before run.length (run ++ rest) =
      replaceFrom isWord fold pattern new (run.getLast?.or before) 0 rest := by
  induction run generalizing before with
  | nil => rfl
  | cons c run ih =>
      rw [List.cons_append, List.length_cons, replaceFrom, ih]
      cases run <;> simp [List.getLast?_cons]

/-- At the front of a word exactly the whole word can match. -/
theorem matchesAt_word
    (h : IsWordPair isWord fold pattern new) {before : Option α}
    (hbefore : before.any isWord = false) {word : List α} (hne : word ≠ [])
    (hword : ∀ c ∈ word, isWord c = true) {rest : List α}
    (hrest : rest.head?.any isWord = false) :
    matchesAt isWord fold pattern before (word ++ rest) = true ↔
      word.map fold = pattern.map fold := by
  have hhead : boundary isWord before (word ++ rest).head? = true := by
    obtain ⟨c, tail, rfl⟩ := List.exists_cons_of_ne_nil hne
    rw [boundary, hbefore, List.cons_append, List.head?_cons, Option.any_some,
      hword c List.mem_cons_self]
    rfl
  rw [matchesAt, hhead, Bool.true_and, Bool.and_eq_true, beq_iff_eq]
  constructor
  · rintro ⟨heq, hlast⟩
    rcases Nat.lt_trichotomy pattern.length word.length with hlt | hlen | hlt
    · -- the character behind the match is still in the word
      have htake : (word ++ rest).take pattern.length = word.take pattern.length :=
        List.take_append_of_le_length hlt.le
      have hdrop : (word ++ rest).drop pattern.length =
          word[pattern.length] :: (word.drop (pattern.length + 1) ++ rest) := by
        rw [List.drop_append_of_le_length hlt.le, List.drop_eq_getElem_cons hlt, List.cons_append]
      have hfront : word.take pattern.length ≠ [] := by
        rw [Ne, List.take_eq_nil_iff, not_or]
        exact ⟨fun h0 => h.pattern_ne_nil (List.length_eq_zero_iff.mp h0), hne⟩
      rw [htake, hdrop, List.getLast?_eq_some_getLast hfront, Option.some_or, boundary,
        Option.any_some, hword _ (List.mem_of_mem_take (List.getLast_mem hfront)),
        List.head?_cons, Option.any_some, hword _ (List.getElem_mem hlt)] at hlast
      cases hlast
    · rw [← heq, hlen, List.take_left]
    · -- the match takes in the character behind the word
      have hlen := congrArg List.length heq
      rw [List.length_map, List.length_map, List.length_take, List.length_append] at hlen
      cases rest with
      | nil =>
          rw [List.length_nil] at hlen
          omega
      | cons d rest =>
          have hd : d ∈ (word ++ d :: rest).take pattern.length := by
            rw [List.take_append]
            obtain ⟨k, hk⟩ : ∃ k, pattern.length - word.length = k + 1 :=
              ⟨pattern.length - word.length - 1, by omega⟩
            rw [hk, List.take_succ_cons]
            simp
          have hdword : isWord d = true := by
            refine h.pattern_word d ?_
            rw [← heq]
            exact List.mem_map_of_mem hd
          rw [List.head?_cons, Option.any_some, hdword] at hrest
          cases hrest
  · intro heq
    have hlen : pattern.length = word.length := by
      rw [← List.length_map (f := fold), ← heq, List.length_map]
    refine ⟨by rw [hlen, List.take_left, heq], ?_⟩
    rw [hlen, List.take_left, List.drop_left, boundary, hrest]
    obtain ⟨front, c, rfl⟩ : ∃ front c, word = front ++ [c] :=
      ⟨word.dropLast, word.getLast hne, (List.dropLast_append_getLast hne).symm⟩
    rw [List.getLast?_concat, Option.some_or, Option.any_some, hword c (by simp)]
    rfl

/-- A whole word at the front is replaced or passed over. -/
theorem replaceFrom_word
    (h : IsWordPair isWord fold pattern new) {before : Option α}
    (hbefore : before.any isWord = false) {word : List α} (hne : word ≠ [])
    (hword : ∀ c ∈ word, isWord c = true) {rest : List α}
    (hrest : rest.head?.any isWord = false) :
    replaceFrom isWord fold pattern new before 0 (word ++ rest) =
      replaceRun fold pattern new word ++
        replaceFrom isWord fold pattern new word.getLast? 0 rest := by
  have hiff := matchesAt_word h hbefore hne hword hrest
  obtain ⟨c, tail, rfl⟩ := List.exists_cons_of_ne_nil hne
  rw [List.cons_append] at hiff
  have hlast : (c :: tail).getLast? = tail.getLast?.or (some c) := by
    cases tail <;> simp [List.getLast?_cons]
  by_cases heq : (c :: tail).map fold = pattern.map fold
  · have hlen : pattern.length - 1 = tail.length := by
      have := congrArg List.length heq
      rw [List.length_map, List.length_map, List.length_cons] at this
      omega
    rw [List.cons_append, replaceFrom, if_pos (hiff.mpr heq), if_neg h.pattern_ne_nil,
      replaceRun, if_pos heq, hlast, hlen, replaceFrom_skip]
  · have hno : ¬ matchesAt isWord fold pattern before (c :: (tail ++ rest)) = true :=
      fun hmatch => heq (hiff.mp hmatch)
    have hc : (some c).any isWord = true := hword c List.mem_cons_self
    have htail : replaceFrom isWord fold pattern new (some c) 0 (tail ++ rest) =
        tail ++ replaceFrom isWord fold pattern new (tail.getLast?.or (some c)) 0 rest :=
      replaceFrom_append h (fun d hd => hword d (List.mem_cons_of_mem _ hd)) (fun _ => hc) rest
    rw [List.cons_append, replaceFrom, if_neg hno, replaceRun, if_neg heq, hlast, htail]
    rfl

theorem replaceRun_gap
    (h : IsWordPair isWord fold pattern new) {gap : List α} (hne : gap ≠ [])
    (hgap : ∀ c ∈ gap, isWord c = false) :
    replaceRun fold pattern new gap = gap := by
  refine if_neg fun heq => ?_
  obtain ⟨c, tail, rfl⟩ := List.exists_cons_of_ne_nil hne
  have hc : isWord c = true := by
    refine h.pattern_word c ?_
    rw [← heq]
    exact List.mem_cons_self
  rw [hgap c List.mem_cons_self] at hc
  cases hc

/-- The scan treats the runs one by one. -/
theorem replaceFrom_flatten
    (h : IsWordPair isWord fold pattern new) {b : Bool} {ls : List (List α)}
    (hls : Alternates isWord b ls) {before : Option α}
    (hbefore : b = true → before.any isWord = false) :
    replaceFrom isWord fold pattern new before 0 ls.flatten =
      (ls.map (replaceRun fold pattern new)).flatten := by
  induction hls generalizing before with
  | nil =>
      have hno : matchesAt isWord fold pattern before [] = false := by
        obtain ⟨p, tail, rfl⟩ := List.exists_cons_of_ne_nil h.pattern_ne_nil
        rw [matchesAt, List.take_nil, List.map_nil, List.map_cons]
        simp
      rw [List.flatten_nil, replaceFrom, hno]
      rfl
  | @cons b run rest hne hrun hrest ih =>
      obtain ⟨front, c, rfl⟩ : ∃ front c, run = front ++ [c] :=
        ⟨run.dropLast, run.getLast hne, (List.dropLast_append_getLast hne).symm⟩
      have hc := hrun c (by simp)
      have hafter : (!b) = true → (some c).any isWord = false := by
        intro hb
        rw [Option.any_some, hc]
        cases b with
        | true => cases hb
        | false => rfl
      rw [List.flatten_cons, List.map_cons, List.flatten_cons, ← ih hafter]
      cases b with
      | true =>
          have hnext : rest.flatten.head?.any isWord = false := by
            by_cases hrest' : rest = []
            · rw [hrest']
              rfl
            · obtain ⟨d, hd, hdclass⟩ := hrest.head?_flatten hrest'
              rw [hd, Option.any_some, hdclass]
              rfl
          rw [replaceFrom_word h (hbefore rfl) hne hrun hnext, List.getLast?_concat]
      | false =>
          rw [replaceFrom_append h hrun (fun hb => by cases hb), List.getLast?_concat,
            Option.some_or, replaceRun_gap h hne hrun]

omit [DecidableEq α] in
/-- A function that makes a word of a word and keeps the rest keeps the runs. -/
theorem Alternates.map
    {f : List α → List α}
    (hf : ∀ run, run ≠ [] → f run = run ∨
      (∀ c ∈ run, isWord c = true) ∧ f run ≠ [] ∧ ∀ c ∈ f run, isWord c = true)
    {b : Bool} {ls : List (List α)} (hls : Alternates isWord b ls) :
    Alternates isWord b (ls.map f) := by
  induction hls with
  | nil => exact .nil _
  | @cons b run rest hne hrun hrest ih =>
      rw [List.map_cons]
      rcases hf run hne with hf | ⟨hword, hne', hword'⟩
      · rw [hf]
        exact .cons hne hrun ih
      · obtain ⟨c, tail, rfl⟩ := List.exists_cons_of_ne_nil hne
        obtain rfl : b = true := by
          rw [← hrun c List.mem_cons_self, hword c List.mem_cons_self]
        exact .cons hne' hword' ih

omit [DecidableEq α] in
theorem runs_flatten_map
    {f : List α → List α}
    (hf : ∀ run, run ≠ [] → f run = run ∨
      (∀ c ∈ run, isWord c = true) ∧ f run ≠ [] ∧ ∀ c ∈ f run, isWord c = true)
    (text : List α) :
    runs isWord ((runs isWord text).map f).flatten = (runs isWord text).map f := by
  obtain ⟨b, hb⟩ : ∃ b, Alternates isWord b (runs isWord text) := alternates_runs text
  exact (hb.map hf).runs_flatten

theorem replaceRun_cases
    (h : IsWordPair isWord fold pattern new) (run : List α) :
    replaceRun fold pattern new run = run ∨
      (∀ c ∈ run, isWord c = true) ∧ replaceRun fold pattern new run ≠ [] ∧
        ∀ c ∈ replaceRun fold pattern new run, isWord c = true := by
  rw [replaceRun]
  split_ifs with heq
  · refine Or.inr ⟨fun c hc => h.pattern_word c ?_, h.new_ne_nil, h.new_word⟩
    rw [← heq]
    exact List.mem_map_of_mem hc
  · exact Or.inl rfl

/-- Replacing whole words acts on each run by itself. -/
theorem replaceWords_eq
    (h : IsWordPair isWord fold pattern new) (text : List α) :
    replaceWords isWord fold pattern new text =
      ((runs isWord text).map (replaceRun fold pattern new)).flatten := by
  obtain ⟨b, hb⟩ : ∃ b, Alternates isWord b (runs isWord text) := alternates_runs text
  have htext : (runs isWord text).flatten = text := List.flatten_splitBy _ _
  have hnone : b = true → (none : Option α).any isWord = false := fun _ => rfl
  calc replaceWords isWord fold pattern new text
      = replaceFrom isWord fold pattern new none 0 (runs isWord text).flatten := by
        rw [htext, replaceWords]
    _ = _ := replaceFrom_flatten h hb hnone

/-- The runs stay where they are. -/
theorem runs_replaceWords
    (h : IsWordPair isWord fold pattern new) (text : List α) :
    runs isWord (replaceWords isWord fold pattern new text) =
      (runs isWord text).map (replaceRun fold pattern new) := by
  rw [replaceWords_eq h]
  exact runs_flatten_map (fun run _ => replaceRun_cases h run) text

end Replace

end WholeWords
end AndroidBuild
