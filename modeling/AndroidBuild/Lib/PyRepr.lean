import AndroidBuild.Lib.Text
import Mathlib.Data.List.DropRight

/-!
# Python's `repr` of a text

`repr` puts a text between quotes and writes the characters that cannot stand
there with a backslash.  Stripping the quotes from it gives the text back
exactly if nothing had to be written in another way and no quote of the text
itself stands at an end.  Which characters above ASCII are printable is a
parameter.
-/

namespace AndroidBuild
namespace PyRepr

open Text

/-- One of the two quotes. -/
def isQuote (c : Char) : Bool :=
  c = '\'' || c = '"'

/-- `text.strip('"\'')`. -/
def stripQuotes (text : Str) : Str :=
  (text.dropWhile isQuote).rdropWhile isQuote

section Repr

variable (printable : Char → Bool)

/-- `str.isprintable` of one character. -/
def isPrintable (c : Char) : Bool :=
  if c.toNat < 128 then 32 ≤ c.toNat && c.toNat < 127 else printable c

/-- The hexadecimal number of a character, filled up with zeros. -/
def hexNumber (width : Nat) (c : Char) : Str :=
  (Nat.toDigits 16 c.toNat).leftpad width '0'

/-- One character between the quotes. -/
def escapeChar (quote c : Char) : Str :=
  if c = quote ∨ c = '\\' then ['\\', c]
  else if c = '\t' then ['\\', 't']
  else if c = '\n' then ['\\', 'n']
  else if c = '\r' then ['\\', 'r']
  else if isPrintable printable c then [c]
  else if c.toNat < 0x100 then '\\' :: 'x' :: hexNumber 2 c
  else if c.toNat < 0x10000 then '\\' :: 'u' :: hexNumber 4 c
  else '\\' :: 'U' :: hexNumber 8 c

/-- Double quotes are used only to write a single quote without a backslash. -/
def quoteOf (text : Str) : Char :=
  if '\'' ∈ text ∧ '"' ∉ text then '"' else '\''

/-- `repr(text)`. -/
def pyRepr (text : Str) : Str :=
  quoteOf text :: (text.flatMap (escapeChar printable (quoteOf text)) ++ [quoteOf text])

end Repr

section Strip

theorem isQuote_quoteOf (text : Str) :
    isQuote (quoteOf text) = true := by
  unfold quoteOf
  split <;> rfl

theorem stripQuotes_quoted
    {q : Char} (hq : isQuote q = true) (text : Str) :
    stripQuotes (q :: (text ++ [q])) = stripQuotes text := by
  unfold stripQuotes
  rw [List.dropWhile_cons_of_pos hq, List.dropWhile_append]
  by_cases hempty : text.dropWhile isQuote = []
  · rw [hempty, List.isEmpty_nil, if_pos rfl, List.dropWhile_cons_of_pos hq, List.dropWhile_nil]
  · have hne : (text.dropWhile isQuote).isEmpty = false := by simpa using hempty
    rw [hne, if_neg Bool.false_ne_true, List.rdropWhile_concat_pos _ _ _ hq]

/-- No quote stands at an end of the text. -/
structure BareEnds (text : Str) : Prop where
  head : ∀ c, text.head? = some c → isQuote c = false
  last : ∀ c, text.getLast? = some c → isQuote c = false

theorem stripQuotes_eq_self_iff
    {text : Str} :
    stripQuotes text = text ↔ BareEnds text := by
  unfold stripQuotes
  constructor
  · intro h
    have hback := List.rdropWhile_prefix isQuote (text.dropWhile isQuote)
    rw [h] at hback
    have hdrop : text.dropWhile isQuote = text :=
      (List.dropWhile_suffix isQuote).eq_of_length_le hback.length_le
    rw [hdrop] at h
    constructor
    · intro c hc
      have hhead := List.head?_dropWhile_not isQuote text
      rw [hdrop, hc] at hhead
      exact hhead
    · intro c hc
      obtain ⟨hne, hlast⟩ := List.getLast?_eq_some_iff.mp hc
      have := List.rdropWhile_eq_self_iff.mp h (by rintro rfl; simp at hc)
      rw [List.getLast_of_getLast?_eq_some hc] at this
      simpa using this
  · rintro ⟨hhead, hlast⟩
    have hdrop : text.dropWhile isQuote = text := by
      cases text with
      | nil => rfl
      | cons c text => rw [List.dropWhile_cons_of_neg (by simp [hhead c rfl])]
    rw [hdrop, List.rdropWhile_eq_self_iff]
    intro hne
    rw [hlast _ (List.getLast?_eq_some_getLast hne)]
    exact Bool.false_ne_true

theorem count_stripQuotes
    (text : Str) :
    (stripQuotes text).count '\\' = text.count '\\' := by
  have hquotes : ∀ quotes : Str, (∀ c ∈ quotes, isQuote c = true) → quotes.count '\\' = 0 := by
    intro quotes h
    rw [List.count_eq_zero]
    intro hmem
    exact absurd (h _ hmem) (by decide)
  have hfront : (text.dropWhile isQuote).count '\\' = text.count '\\' := by
    conv_rhs => rw [← List.takeWhile_append_dropWhile (p := isQuote) (l := text)]
    rw [List.count_append, hquotes _ fun c => List.mem_takeWhile_imp, Nat.zero_add]
  rw [stripQuotes, List.rdropWhile, List.count_reverse, ← hfront]
  conv_rhs => rw [← List.count_reverse,
    ← List.takeWhile_append_dropWhile (p := isQuote) (l := (text.dropWhile isQuote).reverse)]
  rw [List.count_append, hquotes _ fun c => List.mem_takeWhile_imp, Nat.zero_add]

end Strip

section Kept

variable {printable : Char → Bool}

theorem escapeChar_eq_self_iff
    {quote c : Char} :
    escapeChar printable quote c = [c] ↔
      c ≠ quote ∧ c ≠ '\\' ∧ isPrintable printable c = true := by
  unfold escapeChar
  constructor
  · intro h
    split_ifs at h with hspecial htab hnewline hreturn hprint <;>
      simp_all
  · rintro ⟨hquote, hslash, hprint⟩
    have hcontrol : c ≠ '\t' ∧ c ≠ '\n' ∧ c ≠ '\r' := by
      refine ⟨?_, ?_, ?_⟩ <;>
      · rintro rfl
        simp [isPrintable] at hprint
    rw [if_neg (by simp [hquote, hslash]), if_neg hcontrol.1, if_neg hcontrol.2.1,
      if_neg hcontrol.2.2, if_pos hprint]

/-- A character that is not written as itself brings a backslash of its own. -/
theorem count_escapeChar
    {quote c : Char} (h : escapeChar printable quote c ≠ [c]) :
    [c].count '\\' < (escapeChar printable quote c).count '\\' := by
  by_cases hspecial : c = quote ∨ c = '\\'
  · rw [escapeChar, if_pos hspecial, List.count_cons_self]
    exact Nat.lt_succ_self _
  · have hzero : [c].count '\\' = 0 := by
      rw [List.count_eq_zero, List.mem_singleton]
      exact fun heq => hspecial (Or.inr heq.symm)
    rw [hzero, List.count_pos_iff]
    unfold escapeChar at h ⊢
    rw [if_neg hspecial] at h ⊢
    split_ifs at h ⊢
    · exact List.mem_cons_self
    · exact List.mem_cons_self
    · exact List.mem_cons_self
    · exact absurd rfl h
    · exact List.mem_cons_self
    · exact List.mem_cons_self
    · exact List.mem_cons_self

theorem count_flatMap_escapeChar
    {quote : Char} (text : Str) :
    (∀ c ∈ text, escapeChar printable quote c = [c]) ∨
      text.count '\\' < (text.flatMap (escapeChar printable quote)).count '\\' := by
  induction text with
  | nil => exact Or.inl fun c hc => absurd hc List.not_mem_nil
  | cons c text ih =>
      have hsplit : ([c] ++ text).count '\\' = [c].count '\\' + text.count '\\' :=
        List.count_append
      rw [List.singleton_append] at hsplit
      rw [List.flatMap_cons, List.count_append, hsplit]
      by_cases hc : escapeChar printable quote c = [c]
      · rcases ih with hall | hlt
        · exact Or.inl (List.forall_mem_cons.mpr ⟨hc, hall⟩)
        · right
          rw [hc]
          omega
      · right
        have hstep := count_escapeChar hc
        rcases ih with hall | hlt
        · have hsame : text.flatMap (escapeChar printable quote) = text := by
            rw [List.flatMap_congr hall, List.flatMap_singleton']
          rw [hsame]
          omega
        · omega

theorem quoteOf_mem_iff
    {text : Str} :
    quoteOf text ∈ text ↔ '\'' ∈ text ∧ '"' ∈ text := by
  unfold quoteOf
  by_cases hdouble : '"' ∈ text
  · simp [hdouble]
  · by_cases hsingle : '\'' ∈ text <;> simp [hdouble, hsingle]

/-- A text of printable characters without a backslash, with at most one kind of quotes, and
these not at an end. -/
structure Plain (printable : Char → Bool) (text : Str) : Prop where
  chars : ∀ c ∈ text, c ≠ '\\' ∧ isPrintable printable c = true
  quotes : ¬ ('\'' ∈ text ∧ '"' ∈ text)
  ends : BareEnds text

/-- The quotes can be stripped from exactly the plain texts. -/
theorem stripQuotes_pyRepr_iff
    {text : Str} :
    stripQuotes (pyRepr printable text) = text ↔ Plain printable text := by
  rw [pyRepr, stripQuotes_quoted (isQuote_quoteOf text)]
  have hwritten : (∀ c ∈ text, escapeChar printable (quoteOf text) c = [c]) ∨
      text.count '\\' < (text.flatMap (escapeChar printable (quoteOf text))).count '\\' :=
    count_flatMap_escapeChar text
  rcases hwritten with hall | hlt
  · have hsame : text.flatMap (escapeChar printable (quoteOf text)) = text := by
      rw [List.flatMap_congr hall, List.flatMap_singleton']
    rw [hsame, stripQuotes_eq_self_iff]
    have hchars := fun c hc => escapeChar_eq_self_iff.mp (hall c hc)
    constructor
    · intro hends
      refine ⟨fun c hc => (hchars c hc).2, fun hboth => ?_, hends⟩
      exact (hchars _ (quoteOf_mem_iff.mpr hboth)).1 rfl
    · exact fun hplain => hplain.ends
  · -- stripping the quotes leaves the backslashes where they are
    have hcount := count_stripQuotes (text.flatMap (escapeChar printable (quoteOf text)))
    constructor
    · intro heq
      rw [heq] at hcount
      omega
    · intro hplain
      have hself : ∀ c ∈ text, escapeChar printable (quoteOf text) c = [c] := by
        intro c hc
        refine escapeChar_eq_self_iff.mpr ⟨?_, hplain.chars c hc⟩
        rintro rfl
        exact hplain.quotes (quoteOf_mem_iff.mp hc)
      rw [List.flatMap_congr hself, List.flatMap_singleton'] at hlt
      exact absurd hlt (lt_irrefl _)

end Kept

end PyRepr
end AndroidBuild
