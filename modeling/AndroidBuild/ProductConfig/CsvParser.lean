import AndroidBuild.Lib.Loop

/-!
# `CsvParser.parse`

A machine that reads one UTF-16 code unit after the other.  A scan is the machine
without its line and column numbers; the two agree on the fields.  The fields of
a text are the cells in front of its commas and newlines.
-/

namespace AndroidBuild
namespace CsvParser

open Loop

section Source

/-- `char`. -/
abbrev CodeUnit :=
  UInt16

def quote : CodeUnit :=
  0x22

def comma : CodeUnit :=
  0x2C

def newline : CodeUnit :=
  0xA

structure Line where
  lineNumber : Nat
  fields : List (List CodeUnit)
  deriving DecidableEq, Repr

inductive ParserState where
  | startLine
  | startField
  | insideQuotedField
  | firstQuotationMark
  | insideUnquotedField
  | done
  deriving DecidableEq, Repr

/-- `ParseException`, or the end of the rounds of the model. -/
inductive ParseError where
  | parseException (line column : Nat) (message : String)
  | outOfFuel
  deriving DecidableEq, Repr

/-- The bits of `action`. -/
structure Action where
  appendChar : Bool := false
  fieldComplete : Bool := false
  lineComplete : Bool := false
  deriving DecidableEq, Repr

/-- `c <= 0`, where there is no character behind the end. -/
def atEnd : Option CodeUnit → Bool
  | none => true
  | some c => c == 0

/-- The action and the next state, or the message of the exception. -/
def transition (state : ParserState) (c : Option CodeUnit) :
    Except String (Action × ParserState) :=
  match state with
  | .startLine =>
      if atEnd c then .ok ({}, .done)
      else if c = some quote then .ok ({}, .insideQuotedField)
      else if c = some comma then .ok ({ fieldComplete := true }, .startField)
      else if c = some newline then .ok ({}, .startLine)
      else .ok ({ appendChar := true }, .insideUnquotedField)
  | .startField =>
      if atEnd c then .ok ({ fieldComplete := true, lineComplete := true }, .done)
      else if c = some quote then .ok ({}, .insideQuotedField)
      else if c = some comma then .ok ({ fieldComplete := true }, .startField)
      else if c = some newline then
        .ok ({ fieldComplete := true, lineComplete := true }, .startLine)
      else .ok ({ appendChar := true }, .insideUnquotedField)
  | .insideQuotedField =>
      if atEnd c then .error "Bad input: End of input inside quoted field."
      else if c = some quote then .ok ({}, .firstQuotationMark)
      else .ok ({ appendChar := true }, .insideQuotedField)
  | .firstQuotationMark =>
      if atEnd c then .ok ({ fieldComplete := true, lineComplete := true }, .done)
      else if c = some quote then .ok ({ appendChar := true }, .insideQuotedField)
      else if c = some comma then .ok ({ fieldComplete := true }, .startField)
      else if c = some newline then
        .ok ({ fieldComplete := true, lineComplete := true }, .startLine)
      else .error "Bad input: Character after field ended or unquoted '\"'."
  | .insideUnquotedField =>
      if atEnd c then .ok ({ fieldComplete := true, lineComplete := true }, .done)
      else if c = some comma then .ok ({ fieldComplete := true }, .startField)
      else if c = some newline then
        .ok ({ fieldComplete := true, lineComplete := true }, .startLine)
      else .ok ({ appendChar := true }, .insideUnquotedField)
  | .done => .ok ({}, .done)

/-- The variables of `parse`.  The buffer is its first `pos` characters. -/
structure Parser where
  state : ParserState
  line : Nat
  column : Nat
  buf : List CodeUnit
  fields : List (List CodeUnit)
  result : List Line
  deriving DecidableEq, Repr

def Parser.step (p : Parser) (c : Option CodeUnit) : Except ParseError Parser :=
  match transition p.state c with
  | .error message => .error (.parseException p.line p.column message)
  | .ok (action, state) =>
      let p := { p with state := state }
      let p := if action.appendChar then { p with buf := p.buf ++ c.toList } else p
      let p :=
        if action.fieldComplete then { p with fields := p.fields ++ [p.buf], buf := [] } else p
      let p :=
        if action.lineComplete then
          if p.fields.length > 0 then
            { p with result := p.result ++ [⟨p.line, p.fields⟩], fields := [] }
          else p
        else p
      .ok (if c = some newline then { p with line := p.line + 1, column := 1 }
        else { p with column := p.column + 1 })

def Parser.start : Parser where
  state := .startLine
  line := 1
  column := 1
  buf := []
  fields := []
  result := []

/-- One round of the loop: the variables and what is left to read. -/
def round (s : Parser × List CodeUnit) : Except ParseError (Parser × List CodeUnit) := do
  let p ← s.1.step s.2.head?
  pure (p, s.2.tail)

def parse (text : List CodeUnit) : Except ParseError (List Line) := do
  let s ← whileLoop .outOfFuel (fun s => s.1.state != .done) round (text.length + 1)
    (Parser.start, text)
  pure s.1.result

end Source

section Scan

/-- The machine without line and column numbers. -/
structure Scan where
  state : ParserState
  buf : List CodeUnit
  fields : List (List CodeUnit)
  rows : List (List (List CodeUnit))
  deriving DecidableEq, Repr

def Scan.start : Scan :=
  ⟨.startLine, [], [], []⟩

def Scan.endField (v : Scan) (state : ParserState) : Scan :=
  { v with state := state, fields := v.fields ++ [v.buf], buf := [] }

def Scan.endLine (v : Scan) (state : ParserState) : Scan :=
  { v with state := state, rows := v.rows ++ [v.fields ++ [v.buf]], fields := [], buf := [] }

def Scan.append (v : Scan) (state : ParserState) (c : CodeUnit) : Scan :=
  { v with state := state, buf := v.buf ++ [c] }

/-- What the scan does with a character, or `none` for an exception. -/
def Scan.step (v : Scan) (c : CodeUnit) : Option Scan :=
  match v.state with
  | .startLine =>
      if c = quote then some { v with state := .insideQuotedField }
      else if c = comma then some (v.endField .startField)
      else if c = newline then some v
      else some (v.append .insideUnquotedField c)
  | .startField =>
      if c = quote then some { v with state := .insideQuotedField }
      else if c = comma then some (v.endField .startField)
      else if c = newline then some (v.endLine .startLine)
      else some (v.append .insideUnquotedField c)
  | .insideQuotedField =>
      if c = quote then some { v with state := .firstQuotationMark }
      else some (v.append .insideQuotedField c)
  | .firstQuotationMark =>
      if c = quote then some (v.append .insideQuotedField c)
      else if c = comma then some (v.endField .startField)
      else if c = newline then some (v.endLine .startLine)
      else none
  | .insideUnquotedField =>
      if c = comma then some (v.endField .startField)
      else if c = newline then some (v.endLine .startLine)
      else some (v.append .insideUnquotedField c)
  | .done => some v

/-- The rows at the end of the text, or `none` for an exception. -/
def Scan.finish (v : Scan) : Option (List (List (List CodeUnit))) :=
  match v.state with
  | .startLine => some v.rows
  | .insideQuotedField => none
  | .done => some v.rows
  | _ => some (v.endLine .done).rows

def Scan.run (v : Scan) : List CodeUnit → Option (List (List (List CodeUnit)))
  | [] => v.finish
  | c :: text => (v.step c).bind fun v => v.run text

def Parser.scan (p : Parser) : Scan :=
  ⟨p.state, p.buf, p.fields, p.result.map Line.fields⟩

end Scan

section Simulation

theorem quote_ne_comma :
    quote ≠ comma := by
  decide

theorem quote_ne_newline :
    quote ≠ newline := by
  decide

theorem comma_ne_newline :
    comma ≠ newline := by
  decide

/-- A character other than NUL moves the parser as it moves the scan. -/
theorem step_scan
    (p : Parser) {c : CodeUnit} (hc : c ≠ 0) :
    match p.scan.step c with
    | some v => ∃ p', p.step (some c) = .ok p' ∧ p'.scan = v
    | none => ∃ message, p.step (some c) = .error (.parseException p.line p.column message) := by
  have hend : atEnd (some c) = false := beq_false_of_ne hc
  obtain ⟨state, line, column, buf, fields, result⟩ := p
  by_cases hquote : c = quote
  · subst hquote
    cases state <;>
      simp [Parser.scan, Scan.step, Parser.step, transition, hend, Scan.append, quote_ne_comma,
        quote_ne_newline]
  · by_cases hcomma : c = comma
    · subst hcomma
      cases state <;>
        simp [Parser.scan, Scan.step, Parser.step, transition, hend, Scan.append, Scan.endField,
          quote_ne_comma.symm, comma_ne_newline]
    · by_cases hnewline : c = newline
      · subst hnewline
        cases state <;>
          simp [Parser.scan, Scan.step, Parser.step, transition, hend, Scan.append, Scan.endLine,
            quote_ne_newline.symm, comma_ne_newline.symm]
      · cases state <;>
          simp [Parser.scan, Scan.step, Parser.step, transition, hend, Scan.append, hquote,
            hcomma, hnewline]

theorem finish_scan
    (p : Parser) :
    match p.scan.finish with
    | some rows => ∃ p', p.step none = .ok p' ∧ p'.state = .done ∧
        p'.result.map Line.fields = rows
    | none => ∃ message, p.step none = .error (.parseException p.line p.column message) := by
  obtain ⟨state, line, column, buf, fields, result⟩ := p
  cases state <;> simp [Parser.scan, Scan.finish, Parser.step, transition, atEnd, Scan.endLine]

theorem step_ne_done
    {v v' : Scan} {c : CodeUnit} (hv : v.state ≠ .done) (h : v.step c = some v') :
    v'.state ≠ .done := by
  obtain ⟨state, buf, fields, rows⟩ := v
  cases state with
  | done => exact absurd rfl hv
  | startLine | startField | insideQuotedField | firstQuotationMark | insideUnquotedField =>
      simp only [Scan.step] at h
      split_ifs at h <;>
        · cases h
          exact ParserState.noConfusion

theorem whileLoop_scan
    {text : List CodeUnit} (htext : ∀ c ∈ text, c ≠ 0) {p : Parser} (hp : p.state ≠ .done)
    {fuel : Nat} (hfuel : text.length < fuel) :
    match p.scan.run text with
    | some rows => ∃ s, whileLoop .outOfFuel (fun s => s.1.state != .done) round fuel (p, text) =
        .ok s ∧ s.1.result.map Line.fields = rows
    | none => ∃ line column message,
        whileLoop .outOfFuel (fun s => s.1.state != .done) round fuel (p, text) =
          .error (.parseException line column message) := by
  induction text generalizing p fuel with
  | nil =>
      obtain ⟨fuel, rfl⟩ : ∃ n, fuel = n + 1 := ⟨fuel - 1, by omega⟩
      have hfinish := finish_scan p
      rw [Scan.run, whileLoop, if_pos (bne_iff_ne.mpr hp), round]
      dsimp only [List.head?_nil, List.tail_nil]
      cases hrun : p.scan.finish with
      | none =>
          rw [hrun] at hfinish
          obtain ⟨message, herror⟩ := hfinish
          rw [herror]
          exact ⟨_, _, _, rfl⟩
      | some rows =>
          rw [hrun] at hfinish
          obtain ⟨p', hok, hdone, hrows⟩ := hfinish
          rw [hok]
          refine ⟨(p', []), ?_, hrows⟩
          cases fuel <;> simp [bind, Except.bind, pure, Except.pure, whileLoop, hdone]
  | cons c text ih =>
      rw [List.forall_mem_cons] at htext
      obtain ⟨fuel, rfl⟩ : ∃ n, fuel = n + 1 := ⟨fuel - 1, by omega⟩
      have hstep := step_scan p htext.1
      rw [Scan.run, whileLoop, if_pos (bne_iff_ne.mpr hp), round]
      dsimp only [List.head?_cons, List.tail_cons]
      cases hrun : p.scan.step c with
      | none =>
          rw [hrun] at hstep
          obtain ⟨message, herror⟩ := hstep
          rw [herror]
          exact ⟨_, _, _, rfl⟩
      | some v =>
          rw [hrun] at hstep
          obtain ⟨p', hok, hscan⟩ := hstep
          rw [hok]
          have hp' : p'.state ≠ .done := by
            have hv := step_ne_done hp hrun
            rw [← hscan] at hv
            exact hv
          rw [← hscan]
          exact ih htext.2 hp' (by rw [List.length_cons] at hfuel; omega)

/-- The parser returns the rows of the scan, or throws where the scan has none. -/
theorem parse_scan
    {text : List CodeUnit} (htext : ∀ c ∈ text, c ≠ 0) :
    match Scan.start.run text with
    | some rows => ∃ lines, parse text = .ok lines ∧ lines.map Line.fields = rows
    | none => ∃ line column message, parse text = .error (.parseException line column message) := by
  have hloop := whileLoop_scan htext (p := Parser.start) (by decide) (Nat.lt_succ_self _)
  change match Scan.start.run text with
    | some rows => _
    | none => _ at hloop
  cases hrun : Scan.start.run text with
  | none =>
      rw [hrun] at hloop
      obtain ⟨line, column, message, herror⟩ := hloop
      refine ⟨line, column, message, ?_⟩
      rw [parse, herror]
      rfl
  | some rows =>
      rw [hrun] at hloop
      obtain ⟨s, hok, hrows⟩ := hloop
      refine ⟨s.1.result, ?_, hrows⟩
      rw [parse, hok]
      rfl

end Simulation

end CsvParser
end AndroidBuild
