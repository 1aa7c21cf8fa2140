import AndroidBuild.ProductConfig.CsvParser

/-!
# What `CsvParser.parse` reads

Cells are the fields of a record as they are written, in quotes or bare.  A text
of records is read back, and a text is refused where a cell in quotes does not end
as it should.
-/

namespace AndroidBuild
namespace CsvParser

section Encoding

/-- A field as it is written. -/
structure Cell where
  quoted : Bool
  text : List CodeUnit
  deriving DecidableEq, Repr

/-- Every quotation mark is doubled, as by `escape-for-csv`. -/
def escape (text : List CodeUnit) : List CodeUnit :=
  text.flatMap fun c => if c = quote then [quote, quote] else [c]

def Cell.encode (c : Cell) : List CodeUnit :=
  if c.quoted then quote :: (escape c.text ++ [quote]) else c.text

/-- Text that need not be quoted. -/
structure Bare (text : List CodeUnit) : Prop where
  comma : comma ∉ text
  newline : newline ∉ text
  head : text.head? ≠ some quote

def Cell.Ok (c : Cell) : Prop :=
  c.quoted = false → Bare c.text

/-- The empty cell without quotes, which alone makes a blank line. -/
def Cell.blank : Cell :=
  ⟨false, []⟩

def encodeRecord : List Cell → List CodeUnit
  | [] => []
  | [c] => c.encode
  | c :: d :: record => c.encode ++ comma :: encodeRecord (d :: record)

/-- A record that can be written. -/
structure RecordOk (record : List Cell) : Prop where
  ne_nil : record ≠ []
  cells : ∀ c ∈ record, c.Ok
  nul : ∀ c ∈ record, ∀ x ∈ c.text, x ≠ 0
  ne_blank : record ≠ [Cell.blank]

/-- A text of records, each with the number of blank lines in front of it, and `closing`
newlines behind the last. -/
def encodeText (closing : Nat) : List (Nat × List Cell) → List CodeUnit
  | [] => List.replicate closing newline
  | [(n, record)] =>
      List.replicate n newline ++ (encodeRecord record ++ List.replicate closing newline)
  | (n, record) :: next :: rows =>
      List.replicate n newline ++
        (encodeRecord record ++ newline :: encodeText closing (next :: rows))

/-- Cells, each with the comma or newline behind it. -/
structure Cells (cells : List (Cell × CodeUnit)) : Prop where
  ok : ∀ x ∈ cells, x.1.Ok
  ends : ∀ x ∈ cells, x.2 = comma ∨ x.2 = newline

def encodeCells (cells : List (Cell × CodeUnit)) : List CodeUnit :=
  cells.flatMap fun x => x.1.encode ++ [x.2]

/-- A quoted field that is not terminated, or is followed by a character other than a
quotation mark, a comma, a newline or the end. -/
def BrokenQuote (text : List CodeUnit) : Prop :=
  ∃ cells inside tail, Cells cells ∧ text = encodeCells cells ++ quote :: (escape inside ++ tail) ∧
    (tail = [] ∨ ∃ c rest, tail = quote :: c :: rest ∧ c ≠ quote ∧ c ≠ comma ∧ c ≠ newline)

end Encoding

section Cells

variable {v : Scan} {c : Cell} {rest : List CodeUnit}

/-- The scan is in front of a field. -/
structure Scan.AtField (v : Scan) : Prop where
  state : v.state = .startLine ∨ v.state = .startField
  buf : v.buf = []

def Scan.afterCell (v : Scan) (c : Cell) : Scan :=
  { v with
    state :=
      if c.quoted then .firstQuotationMark
      else if c.text = [] then v.state
      else .insideUnquotedField
    buf := c.text }

theorem run_escape
    (hv : v.state = .insideQuotedField) (text rest : List CodeUnit) :
    v.run (escape text ++ rest) = ({ v with buf := v.buf ++ text } : Scan).run rest := by
  induction text generalizing v with
  | nil =>
      rw [List.append_nil]
      rfl
  | cons x text ih =>
      obtain ⟨state, buf, fields, rows⟩ := v
      cases hv
      rw [escape, List.flatMap_cons, List.append_assoc]
      by_cases hx : x = quote
      · subst hx
        simp only [if_pos, List.cons_append, List.nil_append, Scan.run, Scan.step,
          Option.bind_some]
        refine (ih rfl).trans ?_
        simp only [Scan.append, List.append_assoc, List.cons_append, List.nil_append]
      · simp only [if_neg hx, List.cons_append, List.nil_append, Scan.run, Scan.step,
          Option.bind_some]
        refine (ih rfl).trans ?_
        simp only [Scan.append, List.append_assoc, List.cons_append, List.nil_append]

theorem run_unquoted
    (hv : v.state = .insideUnquotedField) {text : List CodeUnit} (hcomma : comma ∉ text)
    (hnewline : newline ∉ text) (rest : List CodeUnit) :
    v.run (text ++ rest) = ({ v with buf := v.buf ++ text } : Scan).run rest := by
  induction text generalizing v with
  | nil =>
      rw [List.append_nil]
      rfl
  | cons x text ih =>
      obtain ⟨state, buf, fields, rows⟩ := v
      cases hv
      rw [List.mem_cons, not_or] at hcomma hnewline
      simp only [List.cons_append, Scan.run, Scan.step, if_neg (Ne.symm hcomma.1),
        if_neg (Ne.symm hnewline.1), Option.bind_some]
      refine (ih rfl hcomma.2 hnewline.2).trans ?_
      simp only [Scan.append, List.append_assoc, List.cons_append, List.nil_append]

/-- A cell is read. -/
theorem run_cell
    (hv : v.AtField) (hc : c.Ok) (rest : List CodeUnit) :
    v.run (c.encode ++ rest) = (v.afterCell c).run rest := by
  obtain ⟨state, buf, fields, rows⟩ := v
  obtain ⟨hstate, rfl⟩ := hv
  dsimp only at hstate
  obtain ⟨quoted, text⟩ := c
  cases quoted with
  | true =>
      have hopen : (⟨state, [], fields, rows⟩ : Scan).step quote =
          some ⟨.insideQuotedField, [], fields, rows⟩ := by
        rcases hstate with rfl | rfl <;> rfl
      rw [Cell.encode, if_pos rfl, List.cons_append, Scan.run, hopen, Option.bind_some,
        List.append_assoc, run_escape rfl]
      rfl
  | false =>
      have hbare := hc rfl
      rw [Cell.encode, if_neg Bool.false_ne_true]
      cases text with
      | nil => rfl
      | cons x text =>
          have hx : x ≠ quote := fun hx => hbare.head (congrArg some hx)
          have hcomma := hbare.comma
          have hnewline := hbare.newline
          rw [List.mem_cons, not_or] at hcomma hnewline
          have hfirst : (⟨state, [], fields, rows⟩ : Scan).step x =
              some ⟨.insideUnquotedField, [x], fields, rows⟩ := by
            rcases hstate with rfl | rfl <;>
              simp only [Scan.step, if_neg hx, if_neg (Ne.symm hcomma.1),
                if_neg (Ne.symm hnewline.1)] <;> rfl
          rw [List.cons_append, Scan.run, hfirst, Option.bind_some,
            run_unquoted rfl hcomma.2 hnewline.2]
          rfl

theorem run_comma
    (hv : v.AtField) (c : Cell) (rest : List CodeUnit) :
    (v.afterCell c).run (comma :: rest) =
      (⟨.startField, [], v.fields ++ [c.text], v.rows⟩ : Scan).run rest := by
  obtain ⟨state, buf, fields, rows⟩ := v
  obtain ⟨hstate, rfl⟩ := hv
  dsimp only at hstate
  obtain ⟨quoted, text⟩ := c
  have hstep : (Scan.afterCell ⟨state, [], fields, rows⟩ ⟨quoted, text⟩).step comma =
      some ⟨.startField, [], fields ++ [text], rows⟩ := by
    cases quoted with
    | true => rfl
    | false =>
        cases text with
        | nil => rcases hstate with rfl | rfl <;> rfl
        | cons x text => rfl
  rw [Scan.run, hstep, Option.bind_some]

theorem run_newline
    (hv : v.AtField) (hc : v.state = .startLine → c ≠ Cell.blank) (rest : List CodeUnit) :
    (v.afterCell c).run (newline :: rest) =
      (⟨.startLine, [], [], v.rows ++ [v.fields ++ [c.text]]⟩ : Scan).run rest := by
  obtain ⟨state, buf, fields, rows⟩ := v
  obtain ⟨hstate, rfl⟩ := hv
  dsimp only at hstate hc ⊢
  obtain ⟨quoted, text⟩ := c
  have hstep : (Scan.afterCell ⟨state, [], fields, rows⟩ ⟨quoted, text⟩).step newline =
      some ⟨.startLine, [], [], rows ++ [fields ++ [text]]⟩ := by
    cases quoted with
    | true => rfl
    | false =>
        cases text with
        | nil =>
            rcases hstate with rfl | rfl
            · exact absurd rfl (hc rfl)
            · rfl
        | cons x text => rfl
  rw [Scan.run, hstep, Option.bind_some]

theorem run_end
    (hv : v.AtField) (hc : v.state = .startLine → c ≠ Cell.blank) :
    (v.afterCell c).run [] = some (v.rows ++ [v.fields ++ [c.text]]) := by
  obtain ⟨state, buf, fields, rows⟩ := v
  obtain ⟨hstate, rfl⟩ := hv
  dsimp only at hstate hc ⊢
  obtain ⟨quoted, text⟩ := c
  cases quoted with
  | true => rfl
  | false =>
      cases text with
      | nil =>
          rcases hstate with rfl | rfl
          · exact absurd rfl (hc rfl)
          · rfl
      | cons x text => rfl

theorem run_blank
    (rows : List (List (List CodeUnit))) (n : Nat) (rest : List CodeUnit) :
    (⟨.startLine, [], [], rows⟩ : Scan).run (List.replicate n newline ++ rest) =
      (⟨.startLine, [], [], rows⟩ : Scan).run rest := by
  induction n with
  | zero => rfl
  | succ n ih =>
      rw [List.replicate_succ, List.cons_append, Scan.run]
      exact ih

end Cells

section Records

theorem run_record
    {v : Scan} (hv : v.AtField) {record : List Cell} (hne : record ≠ [])
    (hcells : ∀ c ∈ record, c.Ok) (hblank : v.state = .startLine → record ≠ [Cell.blank]) :
    ∃ (w : Scan) (c : Cell), w.AtField ∧ (w.state = .startLine → c ≠ Cell.blank) ∧ w.rows = v.rows ∧
      w.fields ++ [c.text] = v.fields ++ record.map Cell.text ∧
      ∀ rest, v.run (encodeRecord record ++ rest) = (w.afterCell c).run rest := by
  induction record generalizing v with
  | nil => exact absurd rfl hne
  | cons c record ih =>
      rw [List.forall_mem_cons] at hcells
      cases record with
      | nil =>
          refine ⟨v, c, hv, ?_, rfl, rfl, run_cell hv hcells.1⟩
          rintro hstate rfl
          exact hblank hstate rfl
      | cons d record =>
          obtain ⟨w, e, hw, he, hrows, hfields, hrun⟩ :=
            ih (v := ⟨.startField, [], v.fields ++ [c.text], v.rows⟩) ⟨Or.inr rfl, rfl⟩
              (List.cons_ne_nil d record) hcells.2 (fun h => by cases h)
          refine ⟨w, e, hw, he, hrows, ?_, ?_⟩
          · rw [hfields, List.append_assoc]
            rfl
          · intro rest
            rw [encodeRecord, List.append_assoc, run_cell hv hcells.1, List.cons_append,
              run_comma hv, hrun]

/-- A text of records is read row by row. -/
theorem run_text
    {rows : List (Nat × List Cell)} (hrows : ∀ row ∈ rows, RecordOk row.2) (closing : Nat)
    (before : List (List (List CodeUnit))) :
    (⟨.startLine, [], [], before⟩ : Scan).run (encodeText closing rows) =
      some (before ++ rows.map fun row => row.2.map Cell.text) := by
  induction rows generalizing before with
  | nil =>
      rw [encodeText, ← List.append_nil (List.replicate closing newline), run_blank]
      exact congrArg some (List.append_nil before).symm
  | cons row rows ih =>
      rw [List.forall_mem_cons] at hrows
      obtain ⟨n, record⟩ := row
      obtain ⟨hne, hcells, _, hblank⟩ := hrows.1
      obtain ⟨w, c, hw, hc, hbefore, hfields, hrun⟩ :=
        run_record (v := ⟨.startLine, [], [], before⟩) ⟨Or.inl rfl, rfl⟩ hne hcells
          (fun _ => hblank)
      dsimp only at hbefore hfields
      rw [List.nil_append] at hfields
      cases rows with
      | nil =>
          rw [encodeText, run_blank, hrun]
          cases closing with
          | zero => rw [List.replicate_zero, run_end hw hc, hbefore, hfields]; rfl
          | succ closing =>
              rw [List.replicate_succ, run_newline hw hc, hbefore, hfields,
                ← List.append_nil (List.replicate closing newline), run_blank]
              rfl
      | cons next rows =>
          rw [encodeText, run_blank, hrun, run_newline hw hc, hbefore, hfields, ih hrows.2,
            List.append_assoc]
          rfl

end Records

section Broken

theorem cells_nil :
    Cells [] :=
  ⟨List.forall_mem_nil _, List.forall_mem_nil _⟩

theorem Cells.snoc
    {cells : List (Cell × CodeUnit)} (h : Cells cells) {c : Cell} (hc : c.Ok) {sep : CodeUnit}
    (hsep : sep = comma ∨ sep = newline) :
    Cells (cells ++ [(c, sep)]) := by
  refine ⟨?_, ?_⟩
  · exact List.forall_mem_append.mpr ⟨h.ok, List.forall_mem_singleton.mpr hc⟩
  · exact List.forall_mem_append.mpr ⟨h.ends, List.forall_mem_singleton.mpr hsep⟩

theorem encodeCells_snoc
    (cells : List (Cell × CodeUnit)) (c : Cell) (sep : CodeUnit) :
    encodeCells (cells ++ [(c, sep)]) = encodeCells cells ++ c.encode ++ [sep] := by
  rw [encodeCells, encodeCells, List.flatMap_append, List.flatMap_singleton, List.append_assoc]

/-- Whole cells are read up to the next field. -/
theorem run_cells
    {v : Scan} (hv : v.AtField) {cells : List (Cell × CodeUnit)} (hcells : Cells cells) :
    ∃ w : Scan, w.AtField ∧ ∀ rest, v.run (encodeCells cells ++ rest) = w.run rest := by
  induction cells generalizing v with
  | nil => exact ⟨v, hv, fun _ => rfl⟩
  | cons x cells ih =>
      obtain ⟨c, sep⟩ := x
      obtain ⟨hok, hends⟩ := hcells
      rw [List.forall_mem_cons] at hok hends
      have hsep : ∃ w : Scan, w.AtField ∧
          ∀ rest, (v.afterCell c).run (sep :: rest) = w.run rest := by
        rcases hends.1 with hsep | hsep
        · exact ⟨_, ⟨Or.inr rfl, rfl⟩, fun rest => hsep ▸ run_comma hv c rest⟩
        · by_cases hc : v.state = .startLine → c ≠ Cell.blank
          · exact ⟨_, ⟨Or.inl rfl, rfl⟩, fun rest => hsep ▸ run_newline hv hc rest⟩
          · obtain ⟨hstate, hc⟩ := Classical.not_imp.mp hc
            obtain rfl := not_not.mp hc
            have hsep : sep = newline := hsep
            refine ⟨v, hv, ?_⟩
            intro rest
            obtain ⟨state, buf, fields, rows⟩ := v
            obtain ⟨_, rfl⟩ := hv
            cases hstate
            rw [hsep]
            rfl
      obtain ⟨w, hw, hrun⟩ := hsep
      obtain ⟨w', hw', hrun'⟩ := ih hw ⟨hok.2, hends.2⟩
      refine ⟨w', hw', ?_⟩
      intro rest
      rw [encodeCells, List.flatMap_cons, List.append_assoc, List.append_assoc,
        run_cell hv hok.1, List.singleton_append, hrun]
      exact hrun' rest

/-- A broken text has no rows. -/
theorem run_broken
    {text : List CodeUnit} (h : BrokenQuote text) :
    Scan.start.run text = none := by
  obtain ⟨cells, inside, tail, hcells, rfl, htail⟩ := h
  obtain ⟨⟨state, buf, fields, rows⟩, ⟨hstate, hbuf⟩, hrun⟩ :=
    run_cells (v := Scan.start) ⟨Or.inl rfl, rfl⟩ hcells
  dsimp only at hstate hbuf
  subst hbuf
  have hopen : (⟨state, [], fields, rows⟩ : Scan).step quote =
      some ⟨.insideQuotedField, [], fields, rows⟩ := by
    rcases hstate with rfl | rfl <;> rfl
  rw [hrun, Scan.run, hopen, Option.bind_some, run_escape rfl]
  rcases htail with rfl | ⟨c, rest, rfl, hquote, hcomma, hnewline⟩
  · rfl
  · have hstep : (⟨.firstQuotationMark, [] ++ inside, fields, rows⟩ : Scan).step c = none := by
      simp only [Scan.step, if_neg hquote, if_neg hcomma, if_neg hnewline]
    change (Scan.run ⟨.firstQuotationMark, [] ++ inside, fields, rows⟩ (c :: rest)) = none
    rw [Scan.run, hstep, Option.bind_none]

/-- Where the scan is behind the text `done`: in front of a field, or in one. -/
inductive Reading (done : List CodeUnit) (v : Scan) : Prop where
  | atField (cells : List (Cell × CodeUnit)) (hcells : Cells cells) (hv : v.AtField)
      (hdone : done = encodeCells cells)
  | quoted (cells : List (Cell × CodeUnit)) (hcells : Cells cells)
      (hstate : v.state = .insideQuotedField)
      (hdone : done = encodeCells cells ++ quote :: escape v.buf)
  | closed (cells : List (Cell × CodeUnit)) (hcells : Cells cells)
      (hstate : v.state = .firstQuotationMark)
      (hdone : done = encodeCells cells ++ quote :: (escape v.buf ++ [quote]))
  | bare (cells : List (Cell × CodeUnit)) (hcells : Cells cells)
      (hstate : v.state = .insideUnquotedField) (hbare : Bare v.buf) (hne : v.buf ≠ [])
      (hdone : done = encodeCells cells ++ v.buf)

theorem escape_append
    (a b : List CodeUnit) :
    escape (a ++ b) = escape a ++ escape b :=
  List.flatMap_append

/-- A cell has ended. -/
theorem Reading.atField_snoc
    {cells : List (Cell × CodeUnit)} (hcells : Cells cells) {c : Cell} (hc : c.Ok)
    {sep : CodeUnit} (hsep : sep = comma ∨ sep = newline) {done : List CodeUnit}
    (hdone : done = encodeCells cells ++ c.encode ++ [sep]) {v : Scan} (hv : v.AtField) :
    Reading done v :=
  .atField _ (hcells.snoc hc hsep) hv (hdone.trans (encodeCells_snoc cells c sep).symm)

theorem blank_ok :
    Cell.blank.Ok :=
  fun _ => ⟨List.not_mem_nil, List.not_mem_nil, fun h => by cases h⟩

theorem quoted_ok (text : List CodeUnit) :
    Cell.Ok ⟨true, text⟩ :=
  fun h => by cases h

theorem Reading.step
    {done : List CodeUnit} {v v' : Scan} {c : CodeUnit} (h : Reading done v)
    (hstep : v.step c = some v') :
    Reading (done ++ [c]) v' := by
  obtain ⟨state, buf, fields, rows⟩ := v
  cases h with
  | atField cells hcells hv hdone =>
      obtain ⟨hstate, rfl⟩ := hv
      dsimp only at hstate
      by_cases hquote : c = quote
      · subst hquote
        have hv' : v' = ⟨.insideQuotedField, [], fields, rows⟩ := by
          rcases hstate with rfl | rfl <;> exact (Option.some.inj hstep).symm
        rw [hv', hdone]
        exact .quoted cells hcells rfl rfl
      · by_cases hsep : c = comma ∨ c = newline
        · have hv' : v'.AtField := by
            rcases hstate with rfl | rfl <;> rcases hsep with rfl | rfl <;>
              · cases hstep
                first
                  | exact ⟨Or.inl rfl, rfl⟩
                  | exact ⟨Or.inr rfl, rfl⟩
          exact Reading.atField_snoc hcells blank_ok hsep
            (by rw [hdone]; exact congrArg (· ++ [c]) (List.append_nil _).symm) hv'
        · rw [not_or] at hsep
          have hv' : v' = ⟨.insideUnquotedField, [c], fields, rows⟩ := by
            rcases hstate with rfl | rfl <;>
              · simp only [Scan.step, if_neg hquote, if_neg hsep.1, if_neg hsep.2] at hstep
                exact (Option.some.inj hstep).symm
          rw [hv', hdone]
          refine .bare cells hcells rfl ⟨?_, ?_, ?_⟩ (List.cons_ne_nil c []) rfl
          · exact fun hmem => hsep.1 (List.mem_singleton.mp hmem).symm
          · exact fun hmem => hsep.2 (List.mem_singleton.mp hmem).symm
          · exact fun hhead => hquote (Option.some.inj hhead)
  | quoted cells hcells hstate hdone =>
      cases hstate
      dsimp only at hdone
      by_cases hquote : c = quote
      · subst hquote
        cases hstep
        rw [hdone]
        exact .closed cells hcells rfl (by simp only [List.append_assoc, List.cons_append])
      · simp only [Scan.step, if_neg hquote] at hstep
        cases hstep
        rw [hdone]
        refine .quoted cells hcells rfl ?_
        change _ = encodeCells cells ++ quote :: escape (buf ++ [c])
        rw [escape_append, escape.eq_def [c], List.flatMap_singleton, if_neg hquote,
          List.append_assoc]
        rfl
  | closed cells hcells hstate hdone =>
      cases hstate
      dsimp only at hdone
      by_cases hquote : c = quote
      · subst hquote
        cases hstep
        rw [hdone]
        refine .quoted cells hcells rfl ?_
        change _ = encodeCells cells ++ quote :: escape (buf ++ [quote])
        rw [escape_append, escape.eq_def [quote], List.flatMap_singleton, if_pos rfl,
          List.append_assoc, List.cons_append, List.append_assoc]
        rfl
      · by_cases hsep : c = comma ∨ c = newline
        · have hv' : v'.AtField := by
            rcases hsep with rfl | rfl <;>
              · cases hstep
                first
                  | exact ⟨Or.inl rfl, rfl⟩
                  | exact ⟨Or.inr rfl, rfl⟩
          refine Reading.atField_snoc hcells (quoted_ok buf) hsep ?_ hv'
          rw [hdone]
          rfl
        · rw [not_or] at hsep
          simp only [Scan.step, if_neg hquote, if_neg hsep.1, if_neg hsep.2] at hstep
          cases hstep
  | bare cells hcells hstate hbare hne hdone =>
      cases hstate
      dsimp only at hbare hne hdone
      by_cases hsep : c = comma ∨ c = newline
      · have hv' : v'.AtField := by
          rcases hsep with rfl | rfl <;>
            · cases hstep
              first
                | exact ⟨Or.inl rfl, rfl⟩
                | exact ⟨Or.inr rfl, rfl⟩
        refine Reading.atField_snoc hcells (c := ⟨false, buf⟩) (fun _ => hbare) hsep ?_ hv'
        rw [hdone]
        rfl
      · rw [not_or] at hsep
        simp only [Scan.step, if_neg hsep.1, if_neg hsep.2] at hstep
        cases hstep
        rw [hdone]
        refine .bare cells hcells rfl ⟨?_, ?_, ?_⟩ (List.append_ne_nil_of_left_ne_nil hne _)
          (List.append_assoc _ _ _)
        · change comma ∉ buf ++ [c]
          rw [List.mem_append, List.mem_singleton, not_or]
          exact ⟨hbare.comma, Ne.symm hsep.1⟩
        · change newline ∉ buf ++ [c]
          rw [List.mem_append, List.mem_singleton, not_or]
          exact ⟨hbare.newline, Ne.symm hsep.2⟩
        · change (buf ++ [c]).head? ≠ some quote
          rw [List.head?_append_of_ne_nil _ hne]
          exact hbare.head

theorem Reading.refused
    {done : List CodeUnit} {v : Scan} {c : CodeUnit} (h : Reading done v)
    (hstep : v.step c = none) (rest : List CodeUnit) :
    BrokenQuote (done ++ c :: rest) := by
  obtain ⟨state, buf, fields, rows⟩ := v
  cases h with
  | atField cells hcells hv hdone =>
      obtain ⟨hstate, rfl⟩ := hv
      rcases hstate with rfl | rfl <;>
        · simp only [Scan.step] at hstep
          split_ifs at hstep
  | quoted cells hcells hstate hdone =>
      cases hstate
      simp only [Scan.step] at hstep
      split_ifs at hstep
  | closed cells hcells hstate hdone =>
      cases hstate
      simp only [Scan.step] at hstep
      split_ifs at hstep with hquote hcomma hnewline
      refine ⟨cells, buf, quote :: c :: rest, hcells, ?_,
        Or.inr ⟨c, rest, rfl, hquote, hcomma, hnewline⟩⟩
      rw [hdone]
      simp only [List.append_assoc, List.cons_append, List.nil_append]
  | bare cells hcells hstate hbare hne hdone =>
      cases hstate
      simp only [Scan.step] at hstep
      split_ifs at hstep

theorem Reading.unfinished
    {done : List CodeUnit} {v : Scan} (h : Reading done v) (hfinish : v.finish = none) :
    BrokenQuote done := by
  obtain ⟨state, buf, fields, rows⟩ := v
  cases h with
  | atField cells hcells hv hdone =>
      obtain ⟨hstate, rfl⟩ := hv
      rcases hstate with rfl | rfl <;> cases hfinish
  | quoted cells hcells hstate hdone =>
      refine ⟨cells, buf, [], hcells, ?_, Or.inl rfl⟩
      rw [hdone, List.append_nil]
  | closed cells hcells hstate hdone =>
      cases hstate
      cases hfinish
  | bare cells hcells hstate hbare hne hdone =>
      cases hstate
      cases hfinish

/-- A scan without rows has read a broken text. -/
theorem Reading.broken
    {done : List CodeUnit} {v : Scan} (h : Reading done v) {text : List CodeUnit}
    (hrun : v.run text = none) :
    BrokenQuote (done ++ text) := by
  induction text generalizing done v with
  | nil =>
      rw [List.append_nil]
      exact h.unfinished hrun
  | cons c text ih =>
      rw [Scan.run] at hrun
      cases hstep : v.step c with
      | none => exact h.refused hstep text
      | some v' =>
          rw [hstep, Option.bind_some] at hrun
          have hbroken := ih (h.step hstep) hrun
          rwa [List.append_assoc, List.singleton_append] at hbroken

theorem run_eq_none_iff
    {text : List CodeUnit} :
    Scan.start.run text = none ↔ BrokenQuote text :=
  ⟨(Reading.atField [] cells_nil ⟨Or.inl rfl, rfl⟩ rfl).broken, run_broken⟩

end Broken

section Parse

theorem nul_cell
    {c : Cell} (hc : ∀ x ∈ c.text, x ≠ 0) :
    ∀ x ∈ c.encode, x ≠ 0 := by
  have hquote : quote ≠ 0 := by decide
  rw [Cell.encode]
  split
  · rw [List.forall_mem_cons, List.forall_mem_append, List.forall_mem_singleton]
    refine ⟨hquote, ?_, hquote⟩
    intro x hx
    obtain ⟨y, hy, hx⟩ := List.mem_flatMap.mp hx
    split at hx
    · rw [List.mem_cons, List.mem_singleton, or_self] at hx
      rw [hx]
      exact hquote
    · rw [List.mem_singleton.mp hx]
      exact hc y hy
  · exact hc

theorem nul_record
    {record : List Cell} (hrecord : ∀ c ∈ record, ∀ x ∈ c.text, x ≠ 0) :
    ∀ x ∈ encodeRecord record, x ≠ 0 := by
  induction record with
  | nil => exact List.forall_mem_nil _
  | cons c record ih =>
      rw [List.forall_mem_cons] at hrecord
      cases record with
      | nil => exact nul_cell hrecord.1
      | cons d record =>
          rw [encodeRecord, List.forall_mem_append, List.forall_mem_cons]
          exact ⟨nul_cell hrecord.1, by decide, ih hrecord.2⟩

theorem nul_text
    {rows : List (Nat × List Cell)} (hrows : ∀ row ∈ rows, RecordOk row.2) (closing : Nat) :
    ∀ x ∈ encodeText closing rows, x ≠ 0 := by
  have hnewlines : ∀ n, ∀ x ∈ List.replicate n newline, x ≠ 0 := by
    intro n x hx
    rw [List.eq_of_mem_replicate hx]
    decide
  induction rows with
  | nil => exact hnewlines closing
  | cons row rows ih =>
      rw [List.forall_mem_cons] at hrows
      obtain ⟨n, record⟩ := row
      have hrecord := nul_record hrows.1.nul
      cases rows with
      | nil =>
          rw [encodeText, List.forall_mem_append, List.forall_mem_append]
          exact ⟨hnewlines n, hrecord, hnewlines closing⟩
      | cons next rows =>
          rw [encodeText, List.forall_mem_append, List.forall_mem_append, List.forall_mem_cons]
          exact ⟨hnewlines n, hrecord, by decide, ih hrows.2⟩

/-- `parse` reads back what has been written, and throws iff a quoted field is broken. -/
theorem parse_csv
    (closing : Nat) (rows : List (Nat × List Cell)) (hrows : ∀ row ∈ rows, RecordOk row.2)
    (text : List CodeUnit) (htext : ∀ c ∈ text, c ≠ 0) :
    (∃ lines, parse (encodeText closing rows) = .ok lines ∧
      lines.map Line.fields = rows.map fun row => row.2.map Cell.text) ∧
    ((∃ line column message, parse text = .error (.parseException line column message)) ↔
      BrokenQuote text) ∧
    (¬ BrokenQuote text → ∃ lines, parse text = .ok lines) := by
  refine ⟨?_, ?_⟩
  · have hparse := parse_scan (nul_text hrows closing)
    have hrun : Scan.start.run (encodeText closing rows) =
        some (rows.map fun row => row.2.map Cell.text) :=
      run_text hrows closing []
    rw [hrun] at hparse
    exact hparse
  · have hparse := parse_scan htext
    rw [← run_eq_none_iff]
    cases hrun : Scan.start.run text with
    | none =>
        rw [hrun] at hparse
        exact ⟨iff_of_true hparse rfl, fun h => absurd rfl h⟩
    | some result =>
        rw [hrun] at hparse
        obtain ⟨lines, hok, _⟩ := hparse
        refine ⟨iff_of_false ?_ (Option.some_ne_none result), fun _ => ⟨lines, hok⟩⟩
        rintro ⟨line, column, message, herror⟩
        rw [hok] at herror
        cases herror

/-- The record `"a""b",c` behind a blank line, and an open quotation mark. -/
theorem parse_csv_quoted :
    (∃ lines, parse [0xA, 0x22, 0x61, 0x22, 0x22, 0x62, 0x22, 0x2C, 0x63] = .ok lines ∧
      lines.map Line.fields = [[[0x61, 0x22, 0x62], [0x63]]]) ∧
    ∃ line column message, parse [0x22] = .error (.parseException line column message) := by
  have hrow : RecordOk [⟨true, [0x61, 0x22, 0x62]⟩, ⟨false, [0x63]⟩] := by
    refine ⟨by decide, ?_, by simp, by decide⟩
    rw [List.forall_mem_cons, List.forall_mem_singleton]
    exact ⟨quoted_ok _, fun _ => ⟨by decide, by decide, by decide⟩⟩
  have hparse := parse_csv 0 [(1, [⟨true, [0x61, 0x22, 0x62]⟩, ⟨false, [0x63]⟩])]
    (List.forall_mem_singleton.mpr hrow) [0x22] (by simp)
  refine ⟨hparse.1, hparse.2.1.mpr ⟨[], [], [], cells_nil, rfl, Or.inl rfl⟩⟩

end Parse

end CsvParser
end AndroidBuild
