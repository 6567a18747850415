import EditScript.Proofs.Declared

namespace EditScript.Compiler
open Emitter

variable {arithmetic : Arithmetic} {compiler : Compiler arithmetic} {index : Nat}
  {cell : Option CellAddress} {done : Compilation}

/-- The request that styles a paragraph from one index to another, if there is one. -/
def styling (compiler : Compiler arithmetic) (span : Span) (style : Style) : List Request :=
  if compiler.options.paragraphStyles ∧ ¬style.isEmpty ∧ span.start < span.stop then
    [.styleParagraph span style]
  else []

theorem inline_text (compiler : Compiler arithmetic) (index : Nat) (cell : Option CellAddress)
    (run : TextRun) :
    compiler.inline ⟨index, cell⟩ (.text run) = Halt.unlessOverflow
      ((arithmetic.add index (compiler.options.lengthUnit.measure run.content)).map fun stop =>
        ⟨.insertText ⟨index, cell⟩ run.content ::
            (if run.style.isEmpty then [] else [.restyle ⟨index, stop, cell⟩ run.style]),
          stop, .oneTextRun⟩) := by
  simp only [inline, Cursor.span, Cursor.advance]
  cases arithmetic.add index (compiler.options.lengthUnit.measure run.content) with
  | none => split <;> rfl
  | some stop => split <;> rfl

theorem inline_object (compiler : Compiler arithmetic) (index : Nat) (cell : Option CellAddress)
    {id uri : String} {found : InlineObject} (hf : compiler.objects.get? id = some found)
    (hu : found.contentUri = some uri) :
    compiler.inline ⟨index, cell⟩ (.object id) = Halt.unlessOverflow
      ((arithmetic.add index 1).map fun stop =>
        ⟨[.insertInlineImage ⟨index, cell⟩ uri], stop, .oneInlineImage⟩) := by
  simp only [inline, hf, hu, Cursor.advance, objectUnits]
  cases arithmetic.add index 1 <;> rfl

theorem inline_ok {element : Inline} (h : compiler.inline ⟨index, cell⟩ element = .ok done) :
    (∃ run stop, element = .text run ∧
      arithmetic.add index (compiler.options.lengthUnit.measure run.content) = some stop ∧
      done = ⟨.insertText ⟨index, cell⟩ run.content ::
          (if run.style.isEmpty then [] else [.restyle ⟨index, stop, cell⟩ run.style]),
        stop, .oneTextRun⟩) ∨
    (∃ id found uri stop, element = .object id ∧ compiler.objects.get? id = some found ∧
      found.contentUri = some uri ∧ arithmetic.add index 1 = some stop ∧
      done = ⟨[.insertInlineImage ⟨index, cell⟩ uri], stop, .oneInlineImage⟩) ∨
    ∃ kind, element = .unsupported kind ∧ done = ⟨[], index, .oneSkippedInline⟩ := by
  cases element with
  | text run =>
    rw [inline_text, Halt.unlessOverflow_eq_ok, Option.map_eq_some_iff] at h
    obtain ⟨stop, hs, h⟩ := h
    exact .inl ⟨run, stop, rfl, hs, h.symm⟩
  | object id =>
    have hd := h
    simp only [inline] at h
    split at h
    · cases h
    rename_i found hf
    split at h
    · cases h
    rename_i uri hu
    obtain ⟨stop, hs, h⟩ := Option.map_eq_some_iff.mp (Halt.unlessOverflow_eq_ok.mp
      ((compiler.inline_object index cell hf hu).symm.trans hd))
    exact .inr (.inl ⟨id, found, uri, stop, rfl, hf, hu, hs, h.symm⟩)
  | unsupported kind =>
    obtain rfl := Except.ok.inj h
    exact .inr (.inr ⟨kind, rfl, rfl⟩)

theorem paragraph_eq (compiler : Compiler arithmetic) (index : Nat) (cell : Option CellAddress)
    (paragraph : Paragraph) :
    compiler.paragraph ⟨index, cell⟩ paragraph =
      (each compiler.inline ⟨index, cell⟩ paragraph.elements).map fun inner =>
        { inner with requests :=
          inner.requests ++ compiler.styling ⟨index, inner.endIndex, cell⟩ paragraph.style } := by
  simp only [Compiler.paragraph]
  cases each compiler.inline ⟨index, cell⟩ paragraph.elements with
  | error e => rfl
  | ok inner =>
    simp only [Outcome.ok_bind, Outcome.map_ok, styling]
    split
    · rfl
    · rw [List.append_nil]
      rfl

theorem paragraph_ok {paragraph : Paragraph}
    (h : compiler.paragraph ⟨index, cell⟩ paragraph = .ok done) :
    ∃ inner, each compiler.inline ⟨index, cell⟩ paragraph.elements = .ok inner ∧
      done = { inner with requests :=
        inner.requests ++ compiler.styling ⟨index, inner.endIndex, cell⟩ paragraph.style } := by
  rw [paragraph_eq] at h
  obtain ⟨inner, hin, h⟩ := Outcome.map_eq_ok.mp h
  exact ⟨inner, hin, h.symm⟩

theorem cell_eq_compile (compiler : Compiler arithmetic) (address : CellAddress)
    (content : List Block) :
    compiler.cell address content = compiler.compile content (some address) Cursor.cellStart := by
  refine each_congr ?_ Cursor.cellStart content
  intro index block
  cases block with
  | table t => rfl
  | paragraph p => rfl
  | unsupported kind => rfl

theorem slot_ok {slot : Table.Slot Block} (h : compiler.slot ⟨index, cell⟩ slot = .ok done) :
    ∃ content inner, slot.content = some content ∧
      compiler.compile content (some ⟨index, slot.row, slot.column⟩) Cursor.cellStart = .ok inner ∧
      done = ⟨inner.requests, index, inner.stats+.oneCell⟩ := by
  simp only [Compiler.slot] at h
  split at h
  · cases h
  rename_i content hc
  obtain ⟨inner, hin, h⟩ := Outcome.bind_eq_ok.mp h
  obtain rfl := Except.ok.inj h
  rw [cell_eq_compile] at hin
  exact ⟨content, inner, hc, hin, rfl⟩

theorem table_eq (compiler : Compiler arithmetic) (index : Nat) (table : Table Block) :
    compiler.table ⟨index, none⟩ table =
      each compiler.slot ⟨index, none⟩ table.slots >>= fun cells => Halt.unlessOverflow
        ((arithmetic.add index 1).map fun stop =>
          ⟨.insertTable table.rows.toNat table.columns.toNat ⟨index, none⟩ :: cells.requests,
            stop, cells.stats+.oneTable⟩) := by
  simp only [Compiler.table, Cursor.advance, tableUnits]
  congr 1
  funext cells
  cases arithmetic.add index 1 <;> rfl

theorem table_ok {table : Table Block} (h : compiler.table ⟨index, cell⟩ table = .ok done) :
    cell = none ∧ ∃ cells stop, each compiler.slot ⟨index, none⟩ table.slots = .ok cells ∧
      arithmetic.add index 1 = some stop ∧
      done = ⟨.insertTable table.rows.toNat table.columns.toNat ⟨index, none⟩ :: cells.requests,
        stop, cells.stats+.oneTable⟩ := by
  cases cell with
  | some address => cases h
  | none =>
    rw [table_eq] at h
    obtain ⟨cells, hc, h⟩ := Outcome.bind_eq_ok.mp h
    obtain ⟨stop, hs, h⟩ := Option.map_eq_some_iff.mp (Halt.unlessOverflow_eq_ok.mp h)
    exact ⟨rfl, cells, stop, hc, hs, h.symm⟩

theorem block_ok {block : Block}
    (h : compiler.block compiler.table ⟨index, cell⟩ block = .ok done) :
    (∃ paragraph, block = .paragraph paragraph ∧
      compiler.paragraph ⟨index, cell⟩ paragraph = .ok done) ∨
    (∃ table, block = .table table ∧ cell = none ∧
      compiler.table ⟨index, none⟩ table = .ok done) ∨
    ∃ kind, block = .unsupported kind ∧ done = ⟨[], index, .oneSkippedElement⟩ := by
  cases block with
  | paragraph p => exact .inl ⟨p, rfl, h⟩
  | table t =>
    have ht : compiler.table ⟨index, cell⟩ t = .ok done := h
    obtain ⟨rfl, -⟩ := table_ok ht
    exact .inr (.inl ⟨t, rfl, rfl, ht⟩)
  | unsupported kind => exact .inr (.inr ⟨kind, rfl, (Except.ok.inj h).symm⟩)

end EditScript.Compiler
