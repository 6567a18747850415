import EditScript.Document.Basic
import EditScript.Options
import EditScript.Request.Basic

namespace EditScript

/-- What was compiled, and what was passed over. -/
@[ext] structure Stats where
  textRuns : Nat
  inlineImages : Nat
  tables : Nat
  cells : Nat
  skippedElements : Nat
  skippedInline : Nat
  deriving DecidableEq

namespace Stats

def zero : Stats := ⟨0, 0, 0, 0, 0, 0⟩

def add (a b : Stats) : Stats :=
  ⟨a.textRuns+b.textRuns, a.inlineImages+b.inlineImages, a.tables+b.tables, a.cells+b.cells,
    a.skippedElements+b.skippedElements, a.skippedInline+b.skippedInline⟩

instance : Zero Stats := ⟨zero⟩
instance : Add Stats := ⟨add⟩

def skipped (stats : Stats) : Nat := stats.skippedElements+stats.skippedInline

def oneTextRun : Stats := { zero with textRuns := 1 }
def oneInlineImage : Stats := { zero with inlineImages := 1 }
def oneTable : Stats := { zero with tables := 1 }
def oneCell : Stats := { zero with cells := 1 }
def oneSkippedElement : Stats := { zero with skippedElements := 1 }
def oneSkippedInline : Stats := { zero with skippedInline := 1 }

end Stats

/-- The requests for a stretch of content, and the index after it in its own space. -/
@[ext] structure Compilation where
  requests : List Request
  endIndex : Nat
  stats : Stats
  deriving DecidableEq

namespace Compilation

def nothing (index : Nat) : Compilation := ⟨[], index, 0⟩

/-- A stretch and the one that follows it. -/
def andThen (first second : Compilation) : Compilation :=
  ⟨first.requests ++ second.requests, second.endIndex, first.stats+second.stats⟩

def toBatch (compilation : Compilation) : Batch := ⟨compilation.requests⟩

end Compilation

/-- Why a document cannot be compiled. -/
inductive CompileError where
  | nestedTable (cell : CellAddress)
  | missingResource (id : String)
  | missingContentUri (id : String)
  | missingCell (cell : CellAddress)
  deriving DecidableEq

def CompileError.message : CompileError → String
  | .nestedTable cell =>
      s!"Nested tables are not supported (table inside cell {cell.row},{cell.column} " ++
        s!"of the table at {cell.tableStart})"
  | .missingResource id => s!"Inline object '{id}' not found"
  | .missingContentUri id => s!"Inline object '{id}' has no content URI"
  | .missingCell cell =>
      s!"Table at {cell.tableStart} declares cell {cell.row},{cell.column} but does not contain it"

abbrev Compiled := Except (Halt CompileError) Compilation

/-- Emits the requests for something at a cursor. -/
abbrev Emitter (α : Type) := Cursor → α → Compiled

/-- One thing after another, each from the index that the one before leaves. -/
def Emitter.each {α : Type} (emit : Emitter α) : Emitter (List α)
  | cursor, [] => .ok (.nothing cursor.index)
  | cursor, a :: as => do
      let first ← emit cursor a
      let rest ← each emit { cursor with index := first.endIndex } as
      return first.andThen rest

namespace Table

/-- A cell that a table declares, and what it holds if the table has it. -/
structure Slot (β : Type) where
  row : Nat
  column : Nat
  content : Option (List β)

variable {β : Type}

/-- The declared cells of a row, up to the first that the row lacks. -/
def rowSlots (columns row : Nat) (cells : List (List β)) : List (Slot β) :=
  (cells.take columns).mapIdx (fun column content => ⟨row, column, some content⟩) ++
    if cells.length < columns then [⟨row, cells.length, none⟩] else []

/-- The declared cells row by row, of each row up to the first that it lacks, and of the rows up to
the first that the table lacks. Their number is bounded by the cells and rows that are there. -/
def slots (table : Table β) : List (Slot β) :=
  if table.columns = 0 then []
  else ((table.grid.take table.rows.toNat).mapIdx (rowSlots table.columns.toNat)).flatten ++
    if table.grid.length < table.rows.toNat then [⟨table.grid.length, 0, none⟩] else []

end Table

/-- What compilation reads besides the content: the inline objects, and the options. It moves its
cursors in one arithmetic. -/
structure Compiler (arithmetic : Arithmetic) where
  objects : Dict InlineObject
  options : Options

namespace Compiler
variable {arithmetic : Arithmetic}

def counting (compiler : Compiler arithmetic) (other : Arithmetic) : Compiler other :=
  ⟨compiler.objects, compiler.options⟩

def objectUnits : Nat := 1

/-- The units that a table takes in the space around it, whatever its size. -/
def tableUnits : Nat := 1

/-- Text is inserted before it is styled: its span is there only then. -/
def inline (compiler : Compiler arithmetic) : Emitter Inline
  | cursor, .text run => do
      let length := compiler.options.lengthUnit.measure run.content
      let styling ← if run.style.isEmpty then pure []
        else Halt.unlessOverflow ((cursor.span arithmetic length).map fun span =>
          [.restyle span run.style])
      let next ← Halt.unlessOverflow (cursor.advance arithmetic length)
      return ⟨.insertText cursor.here run.content :: styling, next.index, .oneTextRun⟩
  | cursor, .object id => match compiler.objects.get? id with
      | none => .error (.error (.missingResource id))
      | some object => match object.contentUri with
        | none => .error (.error (.missingContentUri id))
        | some uri => do
            let next ← Halt.unlessOverflow (cursor.advance arithmetic objectUnits)
            return ⟨[.insertInlineImage cursor.here uri], next.index, .oneInlineImage⟩
  | cursor, .unsupported _ => .ok ⟨[], cursor.index, .oneSkippedInline⟩

/-- The style of a paragraph follows its elements, if it is asked for and has units to style. -/
def paragraph (compiler : Compiler arithmetic) : Emitter Paragraph := fun cursor paragraph => do
  let inner ← Emitter.each compiler.inline cursor paragraph.elements
  let next := { cursor with index := inner.endIndex }
  if compiler.options.paragraphStyles ∧ ¬paragraph.style.isEmpty ∧ cursor.index < next.index then
    let span := next.spanFrom cursor.index
    return { inner with requests := inner.requests ++ [.styleParagraph span paragraph.style] }
  else return inner

def block (compiler : Compiler arithmetic) (table : Emitter (Table Block)) : Emitter Block
  | cursor, .paragraph p => compiler.paragraph cursor p
  | cursor, .table t => table cursor t
  | cursor, .unsupported _ => .ok ⟨[], cursor.index, .oneSkippedElement⟩

/-- The content of a cell, in a space of its own and without tables. -/
def cell (compiler : Compiler arithmetic) (address : CellAddress) (content : List Block) :
    Compiled :=
  Emitter.each (compiler.block fun _ _ => .error (.error (.nestedTable address)))
    (.inCell address) content

/-- A declared cell of the table at the cursor. It takes no units there. -/
def slot (compiler : Compiler arithmetic) : Emitter (Table.Slot Block) := fun cursor slot =>
  match slot.content with
  | none => .error (.error (.missingCell (cursor.cellAddress slot.row slot.column)))
  | some content => do
      let inner ← compiler.cell (cursor.cellAddress slot.row slot.column) content
      return ⟨inner.requests, cursor.index, inner.stats+.oneCell⟩

/-- A table: it is inserted, and then its cells are filled row by row. -/
def table (compiler : Compiler arithmetic) : Emitter (Table Block) := fun cursor table =>
  match cursor.cell with
  | some address => .error (.error (.nestedTable address))
  | none => do
      let cells ← Emitter.each compiler.slot cursor table.slots
      let next ← Halt.unlessOverflow (cursor.advance arithmetic tableUnits)
      return ⟨.insertTable table.rows.toNat table.columns.toNat cursor.here :: cells.requests,
        next.index, cells.stats+.oneTable⟩

/-- Compiles content into a space, the body or a cell, from an index on. -/
def compile (compiler : Compiler arithmetic) (content : List Block) (cell : Option CellAddress)
    (start : Nat) : Compiled :=
  Emitter.each (compiler.block compiler.table) ⟨start, cell⟩ content

end Compiler

namespace Document

def compiler (document : Document) (arithmetic : Arithmetic) (options : Options) :
    Compiler arithmetic :=
  ⟨document.inlineObjects, options⟩

def compile (document : Document) (arithmetic : Arithmetic) (options : Options) : Compiled :=
  (document.compiler arithmetic options).compile document.content none options.startIndex.toNat

end Document
end EditScript
