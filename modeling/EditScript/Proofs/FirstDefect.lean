import EditScript.Proofs.Overflow
import EditScript.Proofs.Units

namespace EditScript

def Inline.defects (objects : Dict InlineObject) : Inline → List CompileError
  | .text _ | .unsupported _ => []
  | .object id => match objects.get? id with
    | none => [.missingResource id]
    | some found => if found.contentUri = none then [.missingContentUri id] else []

def Paragraph.defects (objects : Dict InlineObject) (paragraph : Paragraph) : List CompileError :=
  paragraph.elements.flatMap (Inline.defects objects)

/-- The defects of a block in a cell, where any table is one. -/
def Block.defectsInCell (objects : Dict InlineObject) (address : CellAddress) :
    Block → List CompileError
  | .paragraph p => p.defects objects
  | .table _ => [.nestedTable address]
  | .unsupported _ => []

def Table.cellDefects (objects : Dict InlineObject) (address : CellAddress) :
    Option (List Block) → List CompileError
  | none => [.missingCell address]
  | some content => content.flatMap (Block.defectsInCell objects address)

/-- The defects of a table that starts at an index of the body, over its declared cells. -/
def Table.defects (objects : Dict InlineObject) (start : Nat) (table : Table Block) :
    List CompileError :=
  (List.range table.rows.toNat).flatMap fun row =>
    (List.range table.columns.toNat).flatMap fun column =>
      cellDefects objects ⟨start, row, column⟩ (table.cell? row column)

def Block.defects (objects : Dict InlineObject) (cell : Option CellAddress) (index : Nat)
    (block : Block) : List CompileError :=
  match cell, block with
  | none, .table t => t.defects objects index
  | some address, block => block.defectsInCell objects address
  | none, .paragraph p => p.defects objects
  | none, .unsupported _ => []

/-- The defects of content from an index on, in the order of the document. -/
def Compiler.defects {arithmetic : Arithmetic} (compiler : Compiler arithmetic)
    (content : List Block) (cell : Option CellAddress) (start : Nat) : List CompileError :=
  Emitter.walk (Block.units compiler.options.lengthUnit) (Block.defects compiler.objects cell)
    start content

namespace Compiler
open Emitter

variable {arithmetic : Arithmetic}

theorem settles_inline (compiler : Compiler .naturals) (cell : Option CellAddress) (index : Nat)
    (element : Inline) :
    Settles (compiler.inline ⟨index, cell⟩ element) (element.defects compiler.objects)
      (index+element.units compiler.options.lengthUnit) := by
  cases element with
  | text run =>
    rw [inline_text]
    exact ⟨_, rfl, rfl⟩
  | unsupported kind => exact ⟨_, rfl, rfl⟩
  | object id =>
    simp only [inline, Inline.defects]
    cases compiler.objects.get? id with
    | none => rfl
    | some found =>
      cases hu : found.contentUri with
      | none => simp [Settles, hu]
      | some uri =>
        simp only [hu]
        exact ⟨_, rfl, rfl⟩

theorem settles_paragraph (compiler : Compiler .naturals) (cell : Option CellAddress) (index : Nat)
    (paragraph : Paragraph) :
    Settles (compiler.paragraph ⟨index, cell⟩ paragraph) (paragraph.defects compiler.objects)
      (index+paragraph.units compiler.options.lengthUnit) := by
  have h := settles_each (compiler.settles_inline cell) index paragraph.elements
  rw [walk_const] at h
  change Settles _ (paragraph.defects compiler.objects) _ at h
  rw [paragraph_eq]
  cases hd : paragraph.defects compiler.objects with
  | cons defect more =>
    rw [hd] at h
    have he : each compiler.inline ⟨index, cell⟩ paragraph.elements = .error (.error defect) := h
    simp [Settles, he]
  | nil =>
    rw [hd] at h
    obtain ⟨inner, he, hs⟩ := h
    rw [he]
    exact ⟨_, rfl, hs⟩

theorem settles_block (compiler : Compiler .naturals) (table : Emitter (Table Block))
    (cell : Option CellAddress)
    (h : ∀ index t, Settles (table ⟨index, cell⟩ t)
      (Block.defects compiler.objects cell index (.table t)) (index+1))
    (index : Nat) (block : Block) :
    Settles (compiler.block table ⟨index, cell⟩ block) (block.defects compiler.objects cell index)
      (index+block.units compiler.options.lengthUnit) := by
  cases block with
  | paragraph p =>
    have hp := compiler.settles_paragraph cell index p
    cases cell <;> exact hp
  | table t => exact h index t
  | unsupported kind => cases cell <;> exact ⟨_, rfl, rfl⟩

theorem settles_cell (compiler : Compiler .naturals) (address : CellAddress) (content : List Block) :
    ∃ stop, Settles (compiler.cell address content)
      (content.flatMap (Block.defectsInCell compiler.objects address)) stop := by
  have h := settles_each (compiler.settles_block (fun _ _ => .error (.error (.nestedTable address)))
    (some address) fun _ _ => rfl) Cursor.cellStart content
  rw [← walk_const (Block.units compiler.options.lengthUnit) _ Cursor.cellStart]
  exact ⟨_, h⟩

theorem settles_slot (compiler : Compiler .naturals) (index : Nat) (slot : Table.Slot Block) :
    Settles (compiler.slot ⟨index, none⟩ slot)
      (Table.cellDefects compiler.objects ⟨index, slot.row, slot.column⟩ slot.content)
      (index+0) := by
  obtain ⟨row, column, content⟩ := slot
  cases content with
  | none => rfl
  | some content =>
    obtain ⟨stop, h⟩ := compiler.settles_cell ⟨index, row, column⟩ content
    simp only [Compiler.slot, Cursor.cellAddress, Table.cellDefects]
    cases hd : content.flatMap (Block.defectsInCell compiler.objects ⟨index, row, column⟩) with
    | cons defect more =>
      rw [hd] at h
      have he : compiler.cell ⟨index, row, column⟩ content = .error (.error defect) := h
      simp [Settles, he]
    | nil =>
      rw [hd] at h
      obtain ⟨inner, he, -⟩ := h
      simp [Settles, he]

theorem settles_table (compiler : Compiler .naturals) (cell : Option CellAddress) (index : Nat)
    (table : Table Block) :
    Settles (compiler.table ⟨index, cell⟩ table)
      (Block.defects compiler.objects cell index (.table table)) (index+1) := by
  cases cell with
  | some address => rfl
  | none =>
    have h := settles_each compiler.settles_slot index table.declared
    rw [walk_still, ← compiler.each_slots] at h
    have hd : table.declared.flatMap (fun slot =>
        Table.cellDefects compiler.objects ⟨index, slot.row, slot.column⟩ slot.content) =
        table.defects compiler.objects index := by
      simp [Table.declared, Table.declaredRow, Table.defects, List.flatMap_assoc,
        List.flatMap_map]
    rw [hd] at h
    simp only [Compiler.table, Block.defects]
    cases hw : table.defects compiler.objects index with
    | cons defect more =>
      rw [hw] at h
      have he : each compiler.slot ⟨index, none⟩ table.slots = .error (.error defect) := h
      simp [Settles, he]
    | nil =>
      rw [hw] at h
      obtain ⟨cells, he, -⟩ := h
      rw [he]
      exact ⟨_, rfl, rfl⟩

theorem settles_compile (compiler : Compiler .naturals) (content : List Block)
    (cell : Option CellAddress) (start : Nat) :
    Settles (compiler.compile content cell start) (compiler.defects content cell start)
      (start+(content.map (Block.units compiler.options.lengthUnit)).sum) :=
  settles_each (compiler.settles_block _ cell (compiler.settles_table cell)) start content

theorem declared_trimmed (table : Table Block) : table.trimmed.declared = table.declared := by
  have hcell : ∀ row < table.rows.toNat, ∀ column < table.columns.toNat,
      table.trimmed.cell? row column = table.cell? row column := by
    intro row hr column hc
    simp only [Table.cell?, Table.trimmed, List.getElem?_map, List.getElem?_take, hr, if_true]
    cases table.grid[row]? with
    | none => rfl
    | some cells => simp [hc]
  simp only [Table.declared, List.flatMap_def]
  congr 1
  apply List.map_congr_left
  intro row hr
  apply List.map_congr_left
  intro column hc
  rw [hcell row (List.mem_range.mp hr) column (List.mem_range.mp hc)]

theorem table_trimmed (compiler : Compiler arithmetic) (cursor : Cursor) (table : Table Block) :
    compiler.table cursor table.trimmed = compiler.table cursor table := by
  simp only [Compiler.table, each_slots, declared_trimmed]
  rfl

theorem compile_trimmed (compiler : Compiler arithmetic) (content : List Block)
    (cell : Option CellAddress) (start : Nat) :
    compiler.compile (content.map Block.trimmed) cell start =
      compiler.compile content cell start := by
  have hb : ∀ cursor block, compiler.block compiler.table cursor (Block.trimmed block) =
      compiler.block compiler.table cursor block := by
    intro cursor block
    cases block with
    | table t => exact compiler.table_trimmed cursor t
    | paragraph p => rfl
    | unsupported kind => rfl
  unfold compile
  generalize (⟨start, cell⟩ : Cursor) = cursor
  induction content generalizing cursor with
  | nil => rfl
  | cons block content ih =>
    rw [List.map_cons, each_cons, each_cons, hb]
    cases compiler.block compiler.table cursor block with
    | error e => rfl
    | ok first => simp only [Outcome.ok_bind, ih]

/-- Where no index is too large, compilation succeeds exactly if the walk meets no defect, and
otherwise fails with the first one. What a table holds beyond its declared size is never met. -/
theorem compile_fails_with_first_defect (compiler : Compiler arithmetic) (content : List Block)
    (cell : Option CellAddress) (start : Nat)
    (hw : arithmetic = .naturals ∨ compiler.InWords content cell start) :
    ((∃ done, compiler.compile content cell start = .ok done) ↔
      compiler.defects content cell start = []) ∧
    (∀ e, compiler.compile content cell start = .error (.error e) ↔
      (compiler.defects content cell start).head? = some e) ∧
    compiler.compile (content.map Block.trimmed) cell start =
      compiler.compile content cell start := by
  have h := (compiler.counting .naturals).settles_compile content cell start
  rw [compile_naturals hw] at h
  change Settles _ (compiler.defects content cell start) _ at h
  cases hd : compiler.defects content cell start with
  | nil =>
    rw [hd] at h
    obtain ⟨done, he, -⟩ := h
    simp [he, compile_trimmed]
  | cons defect more =>
    rw [hd] at h
    have he : compiler.compile content cell start = .error (.error defect) := h
    simp [he, compile_trimmed]

/-- An object that is missing in the first cell of a table, before the cell that the table lacks. -/
theorem compile_fails_with_first_defect_object :
    let compiler : Compiler (.words .wraps) := ⟨.empty, ⟨3, .utf16, true⟩⟩
    let content := [.paragraph ⟨[.text ⟨"a😀", .empty⟩], .empty⟩,
      .table ⟨1, 2, [[[.paragraph ⟨[.object "logo"], .empty⟩]], [[]]]⟩]
    compiler.InWords content none 3 ∧
    compiler.defects content none 3 = [.missingResource "logo", .missingCell ⟨6, 0, 1⟩] ∧
    compiler.compile content none 3 = .error (.error (.missingResource "logo")) ∧
    compiler.compile (content.map Block.trimmed) none 3 = compiler.compile content none 3 := by
  intro compiler content
  have hw : compiler.InWords content none 3 := by
    change compiler.checked.compile content none 3 ≠ .error .overflow
    decide
  have hd : compiler.defects content none 3 =
      [.missingResource "logo", .missingCell ⟨6, 0, 1⟩] := by decide
  obtain ⟨-, hfirst, htrimmed⟩ :=
    compile_fails_with_first_defect compiler content none 3 (.inr hw)
  refine ⟨hw, hd, (hfirst _).mpr ?_, htrimmed⟩
  rw [hd]
  rfl

/-- Where the index wraps around before a table, the cell that this lacks is reported at the wrong
start, or there is neither success nor an error. -/
theorem compile_fails_with_first_defect_wrapped :
    let compiler (overflow : Overflow) : Compiler (.words overflow) :=
      ⟨.empty, ⟨18446744073709551615, .utf16, false⟩⟩
    let content := [.paragraph ⟨[.text ⟨"a", .empty⟩], .empty⟩, .table ⟨1, 1, [[]]⟩]
    (∀ overflow, (compiler overflow).defects content none 18446744073709551615 =
      [.missingCell ⟨18446744073709551616, 0, 0⟩]) ∧
    (compiler .wraps).compile content none 18446744073709551615 =
      .error (.error (.missingCell ⟨0, 0, 0⟩)) ∧
    (compiler .stops).compile content none 18446744073709551615 = .error .overflow := by
  refine ⟨?_, by decide, by decide⟩
  intro overflow
  cases overflow <;> decide

end Compiler
end EditScript
