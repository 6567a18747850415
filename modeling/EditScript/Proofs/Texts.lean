import EditScript.Proofs.Spaces
import Mathlib.Data.List.Flatten
import Mathlib.Data.List.Perm.Basic

namespace EditScript

namespace Block

mutual

/-- The elements of the paragraphs in a block, at any depth, in the order of the document. -/
def inlines : Block → List Inline
  | .paragraph p => p.elements
  | .table ⟨_, _, grid⟩ => gridInlines grid
  | .unsupported _ => []

def gridInlines : List (List (List Block)) → List Inline
  | [] => []
  | row :: rows => rowInlines row ++ gridInlines rows

def rowInlines : List (List Block) → List Inline
  | [] => []
  | cell :: cells => listInlines cell ++ rowInlines cells

def listInlines : List Block → List Inline
  | [] => []
  | block :: blocks => inlines block ++ listInlines blocks

end

theorem listInlines_eq (blocks : List Block) : listInlines blocks = blocks.flatMap inlines := by
  induction blocks with
  | nil => rfl
  | cons block blocks ih => rw [listInlines, ih, List.flatMap_cons]

theorem rowInlines_eq (cells : List (List Block)) :
    rowInlines cells = cells.flatMap (List.flatMap inlines) := by
  induction cells with
  | nil => rfl
  | cons cell cells ih => rw [rowInlines, ih, listInlines_eq, List.flatMap_cons]

theorem gridInlines_eq (grid : List (List (List Block))) :
    gridInlines grid = grid.flatten.flatMap (List.flatMap inlines) := by
  induction grid with
  | nil => rfl
  | cons row rows ih =>
    rw [gridInlines, ih, rowInlines_eq, List.flatten_cons, List.flatMap_append]

theorem inlines_table (table : Table Block) :
    (Block.table table).inlines = table.grid.flatten.flatMap (List.flatMap inlines) :=
  gridInlines_eq table.grid

end Block

def Inline.text? : Inline → Option String
  | .text run => some run.content
  | .object _ | .unsupported _ => none

def Block.texts (block : Block) : List String := block.inlines.filterMap Inline.text?

theorem Block.texts_table (table : Table Block) :
    (Block.table table).texts = table.grid.flatten.flatMap (List.flatMap texts) := by
  rw [texts, inlines_table]
  simp only [List.filterMap_flatMap]
  rfl

namespace Document

def texts (document : Document) : List String := document.content.flatMap Block.texts

def tables (document : Document) : List (Table Block) :=
  document.content.filterMap fun
    | .table t => some t
    | .paragraph _ | .unsupported _ => none

theorem mem_tables {document : Document} {t : Table Block} :
    t ∈ document.tables ↔ .table t ∈ document.content := by
  rw [tables, List.mem_filterMap]
  constructor
  · rintro ⟨block, hb, hs⟩
    split at hs
    · obtain rfl := Option.some.inj hs
      exact hb
    · cases hs
    · cases hs
  · exact fun hm => ⟨_, hm, rfl⟩

end Document

def Request.text? : Request → Option String
  | .insertText _ text => some text
  | .insertInlineImage _ _ | .insertTable _ _ _ | .updateTextStyle _ _ _
  | .updateParagraphStyle _ _ _ => none

def Compilation.texts (done : Compilation) : List String := done.requests.filterMap Request.text?

theorem Compilation.texts_andThen (first rest : Compilation) :
    (first.andThen rest).texts = first.texts ++ rest.texts := List.filterMap_append

namespace Table
variable {β : Type}

/-- The table has the cells that it declares and no others. -/
def Exact (table : Table β) : Prop :=
  table.grid.length = table.rows.toNat ∧ ∀ row ∈ table.grid, row.length = table.columns.toNat

instance (table : Table β) : Decidable table.Exact := inferInstanceAs (Decidable (_ ∧ _))

/-- The cells that the table has beyond its declared size. -/
def surplus (table : Table β) : List (List β) :=
  (table.grid.take table.rows.toNat).flatMap (List.drop table.columns.toNat) ++
    (table.grid.drop table.rows.toNat).flatten

theorem surplus_of_exact {table : Table β} (h : table.Exact) : table.surplus = [] := by
  obtain ⟨hrows, hcolumns⟩ := h
  rw [surplus, List.drop_of_length_le (Nat.le_of_eq hrows), List.flatten_nil, List.append_nil,
    List.flatMap_eq_nil_iff]
  intro row hr
  exact List.drop_of_length_le (Nat.le_of_eq (hcolumns row (List.mem_of_mem_take hr)))

theorem trimmed_sublist (table : Table Block) :
    table.trimmed.grid.flatten.Sublist table.grid.flatten := by
  rw [trimmed, ← List.flatMap_def]
  refine ((List.take_sublist _ _).flatMap _).trans ?_
  rw [← List.flatMap_id]
  exact List.Sublist.flatMap_right _ fun row _ => List.take_sublist _ _

/-- Every cell of the table is either declared or surplus. -/
theorem trimmed_perm (table : Table Block) :
    (table.trimmed.grid.flatten ++ table.surplus).Perm table.grid.flatten := by
  have hrows := List.flatMap_append_perm (table.grid.take table.rows.toNat)
    (List.take table.columns.toNat) (List.drop table.columns.toNat)
  -- The rows within the declared size fall into two parts each, the other rows are surplus.
  simp only [List.take_append_drop, List.flatMap_id'] at hrows
  have hall := hrows.append_right (table.grid.drop table.rows.toNat).flatten
  rw [← List.flatten_append, List.take_append_drop] at hall
  rw [trimmed, surplus, ← List.flatMap_def, ← List.append_assoc]
  exact hall

end Table

namespace Block

/-- The texts in the cells that a table has beyond its declared size. -/
def surplusTexts : Block → List String
  | .table t => t.surplus.flatMap (List.flatMap texts)
  | .paragraph _ | .unsupported _ => []

theorem trimmed_texts_sublist (block : Block) : block.trimmed.texts.Sublist block.texts := by
  cases block with
  | table t =>
    rw [trimmed, texts_table, texts_table]
    exact t.trimmed_sublist.flatMap _
  | paragraph p => exact List.Sublist.refl _
  | unsupported kind => exact List.Sublist.refl _

theorem trimmed_texts_perm (block : Block) :
    (block.trimmed.texts ++ block.surplusTexts).Perm block.texts := by
  cases block with
  | table t =>
    rw [trimmed, texts_table, texts_table, surplusTexts, ← List.flatMap_append]
    exact t.trimmed_perm.flatMap fun _ _ => .refl _
  | paragraph p => simp [trimmed, surplusTexts]
  | unsupported kind => simp [trimmed, surplusTexts]

end Block

namespace Compiler
open Emitter

variable {arithmetic : Arithmetic} {compiler : Compiler arithmetic} {index : Nat}
  {cell : Option CellAddress} {done : Compilation}

theorem texts_each {α : Type} {emit : Emitter α} {texts : α → List String}
    (h : ∀ index a done, emit ⟨index, cell⟩ a = .ok done → done.texts = texts a) {as : List α}
    (hd : each emit ⟨index, cell⟩ as = .ok done) : done.texts = as.flatMap texts := by
  refine each_induct (motive := fun _ as done => done.texts = as.flatMap texts) ?_ ?_ hd
  · exact fun _ => rfl
  · intro index a as first rest hf _ ih
    rw [Compilation.texts_andThen, h index a first hf, ih, List.flatMap_cons]

theorem texts_inline {element : Inline} (h : compiler.inline ⟨index, cell⟩ element = .ok done) :
    done.texts = element.text?.toList := by
  obtain ⟨run, stop, rfl, -, rfl⟩ | ⟨id, found, uri, stop, rfl, -, -, -, rfl⟩ |
    ⟨kind, rfl, rfl⟩ := inline_ok h
  · rw [Compilation.texts]
    split <;> rfl
  · rfl
  · rfl

theorem texts_paragraph {paragraph : Paragraph}
    (h : compiler.paragraph ⟨index, cell⟩ paragraph = .ok done) :
    done.texts = paragraph.elements.filterMap Inline.text? := by
  obtain ⟨inner, hin, rfl⟩ := paragraph_ok h
  have hstyling : (compiler.styling ⟨index, inner.endIndex, cell⟩ paragraph.style).filterMap
      Request.text? = [] := by
    rw [styling]
    split <;> rfl
  rw [Compilation.texts, List.filterMap_append, hstyling, List.append_nil]
  exact (texts_each (fun _ _ _ hd => texts_inline hd) hin).trans
    (List.filterMap_eq_flatMap_toList _ _).symm

theorem texts_cell {content : List Block} {address : CellAddress} {start : Nat}
    (h : compiler.compile content (some address) start = .ok done) :
    done.texts = content.flatMap Block.texts := by
  refine texts_each ?_ h
  intro index block done hd
  obtain ⟨p, rfl, hp⟩ | ⟨t, -, hcell, -⟩ | ⟨kind, rfl, rfl⟩ := block_ok hd
  · exact texts_paragraph hp
  · cases hcell
  · rfl

/-- A table inserts the texts in its declared cells. -/
theorem texts_table {table : Table Block} (h : compiler.table ⟨index, none⟩ table = .ok done) :
    done.texts = (Block.table table).trimmed.texts := by
  obtain ⟨-, cells, stop, hcells, -, rfl⟩ := table_ok h
  have hslots : cells.texts = table.slots.flatMap fun slot =>
      slot.content.toList.flatMap (List.flatMap Block.texts) := by
    refine texts_each ?_ hcells
    intro index slot done hd
    obtain ⟨content, inner, hc, hin, rfl⟩ := slot_ok hd
    rw [hc, Option.toList_some, List.flatMap_singleton, ← texts_cell hin]
    rfl
  rw [Block.trimmed, Block.texts_table, Table.trimmed, ← List.flatMap_def, ← Table.found_slots,
    Table.found, List.flatMap_assoc, ← hslots]
  rfl

theorem texts_compile {content : List Block} {start : Nat}
    (h : compiler.compile content none start = .ok done) :
    done.texts = content.flatMap fun block => block.trimmed.texts := by
  refine texts_each ?_ h
  intro index block done hd
  obtain ⟨p, rfl, hp⟩ | ⟨t, rfl, -, ht⟩ | ⟨kind, rfl, rfl⟩ := block_ok hd
  · exact texts_paragraph hp
  · exact texts_table ht
  · rfl

end Compiler

namespace Document
variable {arithmetic : Arithmetic} {document : Document} {options : Options} {done : Compilation}

/-- The texts in the cells that the tables of the body have beyond their declared sizes. -/
def surplusTexts (document : Document) : List String :=
  document.content.flatMap Block.surplusTexts

theorem surplusTexts_of_exact (h : ∀ t ∈ document.tables, t.Exact) :
    document.surplusTexts = [] := by
  refine List.flatMap_eq_nil_iff.mpr ?_
  intro block hb
  cases block with
  | table t => rw [Block.surplusTexts, Table.surplus_of_exact (h t (mem_tables.mpr hb))]; rfl
  | paragraph p => rfl
  | unsupported kind => rfl

/-- What is compiled inserts the texts in the declared cells of its tables, none of which is
missing, and those outside of tables, in order. The other texts of the document are those in surplus
cells, so all texts are inserted exactly if there are no such texts. In particular, they are if
every table has just the cells that it declares. -/
theorem inserts_declared_texts (h : document.compile arithmetic options = .ok done) :
    (∀ t ∈ document.tables, ∀ row < t.rows.toNat, ∀ column < t.columns.toNat,
      (t.cell? row column).isSome) ∧
    done.texts = (document.content.map Block.trimmed).flatMap Block.texts ∧
    done.texts.Sublist document.texts ∧
    (done.texts ++ document.surplusTexts).Perm document.texts ∧
    (done.texts = document.texts ↔ document.surplusTexts = []) ∧
    ((∀ t ∈ document.tables, t.Exact) → done.texts = document.texts) := by
  have ht := Compiler.texts_compile h
  have hsublist : done.texts.Sublist document.texts := by
    rw [ht]
    exact List.Sublist.flatMap_right _ fun block _ => block.trimmed_texts_sublist
  have hperm : (done.texts ++ document.surplusTexts).Perm document.texts := by
    rw [ht]
    exact (List.flatMap_append_perm _ _ _).trans
      (.flatMap_left _ fun block _ => block.trimmed_texts_perm)
  have hall : done.texts = document.texts ↔ document.surplusTexts = [] := by
    have hlength := hperm.length_eq
    rw [List.length_append] at hlength
    constructor
    · intro he
      rw [he] at hlength
      exact List.eq_nil_of_length_eq_zero (by omega)
    · intro hn
      rw [hn, List.length_nil, Nat.add_zero] at hlength
      exact hsublist.eq_of_length hlength
  refine ⟨?_, by rw [ht, List.flatMap_map], hsublist, hperm, hall, ?_⟩
  · intro t hm row hr column hc
    obtain ⟨before, after, he⟩ := List.append_of_mem (mem_tables.mp hm)
    have hcompile : (document.compiler arithmetic options).compile document.content none
        options.startIndex.toNat = .ok done := h
    rw [he] at hcompile
    obtain ⟨first, middle, last, -, htable, -⟩ := Emitter.each_split hcompile
    obtain ⟨content, inner, hcell, -⟩ := Compiler.gathered_table htable hr hc
    rw [hcell]
    rfl
  · exact fun hexact => hall.mpr (surplusTexts_of_exact hexact)

theorem inserts_declared_texts_sideBySide :
    sideBySide.compile (.words .wraps) ⟨3, .utf16, true⟩ = .ok .sideBySide ∧
    (Compilation.sideBySide.texts ++ sideBySide.surplusTexts).Perm sideBySide.texts ∧
    (∀ t ∈ sideBySide.tables, t.Exact) ∧
    Compilation.sideBySide.texts = sideBySide.texts := by
  obtain ⟨-, -, -, hperm, -, hexact⟩ := inserts_declared_texts (compile_sideBySide (.words .wraps))
  have he : ∀ t ∈ sideBySide.tables, t.Exact := by decide
  exact ⟨compile_sideBySide _, hperm, he, hexact he⟩

/-- A table made from rows of which the second is the longer one. -/
def ragged : Document := .ofContent [.table (.ofGrid [
  [[.paragraph (.plain "a")]],
  [[.paragraph (.plain "b")], [.paragraph (.plain "c")]]])]

/-- The table is as wide as its first row, and the last text is passed over. -/
theorem ragged_drops_text : ∃ done, ragged.compile (.words .wraps) .defaults = .ok done ∧
    done.texts = ["a", "b"] ∧ ragged.texts = ["a", "b", "c"] ∧
    ¬∀ t ∈ ragged.tables, t.Exact :=
  ⟨⟨[.insertTable 2 1 ⟨1, none⟩, .insertText ⟨1, some ⟨1, 0, 0⟩⟩ "a",
      .insertText ⟨1, some ⟨1, 1, 0⟩⟩ "b"], 2, ⟨2, 0, 1, 2, 0, 0⟩⟩,
    by decide, by decide, by decide, by decide⟩

end Document
end EditScript
