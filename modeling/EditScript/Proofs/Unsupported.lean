import EditScript.Proofs.Changes
import EditScript.Proofs.Walk

namespace EditScript

def Inline.isUnsupported : Inline → Bool
  | .unsupported _ => true
  | .text _ | .object _ => false

def Inline.supported : Inline → List Inline
  | .text run => [.text run]
  | .object id => [.object id]
  | .unsupported _ => []

def Paragraph.supported (paragraph : Paragraph) : Paragraph :=
  { paragraph with elements := paragraph.elements.flatMap Inline.supported }

namespace Block

def isUnsupported : Block → Bool
  | .unsupported _ => true
  | .paragraph _ | .table _ => false

def elements : Block → List Inline
  | .paragraph p => p.elements
  | .table _ | .unsupported _ => []

mutual

/-- The block without unsupported elements at any depth, if it is none of them itself. -/
def supported : Block → List Block
  | .paragraph p => [.paragraph p.supported]
  | .table ⟨rows, columns, grid⟩ => [.table ⟨rows, columns, supportedGrid grid⟩]
  | .unsupported _ => []

def supportedGrid : List (List (List Block)) → List (List (List Block))
  | [] => []
  | row :: rows => supportedRow row :: supportedGrid rows

def supportedRow : List (List Block) → List (List Block)
  | [] => []
  | cell :: cells => supportedList cell :: supportedRow cells

def supportedList : List Block → List Block
  | [] => []
  | block :: blocks => supported block ++ supportedList blocks

end

theorem supportedList_eq (blocks : List Block) : supportedList blocks = blocks.flatMap supported := by
  induction blocks with
  | nil => rfl
  | cons block blocks ih => rw [supportedList, ih, List.flatMap_cons]

theorem supportedRow_eq (cells : List (List Block)) :
    supportedRow cells = cells.map (List.flatMap supported) := by
  induction cells with
  | nil => rfl
  | cons cell cells ih => rw [supportedRow, ih, supportedList_eq, List.map_cons]

theorem supportedGrid_eq (grid : List (List (List Block))) :
    supportedGrid grid = grid.map (List.map (List.flatMap supported)) := by
  induction grid with
  | nil => rfl
  | cons row rows ih => rw [supportedGrid, ih, supportedRow_eq, List.map_cons]

/-- A table keeps its size and its cells, but not all that they hold. -/
theorem supported_table (table : Table Block) :
    supported (.table table) = [.table (table.mapCells (List.flatMap supported))] := by
  rw [supported, supportedGrid_eq]
  rfl

end Block

/-- The document without unsupported elements, at any depth. -/
def Document.supported (document : Document) : Document :=
  { document with content := document.content.flatMap Block.supported }

namespace Stats

/-- Nothing was passed over. -/
def withoutSkipped (stats : Stats) : Stats := { stats with skippedElements := 0, skippedInline := 0 }

end Stats

def Compilation.withoutSkipped (done : Compilation) : Compilation :=
  { done with stats := done.stats.withoutSkipped }

def Change.unskipped : Change where
  request := some
  index := id
  stats := Stats.withoutSkipped
  error := id
  stats_zero := rfl
  stats_add := fun _ _ => rfl

namespace Change

theorem unskipped_compilation : unskipped.compilation = Compilation.withoutSkipped := by
  funext done
  simp [compilation, Compilation.withoutSkipped, unskipped]

theorem inPlace_unskipped : unskipped.InPlace where
  request := fun _ _ _ => rfl
  index := fun _ => rfl
  oneTable := rfl
  oneCell := rfl
  error := fun _ => rfl

end Change

namespace Compiler
open Emitter

variable {arithmetic : Arithmetic} {compiler : Compiler arithmetic} {index : Nat}
  {cell : Option CellAddress} {done : Compilation}

theorem inline_supported (element : Inline) :
    each compiler.inline ⟨index, cell⟩ element.supported =
      Change.unskipped.outcome (compiler.inline ⟨index, cell⟩ element) := by
  rw [Change.inPlace_unskipped.outcome_eq, Change.unskipped_compilation]
  cases element with
  | text run =>
    rw [Inline.supported, each_singleton, inline_text]
    cases arithmetic.add index (compiler.options.lengthUnit.measure run.content) <;> rfl
  | object id =>
    rw [Inline.supported, each_singleton]
    cases hf : compiler.objects.get? id with
    | none =>
      simp only [inline, hf]
      rfl
    | some found =>
      cases hu : found.contentUri with
      | none =>
        simp only [inline, hf, hu]
        rfl
      | some uri =>
        rw [compiler.inline_object index cell hf hu]
        cases arithmetic.add index 1 <;> rfl
  | unsupported kind => rfl

theorem paragraph_supported (paragraph : Paragraph) :
    compiler.paragraph ⟨index, cell⟩ paragraph.supported =
      Change.unskipped.outcome (compiler.paragraph ⟨index, cell⟩ paragraph) := by
  refine paragraph_change Change.unskipped ?_ ?_
  · refine each_change Change.unskipped ?_
    intro _ element _ first _ _
    exact inline_supported element
  · intro inner _
    exact List.filterMap_some.symm

theorem compile_supported (content : List Block) (cell : Option CellAddress) (start : Nat) :
    compiler.compile (content.flatMap Block.supported) cell start =
      (compiler.compile content cell start).map Compilation.withoutSkipped := by
  rw [← Change.unskipped_compilation, ← Change.inPlace_unskipped.outcome_eq]
  refine compile_inPlace Change.inPlace_unskipped ?_ ?_ Block.supported_table content cell start
  · intro p index cell
    rw [Block.supported, each_singleton]
    exact paragraph_supported p
  · intro kind index cell
    rfl

theorem skipped_inline {element : Inline}
    (h : compiler.inline ⟨index, cell⟩ element = .ok done) :
    done.stats.skippedElements = 0 ∧
      done.stats.skippedInline = if element.isUnsupported then 1 else 0 := by
  obtain ⟨run, stop, rfl, -, rfl⟩ | ⟨id, found, uri, stop, rfl, -, -, -, rfl⟩ |
    ⟨kind, rfl, rfl⟩ := inline_ok h
  · exact ⟨rfl, rfl⟩
  · exact ⟨rfl, rfl⟩
  · exact ⟨rfl, rfl⟩

theorem skipped_elements {elements : List Inline}
    (h : each compiler.inline ⟨index, cell⟩ elements = .ok done) :
    done.stats.skippedElements = 0 ∧
      done.stats.skippedInline = elements.countP Inline.isUnsupported := by
  refine each_induct (motive := fun _ elements done => done.stats.skippedElements = 0 ∧
    done.stats.skippedInline = elements.countP Inline.isUnsupported) ?_ ?_ h
  · exact fun _ => ⟨rfl, rfl⟩
  · intro index element elements first rest hf _ ih
    have hfirst := skipped_inline hf
    simp only [Compilation.andThen, Stats.add_eq, List.countP_cons]
    omega

theorem account_skipped (compiler : Compiler arithmetic) : compiler.Account fun blocks _ stats =>
    stats.skippedElements = blocks.countP Block.isUnsupported ∧
      stats.skippedInline = (blocks.flatMap Block.elements).countP Inline.isUnsupported where
  nil := ⟨rfl, rfl⟩
  append := by
    intro as bs _ _ a b ha hb
    simp only [Stats.add_eq, List.countP_append, List.flatMap_append, ha, hb, and_self]
  paragraph := by
    intro p index cell done h
    obtain ⟨inner, hin, rfl⟩ := paragraph_ok h
    have hskipped := skipped_elements hin
    rw [List.flatMap_singleton]
    exact hskipped
  table := fun _ _ => ⟨rfl, rfl⟩
  unsupported := fun _ => ⟨rfl, rfl⟩

end Compiler

namespace Document

/-- Unsupported elements, wherever they stand in a document, have no part in its requests, its end,
its other counts or its error. Those that the walk meets are counted. -/
theorem compile_without_unsupported (document : Document) (arithmetic : Arithmetic)
    (options : Options) :
    document.supported.compile arithmetic options =
      (document.compile arithmetic options).map Compilation.withoutSkipped ∧
    ∀ done, document.compile arithmetic options = .ok done →
      done.stats.skippedElements =
        (document.content.flatMap Block.walked).countP Block.isUnsupported ∧
      done.stats.skippedInline =
        ((document.content.flatMap Block.walked).flatMap Block.elements).countP
          Inline.isUnsupported :=
  ⟨Compiler.compile_supported document.content none options.startIndex.toNat,
    fun _ h => (document.compiler arithmetic options).account_skipped.compile h⟩

/-- Unsupported elements before, in and beside paragraphs, and in a cell; the one in a cell beyond the
declared size is not met. -/
def scattered : Document := .ofContent [
  .unsupported "sectionBreak",
  .paragraph ⟨[.unsupported "pageBreak", .plain "a"], .empty⟩,
  .table ⟨1, 1, [[[.unsupported "sectionBreak", .paragraph ⟨[.unsupported "autoText"], .empty⟩],
    [.unsupported "sectionBreak"]]]⟩]

theorem compile_without_unsupported_scattered : ∃ done,
    scattered.compile (.words .wraps) .defaults = .ok done ∧
    scattered.supported.compile (.words .wraps) .defaults = .ok done.withoutSkipped ∧
    done.stats.skippedElements = 2 ∧ done.stats.skippedInline = 2 := by
  obtain ⟨hsupported, hcounts⟩ := compile_without_unsupported scattered (.words .wraps) .defaults
  have hd : scattered.compile (.words .wraps) .defaults =
      .ok ⟨[.insertText ⟨1, none⟩ "a", .insertTable 1 1 ⟨2, none⟩], 3, ⟨1, 0, 1, 1, 2, 2⟩⟩ := by
    decide
  obtain ⟨helements, hinline⟩ := hcounts _ hd
  rw [hd] at hsupported
  exact ⟨_, hd, hsupported, helements.trans (by decide), hinline.trans (by decide)⟩

end Document
end EditScript
