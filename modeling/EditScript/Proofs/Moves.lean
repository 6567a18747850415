import EditScript.Proofs.Changes

namespace EditScript

/-- Where positions go: the indices in each space, and the spaces. -/
structure Move where
  index : Option CellAddress → Nat → Nat
  cell : Option CellAddress → Option CellAddress

namespace Move

def location (move : Move) (location : Location) : Location :=
  ⟨move.index location.cell location.index, move.cell location.cell⟩

def span (move : Move) (span : Span) : Span :=
  ⟨move.index span.cell span.start, move.index span.cell span.stop, move.cell span.cell⟩

def request (move : Move) : Request → Request
  | .insertText location text => .insertText (move.location location) text
  | .updateTextStyle span style fields => .updateTextStyle (move.span span) style fields
  | .insertInlineImage location uri => .insertInlineImage (move.location location) uri
  | .insertTable rows columns location => .insertTable rows columns (move.location location)
  | .updateParagraphStyle span style fields => .updateParagraphStyle (move.span span) style fields

/-- What is compiled in a space, with all its positions moved. -/
def compilation (move : Move) (cell : Option CellAddress) (done : Compilation) : Compilation :=
  ⟨done.requests.map move.request, move.index cell done.endIndex, done.stats⟩

def change (move : Move) (cell : Option CellAddress) (error : CompileError → CompileError) :
    Change := .keepStats (fun request => some (move.request request)) (move.index cell) error

@[simp] theorem change_index (move : Move) (cell : Option CellAddress)
    (error : CompileError → CompileError) :
    (move.change cell error).index = move.index cell := rfl

@[simp] theorem change_error (move : Move) (cell : Option CellAddress)
    (error : CompileError → CompileError) : (move.change cell error).error = error := rfl

theorem change_compilation (move : Move) (cell : Option CellAddress)
    (error : CompileError → CompileError) :
    (move.change cell error).compilation = move.compilation cell := by
  funext done
  simp [Change.compilation, compilation, change, Change.keepStats, List.filterMap_eq_map']

/-- The move goes with taking units, and keeps the order of the indices of a space. -/
structure Rigid (arithmetic : Arithmetic) (move : Move) (cell : Option CellAddress) : Prop where
  add : ∀ index units, arithmetic.add (move.index cell index) units =
    (arithmetic.add index units).map (move.index cell)
  lt_iff : ∀ a b, move.index cell a < move.index cell b ↔ a < b

end Move

/-- The error is none that speaks of a cell, or the change leaves it as it is. -/
def CompileError.KeptBy (error : CompileError → CompileError) : Prop :=
  ∀ id, error (.missingResource id) = .missingResource id ∧
    error (.missingContentUri id) = .missingContentUri id

namespace Compiler
open Emitter

variable {arithmetic : Arithmetic}

/-- The other compiler differs at most in its unit of length. -/
structure Alike (compiler other : Compiler arithmetic) : Prop where
  objects : other.objects = compiler.objects
  paragraphStyles : other.options.paragraphStyles = compiler.options.paragraphStyles

theorem alike_self (compiler : Compiler arithmetic) : compiler.Alike compiler := ⟨rfl, rfl⟩

variable {compiler other : Compiler arithmetic} (move : Move)
  (error : CompileError → CompileError) {cell : Option CellAddress}

theorem inline_move (ha : compiler.Alike other) (he : CompileError.KeptBy error) {index : Nat}
    {element : Inline}
    (hm : arithmetic.add (move.index cell index) (element.units other.options.lengthUnit) =
      (arithmetic.add index (element.units compiler.options.lengthUnit)).map (move.index cell)) :
    other.inline ⟨move.index cell index, move.cell cell⟩ element =
      (move.change cell error).outcome (compiler.inline ⟨index, cell⟩ element) := by
  cases element with
  | text run =>
    rw [Inline.units, Inline.units] at hm
    rw [inline_text, inline_text, Change.outcome_unlessOverflow, hm, Option.map_map, Option.map_map,
      move.change_compilation]
    congr 2
    funext stop
    simp only [Function.comp_apply, Move.compilation]
    split <;> rfl
  | object id =>
    rw [Inline.units, Inline.units] at hm
    cases hf : compiler.objects.get? id with
    | none =>
      simp only [inline, ha.objects, hf, Change.outcome_error, Halt.map_error, Move.change_error,
        (he id).1]
    | some found =>
      have hf' : other.objects.get? id = some found := by rw [ha.objects, hf]
      cases hu : found.contentUri with
      | none =>
        simp only [inline, hf', hf, hu, Change.outcome_error, Halt.map_error, Move.change_error,
          (he id).2]
      | some uri =>
        rw [other.inline_object _ _ hf' hu, compiler.inline_object _ _ hf hu,
          Change.outcome_unlessOverflow, hm, Option.map_map, Option.map_map,
          move.change_compilation]
        rfl
  | unsupported kind => simp [inline, move.change_compilation, Move.compilation]

/-- A paragraph, if the units of each of its elements stay together, and none are lost as a whole. -/
theorem paragraph_move (ha : compiler.Alike other) (he : CompileError.KeptBy error) {index : Nat}
    {paragraph : Paragraph}
    (hm : ∀ before element after first, paragraph.elements = before ++ element :: after →
      each compiler.inline ⟨index, cell⟩ before = .ok first →
      arithmetic.add (move.index cell first.endIndex) (element.units other.options.lengthUnit) =
        (arithmetic.add first.endIndex (element.units compiler.options.lengthUnit)).map
          (move.index cell))
    (hlt : ∀ inner, each compiler.inline ⟨index, cell⟩ paragraph.elements = .ok inner →
      (move.index cell index < move.index cell inner.endIndex ↔ index < inner.endIndex)) :
    other.paragraph ⟨move.index cell index, move.cell cell⟩ paragraph =
      (move.change cell error).outcome (compiler.paragraph ⟨index, cell⟩ paragraph) := by
  refine paragraph_change (move.change cell error) ?_ ?_
  · refine each_change_self (move.change cell error) ?_
    intro before element after first hp hf
    exact inline_move move error ha he (hm before element after first hp hf)
  · intro inner hin
    simp only [styling, Move.change_index, ha.paragraphStyles, hlt inner hin]
    split <;> rfl

/-- A block, if paragraphs and tables do the same where they stand. -/
theorem block_move (cell : Option CellAddress) (index : Nat) (block : Block)
    (hp : ∀ p, block = .paragraph p →
      other.paragraph ⟨move.index cell index, move.cell cell⟩ p =
        (move.change cell error).outcome (compiler.paragraph ⟨index, cell⟩ p))
    (ht : ∀ t, block = .table t →
      other.table ⟨move.index cell index, move.cell cell⟩ t =
        (move.change cell error).outcome (compiler.table ⟨index, cell⟩ t)) :
    other.block other.table ⟨move.index cell index, move.cell cell⟩ block =
      (move.change cell error).outcome (compiler.block compiler.table ⟨index, cell⟩ block) := by
  cases block with
  | paragraph p => exact hp p rfl
  | table t => exact ht t rfl
  | unsupported kind => simp [Compiler.block, move.change_compilation, Move.compilation]

theorem paragraph_rigid (he : CompileError.KeptBy error) (hm : move.Rigid arithmetic cell) (index : Nat)
    (paragraph : Paragraph) :
    compiler.paragraph ⟨move.index cell index, move.cell cell⟩ paragraph =
      (move.change cell error).outcome (compiler.paragraph ⟨index, cell⟩ paragraph) :=
  paragraph_move move error compiler.alike_self he (fun _ _ _ _ _ _ => hm.add _ _)
    fun inner _ => hm.lt_iff index inner.endIndex

theorem compile_rigid_cell (he : CompileError.KeptBy error) {old new : CellAddress}
    (hm : move.Rigid arithmetic (some old)) (hcell : move.cell (some old) = some new)
    (hn : error (.nestedTable old) = .nestedTable new) (content : List Block) (start : Nat) :
    compiler.compile content (some new) (move.index (some old) start) =
      (move.change (some old) error).outcome
        (compiler.compile content (some old) start) := by
  rw [← hcell]
  refine each_change_self (move.change (some old) error) ?_
  intro _ block _ first _ _
  refine block_move move error (some old) first.endIndex block ?_ ?_
  · exact fun p _ => paragraph_rigid move error he hm first.endIndex p
  · intro t _
    rw [hcell]
    exact congrArg (Except.error ∘ Halt.error) hn.symm

end Compiler

def CellAddress.later (shift : Nat) (address : CellAddress) : CellAddress :=
  { address with tableStart := address.tableStart+shift }

/-- Content in a space starts later: indices of that space grow, those of other spaces stay. If the
space is the body, the tables in it start later. -/
def Move.later (space : Option CellAddress) (shift : Nat) : Move where
  index := fun cell index => if cell = space then index+shift else index
  cell := fun cell => if space = none then cell.map (CellAddress.later shift) else cell

/-- The error of content in a space that starts later. A cell that lacks its content belongs to a
table in the body, one that holds a table may be the space itself. -/
def CompileError.later (space : Option CellAddress) (shift : Nat) : CompileError → CompileError
  | .missingCell address => .missingCell (address.later shift)
  | .nestedTable address =>
      .nestedTable (if space = none then address.later shift else address)
  | .missingResource id => .missingResource id
  | .missingContentUri id => .missingContentUri id

namespace Move
variable {space : Option CellAddress} {shift : Nat}

theorem rigid_later (cell : Option CellAddress) :
    (Move.later space shift).Rigid .naturals cell where
  add := by
    intro index units
    simp only [later, Arithmetic.add_naturals, Option.map_some, Option.some.injEq]
    split <;> omega
  lt_iff := by
    intro a b
    simp only [later]
    split <;> omega

theorem later_index_self (index : Nat) : (Move.later space shift).index space index = index+shift :=
  if_pos rfl

theorem later_cell_self : (Move.later space shift).cell space = space := by
  cases space <;> rfl

theorem keepsTable_later (index : Nat) :
    ((Move.later none shift).change none (.later none shift)).KeepsTable .naturals index where
  request := fun _ _ => rfl
  step := (rigid_later none : (Move.later none shift).Rigid .naturals none).add index 1
  oneTable := rfl
  oneCell := rfl
  missingCell := fun _ _ => rfl

end Move

namespace Compiler
open Emitter

variable {compiler : Compiler .naturals} {space : Option CellAddress} {shift : Nat}

theorem keptBy_later : CompileError.KeptBy (.later space shift) := fun _ => ⟨rfl, rfl⟩

theorem table_later (index : Nat) (table : Table Block) :
    compiler.table ⟨index+shift, none⟩ table =
      ((Move.later none shift).change none (.later none shift)).outcome
        (compiler.table ⟨index, none⟩ table) := by
  refine table_change_self _ (Move.keepsTable_later index) ?_
  intro row _ column _ content _
  refine ⟨(Move.later none shift).index (some ⟨index, row, column⟩), ?_⟩
  exact compile_rigid_cell (.later none shift) (.later none shift) keptBy_later
    (Move.rigid_later (some ⟨index, row, column⟩)) rfl rfl content Cursor.cellStart

/-- Content that starts later in its space compiles to the same, moved: the indices of that space
and the end grow by the shift, those in the cells of tables stay, and the tables start later. So do
the tables that errors speak of, unless it is the cell that the content itself stands in. -/
theorem compile_later (compiler : Compiler .naturals) (content : List Block)
    (space : Option CellAddress) (start shift : Nat) :
    compiler.compile content space (start+shift) =
      ((compiler.compile content space start).mapError (.map (.later space shift))).map
        ((Move.later space shift).compilation space) := by
  have hmove : compiler.compile content space ((Move.later space shift).index space start) =
      ((Move.later space shift).change space (.later space shift)).outcome
        (compiler.compile content space start) := by
    cases space with
    | some address =>
      exact compile_rigid_cell (.later (some address) shift) (.later (some address) shift)
        keptBy_later (Move.rigid_later _) Move.later_cell_self rfl content start
    | none =>
      refine each_change_self ((Move.later none shift).change none (.later none shift)) ?_
      intro _ block _ first _ _
      refine block_move (.later none shift) (.later none shift) none first.endIndex block ?_ ?_
      · intro p _
        exact paragraph_rigid (.later none shift) (.later none shift) keptBy_later
          (Move.rigid_later none) first.endIndex p
      · intro t _
        exact table_later first.endIndex t
  rw [Move.later_index_self] at hmove
  rw [hmove, Change.outcome, Move.change_compilation]
  rfl

end Compiler
end EditScript
