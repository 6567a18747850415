import EditScript.Proofs.Spaces

namespace EditScript

/-- What becomes of a compilation: of its requests one by one, of the index in its space, and of its
counts. Errors change beside it. -/
structure Change where
  request : Request → Option Request
  index : Nat → Nat
  stats : Stats → Stats
  error : CompileError → CompileError
  stats_zero : stats 0 = 0
  stats_add : ∀ a b, stats (a+b) = stats a+stats b

namespace Change

def compilation (change : Change) (done : Compilation) : Compilation :=
  ⟨done.requests.filterMap change.request, change.index done.endIndex, change.stats done.stats⟩

def outcome (change : Change) (result : Compiled) : Compiled :=
  (result.mapError (Halt.map change.error)).map change.compilation

def keepStats (request : Request → Option Request) (index : Nat → Nat)
    (error : CompileError → CompileError) : Change where
  request := request
  index := index
  stats := id
  error := error
  stats_zero := rfl
  stats_add := fun _ _ => rfl

def inside (change : Change) (index : Nat → Nat) : Change := { change with index }

variable (change : Change)

@[simp] theorem outcome_ok (done : Compilation) :
    change.outcome (.ok done) = .ok (change.compilation done) := rfl

@[simp] theorem outcome_error (halt : Halt CompileError) :
    change.outcome (.error halt) = .error (halt.map change.error) := rfl

@[simp] theorem outcome_unlessOverflow (x : Option Compilation) :
    change.outcome (Halt.unlessOverflow x) = Halt.unlessOverflow (x.map change.compilation) := by
  cases x <;> rfl

theorem compilation_nothing (index : Nat) :
    change.compilation (.nothing index) = .nothing (change.index index) := by
  simp [compilation, Compilation.nothing, change.stats_zero]

theorem compilation_andThen (first rest : Compilation) :
    change.compilation (first.andThen rest) =
      (change.compilation first).andThen (change.compilation rest) := by
  simp [compilation, Compilation.andThen, change.stats_add]

end Change

namespace Emitter
variable {α β : Type} {emit : Emitter α} {other : Emitter β} {cell cell' : Option CellAddress}

theorem each_singleton (cursor : Cursor) (a : α) : each emit cursor [a] = emit cursor a := by
  rw [each_cons]
  cases emit cursor a with
  | error e => rfl
  | ok done => simp [Compilation.andThen, Compilation.nothing]

/-- If every element, where it stands in a list, becomes what the change makes of it, then so does
the list. -/
theorem each_change (change : Change) {f : α → List β} {as : List α} {start : Nat}
    (h : ∀ before a after first, as = before ++ a :: after →
      each emit ⟨start, cell⟩ before = .ok first →
      each other ⟨change.index first.endIndex, cell'⟩ (f a) =
        change.outcome (emit ⟨first.endIndex, cell⟩ a)) :
    each other ⟨change.index start, cell'⟩ (as.flatMap f) =
      change.outcome (each emit ⟨start, cell⟩ as) := by
  induction as generalizing start with
  | nil => simp [change.compilation_nothing]
  | cons a as ih =>
    have ha := h [] a as (.nothing start) rfl (each_nil _)
    simp only [Compilation.nothing] at ha
    rw [List.flatMap_cons, each_append, ha, each_cons]
    cases he : emit ⟨start, cell⟩ a with
    | error e => rfl
    | ok first =>
      have hrest : each other ⟨change.index first.endIndex, cell'⟩ (as.flatMap f) =
          change.outcome (each emit ⟨first.endIndex, cell⟩ as) := by
        refine ih ?_
        intro before b after middle hb hm
        refine h (a :: before) b after (first.andThen middle) (by rw [hb]; rfl) ?_
        rw [each_cons, he, Outcome.ok_bind, hm, Outcome.map_ok]
      simp only [Change.outcome_ok, Outcome.ok_bind]
      rw [show (change.compilation first).endIndex = change.index first.endIndex from rfl, hrest]
      cases each emit ⟨first.endIndex, cell⟩ as with
      | error e => rfl
      | ok rest => simp [change.compilation_andThen]

theorem each_change_map (change : Change) {f : α → β} {as : List α} {start : Nat}
    (h : ∀ before a after first, as = before ++ a :: after →
      each emit ⟨start, cell⟩ before = .ok first →
      other ⟨change.index first.endIndex, cell'⟩ (f a) =
        change.outcome (emit ⟨first.endIndex, cell⟩ a)) :
    each other ⟨change.index start, cell'⟩ (as.map f) =
      change.outcome (each emit ⟨start, cell⟩ as) := by
  rw [List.map_eq_flatMap]
  refine each_change change ?_
  intro before a after first ha hf
  rw [each_singleton]
  exact h before a after first ha hf

theorem each_change_self (change : Change) {other : Emitter α} {as : List α} {start : Nat}
    (h : ∀ before a after first, as = before ++ a :: after →
      each emit ⟨start, cell⟩ before = .ok first →
      other ⟨change.index first.endIndex, cell'⟩ a =
        change.outcome (emit ⟨first.endIndex, cell⟩ a)) :
    each other ⟨change.index start, cell'⟩ as = change.outcome (each emit ⟨start, cell⟩ as) := by
  have hmap := each_change_map change (f := id) h
  rwa [List.map_id] at hmap

end Emitter

namespace Compiler
open Emitter

variable {arithmetic : Arithmetic} {compiler other : Compiler arithmetic}
  {cell cell' : Option CellAddress} {index : Nat}

/-- A paragraph becomes what its elements and the request that styles it become. -/
theorem paragraph_change (change : Change) {paragraph : Paragraph} {elements : List Inline}
    (helements : each other.inline ⟨change.index index, cell'⟩ elements =
      change.outcome (each compiler.inline ⟨index, cell⟩ paragraph.elements))
    (hstyling : ∀ inner, each compiler.inline ⟨index, cell⟩ paragraph.elements = .ok inner →
      other.styling ⟨change.index index, change.index inner.endIndex, cell'⟩ paragraph.style =
        (compiler.styling ⟨index, inner.endIndex, cell⟩ paragraph.style).filterMap
          change.request) :
    other.paragraph ⟨change.index index, cell'⟩ ⟨elements, paragraph.style⟩ =
      change.outcome (compiler.paragraph ⟨index, cell⟩ paragraph) := by
  rw [paragraph_eq, paragraph_eq, helements]
  cases h : each compiler.inline ⟨index, cell⟩ paragraph.elements with
  | error e => rfl
  | ok inner => simp [Change.compilation, hstyling inner h]

end Compiler

namespace Change

/-- The change takes a table at an index of the body to the same table at the index that it has
then. -/
structure KeepsTable (arithmetic : Arithmetic) (change : Change) (index : Nat) : Prop where
  request : ∀ rows columns, change.request (.insertTable rows columns ⟨index, none⟩) =
    some (.insertTable rows columns ⟨change.index index, none⟩)
  step : arithmetic.add (change.index index) 1 = (arithmetic.add index 1).map change.index
  oneTable : change.stats .oneTable = .oneTable
  oneCell : change.stats .oneCell = .oneCell
  missingCell : ∀ row column, change.error (.missingCell ⟨index, row, column⟩) =
    .missingCell ⟨change.index index, row, column⟩

/-- The change keeps positions and errors, and what tables add. -/
structure InPlace (change : Change) : Prop where
  request : ∀ rows columns location, change.request (.insertTable rows columns location) =
    some (.insertTable rows columns location)
  index : ∀ index, change.index index = index
  oneTable : change.stats .oneTable = .oneTable
  oneCell : change.stats .oneCell = .oneCell
  error : ∀ e, change.error e = e

theorem InPlace.keepsTable {change : Change} (h : change.InPlace) (arithmetic : Arithmetic)
    (index : Nat) : change.KeepsTable arithmetic index where
  request := fun rows columns => by rw [h.request, h.index]
  step := by rw [h.index, funext h.index, Option.map_id']
  oneTable := h.oneTable
  oneCell := h.oneCell
  missingCell := fun row column => by rw [h.error, h.index]

theorem InPlace.halt {change : Change} (h : change.InPlace) (halt : Halt CompileError) :
    halt.map change.error = halt := by
  cases halt with
  | error e => exact congrArg Halt.error (h.error e)
  | overflow => rfl

theorem InPlace.outcome_eq {change : Change} (h : change.InPlace) (result : Compiled) :
    change.outcome result = result.map change.compilation := by
  cases result with
  | error halt => exact congrArg Except.error (h.halt halt)
  | ok done => rfl

end Change

namespace Table
variable {β : Type}

def mapCells (f : List β → List β) (table : Table β) : Table β :=
  { table with grid := table.grid.map (List.map f) }

def Slot.map (f : List β → List β) (slot : Slot β) : Slot β :=
  { slot with content := slot.content.map f }

theorem mapCells_id (table : Table β) : table.mapCells id = table := by
  simp [mapCells]

theorem cell?_mapCells (f : List β → List β) (table : Table β) (row column : Nat) :
    (table.mapCells f).cell? row column = (table.cell? row column).map f := by
  simp only [cell?, mapCells, List.getElem?_map]
  cases table.grid[row]? <;> simp

theorem declared_mapCells (f : List β → List β) (table : Table β) :
    (table.mapCells f).declared = table.declared.map (Slot.map f) := by
  have hrow : (table.mapCells f).declaredRow =
      fun row => (table.declaredRow row).map (Slot.map f) := by
    funext row
    simp only [declaredRow, cell?_mapCells, List.map_map]
    rfl
  rw [declared, hrow, declared, List.map_flatMap]
  rfl

end Table

namespace Compiler
open Emitter

variable {arithmetic : Arithmetic}

theorem slot_eq (compiler : Compiler arithmetic) (index : Nat) (slot : Table.Slot Block) :
    compiler.slot ⟨index, none⟩ slot = match slot.content with
      | none => .error (.error (.missingCell ⟨index, slot.row, slot.column⟩))
      | some content =>
          (compiler.compile content (some ⟨index, slot.row, slot.column⟩) Cursor.cellStart).map
            fun inner => ⟨inner.requests, index, inner.stats+.oneCell⟩ := by
  rw [Compiler.slot]
  cases slot.content with
  | none => rfl
  | some content =>
    simp only [cell_eq_compile]
    rfl

variable {compiler other : Compiler arithmetic} {index : Nat}

/-- A table becomes what its declared cells become, wherever their own indices go. -/
theorem table_change (change : Change) (hk : change.KeepsTable arithmetic index)
    {table : Table Block}
    {f : List Block → List Block}
    (h : ∀ row < table.rows.toNat, ∀ column < table.columns.toNat, ∀ content,
      table.cell? row column = some content → ∃ inner,
      other.compile (f content) (some ⟨change.index index, row, column⟩) Cursor.cellStart =
        (change.inside inner).outcome
          (compiler.compile content (some ⟨index, row, column⟩) Cursor.cellStart)) :
    other.table ⟨change.index index, none⟩ (table.mapCells f) =
      change.outcome (compiler.table ⟨index, none⟩ table) := by
  have hslots : each other.slot ⟨change.index index, none⟩ (table.mapCells f).slots =
      change.outcome (each compiler.slot ⟨index, none⟩ table.slots) := by
    rw [each_slots, each_slots, Table.declared_mapCells]
    refine each_change_map change ?_
    intro before slot after first hs hf
    have hm : slot ∈ table.declared := hs ▸ List.mem_append_right _ List.mem_cons_self
    obtain ⟨hrow, hcolumn, hcontent⟩ := Table.mem_declared.mp hm
    rw [endIndex_slots hf]
    simp only [slot_eq, Table.Slot.map]
    cases hc : slot.content with
    | none => simp [hk.missingCell]
    | some content =>
      simp only [Option.map_some]
      obtain ⟨inside, hin⟩ := h slot.row hrow slot.column hcolumn content (hcontent.symm.trans hc)
      rw [hin]
      cases compiler.compile content (some ⟨index, slot.row, slot.column⟩) Cursor.cellStart with
      | error e => rfl
      | ok inner => simp [Change.compilation, Change.inside, change.stats_add, hk.oneCell]
  rw [table_eq, table_eq, hslots, hk.step]
  cases each compiler.slot ⟨index, none⟩ table.slots with
  | error halt => rfl
  | ok cells =>
    simp [Change.compilation, change.stats_add, hk.oneTable, hk.request, Table.mapCells,
      Function.comp_def]

theorem table_change_self (change : Change) (hk : change.KeepsTable arithmetic index)
    {table : Table Block}
    (h : ∀ row < table.rows.toNat, ∀ column < table.columns.toNat, ∀ content,
      table.cell? row column = some content → ∃ inner,
      other.compile content (some ⟨change.index index, row, column⟩) Cursor.cellStart =
        (change.inside inner).outcome
          (compiler.compile content (some ⟨index, row, column⟩) Cursor.cellStart)) :
    other.table ⟨change.index index, none⟩ table =
      change.outcome (compiler.table ⟨index, none⟩ table) := by
  have htable := table_change change hk (f := id) h
  rwa [Table.mapCells_id] at htable

/-- Content becomes what its paragraphs and unsupported blocks become, if positions and errors are
kept and tables become tables of the same size. -/
theorem compile_inPlace {change : Change} (hc : change.InPlace) {f : Block → List Block}
    (hp : ∀ p index cell, each (other.block other.table) ⟨index, cell⟩ (f (.paragraph p)) =
      change.outcome (compiler.paragraph ⟨index, cell⟩ p))
    (hu : ∀ kind index cell, each (other.block other.table) ⟨index, cell⟩ (f (.unsupported kind)) =
      change.outcome (.ok ⟨[], index, .oneSkippedElement⟩))
    (ht : ∀ t, f (.table t) = [.table (t.mapCells (List.flatMap f))])
    (content : List Block) (cell : Option CellAddress) (start : Nat) :
    other.compile (content.flatMap f) cell start =
      change.outcome (compiler.compile content cell start) := by
  -- Tables are left to whoever says in which spaces they may stand.
  have hblock : ∀ (cell : Option CellAddress) (content : List Block) (start : Nat),
      (∀ t index, other.table ⟨index, cell⟩ (t.mapCells (List.flatMap f)) =
        change.outcome (compiler.table ⟨index, cell⟩ t)) →
      other.compile (content.flatMap f) cell start =
        change.outcome (compiler.compile content cell start) := by
    intro cell content start htable
    have h : each (other.block other.table) ⟨change.index start, cell⟩ (content.flatMap f) =
        change.outcome (each (compiler.block compiler.table) ⟨start, cell⟩ content) := by
      refine each_change change ?_
      intro _ block _ first _ _
      rw [hc.index]
      cases block with
      | paragraph p => exact hp p first.endIndex cell
      | table t =>
        rw [ht, each_singleton]
        exact htable t first.endIndex
      | unsupported kind => exact hu kind first.endIndex cell
    rwa [hc.index] at h
  refine hblock cell content start ?_
  intro t index
  cases cell with
  | some address => exact congrArg Except.error (hc.halt _).symm
  | none =>
    have h : other.table ⟨change.index index, none⟩ (t.mapCells (List.flatMap f)) =
        change.outcome (compiler.table ⟨index, none⟩ t) := by
      refine table_change change (hc.keepsTable arithmetic index) ?_
      intro row _ column _ held _
      refine ⟨change.index, ?_⟩
      rw [hc.index]
      refine hblock (some ⟨index, row, column⟩) held Cursor.cellStart ?_
      intro t index
      exact congrArg Except.error (hc.halt _).symm
    rwa [hc.index] at h

theorem compile_inPlace_self {change : Change} (hc : change.InPlace)
    (hp : ∀ p index cell, other.paragraph ⟨index, cell⟩ p =
      change.outcome (compiler.paragraph ⟨index, cell⟩ p))
    (hu : change.stats .oneSkippedElement = .oneSkippedElement)
    (content : List Block) (cell : Option CellAddress) (start : Nat) :
    other.compile content cell start = change.outcome (compiler.compile content cell start) := by
  have hid : (List.flatMap fun block : Block => [block]) = id := funext List.flatMap_singleton'
  have h : other.compile (content.flatMap fun block => [block]) cell start =
      change.outcome (compiler.compile content cell start) := by
    refine compile_inPlace hc ?_ ?_ ?_ content cell start
    · intro p index cell
      rw [each_singleton]
      exact hp p index cell
    · intro kind index cell
      rw [each_singleton, Change.outcome_ok, Change.compilation, hc.index, hu]
      rfl
    · intro t
      rw [hid, Table.mapCells_id]
  rwa [List.flatMap_singleton'] at h

end Compiler
end EditScript
