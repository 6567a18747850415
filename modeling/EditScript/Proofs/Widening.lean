import EditScript.Proofs.Moves
import EditScript.Proofs.Positions
import Mathlib.Algebra.BigOperators.Group.List.Basic

namespace EditScript

namespace Compilation

/-- An index of a space that counts characters, in units of UTF-16. -/
def widen (cursor : Cursor) (done : Compilation) (space : Option CellAddress) (index : Nat) : Nat :=
  cursor.origin space+((done.pieces space).take (index-cursor.origin space)).flatten.length

/-- Indices that count characters go to those that count units of UTF-16, each in its own space. If
content is compiled into the body, then so do the starts of tables. -/
def widening (cursor : Cursor) (done : Compilation) : Move where
  index := done.widen cursor
  cell := fun space =>
    if cursor.cell = none then space.map fun address =>
      { address with tableStart := done.widen cursor none address.tableStart }
    else space

end Compilation

def Compiler.measuring {arithmetic : Arithmetic} (compiler : Compiler arithmetic)
    (unit : LengthUnit) : Compiler arithmetic :=
  { compiler with options := { compiler.options with lengthUnit := unit } }

theorem length_le_flatten {α : Type} {parts : List (List α)} (h : ∀ part ∈ parts, part ≠ []) :
    parts.length ≤ parts.flatten.length := by
  have hsum := List.length_le_sum_of_one_le (parts.map List.length) (by
    intro n hn
    obtain ⟨part, hp, rfl⟩ := List.mem_map.mp hn
    exact List.length_pos_iff.mpr (h part hp))
  rwa [List.length_map, ← List.length_flatten] at hsum

namespace Move
variable {move : Move} {space : Option CellAddress} {index : Nat}

/-- What stands behind some of the pieces, counted from an index of a space, goes behind all units
of these. -/
def Widens (move : Move) (space : Option CellAddress) (index : Nat) (pieces : List (List Glyph)) :
    Prop :=
  ∀ n ≤ pieces.length,
    move.index space (index+n) = move.index space index+(pieces.take n).flatten.length

theorem Widens.all {pieces : List (List Glyph)} (h : move.Widens space index pieces) :
    move.index space (index+pieces.length) = move.index space index+pieces.flatten.length := by
  have hall := h pieces.length (Nat.le_refl _)
  rwa [List.take_length] at hall

theorem Widens.append {pieces more : List (List Glyph)}
    (h : move.Widens space index (pieces ++ more)) :
    move.Widens space index pieces ∧ move.Widens space (index+pieces.length) more := by
  have hfirst : move.Widens space index pieces := by
    intro n hn
    rw [h n (by rw [List.length_append]; omega), List.take_append_of_le_length hn]
  refine ⟨hfirst, ?_⟩
  intro n hn
  have hboth := h (pieces.length+n) (by rw [List.length_append]; omega)
  rw [List.take_length_add_append, List.flatten_append, List.length_append] at hboth
  rw [hfirst.all, Nat.add_assoc index, hboth, Nat.add_assoc]

/-- Where no piece is empty, indices go at least as far apart as they are. -/
theorem Widens.le {pieces : List (List Glyph)} (h : move.Widens space index pieces)
    (hp : ∀ piece ∈ pieces, piece ≠ []) {m n : Nat} (hn : m+n ≤ pieces.length) :
    move.index space (index+m)+n ≤ move.index space (index+(m+n)) := by
  have hmore : ((pieces.drop m).take n).length ≤ ((pieces.drop m).take n).flatten.length :=
    length_le_flatten fun piece hm => hp piece (List.mem_of_mem_drop (List.mem_of_mem_take hm))
  rw [List.length_take, List.length_drop] at hmore
  rw [h m (by omega), h (m+n) hn, List.take_add, List.flatten_append, List.length_append]
  omega

theorem Widens.lt {pieces : List (List Glyph)} (h : move.Widens space index pieces)
    (hp : ∀ piece ∈ pieces, piece ≠ []) {i j : Nat} (hi : index ≤ i) (hij : i < j)
    (hj : j ≤ index+pieces.length) : move.index space i < move.index space j := by
  obtain ⟨m, rfl⟩ := Nat.exists_eq_add_of_le hi
  obtain ⟨n, rfl⟩ := Nat.exists_eq_add_of_lt hij
  have hle := h.le hp (show m+(n+1) ≤ pieces.length by omega)
  rw [show index+m+n+1 = index+(m+(n+1)) by omega]
  omega

theorem Widens.inj {pieces : List (List Glyph)} (h : move.Widens space index pieces)
    (hp : ∀ piece ∈ pieces, piece ≠ []) {i j : Nat} (hi : index ≤ i ∧ i ≤ index+pieces.length)
    (hj : index ≤ j ∧ j ≤ index+pieces.length) (he : move.index space i = move.index space j) :
    i = j := by
  rcases Nat.lt_trichotomy i j with hij | hij | hij
  · have hne := h.lt hp hi.1 hij hj.2
    omega
  · exact hij
  · have hne := h.lt hp hj.1 hij hi.2
    omega

/-- The ends of a stretch of pieces lie apart after the move if they do before. -/
theorem Widens.lt_iff {pieces : List (List Glyph)} (h : move.Widens space index pieces)
    (hp : ∀ piece ∈ pieces, piece ≠ []) :
    move.index space index < move.index space (index+pieces.length) ↔
      index < index+pieces.length := by
  constructor
  · intro hlt
    by_contra hn
    have hnone : pieces.length = 0 := by omega
    rw [hnone, Nat.add_zero] at hlt
    exact Nat.lt_irrefl _ hlt
  · exact fun hlt => h.lt hp (Nat.le_refl _) hlt (Nat.le_refl _)

/-- The move keeps the body apart from the cells, and takes these to where their tables start then. -/
structure OfBody (move : Move) : Prop where
  body : move.cell none = none
  cell : ∀ address, move.cell (some address) =
    some { address with tableStart := move.index none address.tableStart }
  start : ∀ address, move.index (some address) Cursor.cellStart = Cursor.cellStart

theorem OfBody.cell_inj (hb : move.OfBody) {x y : Option CellAddress}
    (h : ∀ a ∈ x, ∀ b ∈ y, move.index none a.tableStart = move.index none b.tableStart →
      a.tableStart = b.tableStart)
    (he : move.cell x = move.cell y) : x = y := by
  cases x with
  | none =>
    cases y with
    | none => rfl
    | some b =>
      rw [hb.body, hb.cell] at he
      cases he
  | some a =>
    cases y with
    | none =>
      rw [hb.body, hb.cell] at he
      cases he
    | some b =>
      rw [hb.cell, hb.cell, Option.some.injEq, CellAddress.mk.injEq] at he
      have hstart := h a rfl b rfl he.1
      exact congrArg some (CellAddress.ext hstart he.2.1 he.2.2)

@[simp] theorem cell_request (move : Move) (request : Request) :
    (move.request request).cell = move.cell request.cell := by
  cases request <;> rfl

@[simp] theorem pieces_request (move : Move) (request : Request) :
    (move.request request).pieces = request.pieces := by
  cases request <;> rfl

theorem indices_request (move : Move) (request : Request) :
    (move.request request).indices = request.indices.map (move.index request.cell) := by
  cases request <;> rfl

theorem location_eq_self {location : Location}
    (hi : move.index location.cell location.index = location.index)
    (hc : move.cell location.cell = location.cell) : move.location location = location := by
  rw [Move.location, hi, hc]

theorem span_eq_self {span : Span} (hs : move.index span.cell span.start = span.start)
    (ht : move.index span.cell span.stop = span.stop) (hc : move.cell span.cell = span.cell) :
    move.span span = span := by
  rw [Move.span, hs, ht, hc]

theorem request_eq_self {request : Request}
    (hi : ∀ i ∈ request.indices, move.index request.cell i = i)
    (hc : move.cell request.cell = request.cell) : move.request request = request := by
  have hfirst : ∀ {i more}, request.indices = i :: more → move.index request.cell i = i :=
    fun he => hi _ (he ▸ List.mem_cons_self)
  cases request with
  | insertText location text => rw [Move.request, location_eq_self (hfirst rfl) hc]
  | insertInlineImage location uri => rw [Move.request, location_eq_self (hfirst rfl) hc]
  | insertTable rows columns location => rw [Move.request, location_eq_self (hfirst rfl) hc]
  | updateTextStyle span style fields =>
    have hstop := hi span.stop (List.mem_cons_of_mem _ List.mem_cons_self)
    rw [Move.request, span_eq_self (hfirst rfl) hstop hc]
  | updateParagraphStyle span style fields =>
    have hstop := hi span.stop (List.mem_cons_of_mem _ List.mem_cons_self)
    rw [Move.request, span_eq_self (hfirst rfl) hstop hc]

end Move

/-- The error, if the table of a missing cell starts where the move takes it. -/
def CompileError.moved (move : Move) : CompileError → CompileError
  | .missingCell address =>
      .missingCell { address with tableStart := move.index none address.tableStart }
  | .nestedTable address => .nestedTable address
  | .missingResource id => .missingResource id
  | .missingContentUri id => .missingContentUri id

namespace Emitter
variable {α : Type} {emit : Emitter α} {cell : Option CellAddress} {move : Move}

theorem widens_element (hg : ∀ index a done, emit ⟨index, cell⟩ a = .ok done →
      done.Gapless .chars cell index)
    {before after : List α} {a : α} {index : Nat} {done first : Compilation}
    (h : each emit ⟨index, cell⟩ (before ++ a :: after) = .ok done)
    (hw : move.Widens cell index (done.pieces cell))
    (hf : each emit ⟨index, cell⟩ before = .ok first) :
    ∃ middle, emit ⟨first.endIndex, cell⟩ a = .ok middle ∧
      move.Widens cell first.endIndex (middle.pieces cell) := by
  obtain ⟨other, middle, last, ho, hm, -, rfl⟩ := each_split h
  obtain rfl : other = first := Except.ok.inj (ho.symm.trans hf)
  rw [Compilation.pieces_andThen, Compilation.pieces_andThen] at hw
  have hrest := hw.append.2
  rw [← (gapless_each hg ho).endIndex_chars] at hrest
  exact ⟨middle, hm, hrest.append.1⟩

end Emitter

namespace Compiler
open Emitter Request

variable {compiler : Compiler .naturals} {index : Nat} {cell : Option CellAddress}
  {done : Compilation} {move : Move}

theorem alike_measuring (compiler : Compiler .naturals) (unit other : LengthUnit) :
    (compiler.measuring unit).Alike (compiler.measuring other) := ⟨rfl, rfl⟩

theorem keptBy_moved (move : Move) : CompileError.KeptBy (.moved move) := fun _ => ⟨rfl, rfl⟩

theorem length_pieces_inline {element : Inline}
    (h : compiler.inline ⟨index, cell⟩ element = .ok done) :
    (done.pieces cell).length = element.units .chars ∧
      (done.pieces cell).flatten.length = element.units .utf16 := by
  have haddressed : addressed cell done.requests = done.requests :=
    addressed_of_forall fun request hr => (plain_inline h request hr).cell
  obtain ⟨run, _, rfl, -, hd⟩ | ⟨id, found, uri, _, rfl, -, -, -, rfl⟩ | ⟨kind, rfl, rfl⟩ :=
    inline_ok h
  · have hpieces : done.pieces cell = pieces (.insertText ⟨index, cell⟩ run.content) := by
      rw [Compilation.pieces, haddressed, hd, List.flatMap_cons]
      split
      · rw [List.flatMap_nil, List.append_nil]
      · rw [List.flatMap_singleton]
        exact List.append_nil _
    rw [hpieces, length_pieces, length_flatten_pieces]
    exact ⟨rfl, rfl⟩
  · rw [Compilation.pieces, haddressed]
    exact ⟨rfl, rfl⟩
  · exact ⟨rfl, rfl⟩

theorem paragraph_widens {paragraph : Paragraph}
    (h : (compiler.measuring .chars).paragraph ⟨index, cell⟩ paragraph = .ok done)
    (hw : move.Widens cell index (done.pieces cell)) :
    (compiler.measuring .utf16).paragraph ⟨move.index cell index, move.cell cell⟩ paragraph =
      (move.change cell (.moved move)).outcome
        ((compiler.measuring .chars).paragraph ⟨index, cell⟩ paragraph) := by
  obtain ⟨inner, hin, hd⟩ := paragraph_ok h
  have hpieces : done.pieces cell = inner.pieces cell := by
    simp only [Compilation.pieces, hd, addressed_append, List.flatMap_append]
    refine List.append_right_eq_self.mpr (List.flatMap_eq_nil_iff.mpr ?_)
    intro request hr
    rw [mem_styling (mem_addressed.mp hr).1]
    rfl
  rw [hpieces] at hw
  have hgapless : ∀ index element done,
      (compiler.measuring .chars).inline ⟨index, cell⟩ element = .ok done →
      done.Gapless .chars cell index := fun _ _ _ hd => gapless_inline hd
  refine paragraph_move move (.moved move) (compiler.alike_measuring _ _) (keptBy_moved move) ?_ ?_
  · intro before element after first hp hf
    rw [hp] at hin
    obtain ⟨middle, hm, hwiden⟩ := widens_element hgapless hin hw hf
    obtain ⟨hchars, hutf16⟩ := length_pieces_inline hm
    have hall := hwiden.all
    rw [hchars, hutf16] at hall
    exact congrArg some hall.symm
  · intro other ho
    obtain rfl : other = inner := Except.ok.inj (ho.symm.trans hin)
    rw [(gapless_each hgapless hin).endIndex_chars]
    exact hw.lt_iff Compilation.piece_ne_nil

theorem compile_widens_of_tables (move : Move) {content : List Block} {start : Nat}
    (h : (compiler.measuring .chars).compile content cell start = .ok done)
    (hw : move.Widens cell start (done.pieces cell))
    (ht : ∀ before t after index middle, content = before ++ .table t :: after →
      index = start+(before.map (Block.units .chars)).sum →
      (compiler.measuring .chars).table ⟨index, cell⟩ t = .ok middle →
      move.Widens cell index (middle.pieces cell) →
      (compiler.measuring .utf16).table ⟨move.index cell index, move.cell cell⟩ t =
        (move.change cell (.moved move)).outcome
          ((compiler.measuring .chars).table ⟨index, cell⟩ t)) :
    (compiler.measuring .utf16).compile content (move.cell cell) (move.index cell start) =
      (move.change cell (.moved move)).outcome
        ((compiler.measuring .chars).compile content cell start) := by
  refine each_change_self (move.change cell (.moved move)) ?_
  intro before block after first hc hf
  subst hc
  obtain ⟨middle, hm, hwiden⟩ := widens_element (fun _ _ _ hd => gapless_block hd) h hw hf
  have hi := endIndex_compile hf
  refine block_move move (.moved move) cell first.endIndex block ?_ ?_
  · rintro p rfl
    exact paragraph_widens hm hwiden
  · rintro t rfl
    exact ht before t after first.endIndex middle rfl hi hm hwiden

theorem compile_widens_cell {address : CellAddress} {content : List Block} {start : Nat}
    (h : (compiler.measuring .chars).compile content (some address) start = .ok done)
    (hw : move.Widens (some address) start (done.pieces (some address))) :
    (compiler.measuring .utf16).compile content (move.cell (some address))
        (move.index (some address) start) =
      (move.change (some address) (.moved move)).outcome
        ((compiler.measuring .chars).compile content (some address) start) := by
  refine compile_widens_of_tables move h hw ?_
  intro _ t _ index middle _ _ hm _
  obtain ⟨hcell, -⟩ := table_ok hm
  cases hcell

theorem pieces_table {table : Table Block} (h : compiler.table ⟨index, none⟩ table = .ok done) :
    done.pieces none = [[.table table.rows.toNat table.columns.toNat]] := by
  obtain ⟨-, cells, _, hcells, -, rfl⟩ := table_ok h
  change pieces (.insertTable _ _ _) ++ (addressed none cells.requests).flatMap pieces = _
  rw [addressed_slots hcells]
  rfl

theorem keepsTable_moved (hb : move.OfBody)
    (hs : move.index none (index+1) = move.index none index+1) :
    (move.change none (.moved move)).KeepsTable .naturals index where
  request := by
    intro rows columns
    have hlocation : move.location ⟨index, none⟩ = ⟨move.index none index, none⟩ := by
      rw [Move.location, hb.body]
    exact congrArg (fun location => some (insertTable rows columns location)) hlocation
  step := congrArg some hs.symm
  oneTable := rfl
  oneCell := rfl
  missingCell := fun _ _ => rfl

/-- A table in the body, if what its cells hold is widened there. -/
theorem table_widens (hb : move.OfBody) {table : Table Block}
    (h : (compiler.measuring .chars).table ⟨index, none⟩ table = .ok done)
    (hw : move.Widens none index (done.pieces none))
    (hcells : ∀ row < table.rows.toNat, ∀ column < table.columns.toNat, ∀ content inner,
      table.cell? row column = some content →
      (compiler.measuring .chars).compile content (some ⟨index, row, column⟩) Cursor.cellStart =
        .ok inner →
      move.Widens (some ⟨index, row, column⟩) Cursor.cellStart
        (inner.pieces (some ⟨index, row, column⟩))) :
    (compiler.measuring .utf16).table ⟨move.index none index, none⟩ table =
      (move.change none (.moved move)).outcome
        ((compiler.measuring .chars).table ⟨index, none⟩ table) := by
  rw [pieces_table h] at hw
  refine table_change_self (move.change none (.moved move)) (keepsTable_moved hb hw.all) ?_
  intro row hrow column hcolumn content hc
  obtain ⟨held, inner, hheld, hin, -⟩ := gathered_table h hrow hcolumn
  obtain rfl : held = content := Option.some.inj (hheld.symm.trans hc)
  have hcell := compile_widens_cell hin (hcells row hrow column hcolumn held inner hc hin)
  rw [hb.cell, hb.start] at hcell
  exact ⟨move.index (some ⟨index, row, column⟩), hcell⟩

theorem compile_widens_body (hb : move.OfBody) {content : List Block} {start : Nat}
    (h : (compiler.measuring .chars).compile content none start = .ok done)
    (hw : move.Widens none start (done.pieces none))
    (hcells : ∀ address,
      move.Widens (some address) Cursor.cellStart (done.pieces (some address))) :
    (compiler.measuring .utf16).compile content none (move.index none start) =
      (move.change none (.moved move)).outcome
        ((compiler.measuring .chars).compile content none start) := by
  have hcompile := compile_widens_of_tables move h hw
  rw [hb.body] at hcompile
  refine hcompile ?_
  rintro before t after index middle rfl hi hm hwiden
  refine table_widens hb hm hwiden ?_
  intro row hrow column hcolumn content inner hc hin
  -- The pieces of the cell are the same in its own run as among those of the whole.
  obtain ⟨held, other, hheld, ho, hgathered⟩ := gathered_in_body h hi hrow hcolumn
  obtain rfl : held = content := Option.some.inj (hheld.symm.trans hc)
  obtain rfl : other = inner := Except.ok.inj (ho.symm.trans hin)
  have hpieces : other.pieces (some ⟨index, row, column⟩) =
      done.pieces (some ⟨index, row, column⟩) := by
    rw [Compilation.pieces, Compilation.pieces, hgathered.addressed_eq,
      addressed_of_forall (cell_compile ho)]
  rw [hpieces]
  exact hcells ⟨index, row, column⟩

end Compiler

theorem Cursor.origin_self (start : Nat) (cell : Option CellAddress) :
    origin ⟨start, cell⟩ cell = start := if_pos rfl

namespace Compilation

theorem widening_origin (cursor : Cursor) (done : Compilation) (space : Option CellAddress) :
    (done.widening cursor).index space (cursor.origin space) = cursor.origin space := by
  simp [widening, widen]

theorem widens_widening (cursor : Cursor) (done : Compilation) (space : Option CellAddress) :
    (done.widening cursor).Widens space (cursor.origin space) (done.pieces space) := by
  intro n _
  rw [widening_origin]
  simp [widening, widen]

theorem widening_cell_self (done : Compilation) (start : Nat) (cell : Option CellAddress) :
    (done.widening ⟨start, cell⟩).cell cell = cell := by
  cases cell <;> rfl

theorem ofBody_widening (done : Compilation) (start : Nat) :
    (done.widening ⟨start, none⟩).OfBody where
  body := rfl
  cell := fun _ => rfl
  start := fun address => widening_origin ⟨start, none⟩ done (some address)

end Compilation

namespace Compiler
variable {compiler : Compiler .naturals} {cell : Option CellAddress} {done : Compilation}

/-- What compiles in characters compiles to the same in UTF-16, widened. -/
theorem compile_widens {content : List Block} {start : Nat}
    (h : (compiler.measuring .chars).compile content cell start = .ok done) :
    (compiler.measuring .utf16).compile content cell start =
      .ok ((done.widening ⟨start, cell⟩).compilation cell done) := by
  let move := done.widening ⟨start, cell⟩
  have hstart : move.index cell start = start := by
    have hindex := Compilation.widening_origin ⟨start, cell⟩ done cell
    rwa [Cursor.origin_self] at hindex
  have hwiden : ∀ space, move.Widens space (Cursor.origin ⟨start, cell⟩ space) (done.pieces space) :=
    Compilation.widens_widening _ done
  have hcompile : (compiler.measuring .utf16).compile content cell (move.index cell start) =
      (move.change cell (.moved move)).outcome
        ((compiler.measuring .chars).compile content cell start) := by
    have hw := hwiden cell
    rw [Cursor.origin_self] at hw
    cases cell with
    | some address => exact compile_widens_cell h hw
    | none =>
      exact compile_widens_body (Compilation.ofBody_widening done start) h hw fun address =>
        hwiden (some address)
  rw [hstart, h, Change.outcome_ok, Move.change_compilation] at hcompile
  exact hcompile

end Compiler

namespace Compilation
variable {start : Nat} {cell : Option CellAddress} {done : Compilation}

theorem origin_widening (done : Compilation) (start : Nat) (cell space : Option CellAddress) :
    Cursor.origin ⟨start, cell⟩ ((done.widening ⟨start, cell⟩).cell space) =
      Cursor.origin ⟨start, cell⟩ space := by
  cases cell with
  | some address => rfl
  | none => cases space <;> rfl

theorem positions_request (request : Request) :
    ((done.widening ⟨start, cell⟩).request request).positions cell =
      (request.positions cell).map (done.widening ⟨start, cell⟩).location := by
  simp only [Request.positions, Move.cell_request, Move.indices_request, List.map_append,
    List.map_map]
  congr 1
  cases cell with
  | some address => rfl
  | none => cases request.cell <;> rfl

/-- All positions go to their places in units of UTF-16. -/
theorem positions_widening (done : Compilation) (start : Nat) (cell : Option CellAddress) :
    ((done.widening ⟨start, cell⟩).compilation cell done).positions cell =
      (done.positions cell).map (done.widening ⟨start, cell⟩).location := by
  simp only [positions, Move.compilation, List.map_cons, List.flatMap_map, List.map_flatMap,
    positions_request]
  rw [Move.location, widening_cell_self]

theorem pieces_compilation {move : Move} {space : Option CellAddress}
    (h : ∀ request ∈ done.requests, move.cell request.cell = move.cell space →
      request.cell = space) :
    (move.compilation cell done).pieces (move.cell space) = done.pieces space := by
  have hfilter : (done.requests.filter fun request =>
      (move.request request).cell = move.cell space) =
      done.requests.filter fun request => request.cell = space := by
    apply List.filter_congr
    intro request hr
    rw [Move.cell_request, decide_eq_decide]
    exact ⟨h request hr, fun he => congrArg move.cell he⟩
  simp only [pieces, Request.addressed, Move.compilation, List.filter_map, List.flatMap_map,
    Move.pieces_request, Function.comp_def, hfilter]

end Compilation

namespace Compiler
variable {compiler : Compiler .naturals} {cell : Option CellAddress} {done : Compilation}
  {start : Nat}

theorem cell_widening_inj {content : List Block}
    (h : (compiler.measuring .chars).compile content cell start = .ok done)
    {space : Option CellAddress}
    (hs : space = cell ∨ ∃ request ∈ done.requests, request.cell = space) :
    ∀ request ∈ done.requests, (done.widening ⟨start, cell⟩).cell request.cell =
      (done.widening ⟨start, cell⟩).cell space → request.cell = space := by
  intro request hr he
  cases cell with
  | some address => exact he
  | none =>
    refine (done.ofBody_widening start).cell_inj ?_ he
    intro a ha b hb hindex
    obtain ⟨other, ho, hother⟩ : ∃ other ∈ done.requests, other.cell = some b := by
      rcases hs with rfl | ⟨other, ho, rfl⟩
      · cases hb
      · exact ⟨other, ho, hb⟩
    have hwiden := done.widens_widening ⟨start, none⟩ none
    rw [Cursor.origin_self] at hwiden
    have hend := (gapless_compile h).endIndex_chars
    have hfirst := tableStart_bounds h hr ha
    have hsecond := tableStart_bounds h ho hother
    exact hwiden.inj Compilation.piece_ne_nil (by omega) (by omega) hindex

end Compiler
end EditScript
