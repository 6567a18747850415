import EditScript.Proofs.Walk

namespace EditScript

namespace Table
variable {β : Type}

/-- The table with other content in one cell, if it has that cell. -/
def setCell (row column : Nat) (content : List β) (table : Table β) : Table β :=
  { table with grid := table.grid.modify row fun cells => cells.set column content }

variable {table : Table β} {row column : Nat} {content : List β}

theorem cell?_setCell (h : (table.cell? row column).isSome) :
    (table.setCell row column content).cell? row column = some content := by
  simp only [cell?, setCell, List.getElem?_modify] at h ⊢
  cases hr : table.grid[row]? with
  | none => simp [hr] at h
  | some cells =>
    have hc : column < cells.length := by simpa [hr] using h
    simp [hc]

theorem cell?_setCell_ne {i j : Nat} (h : (i, j) ≠ (row, column)) :
    (table.setCell row column content).cell? i j = table.cell? i j := by
  simp only [cell?, setCell, List.getElem?_modify]
  cases table.grid[i]? with
  | none => rfl
  | some cells =>
    by_cases hi : row = i
    · have hj : column ≠ j := fun hj => h (by rw [hi, hj])
      simp [hi, hj]
    · simp [hi]

theorem declared_split (hr : row < table.rows.toNat) (hc : column < table.columns.toNat) :
    ∃ before after, table.declared = before ++ ⟨row, column, table.cell? row column⟩ :: after ∧
      ∀ slot ∈ before ++ after, (slot.row, slot.column) ≠ (row, column) ∧
        slot.content = table.cell? slot.row slot.column := by
  have hm : ⟨row, column, table.cell? row column⟩ ∈ table.declared :=
    mem_declared.mpr ⟨hr, hc, rfl⟩
  obtain ⟨before, after, hd⟩ := List.append_of_mem hm
  refine ⟨before, after, hd, ?_⟩
  have hn := table.nodup_declared
  rw [hd] at hn
  intro slot hs
  have hslot : slot ∈ table.declared := by
    rw [hd]
    exact List.mem_append.mpr ((List.mem_append.mp hs).imp_right (List.mem_cons_of_mem _))
  exact ⟨place_ne_of_nodup hn slot hs, (mem_declared.mp hslot).2.2⟩

theorem declared_setCell (hr : row < table.rows.toNat) (hc : column < table.columns.toNat)
    (content : List β) : ∃ before after,
      table.declared = before ++ ⟨row, column, table.cell? row column⟩ :: after ∧
      (table.setCell row column content).declared =
        before ++ ⟨row, column, (table.setCell row column content).cell? row column⟩ :: after := by
  obtain ⟨before, after, hd, hother⟩ := declared_split hr hc
  let reread (slot : Slot β) : Slot β :=
    { slot with content := (table.setCell row column content).cell? slot.row slot.column }
  -- At any other place the table is as it was.
  have hkeep : ∀ slot ∈ before ++ after, reread slot = slot := by
    intro slot hs
    obtain ⟨hne, hcontent⟩ := hother slot hs
    simp only [reread, cell?_setCell_ne hne, ← hcontent]
  have hbefore : before.map reread = before :=
    (List.map_congr_left fun slot hs => hkeep slot (List.mem_append_left _ hs)).trans
      (List.map_id before)
  have hafter : after.map reread = after :=
    (List.map_congr_left fun slot hs => hkeep slot (List.mem_append_right _ hs)).trans
      (List.map_id after)
  have hreread : (table.setCell row column content).declared = table.declared.map reread := by
    simp only [declared, declaredRow, List.map_flatMap, List.map_map]
    rfl
  refine ⟨before, after, hd, ?_⟩
  rw [hreread, hd, List.map_append, List.map_cons, hbefore, hafter]

end Table

/-- Two compilations agree around a stretch of each: the requests before and after it are the same,
the end is, and the counts differ by those of the stretches. -/
structure Compilation.AgreeAround (part other done edited : Compilation) : Prop where
  requests : ∃ before after, done.requests = before ++ part.requests ++ after ∧
    edited.requests = before ++ other.requests ++ after
  endIndex : edited.endIndex = done.endIndex
  stats : done.stats+other.stats = edited.stats+part.stats

namespace Compilation
variable {part other done edited : Compilation}

theorem AgreeAround.surround (h : AgreeAround part other done edited) (before after : List Request)
    (stop : Nat) (counted more : Stats) :
    AgreeAround part other ⟨before ++ (done.requests ++ after), stop, counted+(done.stats+more)⟩
      ⟨before ++ (edited.requests ++ after), stop, counted+(edited.stats+more)⟩ where
  requests := by
    obtain ⟨first, last, hd, he⟩ := h.requests
    refine ⟨before ++ first, last ++ after, ?_, ?_⟩
    · simp only [hd, List.append_assoc]
    · simp only [he, List.append_assoc]
  endIndex := rfl
  stats := by
    have hs := h.stats
    simp only [Stats.add_eq, Stats.mk.injEq] at hs ⊢
    omega

theorem agreeAround_cell (part other : Compilation) (index : Nat) :
    AgreeAround part other ⟨part.requests, index, part.stats+.oneCell⟩
      ⟨other.requests, index, other.stats+.oneCell⟩ where
  requests := ⟨[], [], by simp, by simp⟩
  endIndex := rfl
  stats := by
    simp only [Stats.add_eq, Stats.mk.injEq]
    omega

end Compilation

/-- Lists that differ in one element are emitted alike around it, if the element takes the same units
in both. -/
theorem Emitter.each_edit {α : Type} {emit : Emitter α} {cell : Option CellAddress}
    {before after : List α} {a b : α} {index : Nat} {done edited : Compilation}
    (hd : each emit ⟨index, cell⟩ (before ++ a :: after) = .ok done)
    (he : each emit ⟨index, cell⟩ (before ++ b :: after) = .ok edited)
    (hend : ∀ index first second, emit ⟨index, cell⟩ a = .ok first →
      emit ⟨index, cell⟩ b = .ok second → second.endIndex = first.endIndex) :
    ∃ first old new, each emit ⟨index, cell⟩ before = .ok first ∧
      emit ⟨first.endIndex, cell⟩ a = .ok old ∧ emit ⟨first.endIndex, cell⟩ b = .ok new ∧
      ∀ part other, Compilation.AgreeAround part other old new →
        Compilation.AgreeAround part other done edited := by
  obtain ⟨first, old, last, hf, ho, hl, rfl⟩ := each_split hd
  obtain ⟨first', new, last', hf', hn, hl', rfl⟩ := each_split he
  obtain rfl := Except.ok.inj (hf.symm.trans hf')
  rw [hend _ _ _ ho hn] at hl'
  obtain rfl := Except.ok.inj (hl.symm.trans hl')
  refine ⟨first, old, new, hf, ho, hn, ?_⟩
  intro part other h
  exact h.surround first.requests last.requests last.endIndex first.stats last.stats

namespace Compiler
open Emitter Request

variable {arithmetic : Arithmetic} {compiler : Compiler arithmetic} {index row column : Nat}
  {table : Table Block} {content : List Block} {done edited : Compilation}

theorem table_edit (hr : row < table.rows.toNat) (hc : column < table.columns.toNat)
    (hd : compiler.table ⟨index, none⟩ table = .ok done)
    (he : compiler.table ⟨index, none⟩ (table.setCell row column content) = .ok edited) :
    ∃ held part other, table.cell? row column = some held ∧
      compiler.compile held (some ⟨index, row, column⟩) Cursor.cellStart = .ok part ∧
      compiler.compile content (some ⟨index, row, column⟩) Cursor.cellStart = .ok other ∧
      Compilation.AgreeAround part other done edited := by
  obtain ⟨-, cells, stop, hcells, hstop, rfl⟩ := table_ok hd
  obtain ⟨-, cells', stop', hcells', hstop', rfl⟩ := table_ok he
  obtain rfl := Option.some.inj (hstop.symm.trans hstop')
  obtain ⟨before, after, hdeclared, hdeclared'⟩ := Table.declared_setCell hr hc content
  rw [each_slots, hdeclared] at hcells
  rw [each_slots, hdeclared'] at hcells'
  have hend : ∀ index first second,
      compiler.slot ⟨index, none⟩ ⟨row, column, table.cell? row column⟩ = .ok first →
      compiler.slot ⟨index, none⟩
        ⟨row, column, (table.setCell row column content).cell? row column⟩ = .ok second →
      second.endIndex = first.endIndex := by
    intro index first second hfirst hsecond
    rw [endIndex_slot hfirst, endIndex_slot hsecond]
  obtain ⟨first, old, new, hf, hold, hnew, hagree⟩ := each_edit hcells hcells' hend
  rw [endIndex_slots hf] at hold hnew
  obtain ⟨held, part, hheld, hpart, rfl⟩ := slot_ok hold
  obtain ⟨given, other, hgiven, hother, rfl⟩ := slot_ok hnew
  simp only at hheld hgiven hpart hother
  -- The cell was there to be set: the table it belongs to compiles.
  rw [Table.cell?_setCell (hheld ▸ rfl)] at hgiven
  obtain rfl := Option.some.inj hgiven
  refine ⟨held, part, other, hheld, hpart, hother, ?_⟩
  have hcells : Compilation.AgreeAround part other cells cells' :=
    hagree part other (Compilation.agreeAround_cell part other index)
  have htable := hcells.surround
    [.insertTable table.rows.toNat table.columns.toNat ⟨index, none⟩] [] stop 0 .oneTable
  simp only [List.singleton_append, List.append_nil, Stats.zero_add] at htable
  exact htable

theorem compile_edit {before after : List Block} {start : Nat} (hs : arithmetic.Holds start)
    (hr : row < table.rows.toNat) (hc : column < table.columns.toNat)
    (hd : compiler.compile (before ++ .table table :: after) none start = .ok done)
    (he : compiler.compile (before ++ .table (table.setCell row column content) :: after) none
      start = .ok edited) :
    ∃ index held part other,
      arithmetic.add start (before.map (Block.units compiler.options.lengthUnit)).sum =
        some index ∧
      table.cell? row column = some held ∧
      compiler.compile held (some ⟨index, row, column⟩) Cursor.cellStart = .ok part ∧
      compiler.compile content (some ⟨index, row, column⟩) Cursor.cellStart = .ok other ∧
      Compilation.AgreeAround part other done edited := by
  -- Whatever stands in its cells, a table takes one unit, so what follows is compiled from there.
  have hend : ∀ index first second,
      compiler.block compiler.table ⟨index, none⟩ (.table table) = .ok first →
      compiler.block compiler.table ⟨index, none⟩ (.table (table.setCell row column content)) =
        .ok second → second.endIndex = first.endIndex := by
    intro index first second hfirst hsecond
    exact Option.some.inj ((add_table hsecond).symm.trans (add_table hfirst))
  obtain ⟨first, old, new, hf, hold, hnew, hagree⟩ := each_edit hd he hend
  obtain ⟨held, part, other, hheld, hpart, hother, h⟩ := table_edit hr hc hold hnew
  exact ⟨first.endIndex, held, part, other, add_compile hs hf, hheld, hpart, hother,
    hagree part other h⟩

theorem addressed_compile {before after : List Block} {held : List Block} {start : Nat}
    {inner : Compilation} (hheld : table.cell? row column = some held)
    (hr : row < table.rows.toNat) (hc : column < table.columns.toNat)
    (hs : arithmetic.Holds start)
    (h : compiler.compile (before ++ .table table :: after) none start = .ok done)
    (hu : arithmetic = .words .wraps → ((before ++ .table table :: after).map
      (Block.units compiler.options.lengthUnit)).sum ≤ UInt64.size)
    (hi : arithmetic.add start (before.map (Block.units compiler.options.lengthUnit)).sum =
      some index)
    (hinner : compiler.compile held (some ⟨index, row, column⟩) Cursor.cellStart = .ok inner) :
    addressed (some ⟨index, row, column⟩) done.requests = inner.requests := by
  obtain ⟨found, other, hfound, hother, hgathered⟩ := gathered_compile hs h hu hi hr hc
  obtain rfl := Option.some.inj (hheld.symm.trans hfound)
  obtain rfl := Except.ok.inj (hinner.symm.trans hother)
  exact hgathered.addressed_eq

end Compiler

/-- Of two documents that differ in what one declared cell of a table in the body holds, if both
compile, the end is the same, and so are all requests before and after those for that cell. These
are what the content of the cell is compiled to by itself, and the counts differ by its counts. They
are all that is addressed to the cell, unless indices wrap around and the body has so many units that
it comes to the same index twice. -/
theorem cell_edit_is_local {arithmetic : Arithmetic} {document : Document} {options : Options}
    {before after : List Block} {table : Table Block} {row column : Nat} {content : List Block}
    {done edited : Compilation}
    (hdocument : document.content = before ++ .table table :: after)
    (hrow : row < table.rows.toNat) (hcolumn : column < table.columns.toNat)
    (hdone : document.compile arithmetic options = .ok done)
    (hedited : { document with
      content := before ++ Block.table (table.setCell row column content) :: after }.compile
        arithmetic options = .ok edited) :
    ∃ tableStart, arithmetic.add options.startIndex.toNat
        (before.map (Block.units options.lengthUnit)).sum = some tableStart ∧
      let address : CellAddress := ⟨tableStart, row, column⟩
      edited.endIndex = done.endIndex ∧
      ∃ first last held old new, table.cell? row column = some held ∧
        (document.compiler arithmetic options).compile held (some address) 1 = .ok old ∧
        (document.compiler arithmetic options).compile content (some address) 1 = .ok new ∧
        done.requests = first ++ old.requests ++ last ∧
        edited.requests = first ++ new.requests ++ last ∧
        done.stats+new.stats = edited.stats+old.stats ∧
        ((arithmetic = .words .wraps →
            (document.content.map (Block.units options.lengthUnit)).sum ≤ UInt64.size) →
          Request.addressed address done.requests = old.requests ∧
            Request.addressed address edited.requests = new.requests) := by
  rw [Document.compile, hdocument] at hdone
  have hs := arithmetic.holds_toNat options.startIndex
  obtain ⟨tableStart, held, old, new, hi, hheld, hold, hnew, hagree⟩ :=
    Compiler.compile_edit hs hrow hcolumn hdone hedited
  obtain ⟨first, last, hfirst, hlast⟩ := hagree.requests
  refine ⟨tableStart, hi, hagree.endIndex, first, last, held, old, new, hheld, hold, hnew, hfirst,
    hlast, hagree.stats, ?_⟩
  intro hunits
  rw [hdocument] at hunits
  have hset : (table.setCell row column content).cell? row column = some content :=
    Table.cell?_setCell (hheld ▸ rfl)
  have hunits' : arithmetic = .words .wraps →
      ((before ++ Block.table (table.setCell row column content) :: after).map
        (Block.units options.lengthUnit)).sum ≤ UInt64.size := by
    simpa [Block.units] using hunits
  exact ⟨Compiler.addressed_compile hheld hrow hcolumn hs hdone hunits hi hold,
    Compiler.addressed_compile hset hrow hcolumn hs hedited hunits' hi hnew⟩

theorem cell_edit_is_local_sideBySide :
    let table : Table Block := ⟨1, 2, [[[], [.paragraph ⟨[.plain "b😀", .plain "c"], .empty⟩]]]⟩
    let content : List Block := [.unsupported "toc", .paragraph (.styled "longer" .bold)]
    let blocks := Document.sideBySide.content
    let edited : Compilation :=
      { requests := Compilation.sideBySide.requests.take 5 ++
          [.insertText ⟨1, some ⟨7, 0, 1⟩⟩ "longer", .restyle ⟨1, 7, some ⟨7, 0, 1⟩⟩ .bold] ++
          Compilation.sideBySide.requests.drop 7
        endIndex := 10
        stats := ⟨4, 2, 2, 4, 1, 0⟩ }
    blocks = blocks.take 1 ++ .table table :: blocks.drop 2 ∧
    (0 < table.rows.toNat ∧ 1 < table.columns.toNat) ∧
    Document.sideBySide.compile (.words .wraps) ⟨3, .utf16, true⟩ = .ok .sideBySide ∧
    { Document.sideBySide with
      content := blocks.take 1 ++ Block.table (table.setCell 0 1 content) :: blocks.drop 2 }.compile
        (.words .wraps) ⟨3, .utf16, true⟩ = .ok edited ∧
    ∃ first last, Compilation.sideBySide.requests =
        first ++ Request.addressed (some ⟨7, 0, 1⟩) Compilation.sideBySide.requests ++ last ∧
      edited.requests = first ++ Request.addressed (some ⟨7, 0, 1⟩) edited.requests ++ last := by
  intro table content blocks edited
  have hdone : Document.sideBySide.compile (.words .wraps) ⟨3, .utf16, true⟩ = .ok .sideBySide :=
    compile_sideBySide _
  have hedited : { Document.sideBySide with
      content := blocks.take 1 ++ Block.table (table.setCell 0 1 content) :: blocks.drop 2 }.compile
        (.words .wraps) ⟨3, .utf16, true⟩ = .ok edited := by decide
  have hunits : Arithmetic.words .wraps = .words .wraps →
      (Document.sideBySide.content.map (Block.units .utf16)).sum ≤ UInt64.size := by decide
  obtain ⟨tableStart, hstart, -, first, last, held, old, new, -, -, -, hfirst, hlast, -, hcell⟩ :=
    cell_edit_is_local rfl (show 0 < 1 by decide) (show 1 < 2 by decide) hdone hedited
  obtain rfl : 7 = tableStart := Option.some.inj hstart
  obtain ⟨hold, hnew⟩ := hcell hunits
  refine ⟨rfl, ⟨by decide, by decide⟩, hdone, hedited, first, last, ?_, ?_⟩
  · rw [hold]
    exact hfirst
  · rw [hnew]
    exact hlast

end EditScript
