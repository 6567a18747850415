import EditScript.Proofs.Spaces

namespace EditScript

/-- Row by row, and within a row column by column. -/
def CellAddress.NotAfter (a b : CellAddress) : Prop :=
  a.row < b.row ∨ a.row = b.row ∧ a.column ≤ b.column

/-- A request for the body, and the requests that stand before the next one. -/
structure Stretch where
  head : Request
  block : List Request

namespace Stretch

def requests (stretch : Stretch) : List Request := stretch.head :: stretch.block

/-- Only a table has a block behind it. The block is for cells of that table, row by row, and there
is no table in it. -/
structure WellNested (stretch : Stretch) : Prop where
  head_cell : stretch.head.cell = none
  block_cell : ∀ request ∈ stretch.block, ∃ address rows columns,
    request.cell = some address ∧
      stretch.head = .insertTable rows columns ⟨address.tableStart, none⟩ ∧
      address.row < rows ∧ address.column < columns
  not_isTable : ∀ request ∈ stretch.block, request.isTable = false
  rowMajor : stretch.block.Pairwise fun a b => ∀ p ∈ a.cell, ∀ q ∈ b.cell, p.NotAfter q

end Stretch

namespace Table
variable {β : Type}

theorem pairwise_declared (table : Table β) :
    table.declared.Pairwise fun a b => a.row < b.row ∨ a.row = b.row ∧ a.column < b.column := by
  rw [declared, List.pairwise_flatMap]
  constructor
  · intro row _
    rw [declaredRow, List.pairwise_map]
    exact List.pairwise_lt_range.imp fun hlt => .inr ⟨rfl, hlt⟩
  · refine List.pairwise_lt_range.imp ?_
    intro row below hlt a ha b hb
    obtain ⟨_, -, rfl⟩ := List.mem_map.mp ha
    obtain ⟨_, -, rfl⟩ := List.mem_map.mp hb
    exact .inl hlt

end Table

/-- How the tables and cells among the requests of a stretch of the body lie, from an index on. -/
structure Compilation.Nested (index : Nat) (done : Compilation) : Prop where
  stretches : ∃ stretches : List Stretch, done.requests = stretches.flatMap Stretch.requests ∧
    ∀ stretch ∈ stretches, stretch.WellNested
  increasing : done.requests.Pairwise fun a b => a.isTable → b.isTable → a.start < b.start
  index_le : index ≤ done.endIndex
  within : ∀ request ∈ done.requests, request.isTable →
    index ≤ request.start ∧ request.start < done.endIndex

namespace Compilation
variable {index : Nat}

theorem Nested.andThen {first rest : Compilation} (hf : first.Nested index)
    (hr : rest.Nested first.endIndex) : (first.andThen rest).Nested index where
  stretches := by
    obtain ⟨as, ha, hwa⟩ := hf.stretches
    obtain ⟨bs, hb, hwb⟩ := hr.stretches
    refine ⟨as ++ bs, ?_, ?_⟩
    · rw [List.flatMap_append, ← ha, ← hb]
      rfl
    · intro stretch hs
      rcases List.mem_append.mp hs with hs | hs
      · exact hwa stretch hs
      · exact hwb stretch hs
  increasing := by
    refine List.pairwise_append.mpr ⟨hf.increasing, hr.increasing, ?_⟩
    intro a ha b hb hta htb
    exact Nat.lt_of_lt_of_le (hf.within a ha hta).2 (hr.within b hb htb).1
  index_le := Nat.le_trans hf.index_le hr.index_le
  within := by
    intro request hm ht
    rcases List.mem_append.mp hm with hm | hm
    · have h := hf.within request hm ht
      exact ⟨h.1, Nat.lt_of_lt_of_le h.2 hr.index_le⟩
    · have h := hr.within request hm ht
      exact ⟨Nat.le_trans hf.index_le h.1, h.2⟩

theorem nested_plain {done : Compilation} (h : ∀ request ∈ done.requests, request.Plain none)
    (hi : index ≤ done.endIndex) : done.Nested index where
  stretches := by
    refine ⟨done.requests.map fun request => ⟨request, []⟩, ?_, ?_⟩
    · simp [List.flatMap_map, Stretch.requests]
    · intro stretch hs
      obtain ⟨request, hr, rfl⟩ := List.mem_map.mp hs
      exact ⟨(h request hr).cell, by simp, by simp, List.Pairwise.nil⟩
  increasing := by
    refine List.pairwise_of_forall_mem_list ?_
    intro a ha b _ hta
    rw [(h a ha).not_isTable] at hta
    cases hta
  index_le := hi
  within := by
    intro request hr ht
    rw [(h request hr).not_isTable] at ht
    cases ht

end Compilation

namespace Compiler
open Emitter Request

section
variable {arithmetic : Arithmetic} {compiler : Compiler arithmetic} {index : Nat}
  {cell : Option CellAddress} {done : Compilation}

theorem rowMajor_slots {slots : List (Table.Slot Block)}
    (h : each compiler.slot ⟨index, none⟩ slots = .ok done)
    (hs : slots.Pairwise fun a b => a.row < b.row ∨ a.row = b.row ∧ a.column < b.column) :
    done.requests.Pairwise fun a b => ∀ p ∈ a.cell, ∀ q ∈ b.cell, p.NotAfter q := by
  refine each_induct (motive := fun _ slots done =>
    (slots.Pairwise fun a b => a.row < b.row ∨ a.row = b.row ∧ a.column < b.column) →
      done.requests.Pairwise fun a b => ∀ p ∈ a.cell, ∀ q ∈ b.cell, p.NotAfter q) ?_ ?_ h hs
  · exact fun _ _ => List.Pairwise.nil
  · intro index slot slots first rest hf hr ih hs
    obtain ⟨content, inner, -, hin, rfl⟩ := slot_ok hf
    obtain ⟨hslot, hslots⟩ := List.pairwise_cons.mp hs
    refine List.pairwise_append.mpr ⟨?_, ih hslots, ?_⟩
    · refine List.pairwise_of_forall_mem_list ?_
      intro a ha b hb p hp q hq
      rw [cell_compile hin a ha] at hp
      rw [cell_compile hin b hb] at hq
      obtain rfl := Option.some.inj hp
      obtain rfl := Option.some.inj hq
      exact .inr ⟨rfl, Nat.le_refl _⟩
    · intro a ha b hb p hp q hq
      obtain ⟨later, hl, hc⟩ := plain_slots hr b hb
      rw [cell_compile hin a ha] at hp
      rw [hc.cell] at hq
      obtain rfl := Option.some.inj hp
      obtain rfl := Option.some.inj hq
      rcases hslot later hl with hlt | ⟨he, hlt⟩
      · exact .inl hlt
      · exact .inr ⟨he, Nat.le_of_lt hlt⟩

end

section
variable {compiler : Compiler .naturals} {index : Nat} {done : Compilation}

/-- A table and the requests for its cells are one stretch. -/
theorem nested_table {table : Table Block} (h : compiler.table ⟨index, none⟩ table = .ok done) :
    done.Nested index := by
  obtain ⟨-, cells, stop, hcells, hs, rfl⟩ := table_ok h
  obtain rfl := Option.some.inj hs
  rw [each_slots] at hcells
  have hflat : ∀ request ∈ cells.requests, request.isTable = false := by
    intro request hr
    obtain ⟨slot, -, hc⟩ := plain_slots hcells request hr
    exact hc.not_isTable
  let head : Request := .insertTable table.rows.toNat table.columns.toNat ⟨index, none⟩
  refine ⟨⟨[⟨head, cells.requests⟩], by simp [head, Stretch.requests], ?_⟩, ?_, ?_, ?_⟩
  · intro stretch hs
    rw [List.mem_singleton.mp hs]
    refine ⟨rfl, ?_, hflat, rowMajor_slots hcells table.pairwise_declared⟩
    intro request hr
    obtain ⟨slot, hslot, hc⟩ := plain_slots hcells request hr
    obtain ⟨hrow, hcolumn, -⟩ := Table.mem_declared.mp hslot
    exact ⟨_, _, _, hc.cell, rfl, hrow, hcolumn⟩
  · refine List.pairwise_cons.mpr ⟨?_, List.pairwise_of_forall_mem_list ?_⟩
    · intro b hb _ htb
      rw [hflat b hb] at htb
      cases htb
    · intro a ha b _ hta
      rw [hflat a ha] at hta
      cases hta
  · exact Nat.le_succ index
  · intro request hr ht
    rcases List.mem_cons.mp hr with rfl | hr
    · exact ⟨Nat.le_refl _, Nat.lt_succ_self _⟩
    · rw [hflat request hr] at ht
      cases ht

theorem nested_compile {content : List Block} {start : Nat}
    (h : compiler.compile content none start = .ok done) : done.Nested start := by
  refine each_invariant ?_ (fun _ _ _ hf hr => hf.andThen hr) ?_ h
  · intro index
    exact Compilation.nested_plain (by simp [Compilation.nothing]) (Nat.le_refl _)
  · intro index block done hd
    have hi : index ≤ done.endIndex := by
      rw [endIndex_block hd]
      exact Nat.le_add_right _ _
    obtain ⟨p, rfl, hp⟩ | ⟨t, rfl, -, ht⟩ | ⟨kind, rfl, rfl⟩ := block_ok hd
    · exact Compilation.nested_plain (plain_paragraph hp) hi
    · exact nested_table ht
    · exact Compilation.nested_plain (by simp) hi

end
end Compiler

/-- Blocks of different tables have no cell in common. -/
theorem Stretch.cell_ne {s t : Stretch} (hs : s.WellNested) (ht : t.WellNested)
    (hlt : s.head.isTable → t.head.isTable → s.head.start < t.head.start) :
    ∀ p ∈ s.block, ∀ q ∈ t.block, p.cell ≠ q.cell := by
  intro p hp q hq he
  obtain ⟨a, rows, columns, ha, hsa, -⟩ := hs.block_cell p hp
  obtain ⟨b, more, others, hb, htb, -⟩ := ht.block_cell q hq
  rw [ha, hb, Option.some.injEq] at he
  rw [hsa, htb, he] at hlt
  exact absurd (hlt rfl rfl) (Nat.lt_irrefl _)

namespace Compiler
open Request

variable {arithmetic : Arithmetic} {compiler : Compiler arithmetic} {done : Compilation}

/-- The requests that content is compiled to in the body are stretches of one request for the body
and a block for the cells of the table that it inserts, in row-major order. The tables start at
increasing indices, so no cell occurs in two blocks. Every block is of a table of the content, and
the requests for each declared cell stand together and are those that its content is compiled to by
itself. -/
theorem cells_in_blocks {content : List Block} {start : Nat}
    (hw : arithmetic = .words .wraps → compiler.InWords content none start)
    (h : compiler.compile content none start = .ok done) :
    (∃ stretches : List Stretch, done.requests = stretches.flatMap Stretch.requests ∧
      (∀ stretch ∈ stretches, stretch.WellNested) ∧
      stretches.Pairwise fun s t => ∀ p ∈ s.block, ∀ q ∈ t.block, p.cell ≠ q.cell) ∧
    (done.requests.Pairwise fun a b => a.isTable → b.isTable → a.start < b.start) ∧
    (∀ request ∈ done.requests, ∀ address, request.cell = some address →
      ∃ before table after, content = before ++ .table table :: after ∧
        address.tableStart = start+(before.map (Block.units compiler.options.lengthUnit)).sum ∧
        address.row < table.rows.toNat ∧ address.column < table.columns.toNat) ∧
    ∀ before table after, content = before ++ .table table :: after →
      ∀ row < table.rows.toNat, ∀ column < table.columns.toNat,
        let address : CellAddress :=
          ⟨start+(before.map (Block.units compiler.options.lengthUnit)).sum, row, column⟩
        ∃ held inner, table.cell? row column = some held ∧
          compiler.compile held (some address) 1 = .ok inner ∧
          Gathered (some address) inner.requests done.requests := by
  have hnaturals := compile_naturals_ok hw h
  have hn := nested_compile hnaturals
  refine ⟨?_, hn.increasing, ?_, ?_⟩
  · obtain ⟨stretches, hr, hw⟩ := hn.stretches
    refine ⟨stretches, hr, hw, ?_⟩
    have hinc := hn.increasing
    rw [hr, List.pairwise_flatMap] at hinc
    refine hinc.2.imp_of_mem ?_
    intro s t hs ht hlt
    exact Stretch.cell_ne (hw s hs) (hw t ht)
      (hlt s.head List.mem_cons_self t.head List.mem_cons_self)
  · intro request hr address ha
    exact cell_in_body hnaturals hr ha
  · rintro before table after rfl row hrow column hcolumn
    obtain ⟨held, inner, hheld, hin, hgathered⟩ := gathered_in_body hnaturals rfl hrow hcolumn
    refine ⟨held, inner, hheld, ?_, hgathered⟩
    -- The cell may be run in words as well: where the whole stays within them, so does the cell.
    rw [← hin]
    refine (compile_naturals ?_).symm
    rcases inWords_of_unwrapped hw h with hnat | hwords
    · exact .inl hnat
    · obtain ⟨held', hheld', hcell⟩ := hwords.filled h hrow hcolumn
      obtain rfl := Option.some.inj (hheld.symm.trans hheld')
      exact .inr hcell

theorem cells_in_blocks_sideBySide :
    (Document.sideBySide.compiler (.words .wraps) ⟨3, .utf16, true⟩).compile
      Document.sideBySide.content none 3 = .ok .sideBySide ∧
    (∃ stretches : List Stretch,
      Compilation.sideBySide.requests = stretches.flatMap Stretch.requests ∧
      (∀ stretch ∈ stretches, stretch.WellNested) ∧
      stretches.Pairwise fun s t => ∀ p ∈ s.block, ∀ q ∈ t.block, p.cell ≠ q.cell) ∧
    (Compilation.sideBySide.requests.Pairwise fun a b =>
      a.isTable → b.isTable → a.start < b.start) ∧
    ∃ held inner, (Document.sideBySide.compiler (.words .wraps) ⟨3, .utf16, true⟩).compile held
        (some ⟨7, 0, 1⟩) 1 = .ok inner ∧
      Gathered (some ⟨7, 0, 1⟩) inner.requests Compilation.sideBySide.requests := by
  obtain ⟨hs, hinc, -, hg⟩ :=
    cells_in_blocks (fun _ => inWords_sideBySide _) (compile_sideBySide (.words .wraps))
  obtain ⟨held, inner, -, hin, hgathered⟩ := hg [_] _ _ rfl 0 (by decide) 1 (by decide)
  exact ⟨compile_sideBySide _, hs, hinc, held, inner, hin, hgathered⟩

/-- Where the index wraps around after a table, the next one starts before it. -/
theorem cells_in_blocks_wrapped :
    let compiler : Compiler (.words .wraps) := ⟨.empty, ⟨18446744073709551615, .utf16, false⟩⟩
    ∃ done, compiler.compile [.table ⟨0, 0, []⟩, .table ⟨0, 0, []⟩] none 18446744073709551615 =
        .ok done ∧
      done.requests =
        [.insertTable 0 0 ⟨18446744073709551615, none⟩, .insertTable 0 0 ⟨0, none⟩] ∧
      ¬done.requests.Pairwise fun a b => a.isTable → b.isTable → a.start < b.start :=
  ⟨_, rfl, by decide, by decide⟩

end Compiler
end EditScript
