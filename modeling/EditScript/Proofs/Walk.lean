import EditScript.Proofs.Spaces

namespace EditScript

/-- A block and, if it is a table, the blocks in its declared cells. Tables in cells are not entered:
content with one does not compile. -/
def Block.walked : Block → List Block
  | .table t => .table t :: t.trimmed.grid.flatten.flatten
  | .paragraph p => [.paragraph p]
  | .unsupported kind => [.unsupported kind]

namespace Stats

def ofCells (cells : Nat) : Stats := { zero with cells }

def ofTable (cells : Nat) : Stats := { zero with tables := 1, cells }

theorem add_eq (a b : Stats) : a+b = ⟨a.textRuns+b.textRuns, a.inlineImages+b.inlineImages,
    a.tables+b.tables, a.cells+b.cells, a.skippedElements+b.skippedElements,
    a.skippedInline+b.skippedInline⟩ := rfl

theorem ofCells_add_oneTable (stats : Stats) (cells : Nat) :
    stats+ofCells cells+oneTable = ofTable cells+stats := by
  simp only [add_eq, ofCells, ofTable, oneTable, zero, mk.injEq]
  omega

theorem oneCell_add_ofCells (a b : Stats) (cells : Nat) :
    a+oneCell+(b+ofCells cells) = a+b+ofCells (cells+1) := by
  simp only [add_eq, ofCells, oneCell, zero, mk.injEq]
  omega

end Stats

namespace Table
variable {β : Type}

theorem AgreeToMissing.eq {as bs : List (Slot β)} (h : AgreeToMissing as bs)
    (hs : ∀ slot ∈ as, slot.content ≠ none) : as = bs := by
  induction h with
  | nil => rfl
  | cons slot _ ih => rw [ih fun other ho => hs other (List.mem_cons_of_mem _ ho)]
  | missing row column as bs => exact absurd rfl (hs _ List.mem_cons_self)

theorem length_declared (table : Table β) :
    table.declared.length = table.rows.toNat*table.columns.toNat := by
  simp [declared, declaredRow, List.length_flatMap]

end Table

namespace Compiler
open Emitter

/-- A relation between blocks on the walk and what they compile to, given block by block. -/
structure Account (compiler : Compiler arithmetic) (holds : List Block → List Request → Stats → Prop) :
    Prop where
  nil : holds [] [] 0
  append : ∀ {as bs rs qs a b}, holds as rs a → holds bs qs b → holds (as ++ bs) (rs ++ qs) (a+b)
  paragraph : ∀ {p index cell done}, compiler.paragraph ⟨index, cell⟩ p = .ok done →
    holds [.paragraph p] done.requests done.stats
  table : ∀ (t : Table Block) index,
    holds [.table t] [.insertTable t.rows.toNat t.columns.toNat ⟨index, none⟩]
      (.ofTable (t.rows.toNat*t.columns.toNat))
  unsupported : ∀ kind, holds [.unsupported kind] [] .oneSkippedElement

variable {arithmetic : Arithmetic} {compiler : Compiler arithmetic} {index : Nat}
  {cell : Option CellAddress} {done : Compilation}
  {holds : List Block → List Request → Stats → Prop}

theorem slots_eq_declared {table : Table Block}
    (h : each compiler.slot ⟨index, none⟩ table.slots = .ok done) :
    table.slots = table.declared := by
  refine table.agree_slots.eq ?_
  intro slot hs
  obtain ⟨before, after, he⟩ := List.append_of_mem hs
  rw [he] at h
  obtain ⟨_, _, _, _, hm, -⟩ := each_split h
  obtain ⟨content, _, hc, -⟩ := slot_ok hm
  rw [hc]
  exact Option.some_ne_none _

namespace Account

theorem each (ha : compiler.Account holds) {α : Type} {emit : Emitter α} {blocks : α → List Block}
    (h : ∀ index a done, emit ⟨index, cell⟩ a = .ok done →
      holds (blocks a) done.requests done.stats) {as : List α}
    (hd : Emitter.each emit ⟨index, cell⟩ as = .ok done) :
    holds (as.flatMap blocks) done.requests done.stats := by
  refine each_induct (motive := fun _ as done =>
    holds (as.flatMap blocks) done.requests done.stats) ?_ ?_ hd
  · exact fun _ => ha.nil
  · intro index a as first rest hf _ ih
    exact ha.append (h index a first hf) ih

theorem compile_cell (ha : compiler.Account holds) {content : List Block} {address : CellAddress}
    {start : Nat} (h : compiler.compile content (some address) start = .ok done) :
    holds content done.requests done.stats := by
  rw [← List.flatMap_singleton' content]
  refine ha.each ?_ h
  intro index block done hd
  obtain ⟨p, rfl, hp⟩ | ⟨t, -, hcell, -⟩ | ⟨kind, rfl, rfl⟩ := block_ok hd
  · exact ha.paragraph hp
  · cases hcell
  · exact ha.unsupported kind

theorem slots (ha : compiler.Account holds) {slots : List (Table.Slot Block)}
    (h : Emitter.each compiler.slot ⟨index, none⟩ slots = .ok done) :
    ∃ inside, holds (Table.found slots).flatten done.requests inside ∧
      done.stats = inside+.ofCells slots.length := by
  refine each_induct (motive := fun _ slots done => ∃ inside,
    holds (Table.found slots).flatten done.requests inside ∧
      done.stats = inside+.ofCells slots.length) ?_ ?_ h
  · exact fun _ => ⟨0, ha.nil, rfl⟩
  · intro index slot slots first rest hf _ ih
    obtain ⟨content, inner, hc, hin, rfl⟩ := slot_ok hf
    obtain ⟨inside, hrest, hs⟩ := ih
    refine ⟨inner.stats+inside, ?_, ?_⟩
    · rw [Table.found, List.flatMap_cons, hc, Option.toList_some, List.singleton_append,
        List.flatten_cons]
      exact ha.append (ha.compile_cell hin) hrest
    · rw [Compilation.andThen, hs, List.length_cons, Stats.oneCell_add_ofCells]

theorem compile_table (ha : compiler.Account holds) {table : Table Block}
    (h : compiler.table ⟨index, none⟩ table = .ok done) :
    holds (Block.table table).walked done.requests done.stats := by
  obtain ⟨-, cells, stop, hcells, -, rfl⟩ := table_ok h
  obtain ⟨inside, hinside, hs⟩ := ha.slots hcells
  rw [slots_eq_declared hcells, Table.length_declared] at hs
  rw [Table.found_slots] at hinside
  rw [hs, Stats.ofCells_add_oneTable, Block.walked, Table.trimmed, ← List.flatMap_def]
  exact ha.append (ha.table table index) hinside

/-- What holds block by block holds of the whole walk. -/
theorem compile (ha : compiler.Account holds) {content : List Block} {start : Nat}
    (h : compiler.compile content cell start = .ok done) :
    holds (content.flatMap Block.walked) done.requests done.stats := by
  refine ha.each ?_ h
  intro index block done hd
  obtain ⟨p, rfl, hp⟩ | ⟨t, rfl, rfl, ht⟩ | ⟨kind, rfl, rfl⟩ := block_ok hd
  · exact ha.paragraph hp
  · exact ha.compile_table ht
  · exact ha.unsupported kind

end Account
end Compiler
end EditScript
