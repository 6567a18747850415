import EditScript.Proofs.Emission
import Mathlib.Data.List.Nodup
import Mathlib.Tactic.Set
import Mathlib.Tactic.SplitIfs

namespace EditScript

namespace Table
variable {β : Type}

def declaredRow (table : Table β) (row : Nat) : List (Slot β) :=
  (List.range table.columns.toNat).map fun column => ⟨row, column, table.cell? row column⟩

/-- The declared cells row by row. -/
def declared (table : Table β) : List (Slot β) :=
  (List.range table.rows.toNat).flatMap table.declaredRow

theorem mem_declared {table : Table β} {slot : Slot β} :
    slot ∈ table.declared ↔ slot.row < table.rows.toNat ∧ slot.column < table.columns.toNat ∧
      slot.content = table.cell? slot.row slot.column := by
  simp only [declared, declaredRow, List.mem_flatMap, List.mem_map, List.mem_range]
  constructor
  · rintro ⟨row, hr, column, hc, rfl⟩
    exact ⟨hr, hc, rfl⟩
  · rintro ⟨hr, hc, h⟩
    exact ⟨slot.row, hr, slot.column, hc, by rw [← h]⟩

theorem nodup_declared (table : Table β) :
    (table.declared.map fun slot => (slot.row, slot.column)).Nodup := by
  have hp : table.declared.map (fun slot => (slot.row, slot.column)) =
      (List.range table.rows.toNat).flatMap fun row =>
        (List.range table.columns.toNat).map fun column => (row, column) := by
    simp [declared, declaredRow, List.map_flatMap, Function.comp_def]
  rw [hp, List.nodup_flatMap]
  constructor
  · intro row _
    exact List.nodup_range.map (fun a b h => (Prod.mk.inj h).2)
  · refine List.nodup_range.imp ?_
    intro a b hab
    simp only [Function.onFun, List.disjoint_left, List.mem_map]
    rintro _ ⟨_, _, rfl⟩ ⟨_, _, h⟩
    exact hab (Prod.mk.inj h).1.symm

theorem place_ne_of_nodup {before after : List (Slot β)} {slot : Slot β}
    (h : ((before ++ slot :: after).map fun slot => (slot.row, slot.column)).Nodup) :
    ∀ other ∈ before ++ after, (other.row, other.column) ≠ (slot.row, slot.column) := by
  rw [List.map_append, List.map_cons, List.nodup_middle, ← List.map_append, List.nodup_cons] at h
  intro other ho he
  exact h.1 (List.mem_map.mpr ⟨other, ho, he⟩)

/-- Two lists of cells agree up to the first missing cell, if there is one. -/
inductive AgreeToMissing : List (Slot β) → List (Slot β) → Prop where
  | nil : AgreeToMissing [] []
  | cons (slot : Slot β) {as bs : List (Slot β)} (h : AgreeToMissing as bs) :
      AgreeToMissing (slot :: as) (slot :: bs)
  | missing (row column : Nat) (as bs : List (Slot β)) :
      AgreeToMissing (⟨row, column, none⟩ :: as) (⟨row, column, none⟩ :: bs)

namespace AgreeToMissing

theorem refl : (as : List (Slot β)) → AgreeToMissing as as
  | [] => .nil
  | slot :: as => .cons slot (refl as)

theorem append {as bs cs ds : List (Slot β)} (h : AgreeToMissing as bs)
    (h' : AgreeToMissing cs ds) : AgreeToMissing (as ++ cs) (bs ++ ds) := by
  induction h with
  | nil => exact h'
  | cons slot _ ih => exact .cons slot ih
  | missing row column as bs => exact .missing row column _ _

theorem append_left (as : List (Slot β)) {bs cs : List (Slot β)} (h : AgreeToMissing bs cs) :
    AgreeToMissing (as ++ bs) (as ++ cs) := (refl as).append h

theorem flatMap {γ : Type} {f g : γ → List (Slot β)} {cs : List γ}
    (h : ∀ c ∈ cs, AgreeToMissing (f c) (g c)) :
    AgreeToMissing (cs.flatMap f) (cs.flatMap g) := by
  induction cs with
  | nil => exact .nil
  | cons c cs ih =>
    simp only [List.flatMap_cons]
    exact (h c List.mem_cons_self).append (ih fun c hc => h c (List.mem_cons_of_mem _ hc))

end AgreeToMissing

private theorem map_range_of_short (row : Nat) (f : Nat → Option (List β)) {length columns : Nat}
    (h : length < columns) (hn : f length = none) :
    ∃ more, (List.range columns).map (fun column => (⟨row, column, f column⟩ : Slot β)) =
      (List.range length).map (fun column => ⟨row, column, f column⟩) ++
        ⟨row, length, none⟩ :: more := by
  obtain ⟨k, rfl⟩ : ∃ k, columns = length+(k+1) := ⟨columns-length-1, by omega⟩
  refine ⟨(List.range k).map fun i => ⟨row, length+(i+1), f (length+(i+1))⟩, ?_⟩
  rw [List.range_add, List.range_succ_eq_map]
  simp [Function.comp_def, hn]

private theorem mapIdx_eq_map_range {γ : Type} (f : Nat → List β → γ) (cells : List (List β))
    (g : Nat → γ) (h : ∀ i (hi : i < cells.length), f i cells[i] = g i) :
    cells.mapIdx f = (List.range cells.length).map g := by
  apply List.ext_getElem
  · simp
  · intro i hi _
    simp [h i (by simpa using hi)]

theorem agree_rowSlots (table : Table β) {row : Nat} (h : row < table.grid.length) :
    AgreeToMissing (rowSlots table.columns.toNat row table.grid[row]) (table.declaredRow row) := by
  have hcell : ∀ column, table.cell? row column = table.grid[row][column]? := by
    intro column
    simp [cell?, h]
  set cells := table.grid[row]
  have hprefix : (cells.take table.columns.toNat).mapIdx
        (fun column content => (⟨row, column, some content⟩ : Slot β)) =
      (List.range (min table.columns.toNat cells.length)).map
        fun column => ⟨row, column, table.cell? row column⟩ := by
    rw [mapIdx_eq_map_range _ _ fun column => ⟨row, column, table.cell? row column⟩]
    · rw [List.length_take]
    · intro i hi
      have hi' : i < cells.length := by
        rw [List.length_take] at hi
        omega
      simp [hcell, hi']
  rw [rowSlots, hprefix, declaredRow]
  by_cases hs : cells.length < table.columns.toNat
  · have hnone : table.cell? row cells.length = none := by simp [hcell]
    obtain ⟨more, hm⟩ := map_range_of_short row (table.cell? row) hs hnone
    rw [hm, if_pos hs, Nat.min_eq_right (by omega)]
    exact .append_left _ (.missing _ _ _ _)
  · rw [if_neg hs, List.append_nil, Nat.min_eq_left (by omega)]
    exact .refl _

theorem agree_rows (table : Table β) :
    AgreeToMissing
      ((table.grid.take table.rows.toNat).mapIdx (rowSlots table.columns.toNat)).flatten
      ((List.range (min table.rows.toNat table.grid.length)).flatMap table.declaredRow) := by
  have hrows : (table.grid.take table.rows.toNat).mapIdx (rowSlots table.columns.toNat) =
      (List.range (min table.rows.toNat table.grid.length)).map fun row =>
        rowSlots table.columns.toNat row (table.grid[row]?.getD []) := by
    rw [mapIdx_eq_map_range _ _ fun row =>
      rowSlots table.columns.toNat row (table.grid[row]?.getD []), List.length_take]
    intro i hi
    have hi' : i < table.grid.length := by
      rw [List.length_take] at hi
      omega
    simp [hi']
  rw [hrows, ← List.flatMap_def]
  refine .flatMap ?_
  intro row hm
  have hl : row < table.grid.length := by
    rw [List.mem_range] at hm
    omega
  simpa [hl] using table.agree_rowSlots hl

/-- The declared rows from the first that is not there on begin with a missing cell. -/
theorem declared_of_short {table : Table β} (hc : table.columns ≠ 0)
    (hr : table.grid.length < table.rows.toNat) :
    ∃ more, table.declared =
      (List.range table.grid.length).flatMap table.declaredRow ++
        ⟨table.grid.length, 0, none⟩ :: more := by
  obtain ⟨k, hk⟩ : ∃ k, table.rows.toNat = table.grid.length+(k+1) :=
    ⟨table.rows.toNat-table.grid.length-1, by omega⟩
  obtain ⟨j, hj⟩ : ∃ j, table.columns.toNat = j+1 := by
    have hne : table.columns.toNat ≠ 0 := fun h => hc (UInt64.toNat_inj.mp (by simpa using h))
    exact ⟨table.columns.toNat-1, by omega⟩
  have hrow : ∃ more, table.declaredRow table.grid.length =
      ⟨table.grid.length, 0, none⟩ :: more := by
    have hn : table.cell? table.grid.length 0 = none := by simp [cell?]
    rw [declaredRow, hj, List.range_succ_eq_map, List.map_cons, hn]
    exact ⟨_, rfl⟩
  obtain ⟨more, hrow⟩ := hrow
  rw [declared, hk, List.range_add, List.range_succ_eq_map]
  simp only [List.flatMap_append, List.map_cons, List.flatMap_cons, Nat.add_zero, hrow]
  exact ⟨_, rfl⟩

/-- The cells that a table is compiled by agree with the declared ones. -/
theorem agree_slots (table : Table β) : AgreeToMissing table.slots table.declared := by
  have hrows := table.agree_rows
  unfold slots
  split_ifs with hc hr
  · have he : table.declared = [] := by simp [declared, declaredRow, hc]
    rw [he]
    exact .nil
  · obtain ⟨more, hd⟩ := declared_of_short hc hr
    rw [Nat.min_eq_right (by omega)] at hrows
    rw [hd]
    exact hrows.append (.missing _ _ _ _)
  · rw [Nat.min_eq_left (by omega)] at hrows
    rw [List.append_nil]
    exact hrows

private theorem flatMap_mapIdx {γ δ : Type} {f : Nat → β → γ} {g : γ → List δ} {k : β → List δ}
    (h : ∀ i b, g (f i b) = k b) (bs : List β) : (bs.mapIdx f).flatMap g = bs.flatMap k := by
  induction bs generalizing f with
  | nil => rfl
  | cons b bs ih =>
    rw [List.mapIdx_cons, List.flatMap_cons, List.flatMap_cons, h, ih fun i => h (i+1)]

/-- The cells that the table has, of the declared ones in a list. -/
def found (slots : List (Slot β)) : List (List β) := slots.flatMap fun slot => slot.content.toList

theorem found_append (slots more : List (Slot β)) :
    found (slots ++ more) = found slots ++ found more := List.flatMap_append

theorem found_rowSlots (columns row : Nat) (cells : List (List β)) :
    found (rowSlots columns row cells) = cells.take columns := by
  have hmissing : found (if cells.length < columns then [⟨row, cells.length, none⟩] else []) =
      ([] : List (List β)) := by split <;> rfl
  rw [rowSlots, found_append, hmissing, List.append_nil, found,
    flatMap_mapIdx (k := fun cell => [cell]) fun _ _ => rfl, List.flatMap_singleton']

/-- A table is compiled by the cells that it has within its declared size. -/
theorem found_slots (table : Table β) : found table.slots =
    (table.grid.take table.rows.toNat).flatMap (List.take table.columns.toNat) := by
  rw [slots]
  split
  case isTrue hc =>
    rw [hc]
    exact (List.flatMap_eq_nil_iff.mpr fun _ _ => rfl).symm
  case isFalse hc =>
    have hmissing : found (if table.grid.length < table.rows.toNat then
        [⟨table.grid.length, 0, none⟩] else []) = ([] : List (List β)) := by split <;> rfl
    rw [found_append, hmissing, List.append_nil, found, ← List.flatMap_id, List.flatMap_assoc]
    exact flatMap_mapIdx (fun row cells => found_rowSlots _ row cells) _

theorem mem_slots {table : Table β} {slot : Slot β} (h : slot ∈ table.slots) {content : List β}
    (hc : slot.content = some content) : ∃ row ∈ table.grid, content ∈ row := by
  have hfound : content ∈ found table.slots :=
    List.mem_flatMap.mpr ⟨slot, h, Option.mem_toList.mpr hc⟩
  rw [found_slots] at hfound
  obtain ⟨row, hrow, hcell⟩ := List.mem_flatMap.mp hfound
  exact ⟨row, List.mem_of_mem_take hrow, List.mem_of_mem_take hcell⟩

end Table

/-- The table without the rows and cells that it does not declare. -/
def Table.trimmed (table : Table Block) : Table Block :=
  { table with
    grid := (table.grid.take table.rows.toNat).map (List.take table.columns.toNat) }

def Block.trimmed : Block → Block
  | .table t => .table t.trimmed
  | block => block

namespace Compiler
variable {arithmetic : Arithmetic}

theorem each_slot_congr (compiler : Compiler arithmetic) {as bs : List (Table.Slot Block)}
    (h : Table.AgreeToMissing as bs) (cursor : Cursor) :
    Emitter.each compiler.slot cursor as = Emitter.each compiler.slot cursor bs := by
  induction h generalizing cursor with
  | nil => rfl
  | cons slot _ ih =>
    rw [Emitter.each_cons, Emitter.each_cons]
    cases compiler.slot cursor slot with
    | error e => rfl
    | ok first => simp only [Outcome.ok_bind, ih]
  | missing row column as bs => simp [Emitter.each_cons, slot]

theorem each_slots (compiler : Compiler arithmetic) (cursor : Cursor) (table : Table Block) :
    Emitter.each compiler.slot cursor table.slots =
      Emitter.each compiler.slot cursor table.declared :=
  compiler.each_slot_congr table.agree_slots cursor

end Compiler
end EditScript
