import EditScript.Proofs.Overflow
import EditScript.Proofs.Units

namespace EditScript

namespace Request

/-- The requests for one space, in their order. -/
def addressed (space : Option CellAddress) (requests : List Request) : List Request :=
  requests.filter (·.cell = space)

variable {space : Option CellAddress} {requests : List Request}

@[simp] theorem addressed_append (requests more : List Request) :
    addressed space (requests ++ more) = addressed space requests ++ addressed space more := by
  simp [addressed]

theorem mem_addressed {request : Request} :
    request ∈ addressed space requests ↔ request ∈ requests ∧ request.cell = space := by
  simp [addressed]

theorem addressed_of_forall (h : ∀ request ∈ requests, request.cell = space) :
    addressed space requests = requests := by
  rw [addressed, List.filter_eq_self]
  exact fun request hr => decide_eq_true (h request hr)

theorem addressed_of_forall_ne (h : ∀ request ∈ requests, request.cell ≠ space) :
    addressed space requests = [] := by
  rw [addressed, List.filter_eq_nil_iff]
  exact fun request hr hd => h request hr (of_decide_eq_true hd)

def isTable : Request → Bool
  | .insertTable _ _ _ => true
  | .insertText _ _ | .insertInlineImage _ _ | .updateTextStyle _ _ _
  | .updateParagraphStyle _ _ _ => false

/-- The request is addressed to this space and inserts no table. -/
structure Plain (space : Option CellAddress) (request : Request) : Prop where
  cell : request.cell = space
  not_isTable : request.isTable = false

/-- The requests for a space stand together, and are these. -/
def Gathered (space : Option CellAddress) (block requests : List Request) : Prop :=
  ∃ before after, requests = before ++ block ++ after ∧ addressed space before = [] ∧
    addressed space block = block ∧ addressed space after = []

theorem Gathered.addressed_eq {block : List Request} (h : Gathered space block requests) :
    addressed space requests = block := by
  obtain ⟨before, after, rfl, hb, hblock, ha⟩ := h
  rw [addressed_append, addressed_append, hb, hblock, ha, List.nil_append, List.append_nil]

theorem gathered_self (h : ∀ request ∈ requests, request.cell = space) :
    Gathered space requests requests :=
  ⟨[], [], by simp, rfl, addressed_of_forall h, rfl⟩

theorem Gathered.around {block before after : List Request} (h : Gathered space block requests)
    (hb : addressed space before = []) (ha : addressed space after = []) :
    Gathered space block (before ++ (requests ++ after)) := by
  obtain ⟨first, last, rfl, hf, hblock, hl⟩ := h
  refine ⟨before ++ first, last ++ after, by simp only [List.append_assoc], ?_, hblock, ?_⟩
  · rw [addressed_append, hb, hf, List.nil_append]
  · rw [addressed_append, hl, ha, List.nil_append]

end Request

namespace Compiler
open Emitter Request

section
variable {arithmetic : Arithmetic} {compiler : Compiler arithmetic} {index : Nat}
  {cell : Option CellAddress} {done : Compilation}

theorem endIndex_slot {slot : Table.Slot Block} (h : compiler.slot ⟨index, cell⟩ slot = .ok done) :
    done.endIndex = index := by
  obtain ⟨_, _, -, -, rfl⟩ := slot_ok h
  rfl

theorem endIndex_slots {slots : List (Table.Slot Block)}
    (h : each compiler.slot ⟨index, cell⟩ slots = .ok done) : done.endIndex = index := by
  refine each_invariant (motive := fun index done => done.endIndex = index) (fun _ => rfl)
    ?_ ?_ h
  · intro index first rest hf hr
    exact hr.trans hf
  · exact fun index slot done hs => endIndex_slot hs

theorem plain_inline {element : Inline} (h : compiler.inline ⟨index, cell⟩ element = .ok done) :
    ∀ request ∈ done.requests, request.Plain cell := by
  obtain ⟨run, stop, -, -, rfl⟩ | ⟨id, found, uri, stop, -, -, -, -, rfl⟩ | ⟨kind, -, rfl⟩ :=
    inline_ok h
  · intro request hr
    rcases List.mem_cons.mp hr with rfl | hr
    · exact ⟨rfl, rfl⟩
    · split at hr
      · exact absurd hr List.not_mem_nil
      · rw [List.mem_singleton.mp hr]
        exact ⟨rfl, rfl⟩
  · intro request hr
    rw [List.mem_singleton.mp hr]
    exact ⟨rfl, rfl⟩
  · exact List.forall_mem_nil _

theorem mem_styling {span : Span} {style : Style} {request : Request}
    (h : request ∈ compiler.styling span style) : request = .styleParagraph span style := by
  rw [styling] at h
  split at h
  · exact List.mem_singleton.mp h
  · exact absurd h List.not_mem_nil

theorem plain_paragraph {paragraph : Paragraph}
    (h : compiler.paragraph ⟨index, cell⟩ paragraph = .ok done) :
    ∀ request ∈ done.requests, request.Plain cell := by
  obtain ⟨inner, hin, rfl⟩ := paragraph_ok h
  intro request hr
  rcases List.mem_append.mp hr with hr | hr
  · exact each_forall (fun element _ index done hd => plain_inline hd) hin request hr
  · rw [mem_styling hr]
    exact ⟨rfl, rfl⟩

/-- In a cell there are no tables, so everything is addressed to that cell. -/
theorem plain_compile {content : List Block} {address : CellAddress} {start : Nat}
    (h : compiler.compile content (some address) start = .ok done) :
    ∀ request ∈ done.requests, request.Plain (some address) := by
  refine each_forall ?_ h
  intro block _ index done hd
  obtain ⟨p, rfl, hp⟩ | ⟨t, -, hcell, -⟩ | ⟨kind, -, rfl⟩ := block_ok hd
  · exact plain_paragraph hp
  · cases hcell
  · exact List.forall_mem_nil _

theorem cell_compile {content : List Block} {address : CellAddress} {start : Nat}
    (h : compiler.compile content (some address) start = .ok done) :
    ∀ request ∈ done.requests, request.cell = some address :=
  fun request hr => (plain_compile h request hr).cell

theorem plain_slots {slots : List (Table.Slot Block)}
    (h : each compiler.slot ⟨index, none⟩ slots = .ok done) :
    ∀ request ∈ done.requests, ∃ slot ∈ slots,
      request.Plain (some ⟨index, slot.row, slot.column⟩) := by
  refine each_induct (motive := fun index slots done => ∀ request ∈ done.requests,
    ∃ slot ∈ slots, request.Plain (some ⟨index, slot.row, slot.column⟩)) ?_ ?_ h
  · exact fun index request hr => absurd hr List.not_mem_nil
  · intro index slot slots first rest hf _ ih request hr
    obtain ⟨content, inner, -, hin, rfl⟩ := slot_ok hf
    rcases List.mem_append.mp hr with hr | hr
    · exact ⟨slot, List.mem_cons_self, plain_compile hin request hr⟩
    · obtain ⟨other, ho, hc⟩ := ih request hr
      exact ⟨other, List.mem_cons_of_mem _ ho, hc⟩

theorem addressed_slots {slots : List (Table.Slot Block)}
    (h : each compiler.slot ⟨index, none⟩ slots = .ok done) :
    addressed none done.requests = [] := by
  apply addressed_of_forall_ne
  intro request hr
  obtain ⟨slot, -, hc⟩ := plain_slots h request hr
  rw [hc.cell]
  exact Option.some_ne_none _

theorem gathered_slots {slots : List (Table.Slot Block)}
    (h : each compiler.slot ⟨index, none⟩ slots = .ok done)
    (hn : (slots.map fun slot => (slot.row, slot.column)).Nodup) {slot : Table.Slot Block}
    (hs : slot ∈ slots) :
    ∃ content inner, slot.content = some content ∧
      compiler.compile content (some ⟨index, slot.row, slot.column⟩) Cursor.cellStart = .ok inner ∧
      Gathered (some ⟨index, slot.row, slot.column⟩) inner.requests done.requests := by
  obtain ⟨before, after, rfl⟩ := List.append_of_mem hs
  obtain ⟨first, middle, last, hf, hm, hl, rfl⟩ := each_split h
  rw [endIndex_slots hf] at hm
  obtain ⟨content, inner, hc, hin, rfl⟩ := slot_ok hm
  have hfresh : ∀ other ∈ before ++ after, (other.row, other.column) ≠ (slot.row, slot.column) :=
    Table.place_ne_of_nodup hn
  have hother : ∀ {slots : List (Table.Slot Block)} {part : Compilation},
      (∀ other ∈ slots, other ∈ before ++ after) →
      each compiler.slot ⟨index, none⟩ slots = .ok part →
      addressed (some ⟨index, slot.row, slot.column⟩) part.requests = [] := by
    intro slots part hsub hp
    apply addressed_of_forall_ne
    intro request hr
    obtain ⟨other, ho, hc⟩ := plain_slots hp request hr
    intro he
    rw [hc.cell, Option.some.injEq, CellAddress.mk.injEq] at he
    exact hfresh other (hsub other ho) (Prod.ext he.2.1 he.2.2)
  refine ⟨content, inner, hc, hin, ?_⟩
  exact (gathered_self (cell_compile hin)).around
    (hother (fun other ho => List.mem_append_left _ ho) hf)
    (hother (fun other ho => List.mem_append_right _ ho) hl)

/-- A declared cell of a table gets what its content is compiled to. -/
theorem gathered_table {table : Table Block} (h : compiler.table ⟨index, none⟩ table = .ok done)
    {row column : Nat} (hr : row < table.rows.toNat) (hc : column < table.columns.toNat) :
    ∃ content inner, table.cell? row column = some content ∧
      compiler.compile content (some ⟨index, row, column⟩) Cursor.cellStart = .ok inner ∧
      Gathered (some ⟨index, row, column⟩) inner.requests done.requests := by
  obtain ⟨-, cells, stop, hcells, -, rfl⟩ := table_ok h
  rw [each_slots] at hcells
  have hm : ⟨row, column, table.cell? row column⟩ ∈ table.declared :=
    Table.mem_declared.mpr ⟨hr, hc, rfl⟩
  obtain ⟨content, inner, hcontent, hin, hgathered⟩ :=
    gathered_slots hcells table.nodup_declared hm
  refine ⟨content, inner, hcontent, hin, ?_⟩
  have hbody : addressed (some ⟨index, row, column⟩)
      [.insertTable table.rows.toNat table.columns.toNat ⟨index, none⟩] = [] := rfl
  have hall := hgathered.around hbody (show addressed _ [] = [] from rfl)
  rwa [List.append_nil] at hall

/-- A request for a cell belongs to a table of the body, and to a cell that the table declares. -/
theorem cell_of_mem {content : List Block} {start : Nat} (hs : arithmetic.Holds start)
    (h : compiler.compile content none start = .ok done) :
    ∀ request ∈ done.requests, ∀ address, request.cell = some address →
      ∃ before table after, content = before ++ .table table :: after ∧
        arithmetic.add start (before.map (Block.units compiler.options.lengthUnit)).sum =
          some address.tableStart ∧
        address.row < table.rows.toNat ∧ address.column < table.columns.toNat := by
  refine each_induct (motive := fun start content done => arithmetic.Holds start →
    ∀ request ∈ done.requests, ∀ address, request.cell = some address →
      ∃ before table after, content = before ++ .table table :: after ∧
        arithmetic.add start (before.map (Block.units compiler.options.lengthUnit)).sum =
          some address.tableStart ∧
        address.row < table.rows.toNat ∧ address.column < table.columns.toNat) ?_ ?_ h hs
  · exact fun start _ request hr => absurd hr List.not_mem_nil
  · intro start block content first rest hf _ ih hs request hr address ha
    have hfirst := add_block hs hf
    rcases List.mem_append.mp hr with hr | hr
    · obtain ⟨p, rfl, hp⟩ | ⟨t, rfl, -, ht⟩ | ⟨kind, rfl, rfl⟩ := block_ok hf
      · rw [(plain_paragraph hp request hr).cell] at ha
        cases ha
      · obtain ⟨-, cells, stop, hcells, -, rfl⟩ := table_ok ht
        rcases List.mem_cons.mp hr with rfl | hr
        · cases ha
        · rw [each_slots] at hcells
          obtain ⟨slot, hslot, hc⟩ := plain_slots hcells request hr
          obtain ⟨hrow, hcolumn, -⟩ := Table.mem_declared.mp hslot
          obtain rfl := Option.some.inj (hc.cell.symm.trans ha)
          exact ⟨[], t, content, rfl, Arithmetic.add_zero hs, hrow, hcolumn⟩
      · exact absurd hr List.not_mem_nil
    · obtain ⟨before, t, after, rfl, hstart, hd⟩ :=
        ih (Arithmetic.holds_add hfirst) request hr address ha
      exact ⟨block :: before, t, after, rfl, Arithmetic.add_add hfirst hstart, hd⟩

/-- A declared cell of a table in the body gets what its content is compiled to, and nothing else,
if the units of the body do not go all the way round. -/
theorem gathered_compile {before after : List Block} {table : Table Block} {start : Nat}
    (hs : arithmetic.Holds start)
    (h : compiler.compile (before ++ .table table :: after) none start = .ok done)
    (hu : arithmetic = .words .wraps → ((before ++ .table table :: after).map
      (Block.units compiler.options.lengthUnit)).sum ≤ UInt64.size)
    (hi : arithmetic.add start (before.map (Block.units compiler.options.lengthUnit)).sum =
      some index) {row column : Nat} (hr : row < table.rows.toNat)
    (hc : column < table.columns.toNat) :
    ∃ content inner, table.cell? row column = some content ∧
      compiler.compile content (some ⟨index, row, column⟩) Cursor.cellStart = .ok inner ∧
      Gathered (some ⟨index, row, column⟩) inner.requests done.requests := by
  obtain ⟨first, middle, last, hf, hm, hl, rfl⟩ := each_split h
  have hindex := Arithmetic.holds_add hi
  obtain rfl : first.endIndex = index := Option.some.inj ((add_compile hs hf).symm.trans hi)
  have hmiddle : arithmetic.add first.endIndex 1 = some middle.endIndex := add_block hindex hm
  obtain ⟨content, inner, hcontent, hin, hgathered⟩ := gathered_table hm hr hc
  refine ⟨content, inner, hcontent, hin, ?_⟩
  simp only [List.map_append, List.map_cons, List.sum_append, List.sum_cons, Block.units] at hu
  -- Another table at the same index would stand there before or after all units in between.
  have hbefore : addressed (some ⟨first.endIndex, row, column⟩) first.requests = [] := by
    apply addressed_of_forall_ne
    intro request hr ha
    obtain ⟨others, other, rest, rfl, hstart, -⟩ := cell_of_mem hs hf request hr _ ha
    simp only [List.map_append, List.map_cons, List.sum_append, List.sum_cons, Block.units]
      at hi hu
    have hzero := Arithmetic.add_injective hstart hi fun hwraps => by have := hu hwraps; omega
    omega
  have hafter : addressed (some ⟨first.endIndex, row, column⟩) last.requests = [] := by
    apply addressed_of_forall_ne
    intro request hr ha
    obtain ⟨others, other, rest, rfl, hstart, -⟩ :=
      cell_of_mem (Arithmetic.holds_add hmiddle) hl request hr _ ha
    simp only [List.map_append, List.map_cons, List.sum_append, List.sum_cons, Block.units] at hu
    have hround := Arithmetic.add_add hmiddle hstart
    rw [← Nat.zero_add (1+_)] at hround
    have hzero := Arithmetic.add_injective (Arithmetic.add_zero hindex) hround
      fun hwraps => by have := hu hwraps; omega
    omega
  exact hgathered.around hbefore hafter

end

section
variable {compiler : Compiler .naturals} {index : Nat} {cell : Option CellAddress}
  {done : Compilation}

theorem endIndex_compile {content : List Block} {start : Nat}
    (h : compiler.compile content cell start = .ok done) :
    done.endIndex = start+(content.map (Block.units compiler.options.lengthUnit)).sum :=
  (Option.some.inj (add_compile (Arithmetic.holds_naturals _) h)).symm

theorem endIndex_block {block : Block}
    (h : compiler.block compiler.table ⟨index, cell⟩ block = .ok done) :
    done.endIndex = index+block.units compiler.options.lengthUnit :=
  (Option.some.inj (add_block (Arithmetic.holds_naturals _) h)).symm

theorem cell_in_body {content : List Block} {start : Nat}
    (h : compiler.compile content none start = .ok done) {request : Request}
    (hr : request ∈ done.requests) {address : CellAddress} (ha : request.cell = some address) :
    ∃ before table after, content = before ++ .table table :: after ∧
      address.tableStart = start+(before.map (Block.units compiler.options.lengthUnit)).sum ∧
      address.row < table.rows.toNat ∧ address.column < table.columns.toNat := by
  obtain ⟨before, table, after, hc, hstart, hd⟩ :=
    cell_of_mem (Arithmetic.holds_naturals _) h request hr address ha
  exact ⟨before, table, after, hc, (Option.some.inj hstart).symm, hd⟩

theorem gathered_in_body {before after : List Block} {table : Table Block} {start : Nat}
    (h : compiler.compile (before ++ .table table :: after) none start = .ok done)
    (hi : index = start+(before.map (Block.units compiler.options.lengthUnit)).sum)
    {row column : Nat} (hr : row < table.rows.toNat) (hc : column < table.columns.toNat) :
    ∃ content inner, table.cell? row column = some content ∧
      compiler.compile content (some ⟨index, row, column⟩) Cursor.cellStart = .ok inner ∧
      Gathered (some ⟨index, row, column⟩) inner.requests done.requests := by
  refine gathered_compile (Arithmetic.holds_naturals _) h ?_ (congrArg some hi.symm) hr hc
  intro hwraps
  cases hwraps

/-- The cells of tables belong to tables that start among the units that are compiled. -/
theorem tableStart_bounds {content : List Block} {start : Nat}
    (h : compiler.compile content none start = .ok done) {request : Request}
    (hr : request ∈ done.requests) {address : CellAddress} (ha : request.cell = some address) :
    start ≤ address.tableStart ∧ address.tableStart < done.endIndex := by
  obtain ⟨before, t, after, rfl, hstart, -⟩ := cell_in_body h hr ha
  have he := endIndex_compile h
  simp only [List.map_append, List.map_cons, List.sum_append, List.sum_cons, Block.units] at he
  omega

/-- The requests for any one space are those that some content is compiled to in that space. -/
theorem compile_space {content : List Block} {start : Nat}
    (h : compiler.compile content cell start = .ok done) {request : Request}
    (hr : request ∈ done.requests) :
    ∃ held inner, compiler.compile held request.cell
        (if request.cell = cell then start else Cursor.cellStart) = .ok inner ∧
      addressed request.cell inner.requests = addressed request.cell done.requests := by
  by_cases hs : request.cell = cell
  · rw [if_pos hs, hs]
    exact ⟨content, done, h, rfl⟩
  · rw [if_neg hs]
    cases cell with
    | some address => exact absurd (cell_compile h request hr) hs
    | none =>
      obtain ⟨address, ha⟩ := Option.ne_none_iff_exists'.mp hs
      obtain ⟨before, t, after, rfl, hstart, hrow, hcolumn⟩ := cell_in_body h hr ha
      obtain ⟨held, inner, -, hin, hgathered⟩ := gathered_in_body h hstart hrow hcolumn
      rw [ha]
      refine ⟨held, inner, hin, ?_⟩
      rw [hgathered.addressed_eq, addressed_of_forall (cell_compile hin)]

end

/-- If no index is too large for the whole, none is for a cell that is filled on the way. -/
theorem InWords.filled {arithmetic : Arithmetic} {compiler : Compiler arithmetic}
    {before after : List Block} {table : Table Block} {start : Nat} {done : Compilation}
    (hw : compiler.InWords (before ++ .table table :: after) none start)
    (h : compiler.compile (before ++ .table table :: after) none start = .ok done) {row column : Nat}
    (hr : row < table.rows.toNat) (hc : column < table.columns.toNat) :
    ∃ held, table.cell? row column = some held ∧ compiler.InWords held
      (some ⟨start+(before.map (Block.units compiler.options.lengthUnit)).sum, row, column⟩)
      Cursor.cellStart := by
  obtain ⟨first, middle, last, hf, hm, -, -⟩ := each_split (hw.checked_ok h)
  obtain ⟨held, inner, hheld, hin, -⟩ := gathered_table hm hr hc
  have hstart := endIndex_compile (compile_naturals_ok (fun hwraps => by cases hwraps) hf)
  rw [hstart] at hin
  exact ⟨held, hheld, inWords_of_ok hin⟩

end Compiler

/-- Two tables side by side, after text beyond the first plane and an image, and before more text.
The first table has an empty cell, and a cell of two runs. -/
def Document.sideBySide : Document where
  id := none
  title := none
  content := [
    .paragraph ⟨[.styled "a😀" .bold, .object "i"], .named "TITLE"⟩,
    .table ⟨1, 2, [[[], [.paragraph ⟨[.plain "b😀", .plain "c"], .empty⟩]]]⟩,
    .table ⟨2, 1, [[[.paragraph (.styled "d" .bold)]], [[.paragraph ⟨[.object "i"], .empty⟩]]]⟩,
    .paragraph (.plain "e")]
  inlineObjects := .ofList [("i", .image "u")]

def Compilation.sideBySide : Compilation where
  requests := [
    .insertText ⟨3, none⟩ "a😀",
    .restyle ⟨3, 6, none⟩ .bold,
    .insertInlineImage ⟨6, none⟩ "u",
    .styleParagraph ⟨3, 7, none⟩ (.named "TITLE"),
    .insertTable 1 2 ⟨7, none⟩,
    .insertText ⟨1, some ⟨7, 0, 1⟩⟩ "b😀",
    .insertText ⟨4, some ⟨7, 0, 1⟩⟩ "c",
    .insertTable 2 1 ⟨8, none⟩,
    .insertText ⟨1, some ⟨8, 0, 0⟩⟩ "d",
    .restyle ⟨1, 2, some ⟨8, 0, 0⟩⟩ .bold,
    .insertInlineImage ⟨1, some ⟨8, 1, 0⟩⟩ "u",
    .insertText ⟨9, none⟩ "e"]
  endIndex := 10
  stats := ⟨5, 2, 2, 4, 0, 0⟩

theorem compile_sideBySide (arithmetic : Arithmetic) :
    (Document.sideBySide.compiler arithmetic ⟨3, .utf16, true⟩).compile
      Document.sideBySide.content none 3 = .ok .sideBySide := by
  match arithmetic with
  | .naturals => decide
  | .words .stops => decide
  | .words .wraps => decide

theorem inWords_sideBySide (arithmetic : Arithmetic) :
    (Document.sideBySide.compiler arithmetic ⟨3, .utf16, true⟩).InWords
      Document.sideBySide.content none 3 :=
  Compiler.inWords_of_ok (compile_sideBySide (.words .stops))

end EditScript
