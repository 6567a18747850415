import EditScript.Proofs.Rendering
import EditScript.Proofs.Success

namespace EditScript

/-- Requests made at a cursor turn every target that has a place there into one with further units
at the place and further cells, if it has none of those cells yet. -/
def Fills (unit : LengthUnit) (cursor : Cursor) (requests : List Request) (atoms : List Atom)
    (cells : Cells) : Prop :=
  ∀ (target : Target) (before after : List Atom),
    target.space cursor.cell = some (before ++ after) →
    cursor.index = target.first cursor.cell+before.length →
    (∀ address, (cells address).isSome → target.cells address = none) →
    target.replay unit requests =
      some ((target.write cursor.cell (before ++ atoms ++ after)).withCells cells)

def Cells.none : Cells := fun _ => .none

/-- An emission does its part: it fills a stretch of its space and stops after it. -/
def Emits (unit : LengthUnit) (cursor : Cursor) (done : Compilation) (atoms : List Atom)
    (cells : Cells) : Prop :=
  done.endIndex = cursor.index+atoms.length ∧ Fills unit cursor done.requests atoms cells

namespace Target

@[simp] theorem withCells_none (target : Target) : target.withCells .none = target := rfl

theorem withCells_withCells (target : Target) (cells more : Cells)
    (h : ∀ address, (more address).isSome → cells address = none) :
    (target.withCells cells).withCells more =
      target.withCells fun address => (cells address).or (more address) := by
  simp only [withCells, mk.injEq, true_and]
  funext address
  cases hm : more address with
  | none => simp
  | some atoms => simp [h address (by simp [hm])]

/-- Cells that are not open yet are not the space that is written. -/
theorem withCells_write {target : Target} {cell : Option CellAddress} {atoms : List Atom}
    {cells : Cells} (h : ∀ address, cell = some address → cells address = none) :
    (target.withCells cells).write cell atoms = (target.write cell atoms).withCells cells := by
  cases cell with
  | none => rfl
  | some address =>
    simp only [write, withCells, mk.injEq, true_and]
    funext other
    by_cases ho : other = address
    · simp [ho, h address rfl]
    · simp [ho]

theorem space_withCells {target : Target} {cell : Option CellAddress} {cells : Cells}
    (h : ∀ address, cell = some address → cells address = none) :
    (target.withCells cells).space cell = target.space cell := by
  cases cell with
  | none => rfl
  | some address => simp [withCells, space, h address rfl]

theorem eq_none_of_space {target : Target} {cell : Option CellAddress} {atoms : List Atom}
    {cells : Cells} (hs : target.space cell = some atoms)
    (hn : ∀ address, (cells address).isSome → target.cells address = none) :
    ∀ address, cell = some address → cells address = none := by
  intro address h
  by_contra hne
  have hv := hn address (Option.isSome_iff_ne_none.mpr hne)
  rw [h] at hs
  simp [space, hv] at hs

end Target

theorem fills_nil (unit : LengthUnit) (cursor : Cursor) : Fills unit cursor [] [] .none := by
  intro target before after hs _ _
  rw [List.append_nil, Target.write_self hs]
  rfl

/-- Two stretches that are filled one after the other are filled together. -/
theorem Fills.append {unit : LengthUnit} {cursor : Cursor} {as bs : List Request}
    {first second : List Atom} {cells more : Cells} (ha : Fills unit cursor as first cells)
    (hb : Fills unit { cursor with index := cursor.index+first.length } bs second more)
    (hc : ∀ address, (more address).isSome → cells address = none) :
    Fills unit cursor (as ++ bs) (first ++ second) fun address =>
      (cells address).or (more address) := by
  intro target before after hs hi hn
  have hcells : ∀ address, (cells address).isSome → target.cells address = none :=
    fun address h => hn address (by simp [h])
  have hmore : ∀ address, (more address).isSome → target.cells address = none := by
    intro address h
    apply hn address
    cases cells address <;> simp [h]
  have hopen := Target.eq_none_of_space hs hcells
  have hopen' := Target.eq_none_of_space hs hmore
  let middle := (target.write cursor.cell (before ++ first ++ after)).withCells cells
  have hm : middle.space cursor.cell = some (before ++ first ++ after) := by
    rw [Target.space_withCells hopen, Target.space_write]
  have hi' : cursor.index+first.length = middle.first cursor.cell+(before ++ first).length := by
    simp only [middle, Target.first_withCells, Target.first_write, List.length_append]
    omega
  have hn' : ∀ address, (more address).isSome → middle.cells address = none := by
    intro address h
    have hv := hmore address h
    have hw : (target.write cursor.cell (before ++ first ++ after)).cells address = none := by
      cases hcur : cursor.cell with
      | none => exact hv
      | some own =>
        have hne : address ≠ own := by
          intro he
          rw [he, hopen' own hcur] at h
          simp at h
        simpa [Target.write, hne] using hv
    change (cells address).or _ = none
    rw [hc address h, hw]
    rfl
  have hsecond := hb middle (before ++ first) after (by simpa using hm) hi' hn'
  rw [Target.replay_append, ha target before after hs hi hcells]
  change middle.replay unit bs = _
  rw [hsecond, Target.withCells_write hopen, Target.write_write, Target.withCells_withCells _ _ _ hc]
  simp [List.append_assoc]

namespace Cells
variable {α : Type} {atoms : α → List Atom} {cells : Nat → α → Cells}

theorem along_none (index : Nat) (as : List α) : along atoms (fun _ _ => .none) index as = .none := by
  induction as generalizing index with
  | nil => rfl
  | cons a as ih =>
    funext address
    simp only [along, ih]
    rfl

theorem along_bounds
    (h : ∀ index a address, (cells index a address).isSome →
      index ≤ address.tableStart ∧ address.tableStart < index+(atoms a).length)
    {index : Nat} {as : List α} {address : CellAddress}
    (hs : (along atoms cells index as address).isSome) : index ≤ address.tableStart := by
  induction as generalizing index with
  | nil => simp [along] at hs
  | cons a as ih =>
    rw [along, Option.isSome_or, Bool.or_eq_true] at hs
    rcases hs with hs | hs
    · exact (h index a address hs).1
    · have hr := ih hs
      omega

end Cells

/-- If every element does its part, then so does the list. -/
theorem emits_each {α : Type} {unit : LengthUnit} {emit : Emitter α} {cell : Option CellAddress}
    {atoms : α → List Atom} {cells : Nat → α → Cells}
    (he : ∀ index a done, emit ⟨index, cell⟩ a = .ok done →
      Emits unit ⟨index, cell⟩ done (atoms a) (cells index a))
    (hb : ∀ index a address, (cells index a address).isSome →
      index ≤ address.tableStart ∧ address.tableStart < index+(atoms a).length)
    {index : Nat} {as : List α} {done : Compilation}
    (h : Emitter.each emit ⟨index, cell⟩ as = .ok done) :
    Emits unit ⟨index, cell⟩ done (as.flatMap atoms) (.along atoms cells index as) := by
  induction as generalizing index done with
  | nil =>
    rw [Emitter.each_nil] at h
    obtain rfl := Except.ok.inj h
    exact ⟨rfl, fills_nil unit _⟩
  | cons a as ih =>
    obtain ⟨first, rest, hf, hr, rfl⟩ := Emitter.each_cons_ok h
    obtain ⟨hi, hfill⟩ := he index a first hf
    simp only [hi] at hr
    obtain ⟨hi', hfill'⟩ := ih hr
    constructor
    · simp only [Compilation.andThen, hi', List.flatMap_cons, List.length_append]
      omega
    · refine hfill.append hfill' ?_
      intro address hs
      have hlow := Cells.along_bounds hb hs
      by_contra hne
      have hhigh := (hb index a address (Option.isSome_iff_ne_none.mpr hne)).2
      omega

theorem emits_each_plain {α : Type} {unit : LengthUnit} {emit : Emitter α}
    {cell : Option CellAddress} {atoms : α → List Atom}
    (he : ∀ index a done, emit ⟨index, cell⟩ a = .ok done →
      Emits unit ⟨index, cell⟩ done (atoms a) .none)
    {index : Nat} {as : List α} {done : Compilation}
    (h : Emitter.each emit ⟨index, cell⟩ as = .ok done) :
    Emits unit ⟨index, cell⟩ done (as.flatMap atoms) .none := by
  have hall := emits_each he (fun _ _ _ hs => by simp [Cells.none] at hs) h
  rwa [Cells.along_none] at hall

namespace Compiler

theorem paragraphStyle_rendered {compiler : Compiler .naturals} {element : Inline} {atom : Atom}
    (h : atom ∈ element.rendered compiler) : atom.paragraphStyle = .empty := by
  cases element with
  | text run =>
    obtain ⟨code, -, rfl⟩ := List.mem_map.mp h
    rfl
  | unsupported kind => simp [Inline.rendered] at h
  | object id =>
    simp only [Inline.rendered] at h
    split at h
    · rw [List.mem_singleton.mp h]
      rfl
    · simp at h

theorem fills_text (unit : LengthUnit) (cursor : Cursor) (run : TextRun) :
    Fills unit cursor
      (.insertText cursor.here run.content ::
        (if run.style.isEmpty then []
          else [.restyle ⟨cursor.index, cursor.index+unit.measure run.content, cursor.cell⟩ run.style]))
      ((unit.codes run.content).map fun code => ⟨.code code, run.style, .empty⟩) .none := by
  intro target before after hs hi _
  let plain := (unit.codes run.content).map fun code => Atom.plain (.code code)
  have hins : target.apply unit (.insertText cursor.here run.content) =
      some (target.write cursor.cell (before ++ plain ++ after)) :=
    Target.insert_between hs hi plain
  rw [Target.withCells_none, Target.replay, List.foldlM_cons, hins]
  change Target.replay _ (target.write cursor.cell (before ++ plain ++ after)) _ = _
  split_ifs with he
  · rw [Style.eq_empty he]
    rfl
  · have hr : (target.write cursor.cell (before ++ plain ++ after)).apply unit
        (.restyle ⟨cursor.index, cursor.index+unit.measure run.content, cursor.cell⟩ run.style) =
        some ((target.write cursor.cell (before ++ plain ++ after)).write cursor.cell
          (before ++ plain.map (fun atom => { atom with textStyle := run.style }) ++ after)) :=
      Target.restyle_between (Target.space_write _ _ _) (by simpa using hi)
        (by simp [plain, LengthUnit.length_codes]) _
    rw [Target.replay, List.foldlM_cons, hr, Target.write_write]
    simp [plain, Atom.plain, Function.comp_def]

theorem emits_inline (compiler : Compiler .naturals) (cell : Option CellAddress) (index : Nat)
    (element : Inline) (done : Compilation)
    (h : compiler.inline ⟨index, cell⟩ element = .ok done) :
    Emits compiler.options.lengthUnit ⟨index, cell⟩ done (element.rendered compiler) .none := by
  cases element with
  | text run =>
    rw [inline_text, Arithmetic.add_naturals] at h
    obtain rfl := Except.ok.inj h
    exact ⟨by simp [Inline.rendered, LengthUnit.length_codes], fills_text _ _ run⟩
  | unsupported kind =>
    obtain rfl := Except.ok.inj h
    exact ⟨rfl, fills_nil _ _⟩
  | object id =>
    simp only [Compiler.inline] at h
    split at h
    · cases h
    rename_i found hf
    split at h
    · cases h
    rename_i uri hu
    obtain rfl := Except.ok.inj h
    have hr : Inline.rendered compiler (.object id) = [.plain (.image uri)] := by
      simp [Inline.rendered, hf, hu]
    rw [hr]
    refine ⟨rfl, ?_⟩
    intro target before after hs hi _
    have hins : target.apply compiler.options.lengthUnit
        (.insertInlineImage (Cursor.here ⟨index, cell⟩) uri) =
        some (target.write cell (before ++ [.plain (.image uri)] ++ after)) :=
      Target.insert_between hs hi _
    rw [Target.replay, List.foldlM_cons, hins]
    rfl

theorem emits_paragraph (compiler : Compiler .naturals) (cell : Option CellAddress) (index : Nat)
    (paragraph : Paragraph) (done : Compilation)
    (h : compiler.paragraph ⟨index, cell⟩ paragraph = .ok done) :
    Emits compiler.options.lengthUnit ⟨index, cell⟩ done (paragraph.rendered compiler) .none := by
  obtain ⟨inner, hin, rfl⟩ := paragraph_ok h
  obtain ⟨hi, hfill⟩ := emits_each_plain (compiler.emits_inline cell) hin
  set atoms := paragraph.elements.flatMap (Inline.rendered compiler) with hatoms
  rw [styling]
  split
  case isTrue hstyle =>
    have hr : paragraph.rendered compiler =
        atoms.map fun atom => { atom with paragraphStyle := paragraph.style } := by
      simp [Paragraph.rendered, hstyle.1, hatoms]
    rw [hr]
    refine ⟨by simpa using hi, ?_⟩
    intro target before after hs hb hn
    have hr : (target.write cell (before ++ atoms ++ after)).apply compiler.options.lengthUnit
        (.styleParagraph ⟨index, inner.endIndex, cell⟩ paragraph.style) =
        some ((target.write cell (before ++ atoms ++ after)).write cell
          (before ++ atoms.map (fun atom => { atom with paragraphStyle := paragraph.style }) ++
            after)) :=
      Target.restyle_between (Target.space_write _ _ _) (by simpa using hb) (by simpa using hi) _
    rw [Target.replay_append, hfill target before after hs hb hn, Target.withCells_none]
    change Target.replay _ (target.write cell (before ++ atoms ++ after)) _ = _
    rw [Target.replay, List.foldlM_cons, hr, Target.write_write]
    rfl
  case isFalse hstyle =>
    -- No style is asked for, there is none, or there are no units to set it on.
    have hr : paragraph.rendered compiler = atoms := by
      simp only [Paragraph.rendered, ← hatoms]
      split_ifs with hp
      · rw [List.map_congr_left (g := id), List.map_id]
        intro atom ha
        by_cases he : paragraph.style.isEmpty
        · obtain ⟨element, -, hm⟩ := List.mem_flatMap.mp ha
          rw [Style.eq_empty he, ← paragraphStyle_rendered hm]
          rfl
        · have hend : ¬index < inner.endIndex := fun hlt => hstyle ⟨hp, he, hlt⟩
          have hpos := List.length_pos_of_mem ha
          simp only at hi
          omega
      · rfl
    rw [hr, List.append_nil]
    exact ⟨hi, hfill⟩

/-- The content of a cell fills the cell, since no table is compiled there. -/
theorem emits_cell (compiler : Compiler .naturals) (address : CellAddress) (content : List Block)
    (done : Compilation) (h : compiler.cell address content = .ok done) :
    Emits compiler.options.lengthUnit (.inCell address) done
      (content.flatMap (Block.rendered compiler)) .none := by
  refine emits_each_plain ?_ h
  intro index block done hb
  cases block with
  | paragraph p => exact compiler.emits_paragraph _ index p done hb
  | table t => cases hb
  | unsupported kind =>
    obtain rfl := Except.ok.inj hb
    exact ⟨rfl, fills_nil _ _⟩

/-- Cells that are open and empty are filled one by one, and nothing else is touched. -/
theorem replay_slots (compiler : Compiler .naturals) (index : Nat) {slots : List (Table.Slot Block)}
    {done : Compilation} (h : Emitter.each compiler.slot ⟨index, none⟩ slots = .ok done)
    (hnd : (slots.map fun slot => (slot.row, slot.column)).Nodup) {target : Target}
    (hopen : ∀ slot ∈ slots, target.cells ⟨index, slot.row, slot.column⟩ = some []) :
    ∃ cells : Cells,
      target.replay compiler.options.lengthUnit done.requests = some { target with cells } ∧
      (∀ slot ∈ slots, slot.content.isSome ∧ cells ⟨index, slot.row, slot.column⟩ =
        slot.content.map (List.flatMap (Block.rendered compiler))) ∧
      ∀ address : CellAddress,
        (∀ slot ∈ slots, address ≠ ⟨index, slot.row, slot.column⟩) →
        cells address = target.cells address := by
  -- Filling one cell leaves those of the other slots open and empty.
  induction slots generalizing done target with
  | nil =>
    obtain rfl := Except.ok.inj ((Emitter.each_nil _).symm.trans h)
    exact ⟨target.cells, rfl, by simp, fun _ _ => rfl⟩
  | cons slot slots ih =>
    obtain ⟨first, rest, hf, hr, rfl⟩ := Emitter.each_cons_ok h
    obtain ⟨row, column, content⟩ := slot
    obtain ⟨hnew, hrest⟩ := List.nodup_cons.mp hnd
    cases content with
    | none => cases hf
    | some content =>
      obtain ⟨inner, hin, hf⟩ := Outcome.bind_eq_ok.mp hf
      obtain rfl := Except.ok.inj hf
      let address : CellAddress := ⟨index, row, column⟩
      have hfill := (compiler.emits_cell address content inner hin).2 target [] []
        (hopen _ List.mem_cons_self) rfl (fun _ hs => by simp [Cells.none] at hs)
      rw [Target.withCells_none, List.nil_append, List.append_nil] at hfill
      let next := target.write (some address) (content.flatMap (Block.rendered compiler))
      have hother : ∀ slot ∈ slots, (⟨index, slot.row, slot.column⟩ : CellAddress) ≠ address := by
        intro slot hs he
        apply hnew
        rw [CellAddress.mk.injEq] at he
        exact List.mem_map.mpr ⟨slot, hs, by simp [he.2.1, he.2.2]⟩
      have hnext : ∀ slot ∈ slots, next.cells ⟨index, slot.row, slot.column⟩ = some [] := by
        intro slot hs
        have hne := hother slot hs
        have ho := hopen slot (List.mem_cons_of_mem _ hs)
        simpa [next, Target.write, hne] using ho
      obtain ⟨cells, hrep, hin, hout⟩ := ih hr hrest hnext
      refine ⟨cells, ?_, ?_, ?_⟩
      · change target.replay _ (inner.requests ++ rest.requests) = _
        rw [Target.replay_append, hfill]
        exact hrep
      · intro slot hs
        rcases List.mem_cons.mp hs with rfl | hs
        · refine ⟨rfl, ?_⟩
          rw [hout address fun slot hs => (hother slot hs).symm]
          simp [next, Target.write]
        · exact hin slot hs
      · intro other hne
        rw [hout other fun slot hs => hne slot (List.mem_cons_of_mem _ hs)]
        have ho : other ≠ address := hne _ List.mem_cons_self
        simp [next, Target.write, ho]

/-- A table is one unit, and its declared cells are opened and filled. -/
theorem emits_table (compiler : Compiler .naturals) (index : Nat) (table : Table Block)
    (done : Compilation) (h : compiler.table ⟨index, none⟩ table = .ok done) :
    Emits compiler.options.lengthUnit ⟨index, none⟩ done
      (Block.rendered compiler (.table table))
      (Block.renderedCells compiler index (.table table)) := by
  obtain ⟨-, cells, stop, hc, hs, rfl⟩ := table_ok h
  obtain rfl := Option.some.inj hs
  rw [each_slots] at hc
  refine ⟨rfl, ?_⟩
  intro target before after hs hi hn
  let rows := table.rows.toNat
  let columns := table.columns.toNat
  let atom := Atom.plain (.table rows columns)
  have hdeclared : ∀ row < rows, ∀ column < columns,
      (⟨row, column, table.cell? row column⟩ : Table.Slot Block) ∈ table.declared :=
    fun row hr column hcol => Table.mem_declared.mpr ⟨hr, hcol, rfl⟩
  -- The cells are replayed on the target in which the table stands and its cells are empty.
  let opened := (target.write none (before ++ [atom] ++ after)).withCells
    (Target.emptyCells index rows columns)
  have hempty : ∀ slot ∈ table.declared,
      opened.cells ⟨index, slot.row, slot.column⟩ = some [] := by
    intro slot hm
    obtain ⟨hr, hcol, -⟩ := Table.mem_declared.mp hm
    simp [opened, Target.withCells, Target.emptyCells, rows, columns, hr, hcol]
  obtain ⟨filled, hrep, hin, hout⟩ :=
    compiler.replay_slots index hc table.nodup_declared hempty
  have hvacant : target.Vacant index rows columns := by
    intro row hr column hcol
    apply hn
    have hsome := (hin _ (hdeclared row hr column hcol)).1
    have hrendered : Block.renderedCells compiler index (.table table) ⟨index, row, column⟩ =
        (table.cell? row column).map (List.flatMap (Block.rendered compiler)) :=
      if_pos ⟨rfl, hr, hcol⟩
    rw [hrendered, Option.isSome_map]
    exact hsome
  have hins : target.apply compiler.options.lengthUnit
      (.insertTable rows columns (Cursor.here ⟨index, none⟩)) = some opened :=
    Target.apply_insertTable hvacant (Target.insert_between hs hi _)
  rw [Target.replay, List.foldlM_cons]
  change (target.apply compiler.options.lengthUnit
    (.insertTable rows columns (Cursor.here ⟨index, none⟩)) >>= _) = _
  rw [hins]
  change opened.replay _ cells.requests = _
  rw [hrep]
  congr 1
  refine Target.ext rfl rfl ?_
  funext address
  simp only [Target.withCells, Block.renderedCells]
  split_ifs with ha
  · obtain ⟨rfl, hr, hcol⟩ := ha
    obtain ⟨hsome, hcell⟩ := hin _ (hdeclared _ hr _ hcol)
    rw [hcell]
    obtain ⟨content, hcontent⟩ : ∃ content, table.cell? address.row address.column = some content :=
      Option.isSome_iff_exists.mp hsome
    simp [hcontent]
  · rw [hout address]
    · simp [opened, Target.withCells, Target.write, Target.emptyCells, rows, columns, ha]
    · intro slot hm he
      obtain ⟨hr, hcol, -⟩ := Table.mem_declared.mp hm
      exact ha (by simp [he, hr, hcol])

theorem emits_block (compiler : Compiler .naturals) (index : Nat) (block : Block)
    (done : Compilation) (h : compiler.block compiler.table ⟨index, none⟩ block = .ok done) :
    Emits compiler.options.lengthUnit ⟨index, none⟩ done (block.rendered compiler)
      (block.renderedCells compiler index) := by
  cases block with
  | paragraph p => exact compiler.emits_paragraph none index p done h
  | table t => exact compiler.emits_table index t done h
  | unsupported kind =>
    obtain rfl := Except.ok.inj h
    exact ⟨rfl, fills_nil _ _⟩

theorem renderedCells_bounds (compiler : Compiler .naturals) (index : Nat) (block : Block)
    (address : CellAddress) (h : (block.renderedCells compiler index address).isSome) :
    index ≤ address.tableStart ∧
      address.tableStart < index+(block.rendered compiler).length := by
  cases block with
  | paragraph p => simp [Block.renderedCells] at h
  | unsupported kind => simp [Block.renderedCells] at h
  | table t =>
    simp only [Block.renderedCells] at h
    split_ifs at h with ha
    · simp [Block.rendered, ha.1]
    · simp at h

end Compiler

/-- Replaying what a document compiles to admits every request and puts the rendered document in
its place: its units between those that stand before and after the start, its cells filled, and
nothing else changed. The cells of the document must not be open in the target before. -/
theorem replay_reproduces {document : Document} {options : Options} {done : Compilation}
    (h : document.compile .naturals options = .ok done) {target : Target} {before after : List Atom}
    (hb : target.body = before ++ after)
    (hs : options.startIndex.toNat = target.origin+before.length)
    (hn : ∀ address, (document.renderedCells options address).isSome →
      target.cells address = none) :
    target.replay options.lengthUnit done.requests = some
      { origin := target.origin
        body := before ++ document.rendered options ++ after
        cells := fun address =>
          (document.renderedCells options address).or (target.cells address) } ∧
    done.endIndex = options.startIndex.toNat+(document.rendered options).length := by
  have hall := emits_each
    (fun index block => (document.compiler .naturals options).emits_block index block)
    (document.compiler .naturals options).renderedCells_bounds h
  exact ⟨hall.2 target before after (congrArg some hb) hs hn, hall.1⟩

/-- A table with one cell, between text outside the first plane and an image. -/
def Document.mixed : Document where
  id := none
  title := none
  content := [
    .paragraph ⟨[.styled "a😀" .bold, .unsupported "pageBreak"], .named "TITLE"⟩,
    .table ⟨1, 1, [[[.paragraph (.plain "x")], [.unsupported "beyond"]]]⟩,
    .paragraph ⟨[.object "i"], .empty⟩]
  inlineObjects := .ofList [("i", .image "u")]

/-- A target of two units whose body starts at 0, with a cell of another table. -/
def Target.twoUnits : Target where
  origin := 0
  body := [.plain (.code 104), .plain (.code 105)]
  cells := fun address => if address = ⟨1, 0, 0⟩ then some [.plain (.code 121)] else none

theorem replay_reproduces_mixed :
    ∃ done, Document.mixed.compile .naturals ⟨1, .utf16, true⟩ = .ok done ∧
      (Target.twoUnits.replay .utf16 done.requests = some
        { origin := 0
          body := [.plain (.code 104)] ++ Document.mixed.rendered ⟨1, .utf16, true⟩ ++
            [.plain (.code 105)]
          cells := fun address =>
            (Document.mixed.renderedCells ⟨1, .utf16, true⟩ address).or
              (Target.twoUnits.cells address) } ∧
        done.endIndex = 1+(Document.mixed.rendered ⟨1, .utf16, true⟩).length) ∧
      Document.mixed.rendered ⟨1, .utf16, true⟩ =
        [⟨.code 0x61, .bold, .named "TITLE"⟩, ⟨.code 0xD83D, .bold, .named "TITLE"⟩,
          ⟨.code 0xDE00, .bold, .named "TITLE"⟩, .plain (.table 1 1), .plain (.image "u")] := by
  have hn : ∀ address, (Document.mixed.renderedCells ⟨1, .utf16, true⟩ address).isSome →
      Target.twoUnits.cells address = none := by
    intro address hs
    refine if_neg ?_
    rintro rfl
    exact absurd hs (by decide)
  have hc : ∃ done, Document.mixed.compile .naturals ⟨1, .utf16, true⟩ = .ok done := ⟨_, rfl⟩
  obtain ⟨done, hc⟩ := hc
  exact ⟨done, hc, replay_reproduces hc rfl rfl hn, by decide⟩

end EditScript
