import EditScript.Proofs.Document.RoundTrip
import EditScript.Proofs.Request.Accepted
import EditScript.Proofs.Spaces

namespace EditScript

open Json (depth depthItems depthMembers)

theorem Style.depth_toMembers {style : Style} (h : style.isEmpty = false) (name : String) :
    depthMembers (style.toMembers name) = style.toJson.depth := by
  rw [toMembers, h]
  simp [depthMembers]

theorem Inline.depth_style {element : Inline} {style : Style} (hs : style ∈ element.styles)
    (he : style.isEmpty = false) : style.toJson.depth+2 ≤ element.toJson.depth := by
  cases element with
  | text run =>
    rw [List.mem_singleton.mp hs] at he ⊢
    simp only [toJson, TextRun.toJson, depth, depthMembers, Style.depth_toMembers he]
    omega
  | object _ | unsupported _ => exact absurd hs List.not_mem_nil

theorem Paragraph.depth_style {paragraph : Paragraph} {style : Style}
    (hs : style ∈ paragraph.styles) (he : style.isEmpty = false) :
    style.toJson.depth+1 ≤ paragraph.toJson.depth := by
  simp only [toJson, depth, depthMembers]
  rcases List.mem_cons.mp hs with rfl | hs
  · rw [Style.depth_toMembers he]
    omega
  · obtain ⟨element, hm, hs⟩ := List.mem_flatMap.mp hs
    have hd := Inline.depth_style hs he
    have hle := Json.depthItems_le.mp (Nat.le_refl _) element.toJson
      (List.mem_map_of_mem (f := Inline.toJson) hm)
    omega

namespace Block

mutual

/-- A style stands two deeper than the block that it is in. -/
theorem depth_style : (block : Block) → ∀ style ∈ block.styles, style.isEmpty = false →
    style.toJson.depth+2 ≤ block.toJson.depth
  | .paragraph p => by
    intro style hs he
    have hd := Paragraph.depth_style hs he
    simp only [toJson, depth, depthMembers]
    omega
  | .table ⟨rows, columns, grid⟩ => by
    intro style hs he
    have hd := depth_styleGrid grid style hs he
    simp only [toJson, Table.toJsonWith, depth, depthMembers]
    omega
  | .unsupported _ => by
    intro style hs
    exact absurd hs List.not_mem_nil

theorem depth_styleGrid : (grid : List (List (List Block))) → ∀ style ∈ stylesGrid grid,
    style.isEmpty = false → style.toJson.depth+2 ≤ depthItems (gridToJson grid)
  | [] => by
    intro style hs
    exact absurd hs List.not_mem_nil
  | row :: rows => by
    intro style hs he
    rw [gridToJson, depthItems]
    rcases List.mem_append.mp hs with hs | hs
    · have hd := depth_styleRow row style hs he
      simp only [Json.holding, depth, depthMembers]
      omega
    · have hd := depth_styleGrid rows style hs he
      omega

theorem depth_styleRow : (row : List (List Block)) → ∀ style ∈ stylesRow row,
    style.isEmpty = false → style.toJson.depth+2 ≤ depthItems (rowToJson row)
  | [] => by
    intro style hs
    exact absurd hs List.not_mem_nil
  | cell :: cells => by
    intro style hs he
    rw [rowToJson, depthItems]
    rcases List.mem_append.mp hs with hs | hs
    · have hd := depth_styleList cell style hs he
      simp only [Json.holding, depth, depthMembers]
      omega
    · have hd := depth_styleRow cells style hs he
      omega

theorem depth_styleList : (blocks : List Block) → ∀ style ∈ stylesList blocks,
    style.isEmpty = false → style.toJson.depth+2 ≤ depthItems (listToJson blocks)
  | [] => by
    intro style hs
    exact absurd hs List.not_mem_nil
  | block :: blocks => by
    intro style hs he
    rw [listToJson, depthItems]
    rcases List.mem_append.mp hs with hs | hs
    · have hd := depth_style block style hs he
      omega
    · have hd := depth_styleList blocks style hs he
      omega

end

end Block

theorem Document.depth_content (document : Document) :
    depthItems (Block.listToJson document.content)+3 ≤ document.toJson.depth := by
  simp only [toJson, Json.holding, depth, Json.depthMembers_append, depthMembers]
  omega

/-- What is compiled from a document nests no deeper than the document, or no deeper than the
requests that have no style. -/
theorem Document.depth_compile {arithmetic : Arithmetic} {document : Document} {options : Options}
    {done : Compilation} (h : document.compile arithmetic options = .ok done) {n : Nat} (hn : 6 ≤ n)
    (hd : document.toJson.depth ≤ n) : done.toBatch.toJson.depth ≤ n := by
  have hrequests : ∀ request ∈ done.requests, request.toJson.depth ≤ n-2 := by
    intro request hr
    have hfrom := Compiler.styledFrom_compile h request hr
    have hstyle : ∀ style ∈ request.style?, style.toJson.depth ≤ n-4 := by
      intro style hs
      have hin := Block.depth_styleList document.content style (hfrom style hs).1 (hfrom style hs).2
      have hc := document.depth_content
      omega
    have hdepth := Request.depth_toJson (by omega) hstyle
    omega
  have hbatch : done.toBatch.toJson.depth ≤ n-2+2 := Batch.depth_toJson hrequests
  omega

/-- Every index in the requests is a word, and so is the one after them. -/
structure Compilation.Words (done : Compilation) : Prop where
  endIndex : done.endIndex < UInt64.size
  requests : done.toBatch.Words

theorem Emitter.words_each {α : Type} {emit : Emitter α} {cell : Option CellAddress} {as : List α}
    (h : ∀ a ∈ as, ∀ index done, index < UInt64.size → emit ⟨index, cell⟩ a = .ok done →
      done.Words) {index : Nat} {done : Compilation} (hi : index < UInt64.size)
    (hd : each emit ⟨index, cell⟩ as = .ok done) : done.Words := by
  induction as generalizing index done with
  | nil =>
    obtain rfl := Except.ok.inj hd
    exact ⟨hi, List.forall_mem_nil _⟩
  | cons a as ih =>
    obtain ⟨first, rest, hf, hr, rfl⟩ := each_cons_ok hd
    have hfirst := h a List.mem_cons_self index first hi hf
    have hrest := ih (fun b hb => h b (List.mem_cons_of_mem _ hb)) hfirst.endIndex hr
    exact ⟨hrest.endIndex, List.forall_mem_append.mpr ⟨hfirst.requests, hrest.requests⟩⟩

namespace Compiler
open Emitter

variable {overflow : Overflow} {compiler : Compiler (.words overflow)} {index : Nat}
  {cell : Option CellAddress} {done : Compilation}

theorem words_inline (hc : ∀ address ∈ cell, address.Words) {element : Inline}
    (hi : index < UInt64.size) (h : compiler.inline ⟨index, cell⟩ element = .ok done) :
    done.Words := by
  obtain ⟨run, stop, -, hs, rfl⟩ | ⟨id, found, uri, stop, -, -, -, hs, rfl⟩ | ⟨kind, -, rfl⟩ :=
    inline_ok h
  · have hstop : stop < UInt64.size := Arithmetic.holds_add hs
    refine ⟨hstop, List.forall_mem_cons.mpr ⟨⟨hi, hc⟩, ?_⟩⟩
    split
    · exact List.forall_mem_nil _
    · exact List.forall_mem_singleton.mpr ⟨hi, hstop, hc⟩
  · exact ⟨Arithmetic.holds_add hs, List.forall_mem_singleton.mpr ⟨hi, hc⟩⟩
  · exact ⟨hi, List.forall_mem_nil _⟩

theorem words_paragraph (hc : ∀ address ∈ cell, address.Words) {paragraph : Paragraph}
    (hi : index < UInt64.size) (h : compiler.paragraph ⟨index, cell⟩ paragraph = .ok done) :
    done.Words := by
  obtain ⟨inner, hin, rfl⟩ := paragraph_ok h
  have hinner := words_each (fun _ _ _ _ hi hd => words_inline hc hi hd) hi hin
  refine ⟨hinner.endIndex, List.forall_mem_append.mpr ⟨hinner.requests, ?_⟩⟩
  intro request hr
  rw [mem_styling hr]
  exact ⟨hi, hinner.endIndex, hc⟩

theorem words_blocks (hc : ∀ address ∈ cell, address.Words)
    (ht : ∀ t index done, cell = none → index < UInt64.size →
      compiler.table ⟨index, none⟩ t = .ok done → done.Words)
    {content : List Block} {start : Nat} (hs : start < UInt64.size)
    (h : compiler.compile content cell start = .ok done) : done.Words := by
  refine words_each ?_ hs h
  intro block _ index done hi hd
  obtain ⟨p, rfl, hp⟩ | ⟨t, rfl, hcell, hd⟩ | ⟨kind, rfl, rfl⟩ := block_ok hd
  · exact words_paragraph hc hi hp
  · exact ht t index done hcell hi hd
  · exact ⟨hi, List.forall_mem_nil _⟩

theorem words_slot {slot : Table.Slot Block} (hr : slot.row < UInt64.size)
    (hc : slot.column < UInt64.size) (hi : index < UInt64.size)
    (h : compiler.slot ⟨index, none⟩ slot = .ok done) : done.Words := by
  obtain ⟨content, inner, -, hin, rfl⟩ := slot_ok h
  have haddress : ∀ address ∈ some (⟨index, slot.row, slot.column⟩ : CellAddress),
      address.Words := by
    rintro _ ⟨⟩
    exact ⟨hi, hr, hc⟩
  have hinner := words_blocks haddress (fun _ _ _ hnone => nomatch hnone) (by decide) hin
  exact ⟨hi, hinner.requests⟩

/-- Rows and columns of declared cells are fewer than a table has. -/
theorem words_table {table : Table Block} (hi : index < UInt64.size)
    (h : compiler.table ⟨index, none⟩ table = .ok done) : done.Words := by
  obtain ⟨-, cells, stop, hcells, hs, rfl⟩ := table_ok h
  rw [each_slots] at hcells
  have hinside : cells.Words := by
    refine words_each ?_ hi hcells
    intro slot hslot index done hi hd
    obtain ⟨hrow, hcolumn, -⟩ := Table.mem_declared.mp hslot
    exact words_slot (Nat.lt_trans hrow table.rows.toNat_lt)
      (Nat.lt_trans hcolumn table.columns.toNat_lt) hi hd
  refine ⟨Arithmetic.holds_add hs, List.forall_mem_cons.mpr ⟨?_, hinside.requests⟩⟩
  exact ⟨table.rows.toNat_lt, table.columns.toNat_lt, hi, fun _ hnone => nomatch hnone⟩

theorem words_compile (hc : ∀ address ∈ cell, address.Words) {content : List Block} {start : Nat}
    (hs : start < UInt64.size) (h : compiler.compile content cell start = .ok done) :
    done.Words :=
  words_blocks hc (fun _ _ _ _ => words_table) hs h

end Compiler

namespace Batch

open Lexical (nesting withoutBlanks)

theorem ofText_fits {text : String} {batch : Batch} (h : ofText text = .ok batch) :
    batch.Words ∧ nesting batch.toJson.compact ≤ 127 := by
  obtain ⟨read, hr, h⟩ := Outcome.bind_eq_ok.mp h
  obtain ⟨_, -, h⟩ := Outcome.bind_eq_ok.mp h
  cases h
  rw [Lexical.nesting_compact]
  exact reader_fits hr

theorem ofText_spell {batch : Batch} (hw : batch.Words) (hn : nesting batch.toJson.compact ≤ 127)
    {spacing : Json.Spacing} (hs : spacing.Blank) :
    ofText (.ofList (batch.toJson.spell spacing 0)) = .ok batch := by
  rw [Lexical.nesting_compact] at hn
  exact Scan.read_spell (reads hw hn) hs

/-- A batch is read back from a text of it exactly if its indices are words and its brackets nest at
most 127 deep. -/
theorem ofText_spell_iff {batch : Batch} {spacing : Json.Spacing} (hs : spacing.Blank) :
    ofText (.ofList (batch.toJson.spell spacing 0)) = .ok batch ↔
      batch.Words ∧ nesting batch.toJson.compact ≤ 127 := by
  constructor
  · intro h
    exact ofText_fits h
  · intro h
    exact ofText_spell h.1 h.2 hs

/-- A batch is read back from its compact and from its pretty text exactly if every index in it is a
word and its brackets nest at most 127 deep, and the two texts differ only in blanks outside of
strings. What is compiled from a document that was read, in words that may overflow either way, has
such indices and never nests deeper, so it is read back. -/
theorem wire_round_trip :
    (∀ batch : Batch,
      (ofText batch.toJson.compact = .ok batch ↔
        batch.Words ∧ nesting batch.toJson.compact ≤ 127) ∧
      (ofText batch.toJson.pretty = .ok batch ↔
        batch.Words ∧ nesting batch.toJson.pretty ≤ 127) ∧
      withoutBlanks batch.toJson.pretty = batch.toJson.compact) ∧
    (∀ (overflow : Overflow) (document : Document) (options : Options) (done : Compilation),
      document.Accepted → document.compile (.words overflow) options = .ok done →
      (nesting done.toBatch.toJson.compact ≤ 127 ∧ nesting done.toBatch.toJson.pretty ≤ 127) ∧
        ofText done.toBatch.toJson.compact = .ok done.toBatch ∧
        ofText done.toBatch.toJson.pretty = .ok done.toBatch) := by
  have hpretty (batch : Batch) :
      nesting batch.toJson.pretty = nesting batch.toJson.compact := by
    rw [Lexical.nesting_pretty, Lexical.nesting_compact]
  constructor
  · intro batch
    rw [hpretty]
    exact ⟨ofText_spell_iff Json.Spacing.blank_compact, ofText_spell_iff Json.Spacing.blank_pretty,
      Lexical.withoutBlanks_pretty batch.toJson⟩
  · intro overflow document options done haccepted hdone
    have hn : nesting done.toBatch.toJson.compact ≤ 127 := by
      have hfits := haccepted.fits.2
      rw [Lexical.nesting_compact] at hfits ⊢
      exact Document.depth_compile hdone (by decide) hfits
    have hw := (Compiler.words_compile (by simp) options.startIndex.toNat_lt hdone).requests
    rw [hpretty]
    exact ⟨⟨hn, hn⟩, ofText_spell hw hn Json.Spacing.blank_compact,
      ofText_spell hw hn Json.Spacing.blank_pretty⟩

def outline : Batch :=
  ⟨[.insertText ⟨1, none⟩ "Title\n", .restyle ⟨1, 7, none⟩ .bold, .insertTable 1 1 ⟨7, none⟩,
    .insertInlineImage ⟨1, some ⟨7, 0, 0⟩⟩ "logo.png"]⟩

theorem compile_outline :
    ∃ done, Document.outline.compile (.words .wraps) .defaults = .ok done ∧
      done.toBatch = outline :=
  ⟨_, rfl, by decide⟩

theorem words_outline : outline.Words := by decide

theorem wire_round_trip_outline :
    ofText outline.toJson.compact = .ok outline ∧ ofText outline.toJson.pretty = .ok outline ∧
      withoutBlanks outline.toJson.pretty = outline.toJson.compact ∧
      nesting outline.toJson.compact ≤ 127 := by
  obtain ⟨done, hd, ho⟩ := compile_outline
  have hcompiled := wire_round_trip.2 .wraps Document.outline .defaults done
    Document.accepted_outline hd
  rw [ho] at hcompiled
  have hwritten := wire_round_trip.1 outline
  exact ⟨hwritten.1.mpr ⟨words_outline, hcompiled.1.1⟩, hcompiled.2.2, hwritten.2.2,
    hcompiled.1.1⟩

end Batch
end EditScript
