import EditScript.Proofs.Success

namespace EditScript

namespace Request

def style? : Request → Option Style
  | .insertText _ _ | .insertInlineImage _ _ | .insertTable _ _ _ => none
  | .updateTextStyle _ style _ | .updateParagraphStyle _ style _ => some style

end Request

def Inline.styles : Inline → List Style
  | .text run => [run.style]
  | .object _ | .unsupported _ => []

def Paragraph.styles (paragraph : Paragraph) : List Style :=
  paragraph.style :: paragraph.elements.flatMap Inline.styles

namespace Block

mutual

/-- The styles in a block, in the cells of its tables as well. -/
def styles : Block → List Style
  | .paragraph p => p.styles
  | .table ⟨_, _, grid⟩ => stylesGrid grid
  | .unsupported _ => []

def stylesGrid : List (List (List Block)) → List Style
  | [] => []
  | row :: rows => stylesRow row ++ stylesGrid rows

def stylesRow : List (List Block) → List Style
  | [] => []
  | cell :: cells => stylesList cell ++ stylesRow cells

def stylesList : List Block → List Style
  | [] => []
  | block :: blocks => styles block ++ stylesList blocks

end

theorem mem_stylesList {blocks : List Block} {style : Style} :
    style ∈ stylesList blocks ↔ ∃ block ∈ blocks, style ∈ styles block := by
  induction blocks with
  | nil => simp [stylesList]
  | cons block blocks ih => simp [stylesList, ih]

theorem mem_stylesRow {row : List (List Block)} {style : Style} :
    style ∈ stylesRow row ↔ ∃ cell ∈ row, style ∈ stylesList cell := by
  induction row with
  | nil => simp [stylesRow]
  | cons cell cells ih => simp [stylesRow, ih]

theorem mem_stylesGrid {grid : List (List (List Block))} {style : Style} :
    style ∈ stylesGrid grid ↔ ∃ row ∈ grid, style ∈ stylesRow row := by
  induction grid with
  | nil => simp [stylesGrid]
  | cons row rows ih => simp [stylesGrid, ih]

end Block

/-- The request has no style, or one of these that is not empty. -/
def Request.StyledFrom (styles : List Style) (request : Request) : Prop :=
  ∀ style ∈ request.style?, style ∈ styles ∧ style.isEmpty = false

theorem Request.StyledFrom.mono {styles more : List Style} {request : Request}
    (h : request.StyledFrom styles) (hm : ∀ style ∈ styles, style ∈ more) :
    request.StyledFrom more := by
  intro style hs
  exact ⟨hm style (h style hs).1, (h style hs).2⟩

namespace Compiler

variable {arithmetic : Arithmetic} {compiler : Compiler arithmetic} {index : Nat}
  {cell : Option CellAddress} {done : Compilation}

theorem styledFrom_inline {element : Inline} (h : compiler.inline ⟨index, cell⟩ element = .ok done) :
    ∀ request ∈ done.requests, request.StyledFrom element.styles := by
  obtain ⟨run, stop, rfl, -, rfl⟩ | ⟨id, found, uri, stop, rfl, -, -, -, rfl⟩ | ⟨kind, rfl, rfl⟩ :=
    inline_ok h
  · intro request hr
    rcases List.mem_cons.mp hr with rfl | hr
    · exact nofun
    · cases he : run.style.isEmpty with
      | true =>
        rw [he] at hr
        exact absurd hr List.not_mem_nil
      | false =>
        rw [he] at hr
        rw [List.mem_singleton.mp hr]
        intro style hs
        obtain rfl := Option.some.inj hs
        exact ⟨List.mem_singleton_self _, he⟩
  · intro request hr
    rw [List.mem_singleton.mp hr]
    exact nofun
  · exact List.forall_mem_nil _

theorem styledFrom_styling {span : Span} {style : Style} :
    ∀ request ∈ compiler.styling span style, request.StyledFrom [style] := by
  intro request hr
  rw [styling] at hr
  split at hr
  case isTrue hstyle =>
    rw [List.mem_singleton.mp hr]
    intro given hs
    obtain rfl := Option.some.inj hs
    exact ⟨List.mem_singleton_self _, Bool.eq_false_iff.mpr hstyle.2.1⟩
  case isFalse => exact absurd hr List.not_mem_nil

theorem styledFrom_paragraph {paragraph : Paragraph}
    (h : compiler.paragraph ⟨index, cell⟩ paragraph = .ok done) :
    ∀ request ∈ done.requests, request.StyledFrom paragraph.styles := by
  obtain ⟨inner, hin, rfl⟩ := paragraph_ok h
  intro request hr
  rcases List.mem_append.mp hr with hr | hr
  · refine Emitter.each_forall ?_ hin request hr
    intro element he index done hd request hr
    refine (styledFrom_inline hd request hr).mono ?_
    intro style hs
    exact List.mem_cons_of_mem _ (List.mem_flatMap.mpr ⟨element, he, hs⟩)
  · refine (styledFrom_styling request hr).mono ?_
    intro style hs
    rw [List.mem_singleton.mp hs]
    exact List.mem_cons_self

theorem styledFrom_blocks {content : List Block} {start : Nat}
    (ht : ∀ t index done, cell = none → compiler.table ⟨index, none⟩ t = .ok done →
      ∀ request ∈ done.requests, request.StyledFrom (Block.table t).styles)
    (h : compiler.compile content cell start = .ok done) :
    ∀ request ∈ done.requests, request.StyledFrom (Block.stylesList content) := by
  refine Emitter.each_forall ?_ h
  intro block hb index done hd
  have hblock : ∀ request ∈ done.requests, request.StyledFrom block.styles := by
    obtain ⟨p, rfl, hp⟩ | ⟨t, rfl, hcell, hd⟩ | ⟨kind, rfl, rfl⟩ := block_ok hd
    · exact styledFrom_paragraph hp
    · exact ht t index done hcell hd
    · exact List.forall_mem_nil _
  intro request hr
  refine (hblock request hr).mono ?_
  intro style hs
  exact Block.mem_stylesList.mpr ⟨block, hb, hs⟩

theorem styledFrom_table {table : Table Block}
    (h : compiler.table ⟨index, none⟩ table = .ok done) :
    ∀ request ∈ done.requests, request.StyledFrom (Block.table table).styles := by
  obtain ⟨-, cells, stop, hcells, -, rfl⟩ := table_ok h
  intro request hr
  rcases List.mem_cons.mp hr with rfl | hr
  · exact nofun
  · refine Emitter.each_forall ?_ hcells request hr
    intro slot hslot index done hd request hr
    obtain ⟨content, inner, hc, hin, rfl⟩ := slot_ok hd
    obtain ⟨row, hrow, hcontent⟩ := Table.mem_slots hslot hc
    refine (styledFrom_blocks (fun _ _ _ hcell => by cases hcell) hin request hr).mono ?_
    intro style hs
    exact Block.mem_stylesGrid.mpr ⟨row, hrow, Block.mem_stylesRow.mpr ⟨content, hcontent, hs⟩⟩

/-- Requests are styled from the content that is compiled. -/
theorem styledFrom_compile {content : List Block} {start : Nat}
    (h : compiler.compile content cell start = .ok done) :
    ∀ request ∈ done.requests, request.StyledFrom (Block.stylesList content) :=
  styledFrom_blocks (fun _ _ _ _ => styledFrom_table) h

end Compiler
end EditScript
