import EditScript.Proofs.Changes
import EditScript.Proofs.Walk
import Mathlib.Data.List.Forall2

namespace EditScript

def Request.stylesParagraph : Request → Bool
  | .updateParagraphStyle _ _ _ => true
  | .insertText _ _ | .insertInlineImage _ _ | .insertTable _ _ _ | .updateTextStyle _ _ _ => false

def Compilation.withoutParagraphStyles (done : Compilation) : Compilation :=
  { done with requests := done.requests.filter fun request => !request.stylesParagraph }

def Block.paragraph? : Block → Option Paragraph
  | .paragraph p => some p
  | .table _ | .unsupported _ => none

/-- The paragraph has a style, and units to be styled. -/
def Paragraph.Stylable (unit : LengthUnit) (paragraph : Paragraph) : Prop :=
  ¬paragraph.style.isEmpty ∧ 0 < paragraph.units unit

instance (unit : LengthUnit) (paragraph : Paragraph) : Decidable (paragraph.Stylable unit) :=
  inferInstanceAs (Decidable (_ ∧ _))

/-- The request styles just the units of the paragraph, in its style. -/
def Paragraph.StyledBy (unit : LengthUnit) (paragraph : Paragraph) (request : Request) : Prop :=
  ∃ index cell,
    request = .styleParagraph ⟨index, index+paragraph.units unit, cell⟩ paragraph.style

/-- The paragraphs among blocks that are to be styled. -/
def Block.stylable (unit : LengthUnit) (blocks : List Block) : List Paragraph :=
  (blocks.filterMap paragraph?).filter fun p => p.Stylable unit

theorem Block.stylable_of_pos {unit : LengthUnit} {p : Paragraph} (h : p.Stylable unit) :
    stylable unit [.paragraph p] = [p] := by
  simp [stylable, paragraph?, h]

theorem Block.stylable_of_neg {unit : LengthUnit} {p : Paragraph} (h : ¬p.Stylable unit) :
    stylable unit [.paragraph p] = [] := by
  simp [stylable, paragraph?, h]

def Change.unstyled : Change :=
  .keepStats (Option.guard fun request => !request.stylesParagraph) id id

namespace Change

theorem unstyled_compilation : unstyled.compilation = Compilation.withoutParagraphStyles := by
  funext done
  simp [compilation, Compilation.withoutParagraphStyles, unstyled, keepStats,
    List.filterMap_eq_filter]

theorem inPlace_unstyled : unstyled.InPlace where
  request := fun _ _ _ => rfl
  index := fun _ => rfl
  oneTable := rfl
  oneCell := rfl
  error := fun _ => rfl

end Change

namespace Compiler
open Emitter

variable {arithmetic : Arithmetic}

/-- The compiler that styles paragraphs, or does not. -/
def stylingParagraphs (compiler : Compiler arithmetic) (paragraphStyles : Bool) :
    Compiler arithmetic :=
  { compiler with options := { compiler.options with paragraphStyles } }

variable {compiler : Compiler arithmetic} {index : Nat} {cell : Option CellAddress}
  {done : Compilation}

theorem stylesParagraph_inline {element : Inline}
    (h : compiler.inline ⟨index, cell⟩ element = .ok done) :
    ∀ request ∈ done.requests, request.stylesParagraph = false := by
  obtain ⟨run, stop, -, -, rfl⟩ | ⟨id, found, uri, stop, -, -, -, -, rfl⟩ | ⟨kind, -, rfl⟩ :=
    inline_ok h
  · intro request hr
    rcases List.mem_cons.mp hr with rfl | hr
    · rfl
    · split at hr
      · exact absurd hr List.not_mem_nil
      · rw [List.mem_singleton.mp hr]
        rfl
  · intro request hr
    rw [List.mem_singleton.mp hr]
    rfl
  · exact List.forall_mem_nil _

theorem unstyled_outcome_inline (element : Inline) :
    Change.unstyled.outcome (compiler.inline ⟨index, cell⟩ element) =
      compiler.inline ⟨index, cell⟩ element := by
  cases h : compiler.inline ⟨index, cell⟩ element with
  | error halt => exact congrArg Except.error (Change.inPlace_unstyled.halt halt)
  | ok done =>
    have hn : ∀ request ∈ done.requests, !request.stylesParagraph := by
      intro request hr
      rw [stylesParagraph_inline h request hr]
      rfl
    rw [Change.outcome_ok, Change.unstyled_compilation, Compilation.withoutParagraphStyles,
      List.filter_eq_self.mpr hn]

theorem paragraph_unstyled (compiler : Compiler arithmetic) (paragraph : Paragraph) (index : Nat)
    (cell : Option CellAddress) :
    (compiler.stylingParagraphs false).paragraph ⟨index, cell⟩ paragraph =
      Change.unstyled.outcome
        ((compiler.stylingParagraphs true).paragraph ⟨index, cell⟩ paragraph) := by
  refine paragraph_change Change.unstyled ?_ ?_
  · refine each_change_self Change.unstyled ?_
    intro _ element _ first _ _
    exact (unstyled_outcome_inline element).symm
  · intro inner _
    simp only [styling]
    rw [if_neg (by simp [stylingParagraphs])]
    split <;> rfl

/-- The only request that styles a paragraph stands behind its elements. -/
theorem styles_paragraph {compiler : Compiler .naturals} {paragraph : Paragraph}
    (h : (compiler.stylingParagraphs true).paragraph ⟨index, cell⟩ paragraph = .ok done) :
    List.Forall₂ (Paragraph.StyledBy compiler.options.lengthUnit)
      (Block.stylable compiler.options.lengthUnit [.paragraph paragraph])
      (done.requests.filter Request.stylesParagraph) := by
  have hend : done.endIndex = index+paragraph.units compiler.options.lengthUnit :=
    (Option.some.inj (add_paragraph (Arithmetic.holds_naturals index) h)).symm
  obtain ⟨inner, hin, rfl⟩ := paragraph_ok h
  have hnone : inner.requests.filter Request.stylesParagraph = [] := by
    rw [List.filter_eq_nil_iff]
    intro request hr
    rw [each_forall (fun _ _ _ _ hd => stylesParagraph_inline hd) hin request hr]
    exact Bool.false_ne_true
  simp only at hend
  have hguard : (compiler.stylingParagraphs true).options.paragraphStyles ∧
      ¬paragraph.style.isEmpty ∧ index < index+paragraph.units compiler.options.lengthUnit ↔
      paragraph.Stylable compiler.options.lengthUnit := by
    simp [stylingParagraphs, Paragraph.Stylable]
  rw [List.filter_append, hnone, List.nil_append, styling, hend]
  simp only [hguard]
  by_cases hs : paragraph.Stylable compiler.options.lengthUnit
  · rw [if_pos hs, Block.stylable_of_pos hs]
    exact .cons ⟨index, cell, rfl⟩ .nil
  · rw [if_neg hs, Block.stylable_of_neg hs]
    exact .nil

theorem account_styles (compiler : Compiler .naturals) :
    (compiler.stylingParagraphs true).Account fun blocks requests _ =>
      List.Forall₂ (Paragraph.StyledBy compiler.options.lengthUnit)
        (Block.stylable compiler.options.lengthUnit blocks)
        (requests.filter Request.stylesParagraph) where
  nil := .nil
  append := by
    intro as bs rs qs _ _ ha hb
    rw [Block.stylable, List.filterMap_append, List.filter_append, List.filter_append]
    exact List.rel_append ha hb
  paragraph := styles_paragraph
  table := fun _ _ => .nil
  unsupported := fun _ => .nil

/-- A compiler that styles paragraphs does nothing else that the compiler that does not style them
does not do. Unless indices wrap around, it styles those on the walk that have a style and units,
each in its style and no others. -/
theorem paragraphStyles_only_add (compiler : Compiler arithmetic) (content : List Block)
    (cell : Option CellAddress) (start : Nat) :
    (compiler.stylingParagraphs false).compile content cell start =
      ((compiler.stylingParagraphs true).compile content cell start).map
        Compilation.withoutParagraphStyles ∧
    ((arithmetic = .words .wraps →
        (compiler.stylingParagraphs true).InWords content cell start) →
      ∀ done, (compiler.stylingParagraphs true).compile content cell start = .ok done →
        List.Forall₂ (Paragraph.StyledBy compiler.options.lengthUnit)
          (Block.stylable compiler.options.lengthUnit (content.flatMap Block.walked))
          (done.requests.filter Request.stylesParagraph)) := by
  constructor
  · rw [← Change.unstyled_compilation, ← Change.inPlace_unstyled.outcome_eq]
    exact compile_inPlace_self Change.inPlace_unstyled compiler.paragraph_unstyled rfl content cell
      start
  · intro hw done h
    exact (compiler.counting .naturals).account_styles.compile (compile_naturals_ok hw h)

theorem paragraphStyles_only_add_sideBySide :
    let compiler := Document.sideBySide.compiler (.words .wraps) ⟨3, .utf16, false⟩
    let content := Document.sideBySide.content
    (compiler.stylingParagraphs true).compile content none 3 = .ok .sideBySide ∧
    (compiler.stylingParagraphs false).compile content none 3 =
      .ok Compilation.sideBySide.withoutParagraphStyles ∧
    List.Forall₂ (Paragraph.StyledBy .utf16)
      (Block.stylable .utf16 (content.flatMap Block.walked))
      [.styleParagraph ⟨3, 7, none⟩ (.named "TITLE")] := by
  intro compiler content
  obtain ⟨hplain, hstyles⟩ := paragraphStyles_only_add compiler content none 3
  have hd : (compiler.stylingParagraphs true).compile content none 3 = .ok .sideBySide :=
    compile_sideBySide _
  rw [hd] at hplain
  exact ⟨hd, hplain, hstyles (fun _ => inWords_sideBySide _) _ hd⟩

/-- Where the index wraps around within a paragraph, this is not styled. -/
theorem paragraphStyles_only_add_wrapped :
    let compiler := Document.boldTitle.compiler (.words .wraps)
      ⟨18446744073709551615, .utf16, false⟩
    let content := Document.boldTitle.content
    (compiler.stylingParagraphs true).compile content none 18446744073709551615 =
      .ok .wrapped ∧
    (Block.stylable .utf16 (content.flatMap Block.walked)).length = 1 ∧
    Compilation.wrapped.requests.filter Request.stylesParagraph = [] :=
  ⟨compile_wrapped, by decide, by decide⟩

end Compiler
end EditScript
