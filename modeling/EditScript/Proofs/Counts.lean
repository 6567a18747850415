import EditScript.Proofs.StyleSpans
import EditScript.Proofs.Unsupported

namespace EditScript

namespace Request

def isText : Request → Bool
  | .insertText _ _ => true
  | .insertInlineImage _ _ | .insertTable _ _ _ | .updateTextStyle _ _ _
  | .updateParagraphStyle _ _ _ => false

def isImage : Request → Bool
  | .insertInlineImage _ _ => true
  | .insertText _ _ | .insertTable _ _ _ | .updateTextStyle _ _ _
  | .updateParagraphStyle _ _ _ => false

def cells : Request → Nat
  | .insertTable rows columns _ => rows*columns
  | .insertText _ _ | .insertInlineImage _ _ | .updateTextStyle _ _ _
  | .updateParagraphStyle _ _ _ => 0

end Request

namespace Inline

def isText : Inline → Bool
  | .text _ => true
  | .object _ | .unsupported _ => false

def isObject : Inline → Bool
  | .object _ => true
  | .text _ | .unsupported _ => false

def isStyled : Inline → Bool
  | .text run => !run.style.isEmpty
  | .object _ | .unsupported _ => false

end Inline

def Block.isTable : Block → Bool
  | .table _ => true
  | .paragraph _ | .unsupported _ => false

/-- The statistics of some blocks, with these elements in their paragraphs, and of the requests that
they compile to. -/
structure Stats.Tallies (elements : List Inline) (blocks : List Block) (requests : List Request)
    (stats : Stats) : Prop where
  texts : stats.textRuns = requests.countP Request.isText
  runs : stats.textRuns = elements.countP Inline.isText
  images : stats.inlineImages = requests.countP Request.isImage
  objects : stats.inlineImages = elements.countP Inline.isObject
  inserted : stats.tables = requests.countP Request.isTable
  tables : stats.tables = blocks.countP Block.isTable
  cells : stats.cells = (requests.map Request.cells).sum
  length : requests.length = stats.textRuns+stats.inlineImages+stats.tables+
    elements.countP Inline.isStyled+requests.countP Request.stylesParagraph

namespace Stats

theorem tallies_nil : Tallies [] [] [] 0 := ⟨rfl, rfl, rfl, rfl, rfl, rfl, rfl, rfl⟩

theorem Tallies.append {elements others : List Inline} {as bs : List Block}
    {requests more : List Request} {a b : Stats} (ha : Tallies elements as requests a)
    (hb : Tallies others bs more b) :
    Tallies (elements ++ others) (as ++ bs) (requests ++ more) (a+b) where
  texts := by simp only [add_eq, List.countP_append, ha.texts, hb.texts]
  runs := by simp only [add_eq, List.countP_append, ha.runs, hb.runs]
  images := by simp only [add_eq, List.countP_append, ha.images, hb.images]
  objects := by simp only [add_eq, List.countP_append, ha.objects, hb.objects]
  inserted := by simp only [add_eq, List.countP_append, ha.inserted, hb.inserted]
  tables := by simp only [add_eq, List.countP_append, ha.tables, hb.tables]
  cells := by simp only [add_eq, List.map_append, List.sum_append, ha.cells, hb.cells]
  length := by
    have hfirst := ha.length
    have hsecond := hb.length
    simp only [add_eq, List.length_append, List.countP_append]
    omega

end Stats

namespace Compiler
open Emitter

variable {arithmetic : Arithmetic} {compiler : Compiler arithmetic} {index : Nat}
  {cell : Option CellAddress} {done : Compilation}

theorem tallies_inline {element : Inline}
    (h : compiler.inline ⟨index, cell⟩ element = .ok done) :
    done.stats.Tallies [element] [] done.requests := by
  obtain ⟨run, stop, rfl, -, rfl⟩ | ⟨id, found, uri, stop, rfl, -, -, -, rfl⟩ |
    ⟨kind, rfl, rfl⟩ := inline_ok h
  · have hstyled : [Inline.text run].countP Inline.isStyled =
        if run.style.isEmpty then 0 else 1 := by
      cases hs : run.style.isEmpty <;> simp [Inline.isStyled, hs]
    constructor <;> try rw [hstyled]
    all_goals cases run.style.isEmpty <;> rfl
  · constructor <;> rfl
  · constructor <;> rfl

theorem tallies_paragraph {paragraph : Paragraph}
    (h : compiler.paragraph ⟨index, cell⟩ paragraph = .ok done) :
    done.stats.Tallies paragraph.elements [.paragraph paragraph] done.requests := by
  obtain ⟨inner, hin, rfl⟩ := paragraph_ok h
  have hinner : inner.stats.Tallies paragraph.elements [] inner.requests := by
    refine each_induct (motive := fun _ elements done =>
      done.stats.Tallies elements [] done.requests) (fun _ => Stats.tallies_nil) ?_ hin
    intro index element elements first rest hf _ ih
    exact (tallies_inline hf).append ih
  have hstyling : Stats.Tallies [] [.paragraph paragraph]
      (compiler.styling ⟨index, inner.endIndex, cell⟩ paragraph.style) 0 := by
    rw [styling]
    split <;> constructor <;> rfl
  have hall := hinner.append hstyling
  rwa [List.append_nil, List.nil_append, Stats.add_zero] at hall

theorem account_tallies (compiler : Compiler arithmetic) :
    compiler.Account fun blocks requests stats =>
      stats.Tallies (blocks.flatMap Block.elements) blocks requests where
  nil := Stats.tallies_nil
  append := by
    intro as bs rs qs a b ha hb
    rw [List.flatMap_append]
    exact ha.append hb
  paragraph := by
    intro p index cell done h
    rw [List.flatMap_singleton]
    exact tallies_paragraph h
  table := by
    intro t index
    have hcells : ([.insertTable t.rows.toNat t.columns.toNat ⟨index, none⟩].map
        Request.cells).sum = t.rows.toNat*t.columns.toNat := List.sum_singleton
    exact ⟨rfl, rfl, rfl, rfl, rfl, rfl, hcells.symm, rfl⟩
  unsupported := by
    intro kind
    constructor <;> rfl

/-- The statistics count the texts, images and tables that are inserted, which are those on the
walk, the cells that the inserted tables have, and the elements on the walk that are passed over.
What is counted as inserted makes up the requests, with one for each styled text on the walk and
those that style paragraphs. -/
theorem stats_account {content : List Block} {start : Nat}
    (h : compiler.compile content cell start = .ok done) :
    let walked := content.flatMap Block.walked
    let elements := walked.flatMap Block.elements
    (done.stats.textRuns = done.requests.countP Request.isText ∧
      done.stats.textRuns = elements.countP Inline.isText) ∧
    (done.stats.inlineImages = done.requests.countP Request.isImage ∧
      done.stats.inlineImages = elements.countP Inline.isObject) ∧
    (done.stats.tables = done.requests.countP Request.isTable ∧
      done.stats.tables = walked.countP Block.isTable) ∧
    done.stats.cells = (done.requests.map Request.cells).sum ∧
    done.stats.skippedElements = walked.countP Block.isUnsupported ∧
    done.stats.skippedInline = elements.countP Inline.isUnsupported ∧
    done.requests.length = done.stats.textRuns+done.stats.inlineImages+done.stats.tables+
      elements.countP Inline.isStyled+done.requests.countP Request.stylesParagraph := by
  have htallies := compiler.account_tallies.compile h
  obtain ⟨helements, hinline⟩ := compiler.account_skipped.compile h
  exact ⟨⟨htallies.texts, htallies.runs⟩, ⟨htallies.images, htallies.objects⟩,
    ⟨htallies.inserted, htallies.tables⟩, htallies.cells, helements, hinline, htallies.length⟩

theorem stats_account_sideBySide :
    (Document.sideBySide.compiler (.words .wraps) ⟨3, .utf16, true⟩).compile
      Document.sideBySide.content none 3 = .ok .sideBySide ∧
    Compilation.sideBySide.requests.countP Request.isText = 5 ∧
    Compilation.sideBySide.requests.countP Request.isImage = 2 ∧
    Compilation.sideBySide.requests.countP Request.isTable = 2 ∧
    (Compilation.sideBySide.requests.map Request.cells).sum = 4 ∧
    Compilation.sideBySide.requests.length = 5+2+2+2+1 := by
  obtain ⟨⟨htexts, -⟩, ⟨himages, -⟩, ⟨htables, -⟩, hcells, -, -, hlength⟩ :=
    stats_account (compile_sideBySide (.words .wraps))
  exact ⟨compile_sideBySide _, htexts.symm, himages.symm, htables.symm, hcells.symm, hlength⟩

end Compiler
end EditScript
