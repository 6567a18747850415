import EditScript.Proofs.Changes
import EditScript.Proofs.FirstDefect
import EditScript.Proofs.Walk

namespace EditScript

def Inline.reference? : Inline → Option String
  | .object id => some id
  | .text _ | .unsupported _ => none

def Paragraph.references (paragraph : Paragraph) : List String :=
  paragraph.elements.filterMap Inline.reference?

/-- The inline objects that a paragraph among these blocks refers to. -/
def Block.references (blocks : List Block) : List String :=
  blocks.flatMap fun
    | .paragraph p => p.references
    | .table _ | .unsupported _ => []

theorem Block.references_paragraph {blocks : List Block} {p : Paragraph}
    (hp : .paragraph p ∈ blocks) {id : String} (h : id ∈ p.references) : id ∈ references blocks :=
  List.mem_flatMap.mpr ⟨.paragraph p, hp, h⟩

theorem Block.references_mono {blocks more : List Block} (h : ∀ block ∈ blocks, block ∈ more)
    {id : String} (hid : id ∈ references blocks) : id ∈ references more := by
  obtain ⟨block, hb, hid⟩ := List.mem_flatMap.mp hid
  exact List.mem_flatMap.mpr ⟨block, h block hb, hid⟩

namespace Compiler
open Emitter

variable {arithmetic : Arithmetic}

/-- The compilers have the same options, and each of these inline objects either both or neither of
them, with the same address if it has one. -/
structure AgreeOn (ids : List String) (compiler other : Compiler arithmetic) : Prop where
  options : compiler.options = other.options
  objects : ∀ id ∈ ids, (compiler.objects.get? id).map InlineObject.contentUri =
    (other.objects.get? id).map InlineObject.contentUri

theorem AgreeOn.mono {ids fewer : List String} {compiler other : Compiler arithmetic}
    (h : AgreeOn ids compiler other) (hs : ∀ id ∈ fewer, id ∈ ids) :
    AgreeOn fewer compiler other :=
  ⟨h.options, fun id hid => h.objects id (hs id hid)⟩

variable {compiler other : Compiler arithmetic}

theorem inline_congr {element : Inline} (h : AgreeOn element.reference?.toList compiler other)
    (cursor : Cursor) : compiler.inline cursor element = other.inline cursor element := by
  cases element with
  | text run => simp only [inline, h.options]
  | unsupported kind => rfl
  | object id =>
    have hid := h.objects id (Option.mem_toList.mpr rfl)
    simp only [inline]
    cases hc : compiler.objects.get? id with
    | none =>
      rw [hc] at hid
      rw [Option.map_eq_none_iff.mp hid.symm]
    | some found =>
      rw [hc] at hid
      obtain ⟨held, ho, huri⟩ := Option.map_eq_some_iff.mp hid.symm
      simp only [ho, huri]

theorem paragraph_congr {p : Paragraph} (h : AgreeOn p.references compiler other)
    (index : Nat) (cell : Option CellAddress) :
    compiler.paragraph ⟨index, cell⟩ p = other.paragraph ⟨index, cell⟩ p := by
  have helements : each compiler.inline ⟨index, cell⟩ p.elements =
      each other.inline ⟨index, cell⟩ p.elements := by
    refine each_congr_mem ?_ index
    intro element he index
    refine inline_congr (h.mono ?_) ⟨index, cell⟩
    intro id hid
    exact List.mem_filterMap.mpr ⟨element, he, Option.mem_toList.mp hid⟩
  simp only [paragraph_eq, helements, styling, h.options]

theorem compile_congr_cell {content : List Block}
    (h : AgreeOn (Block.references content) compiler other) (address : CellAddress) (start : Nat) :
    compiler.compile content (some address) start = other.compile content (some address) start := by
  refine each_congr_mem ?_ start
  intro block hb index
  cases block with
  | paragraph p =>
    exact paragraph_congr (h.mono fun _ => Block.references_paragraph hb) index (some address)
  | table t => rfl
  | unsupported kind => rfl

theorem table_congr {table : Table Block}
    (h : AgreeOn (Block.references (Block.table table).walked) compiler other) (index : Nat) :
    compiler.table ⟨index, none⟩ table = other.table ⟨index, none⟩ table := by
  have hslots : each compiler.slot ⟨index, none⟩ table.slots =
      each other.slot ⟨index, none⟩ table.slots := by
    refine each_congr_mem ?_ index
    intro slot hs index
    rw [slot_eq, slot_eq]
    cases hc : slot.content with
    | none => rfl
    | some content =>
      have hheld : content ∈ table.trimmed.grid.flatten := by
        rw [Table.trimmed, ← List.flatMap_def, ← Table.found_slots]
        exact List.mem_flatMap.mpr ⟨slot, hs, Option.mem_toList.mpr hc⟩
      have hcontent : AgreeOn (Block.references content) compiler other := by
        refine h.mono fun _ => Block.references_mono ?_
        intro block hb
        exact List.mem_cons_of_mem _ (List.mem_flatten.mpr ⟨content, hheld, hb⟩)
      simp only [compile_congr_cell hcontent]
  simp only [Compiler.table, hslots]

theorem compile_congr {content : List Block}
    (h : AgreeOn (Block.references (content.flatMap Block.walked)) compiler other) (start : Nat) :
    compiler.compile content none start = other.compile content none start := by
  refine each_congr_mem ?_ start
  intro block hb index
  have hblock : AgreeOn (Block.references block.walked) compiler other := by
    refine h.mono fun _ => Block.references_mono ?_
    intro inner hi
    exact List.mem_flatMap.mpr ⟨block, hb, hi⟩
  cases block with
  | paragraph p =>
    exact paragraph_congr (hblock.mono fun _ => Block.references_paragraph List.mem_cons_self)
      index none
  | table t => exact table_congr hblock index
  | unsupported kind => rfl

end Compiler

namespace Document

/-- The inline objects that a compilation of the document looks up, if it comes so far. -/
def references (document : Document) : List String :=
  Block.references (document.content.flatMap Block.walked)

/-- The documents have the same content, apart from rows and cells that a table does not declare. -/
def SameContent (a b : Document) : Prop :=
  a.content.map Block.trimmed = b.content.map Block.trimmed

def SameObject (a b : Document) (id : String) : Prop :=
  (a.object? id).map InlineObject.contentUri = (b.object? id).map InlineObject.contentUri

instance (a b : Document) (id : String) : Decidable (SameObject a b id) :=
  inferInstanceAs (Decidable (_ = _))

/-- Two documents compile alike, to the same requests, end and counts or to the same error, if their
content is the same but for rows and cells beyond the declared size of tables, and if they agree on
the inline objects that the walk refers to. Nothing else in them is read. -/
theorem compile_reads_no_more {a b : Document} (arithmetic : Arithmetic) (options : Options)
    (hc : SameContent a b) (ho : ∀ id ∈ a.references, SameObject a b id) :
    a.compile arithmetic options = b.compile arithmetic options := by
  let start := options.startIndex.toNat
  let compiler := b.compiler arithmetic options
  have h : Compiler.AgreeOn a.references (a.compiler arithmetic options) compiler := ⟨rfl, ho⟩
  calc a.compile arithmetic options
      = compiler.compile a.content none start := Compiler.compile_congr h start
    _ = compiler.compile (a.content.map Block.trimmed) none start :=
        (Compiler.compile_trimmed _ _ _ _).symm
    _ = compiler.compile (b.content.map Block.trimmed) none start := by rw [hc]
    _ = b.compile arithmetic options := Compiler.compile_trimmed _ _ _ _

/-- A document with an image in the body and one in a cell, and a table beside that cell which is not
declared. -/
def gallery : Document where
  id := none
  title := none
  content := [.paragraph ⟨[.plain "a", .object "i"], .empty⟩,
    .table ⟨1, 1, [[[.paragraph ⟨[.object "j"], .empty⟩], [.table ⟨0, 0, []⟩]]]⟩]
  inlineObjects := .ofList [("i", .image "u"), ("j", .image "v")]

/-- The gallery under another title, with other things said of its images, with one more image and
with other cells that are not declared. -/
def galleryAnnotated : Document where
  id := some "g"
  title := some "Gallery"
  content := [.paragraph ⟨[.plain "a", .object "i"], .empty⟩,
    .table ⟨1, 1, [[[.paragraph ⟨[.object "j"], .empty⟩]], [[.paragraph ⟨[.object "k"], .empty⟩]]]⟩]
  inlineObjects := .ofList [("h", .empty),
    ("i", ⟨some "i", some "first", some "an image", some ⟨some "u", some "s"⟩⟩), ("j", .image "v")]

theorem compile_reads_no_more_gallery : SameContent gallery galleryAnnotated ∧
    gallery.references = ["i", "j"] ∧
    (∀ id ∈ gallery.references, SameObject gallery galleryAnnotated id) ∧
    gallery.compile (.words .wraps) .defaults =
      galleryAnnotated.compile (.words .wraps) .defaults ∧
    gallery.compile (.words .wraps) .defaults = .ok ⟨
      [.insertText ⟨1, none⟩ "a", .insertInlineImage ⟨2, none⟩ "u",
      .insertTable 1 1 ⟨3, none⟩, .insertInlineImage ⟨1, some ⟨3, 0, 0⟩⟩ "v"], 4,
      ⟨1, 2, 1, 1, 0, 0⟩⟩ := by
  have hc : SameContent gallery galleryAnnotated := rfl
  have ho : ∀ id ∈ gallery.references, SameObject gallery galleryAnnotated id := by decide
  exact ⟨hc, by decide, ho, compile_reads_no_more _ .defaults hc ho, by decide⟩

end Document
end EditScript
