import EditScript.Document.Reader
import EditScript.Document.Writer
import EditScript.Proofs.Json.Records

namespace EditScript

open Json (depth depthItems depthMembers)

namespace Reader
variable {α : Type} {read : Reader α} {limit : Nat}

/-- The reader reads the value with every budget up to a limit that the value does not exceed. -/
def ReadsWithin (read : Reader α) (limit : Nat) (value : Json) (a : α) : Prop :=
  ∀ budget ≤ limit, value.depth ≤ budget → Reads read budget value a

theorem reads_holding {name : String} {f : α → Json} {as : List α}
    (h : ∀ a ∈ as, ReadsWithin read limit (f a) a) :
    ReadsWithin (.map (fun (as, ()) => as)
        (.record (.cons (.withDefault name (.list read) []) .nil))) (limit+2)
      (.holding name (as.map f)) as := by
  intro budget hb hd
  simp only [Json.holding, depth, depthMembers] at hd
  obtain ⟨b, rfl⟩ : ∃ b, budget = b+2 := ⟨budget-2, by omega⟩
  have hi : ∀ a ∈ as, Reads read b (f a) a := by
    intro a ha
    have hle : depthItems (as.map f) ≤ b := by omega
    exact h a ha b (by omega) (Json.depthItems_le.mp hle (f a) (List.mem_map_of_mem ha))
  have hw := Fields.Written.given (.withDefault name (.list read) []) (reads_list hi) .nil
  exact (reads_record hw (List.nodup_cons.mpr ⟨List.not_mem_nil, List.nodup_nil⟩)).map _

end Reader

namespace Style

theorem depthMembers_toMembers (name : String) (style : Style) :
    depthMembers (style.toMembers name) ≤ style.toJson.depth := by
  unfold toMembers
  split
  · exact Nat.zero_le _
  · simp [depthMembers]

theorem written (name : String) (style : Style) {budget : Nat}
    (h : depthMembers (style.toMembers name) ≤ budget) :
    Fields.Written budget (.cons (.withDefault name Style.reader .empty) .nil) (style, ())
      (style.toMembers name) := by
  unfold toMembers at h ⊢
  cases he : style.isEmpty with
  | true =>
    rw [eq_empty he]
    exact .absent _ rfl .nil
  | false =>
    rw [he] at h
    have hd : style.toJson.depth ≤ budget := by
      simpa [depthMembers] using h
    exact .given _ (style.reads hd) .nil

end Style

theorem TextRun.reads (run : TextRun) {budget : Nat} (h : run.toJson.depth ≤ budget) :
    Reader.Reads TextRun.reader budget run.toJson run := by
  simp only [toJson, depth, depthMembers] at h
  obtain ⟨b, rfl⟩ := Nat.exists_eq_add_of_le' (Nat.le_trans (Nat.le_add_left 1 _) h)
  have hs : depthMembers (run.style.toMembers "textStyle") ≤ b := by omega
  have hw := Fields.Written.given (.withDefault "content" .string "")
    (Reader.reads_string b run.content) (run.style.written "textStyle" hs)
  exact (Reader.reads_record hw (by decide)).map _

namespace Element
variable {α β γ : Type} {first second : String} {readFirst : Reader α} {readSecond : Reader β}
variable {ofFirst : α → γ} {ofSecond : β → γ} {unknown : String → γ} {budget : Nat}

theorem reads_first (hn : first ≠ second) {value : Json} {a : α} (hv : value ≠ .null)
    (h : Reader.Reads readFirst budget value a) :
    Reader.Reads (reader first readFirst second readSecond ofFirst ofSecond unknown) (budget+1)
      (.object [(first, value)]) (ofFirst a) := by
  have hw := Fields.Written.given (.optional first readFirst) (h.optional hv)
    (.absent (.optional second readSecond) rfl .nil)
  exact (Reader.reads_openRecord_alone hw
    (by simpa [Fields.names, Field.optional] using hn)).map _

theorem reads_second (hn : first ≠ second) {value : Json} {b : β} (hv : value ≠ .null)
    (h : Reader.Reads readSecond budget value b) :
    Reader.Reads (reader first readFirst second readSecond ofFirst ofSecond unknown) (budget+1)
      (.object [(second, value)]) (ofSecond b) := by
  have hw := Fields.Written.absent (.optional first readFirst) rfl
    (.given (.optional second readSecond) (h.optional hv) .nil)
  exact (Reader.reads_openRecord_alone hw
    (by simpa [Fields.names, Field.optional] using hn)).map _

theorem kind_singleton {name : String} (h : name ∉ positionKeys) (value : Json) :
    kind [(name, value)] = name := by
  simp [kind, Entries.sort, Entries.put, h]

theorem reads_unknown (hn : first ≠ second) {kind : String}
    (hk : kind ∉ first :: second :: positionKeys) :
    Reader.Reads (reader first readFirst second readSecond ofFirst ofSecond unknown) (budget+2)
      (unknownToJson kind) (unknown kind) := by
  have hw : Fields.Written (budget+1)
      (.cons (.optional first readFirst) (.cons (.optional second readSecond) .nil))
      (none, none, ()) [] :=
    .absent _ rfl (.absent _ rfl .nil)
  have hnames : ∀ member ∈ [(kind, Json.object [])], member.1 ∉
      (Fields.cons (.optional first readFirst)
        (.cons (.optional second readSecond) .nil)).names := by
    intro member hm
    rw [List.mem_singleton.mp hm]
    intro hin
    rcases List.mem_cons.mp hin with rfl | hin
    · exact hk List.mem_cons_self
    · have heq : kind = second := List.mem_singleton.mp hin
      exact hk (heq ▸ List.mem_cons_of_mem _ List.mem_cons_self)
  have hpos : kind ∉ positionKeys := by
    intro hm
    exact hk (List.mem_cons_of_mem _ (List.mem_cons_of_mem _ hm))
  have hd : depthMembers [(kind, Json.object [])] ≤ budget+1 :=
    Nat.succ_le_succ (Nat.zero_le budget)
  have hname : unknown (Element.kind [(kind, .object [])]) = unknown kind := by
    rw [kind_singleton hpos]
  rw [← hname]
  exact (Reader.reads_openRecord hw (by simpa [Fields.names, Field.optional] using hn) hnames
    hd).map _

end Element

namespace Inline

/-- Names that an element of an unknown kind cannot have: it would be read as something else. -/
def reserved : List String := "textRun" :: "inlineObjectElement" :: Element.positionKeys

def Apart : Inline → Prop
  | .text _ | .object _ => True
  | .unsupported kind => kind ∉ reserved

instance : (element : Inline) → Decidable element.Apart
  | .text _ | .object _ => .isTrue trivial
  | .unsupported kind => inferInstanceAs (Decidable (kind ∉ reserved))

theorem two_le_depth (element : Inline) : 2 ≤ element.toJson.depth := by
  cases element <;> simp [toJson, TextRun.toJson, Element.unknownToJson, depth, depthMembers]

theorem reads {element : Inline} (ha : element.Apart) {budget : Nat}
    (h : element.toJson.depth ≤ budget) :
    Reader.Reads Inline.reader budget element.toJson element := by
  obtain ⟨b, rfl⟩ := Nat.exists_eq_add_of_le' (Nat.le_trans element.two_le_depth h)
  cases element with
  | text run =>
    have hr : run.toJson.depth ≤ b+1 := by
      simp only [toJson, depth, depthMembers] at h
      omega
    exact Element.reads_first (by decide) (Json.object_ne_null _) (run.reads hr)
  | object id =>
    have hw := Fields.Written.given (.required "inlineObjectId" .string)
      (Reader.reads_string b id) .nil
    exact Element.reads_second (by decide) (Json.object_ne_null _)
      ((Reader.reads_record hw (by decide)).map _)
  | unsupported kind => exact Element.reads_unknown (by decide) ha

end Inline

theorem Paragraph.reads {paragraph : Paragraph} (ha : ∀ element ∈ paragraph.elements, element.Apart)
    {budget : Nat} (h : paragraph.toJson.depth ≤ budget) :
    Reader.Reads Paragraph.reader budget paragraph.toJson paragraph := by
  simp only [toJson, depth, depthMembers] at h
  obtain ⟨b, rfl⟩ : ∃ b, budget = b+2 := ⟨budget-2, by omega⟩
  have hs : depthMembers (paragraph.style.toMembers "paragraphStyle") ≤ b+1 := by omega
  have hd : depthItems (paragraph.elements.map Inline.toJson) ≤ b := by omega
  have he : ∀ element ∈ paragraph.elements,
      Reader.Reads Inline.reader b element.toJson element := by
    intro element hm
    exact Inline.reads (ha element hm)
      (Json.depthItems_le.mp hd element.toJson (List.mem_map_of_mem hm))
  have hw := Fields.Written.given (.withDefault "elements" (.list Inline.reader) [])
    (Reader.reads_list he) (paragraph.style.written "paragraphStyle" hs)
  exact (Reader.reads_record hw (by decide)).map _

namespace Block

open Json (holding)

theorem rowToJson_eq (row : List (List Block)) : rowToJson row = row.map cellToJson := by
  induction row with
  | nil => rfl
  | cons cell cells ih => rw [rowToJson, ih, List.map_cons, cellToJson]

theorem gridToJson_eq (grid : List (List (List Block))) :
    gridToJson grid = grid.map fun row => holding "tableCells" (row.map cellToJson) := by
  induction grid with
  | nil => rfl
  | cons row rows ih => rw [gridToJson, ih, List.map_cons, rowToJson_eq]

theorem listToJson_eq (blocks : List Block) : listToJson blocks = blocks.map toJson := by
  induction blocks with
  | nil => rfl
  | cons block blocks ih => rw [listToJson, ih, List.map_cons]

/-- Names that a block of an unknown kind cannot have: it would be read as something else. -/
def reserved : List String := "paragraph" :: "table" :: Element.positionKeys

mutual

/-- No unknown kind in the block has a reserved name, in any table cell of it. -/
def Apart : Block → Prop
  | .paragraph p => ∀ element ∈ p.elements, element.Apart
  | .table ⟨_, _, grid⟩ => ApartGrid grid
  | .unsupported kind => kind ∉ reserved

def ApartGrid : List (List (List Block)) → Prop
  | [] => True
  | row :: rows => ApartRow row ∧ ApartGrid rows

def ApartRow : List (List Block) → Prop
  | [] => True
  | cell :: cells => ApartList cell ∧ ApartRow cells

def ApartList : List Block → Prop
  | [] => True
  | block :: blocks => Apart block ∧ ApartList blocks

end

mutual

def decApart : (block : Block) → Decidable (Apart block)
  | .paragraph p => inferInstanceAs (Decidable (∀ element ∈ p.elements, element.Apart))
  | .table ⟨_, _, grid⟩ => decApartGrid grid
  | .unsupported kind => inferInstanceAs (Decidable (kind ∉ reserved))

def decApartGrid : (grid : List (List (List Block))) → Decidable (ApartGrid grid)
  | [] => .isTrue trivial
  | row :: rows => @instDecidableAnd _ _ (decApartRow row) (decApartGrid rows)

def decApartRow : (row : List (List Block)) → Decidable (ApartRow row)
  | [] => .isTrue trivial
  | cell :: cells => @instDecidableAnd _ _ (decApartList cell) (decApartRow cells)

def decApartList : (blocks : List Block) → Decidable (ApartList blocks)
  | [] => .isTrue trivial
  | block :: blocks => @instDecidableAnd _ _ (decApart block) (decApartList blocks)

end

instance : (block : Block) → Decidable block.Apart := decApart

theorem apartList_iff {blocks : List Block} :
    ApartList blocks ↔ ∀ block ∈ blocks, Apart block := by
  induction blocks with
  | nil => simp [ApartList]
  | cons block blocks ih => simp [ApartList, ih]

theorem apartRow_iff {row : List (List Block)} :
    ApartRow row ↔ ∀ cell ∈ row, ∀ block ∈ cell, Apart block := by
  induction row with
  | nil => simp [ApartRow]
  | cons cell cells ih => simp [ApartRow, ih, apartList_iff]

theorem apartGrid_iff {grid : List (List (List Block))} :
    ApartGrid grid ↔ ∀ row ∈ grid, ∀ cell ∈ row, ∀ block ∈ cell, Apart block := by
  induction grid with
  | nil => simp [ApartGrid]
  | cons row rows ih => simp [ApartGrid, ih, apartRow_iff]

theorem reads_table {inner : Reader Block} {limit : Nat} (table : Table Block)
    (h : ∀ row ∈ table.grid, ∀ cell ∈ row, ∀ block ∈ cell,
      Reader.ReadsWithin inner limit block.toJson block) :
    Reader.ReadsWithin (Table.reader inner) (limit+6)
      (Table.toJsonWith table.rows table.columns (gridToJson table.grid)) table := by
  intro budget hb hd
  have hcell : ∀ row ∈ table.grid, ∀ cell ∈ row,
      Reader.ReadsWithin (Table.cellReader inner) (limit+2) (cellToJson cell) cell := by
    intro row hrow cell hcell
    rw [cellToJson, listToJson_eq]
    exact Reader.reads_holding (h row hrow cell hcell)
  have hrow : ∀ row ∈ table.grid, Reader.ReadsWithin (Table.rowReader inner) (limit+4)
      (holding "tableCells" (row.map cellToJson)) row := by
    intro row hrow
    exact Reader.reads_holding (hcell row hrow)
  simp only [Table.toJsonWith, depth, depthMembers, Json.ofNat, gridToJson_eq] at hd
  obtain ⟨b, rfl⟩ : ∃ b, budget = b+2 := ⟨budget-2, by omega⟩
  have hgrid : Reader.Reads (.list (Table.rowReader inner)) (b+1) (.array (gridToJson table.grid))
      table.grid := by
    rw [gridToJson_eq]
    apply Reader.reads_list
    intro row hr
    have hle : depthItems (table.grid.map fun row => holding "tableCells" (row.map cellToJson)) ≤
        b := by omega
    exact hrow row hr b (by omega) (Json.depthItems_le.mp hle _ (List.mem_map_of_mem hr))
  have hw := Fields.Written.given (.required "rows" .word) (Reader.reads_word _ table.rows)
    (.given (.required "columns" .word) (Reader.reads_word _ table.columns)
      (.given (.withDefault "tableRows" (.list (Table.rowReader inner)) []) hgrid .nil))
  exact (Reader.reads_record hw (by simp [Fields.names, Field.required, Field.withDefault])).map _

theorem depth_pos (block : Block) : 0 < block.toJson.depth := by
  cases block <;> exact Nat.succ_pos _

/-- A block is read as it is written by a reader that goes through as many tables as there are
brackets. -/
theorem reads_readerWithin {block : Block} (ha : block.Apart) (limit : Nat) :
    Reader.ReadsWithin (readerWithin (limit+1)) limit block.toJson block := by
  induction limit generalizing block with
  | zero =>
    intro budget hb hd
    have hpos := block.depth_pos
    omega
  | succ limit ih =>
    intro budget hb hd
    obtain ⟨b, rfl⟩ : ∃ b, budget = b+1 := ⟨budget-1, by
      have hpos := block.depth_pos
      omega⟩
    cases block with
    | paragraph p =>
      have hp : p.toJson.depth ≤ b := by
        simp only [toJson, depth, depthMembers] at hd
        omega
      exact Element.reads_first (by decide) (Json.object_ne_null _) (Paragraph.reads ha hp)
    | table t =>
      obtain ⟨rows, columns, grid⟩ := t
      have hblocks : ∀ row ∈ grid, ∀ cell ∈ row, ∀ block ∈ cell,
          Reader.ReadsWithin (readerWithin (limit+1)) limit block.toJson block := by
        intro row hrow cell hcell block hblock
        exact ih (apartGrid_iff.mp ha row hrow cell hcell block hblock)
      have ht : (Table.toJsonWith rows columns (gridToJson grid)).depth ≤ b := by
        simp only [toJson, depth, depthMembers] at hd
        omega
      exact Element.reads_second (by decide) (Json.object_ne_null _)
        (reads_table ⟨rows, columns, grid⟩ hblocks b (by omega) ht)
    | unsupported kind =>
      obtain ⟨c, rfl⟩ : ∃ c, b = c+1 := ⟨b-1, by
        simp only [toJson, Element.unknownToJson, depth, depthMembers] at hd
        omega⟩
      exact Element.reads_unknown (by decide) ha

theorem reads {block : Block} (ha : block.Apart) {budget : Nat} (h : block.toJson.depth ≤ budget) :
    Reader.Reads Block.reader budget block.toJson block := by
  intro tree ht
  exact reads_readerWithin ha budget budget (Nat.le_refl budget) h tree ht

end Block

section
variable {α β : Type} {read : Reader α} {fields : Fields β} {budget : Nat}

theorem Fields.Written.optional (name : String) {f : α → Json} (value : Option α) {rest : β}
    {members : List (String × Json)}
    (h : ∀ a ∈ value, f a ≠ .null ∧ Reader.Reads read budget (f a) a)
    (more : Fields.Written budget fields rest members) :
    Fields.Written budget (.cons (.optional name read) fields) (value, rest)
      (Json.given name (value.map f) ++ members) := by
  cases value with
  | none => exact .absent _ rfl more
  | some a =>
    obtain ⟨hne, hread⟩ := h a rfl
    exact .given (.optional name read) (hread.optional hne) more

theorem Fields.Written.optionalText (name : String) (value : Option String) {rest : β}
    {members : List (String × Json)} (more : Fields.Written budget fields rest members) :
    Fields.Written budget (.cons (.optional name .string) fields) (value, rest)
      (Json.given name (value.map .string) ++ members) :=
  .optional name value (fun text _ => ⟨nofun, Reader.reads_string budget text⟩) more

end

theorem Image.reads (image : Image) (budget : Nat) :
    Reader.Reads Image.reader (budget+1) image.toJson image := by
  have hw : Fields.Written budget
      (.cons (.optional "contentUri" .string) (.cons (.optional "sourceUri" .string) .nil))
      (image.contentUri, image.sourceUri, ())
      (Json.given "contentUri" (image.contentUri.map .string) ++
        (Json.given "sourceUri" (image.sourceUri.map .string) ++ [])) :=
    .optionalText _ _ (.optionalText _ _ .nil)
  rw [List.append_nil] at hw
  exact (Reader.reads_record hw (by decide)).map _

theorem Embedded.reads (embedded : Embedded) (budget : Nat) :
    Reader.Reads Embedded.reader (budget+2) embedded.toJson embedded := by
  have hw : Fields.Written (budget+1)
      (.cons (.optional "title" .string) (.cons (.optional "description" .string)
        (.cons (.optional "imageProperties" Image.reader) .nil)))
      (embedded.title, embedded.description, embedded.image, ())
      (Json.given "title" (embedded.title.map .string) ++
        (Json.given "description" (embedded.description.map .string) ++
          (Json.given "imageProperties" (embedded.image.map Image.toJson) ++ []))) :=
    .optionalText _ _ (.optionalText _ _
      (.optional _ _ (fun image _ => ⟨Json.object_ne_null _, image.reads budget⟩) .nil))
  rw [List.append_nil, ← List.append_assoc] at hw
  exact (Reader.reads_record hw (by decide)).map _

theorem InlineObject.reads (object : InlineObject) (budget : Nat) :
    Reader.Reads InlineObject.reader (budget+4) object.toJson object := by
  have hp : Reader.Reads propertiesReader (budget+3)
      (.object [("embeddedObject", object.embedded.toJson)]) object.embedded := by
    have hw := Fields.Written.given (.withDefault "embeddedObject" Embedded.reader .empty)
      (object.embedded.reads budget) .nil
    exact (Reader.reads_record hw (by decide)).map _
  have hw := Fields.Written.optionalText "objectId" object.id
    (.given (.withDefault "inlineObjectProperties" propertiesReader .empty) hp .nil)
  exact (Reader.reads_record hw (by decide)).map _

namespace Document

/-- No unknown kind in the document has a reserved name. -/
def Apart (document : Document) : Prop := ∀ block ∈ document.content, block.Apart

instance (document : Document) : Decidable document.Apart :=
  inferInstanceAs (Decidable (∀ block ∈ document.content, block.Apart))

theorem written_objects (objects : Dict InlineObject) (budget : Nat) :
    Fields.Written (budget+5)
      (.cons (.withDefault "inlineObjects" (.dict InlineObject.reader) .empty) .nil) (objects, ())
      (if objects.isEmpty then []
        else [("inlineObjects",
          .object (objects.entries.map fun (id, object) => (id, object.toJson)))]) := by
  cases he : objects.isEmpty with
  | true =>
    have hempty : objects = .empty := Dict.ext (List.isEmpty_iff.mp he)
    rw [hempty]
    exact .absent _ rfl .nil
  | false => exact .given _ (Reader.reads_dict objects fun entry _ => entry.2.reads budget) .nil

theorem reads {document : Document} (ha : document.Apart) {budget : Nat}
    (h : document.toJson.depth ≤ budget+6) :
    Reader.Reads Document.reader (budget+6) document.toJson document := by
  have hbody : Reader.Reads bodyReader (budget+5)
      (.holding "content" (Block.listToJson document.content)) document.content := by
    have hblocks : ∀ block ∈ document.content,
        Reader.ReadsWithin Block.reader (budget+3) block.toJson block := by
      intro block hm b _ hd
      exact Block.reads (ha block hm) hd
    have hd : (Json.holding "content" (document.content.map Block.toJson)).depth ≤ budget+5 := by
      rw [← Block.listToJson_eq]
      exact Json.depthMembers_le.mp (Nat.le_of_succ_le_succ h) ("body", _)
        (List.mem_append_right _ List.mem_cons_self)
    rw [Block.listToJson_eq]
    exact Reader.reads_holding hblocks (budget+5) (Nat.le_refl _) hd
  have hw : Fields.Written (budget+5)
      (.cons (.optional "documentId" .string) (.cons (.optional "title" .string)
        (.cons (.withDefault "body" bodyReader [])
          (.cons (.withDefault "inlineObjects" (.dict InlineObject.reader) .empty) .nil))))
      (document.id, document.title, document.content, document.inlineObjects, ())
      (Json.given "documentId" (document.id.map .string) ++
        (Json.given "title" (document.title.map .string) ++
          (("body", .holding "content" (Block.listToJson document.content)) :: _))) :=
    .optionalText _ _ (.optionalText _ _
      (.given _ hbody (written_objects document.inlineObjects budget)))
  rw [← List.append_assoc] at hw
  exact (Reader.reads_record hw (by decide)).map _

end Document
end EditScript
