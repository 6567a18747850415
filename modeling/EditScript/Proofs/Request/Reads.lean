import EditScript.Proofs.Json.Records
import EditScript.Request.Reader
import EditScript.Request.Writer

namespace EditScript

open Json (depth depthItems depthMembers)
open Reader (Reads)

namespace CellAddress

/-- Every index in the address is a word. -/
def Words (address : CellAddress) : Prop :=
  address.tableStart < UInt64.size ∧ address.row < UInt64.size ∧ address.column < UInt64.size

instance (address : CellAddress) : Decidable address.Words :=
  inferInstanceAs (Decidable (_ ∧ _ ∧ _))

theorem reads_tableStart {n : Nat} (h : n < UInt64.size) (budget : Nat) :
    Reads tableStartReader (budget+1) (.object [("index", .ofNat n)]) n := by
  have hw := Fields.Written.given (.required "index" .index) (Reader.reads_index budget h) .nil
  exact (Reader.reads_record hw (by decide)).map _

theorem reads {address : CellAddress} (h : address.Words) (budget : Nat) :
    Reads reader (budget+2) address.toJson address := by
  have hw := Fields.Written.given (.required "tableStartLocation" tableStartReader)
    (reads_tableStart h.1 budget)
    (.given (.required "rowIndex" .index) (Reader.reads_index (budget+1) h.2.1)
      (.given (.required "columnIndex" .index) (Reader.reads_index (budget+1) h.2.2) .nil))
  exact (Reader.reads_record hw (by decide)).map _

theorem ofMembers?_toMembers {address : CellAddress} (h : address.Words) :
    ofMembers? address.toMembers = some address :=
  ofMembers?_eq_some.mpr (reads h 125).toTree

/-- A position is read with the cell that it is written with, or without one. -/
theorem ofMembers?_elim {cell : Option CellAddress} (h : ∀ address ∈ cell, address.Words) :
    ofMembers? (cell.elim [] toMembers) = cell := by
  cases cell with
  | none => rfl
  | some address => exact ofMembers?_toMembers (h address rfl)

theorem depthMembers_elim (cell : Option CellAddress) :
    depthMembers (cell.elim [] toMembers) ≤ 1 := by
  cases cell with
  | none => exact Nat.zero_le 1
  | some address => exact Nat.le_refl 1

def keys : List String := ["tableStartLocation", "rowIndex", "columnIndex"]

theorem mem_keys {cell : Option CellAddress} :
    ∀ member ∈ cell.elim [] toMembers, member.1 ∈ keys := by
  intro member hm
  cases cell with
  | none => exact absurd hm List.not_mem_nil
  | some address => exact List.mem_map_of_mem (f := Prod.fst) hm

end CellAddress

/-- Indices are read with the members of the cell that they are written beside. -/
theorem Reader.reads_place {α : Type} {fields : Fields α} {a : α} {members : List (String × Json)}
    {budget : Nat} (hw : Fields.Written (budget+1) fields a members) (hn : fields.names.Nodup)
    (hk : ∀ key ∈ CellAddress.keys, key ∉ fields.names) (cell : Option CellAddress) :
    Reads (.openRecord fields) (budget+2)
      (.object (members ++ cell.elim [] CellAddress.toMembers))
      (a, cell.elim [] CellAddress.toMembers) := by
  have ho : ∀ member ∈ cell.elim [] CellAddress.toMembers, member.1 ∉ fields.names := by
    intro member hm
    exact hk member.1 (CellAddress.mem_keys member hm)
  have hd := CellAddress.depthMembers_elim cell
  exact reads_openRecord hw hn ho (by omega)

namespace Location

def Words (location : Location) : Prop :=
  location.index < UInt64.size ∧ ∀ address ∈ location.cell, address.Words

instance (location : Location) : Decidable location.Words :=
  inferInstanceAs (Decidable (_ ∧ _))

theorem reads {location : Location} (h : location.Words) (budget : Nat) :
    Reads Location.reader (budget+2) location.toJson location := by
  have hw := Fields.Written.given (.required "index" .index)
    (Reader.reads_index (budget+1) h.1) .nil
  have hr : Reads Location.reader (budget+2) location.toJson
      ⟨location.index, CellAddress.ofMembers? (location.cell.elim [] CellAddress.toMembers)⟩ :=
    (Reader.reads_place hw (by decide) (by decide) location.cell).map _
  rw [CellAddress.ofMembers?_elim h.2] at hr
  exact hr

end Location

namespace Span

def Words (span : Span) : Prop :=
  span.start < UInt64.size ∧ span.stop < UInt64.size ∧ ∀ address ∈ span.cell, address.Words

instance (span : Span) : Decidable span.Words :=
  inferInstanceAs (Decidable (_ ∧ _ ∧ _))

theorem reads {span : Span} (h : span.Words) (budget : Nat) :
    Reads Span.reader (budget+2) span.toJson span := by
  have hw := Fields.Written.given (.required "startIndex" .index)
    (Reader.reads_index (budget+1) h.1)
    (.given (.required "endIndex" .index) (Reader.reads_index (budget+1) h.2.1) .nil)
  have hr : Reads Span.reader (budget+2) span.toJson
      ⟨span.start, span.stop,
        CellAddress.ofMembers? (span.cell.elim [] CellAddress.toMembers)⟩ :=
    (Reader.reads_place hw (by decide) (by decide) span.cell).map _
  rw [CellAddress.ofMembers?_elim h.2.2] at hr
  exact hr

end Span

namespace Request

def Words : Request → Prop
  | .insertText location _ | .insertInlineImage location _ => location.Words
  | .insertTable rows columns location => rows < UInt64.size ∧ columns < UInt64.size ∧ location.Words
  | .updateTextStyle span _ _ | .updateParagraphStyle span _ _ => span.Words

instance : (request : Request) → Decidable request.Words
  | .insertText location _ | .insertInlineImage location _ =>
    inferInstanceAs (Decidable location.Words)
  | .insertTable _ _ location => inferInstanceAs (Decidable (_ ∧ _ ∧ location.Words))
  | .updateTextStyle span _ _ | .updateParagraphStyle span _ _ =>
    inferInstanceAs (Decidable span.Words)

theorem reads_insertion {location : Location} (h : location.Words) (name : String)
    (hn : name ≠ "location") (text : String) (budget : Nat) :
    Reads (.record (.cons (.required "location" Location.reader)
        (.cons (.required name .string) .nil))) (budget+3)
      (.object [("location", location.toJson), (name, .string text)]) (location, text, ()) := by
  have hw := Fields.Written.given (.required "location" Location.reader) (location.reads h budget)
    (.given (.required name .string) (Reader.reads_string _ text) .nil)
  exact Reader.reads_record hw (by simpa [Fields.names, Field.required] using hn.symm)

theorem reads_styling {span : Span} (h : span.Words) (name : String)
    (hn : name ∉ ["range", "fields"]) {style : Style} {budget : Nat}
    (hd : style.toJson.depth ≤ budget+2) (fields : String) :
    Reads (.record (.cons (.required "range" Span.reader)
        (.cons (.required name Style.reader) (.cons (.required "fields" .string) .nil)))) (budget+3)
      (.object [("range", span.toJson), (name, style.toJson), ("fields", .string fields)])
      (span, style, fields, ()) := by
  have hw := Fields.Written.given (.required "range" Span.reader) (span.reads h budget)
    (.given (.required name Style.reader) (style.reads hd)
      (.given (.required "fields" .string) (Reader.reads_string _ fields) .nil))
  have hnames : "range" ≠ name ∧ name ≠ "fields" := by
    simpa [eq_comm] using hn
  exact Reader.reads_record hw (by simpa [Fields.names, Field.required] using hnames)

theorem reads_insertTable {rows columns : Nat} {location : Location}
    (h : (insertTable rows columns location).Words) (budget : Nat) :
    Reads insertTableReader (budget+3) (.object (insertTable rows columns location).payload)
      (.insertTable rows columns location) := by
  have hw := Fields.Written.given (.required "rows" .index) (Reader.reads_index (budget+2) h.1)
    (.given (.required "columns" .index) (Reader.reads_index (budget+2) h.2.1)
      (.given (.required "location" Location.reader) (location.reads h.2.2 budget) .nil))
  exact (Reader.reads_record hw (by decide)).map _

theorem reads {request : Request} (h : request.Words) {budget : Nat}
    (hd : request.toJson.depth ≤ budget+4) :
    Reads Request.reader (budget+4) request.toJson request := by
  cases request with
  | insertText location text =>
    have hr := reads_insertion h "text" (by decide) text budget
    exact Reader.reads_choice rfl (hr.map _)
  | updateTextStyle span style fields =>
    simp only [toJson, payload, depth, depthMembers] at hd
    have hs : style.toJson.depth ≤ budget+2 := by omega
    have hr := reads_styling h "textStyle" (by decide) hs fields
    exact Reader.reads_choice rfl (hr.map _)
  | insertInlineImage location uri =>
    have hr := reads_insertion h "uri" (by decide) uri budget
    exact Reader.reads_choice rfl (hr.map _)
  | insertTable rows columns location =>
    exact Reader.reads_choice rfl (reads_insertTable h budget)
  | updateParagraphStyle span style fields =>
    simp only [toJson, payload, depth, depthMembers] at hd
    have hs : style.toJson.depth ≤ budget+2 := by omega
    have hr := reads_styling h "paragraphStyle" (by decide) hs fields
    exact Reader.reads_choice rfl (hr.map _)

end Request

namespace Batch

def Words (batch : Batch) : Prop := ∀ request ∈ batch.requests, request.Words

instance (batch : Batch) : Decidable batch.Words :=
  inferInstanceAs (Decidable (∀ request ∈ batch.requests, request.Words))

theorem reads {batch : Batch} (h : batch.Words) {budget : Nat}
    (hd : batch.toJson.depth ≤ budget+6) :
    Reads Batch.reader (budget+6) batch.toJson batch := by
  simp only [toJson, depth, depthMembers] at hd
  have hrequests : ∀ request ∈ batch.requests,
      Reads Request.reader (budget+4) request.toJson request := by
    intro request hr
    have hle : depthItems (batch.requests.map Request.toJson) ≤ budget+4 := by omega
    exact Request.reads (h request hr)
      (Json.depthItems_le.mp hle request.toJson (List.mem_map_of_mem hr))
  have hw := Fields.Written.given (.required "requests" (.list Request.reader))
    (Reader.reads_list hrequests) .nil
  exact (Reader.reads_record hw (by decide)).map _

end Batch
end EditScript
