import EditScript.Request.Basic
import EditScript.Style.Reader

namespace EditScript

namespace CellAddress

def tableStartReader : Reader Nat :=
  .map (fun (index, ()) => index) (.record (.cons (.required "index" .index) .nil))

def reader : Reader CellAddress :=
  .map (fun (tableStart, row, column, ()) => ⟨tableStart, row, column⟩) (.record
    (.cons (.required "tableStartLocation" tableStartReader)
      (.cons (.required "rowIndex" .index) (.cons (.required "columnIndex" .index) .nil))))

/-- The cell among the other members of a position: they are read once more, as a cell on its own,
and anything that is wrong with them leaves the position in the body. -/
def ofMembers? (members : List (String × Json)) : Option CellAddress :=
  (reader Scan.depthLimit (Json.object members).toTree).toOption

theorem ofMembers?_eq_some {members : List (String × Json)} {address : CellAddress} :
    ofMembers? members = some address ↔
      reader Scan.depthLimit (Json.object members).toTree = .ok address := by
  rw [ofMembers?]
  cases reader Scan.depthLimit (Json.object members).toTree <;> simp [Except.toOption]

end CellAddress

def Location.reader : Reader Location :=
  .map (fun ((index, ()), others) => ⟨index, CellAddress.ofMembers? others⟩)
    (.openRecord (.cons (.required "index" .index) .nil))

def Span.reader : Reader Span :=
  .map (fun ((start, stop, ()), others) => ⟨start, stop, CellAddress.ofMembers? others⟩)
    (.openRecord (.cons (.required "startIndex" .index) (.cons (.required "endIndex" .index) .nil)))

namespace Request

def insertTextReader : Reader Request :=
  .map (fun (location, text, ()) => .insertText location text) (.record
    (.cons (.required "location" Location.reader) (.cons (.required "text" .string) .nil)))

def updateTextStyleReader : Reader Request :=
  .map (fun (span, style, fields, ()) => .updateTextStyle span style fields) (.record
    (.cons (.required "range" Span.reader)
      (.cons (.required "textStyle" Style.reader)
        (.cons (.required "fields" .string) .nil))))

def insertInlineImageReader : Reader Request :=
  .map (fun (location, uri, ()) => .insertInlineImage location uri) (.record
    (.cons (.required "location" Location.reader) (.cons (.required "uri" .string) .nil)))

def insertTableReader : Reader Request :=
  .map (fun (rows, columns, location, ()) => .insertTable rows columns location) (.record
    (.cons (.required "rows" .index)
      (.cons (.required "columns" .index) (.cons (.required "location" Location.reader) .nil))))

def updateParagraphStyleReader : Reader Request :=
  .map (fun (span, style, fields, ()) => .updateParagraphStyle span style fields) (.record
    (.cons (.required "range" Span.reader)
      (.cons (.required "paragraphStyle" Style.reader)
        (.cons (.required "fields" .string) .nil))))

def variant? (kind : String) : Option (Reader.Variant Request) :=
  if kind = "insertText" then some (.payload insertTextReader)
  else if kind = "updateTextStyle" then some (.payload updateTextStyleReader)
  else if kind = "insertInlineImage" then some (.payload insertInlineImageReader)
  else if kind = "insertTable" then some (.payload insertTableReader)
  else if kind = "updateParagraphStyle" then some (.payload updateParagraphStyleReader)
  else none

def reader : Reader Request := .choice variant?

def ofText (text : String) : Except ReadError Request := (Scan.ofText text).read reader

end Request

namespace Batch

def reader : Reader Batch :=
  .map (fun (requests, ()) => ⟨requests⟩)
    (.record (.cons (.required "requests" (.list Request.reader)) .nil))

def ofText (text : String) : Except ReadError Batch := (Scan.ofText text).read reader

end Batch
end EditScript
