import EditScript.Json.Printer
import EditScript.Request.Basic

namespace EditScript

namespace CellAddress

def toMembers (address : CellAddress) : List (String × Json) :=
  [("tableStartLocation", .object [("index", .ofNat address.tableStart)]),
    ("rowIndex", .ofNat address.row), ("columnIndex", .ofNat address.column)]

def toJson (address : CellAddress) : Json := .object address.toMembers

end CellAddress

def Location.toJson (location : Location) : Json :=
  .object (("index", .ofNat location.index) :: location.cell.elim [] CellAddress.toMembers)

def Span.toJson (span : Span) : Json :=
  .object (("startIndex", .ofNat span.start) :: ("endIndex", .ofNat span.stop) ::
    span.cell.elim [] CellAddress.toMembers)

namespace Request

def payload : Request → List (String × Json)
  | .insertText location text => [("location", location.toJson), ("text", .string text)]
  | .updateTextStyle span style fields =>
      [("range", span.toJson), ("textStyle", style.toJson), ("fields", .string fields)]
  | .insertInlineImage location uri => [("location", location.toJson), ("uri", .string uri)]
  | .insertTable rows columns location =>
      [("rows", .ofNat rows), ("columns", .ofNat columns), ("location", location.toJson)]
  | .updateParagraphStyle span style fields =>
      [("range", span.toJson), ("paragraphStyle", style.toJson), ("fields", .string fields)]

/-- The request under the name of its kind. -/
def toJson (request : Request) : Json := .object [(request.kind, .object request.payload)]

end Request

def Batch.toJson (batch : Batch) : Json :=
  .object [("requests", .array (batch.requests.map Request.toJson))]

end EditScript
