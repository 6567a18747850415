import EditScript.Document.Basic
import EditScript.Json.Printer

namespace EditScript

/-- A member that is written only if there is a value for it. -/
def Json.given (name : String) (value : Option Json) : List (String × Json) :=
  (value.map (name, ·)).toList

namespace Style

def toMembers (name : String) (style : Style) : List (String × Json) :=
  if style.isEmpty then [] else [(name, style.toJson)]

end Style

/-- An element of an unknown kind: its name, and nothing about it. -/
def Element.unknownToJson (kind : String) : Json := .object [(kind, .object [])]

def TextRun.toJson (run : TextRun) : Json :=
  .object (("content", .string run.content) :: run.style.toMembers "textStyle")

def Inline.toJson : Inline → Json
  | .text run => .object [("textRun", run.toJson)]
  | .object id => .object [("inlineObjectElement", .object [("inlineObjectId", .string id)])]
  | .unsupported kind => Element.unknownToJson kind

def Paragraph.toJson (paragraph : Paragraph) : Json :=
  .object (("elements", .array (paragraph.elements.map Inline.toJson)) ::
    paragraph.style.toMembers "paragraphStyle")

def Json.holding (name : String) (items : List Json) : Json := .object [(name, .array items)]

def Table.toJsonWith (rows columns : UInt64) (grid : List Json) : Json :=
  .object [("rows", .ofNat rows.toNat), ("columns", .ofNat columns.toNat),
    ("tableRows", .array grid)]

namespace Block

mutual

def toJson : Block → Json
  | .paragraph p => .object [("paragraph", p.toJson)]
  | .table ⟨rows, columns, grid⟩ =>
      .object [("table", Table.toJsonWith rows columns (gridToJson grid))]
  | .unsupported kind => Element.unknownToJson kind

def gridToJson : List (List (List Block)) → List Json
  | [] => []
  | row :: rows => .holding "tableCells" (rowToJson row) :: gridToJson rows

def rowToJson : List (List Block) → List Json
  | [] => []
  | cell :: cells => .holding "content" (listToJson cell) :: rowToJson cells

def listToJson : List Block → List Json
  | [] => []
  | block :: blocks => toJson block :: listToJson blocks

end

def cellToJson (content : List Block) : Json := .holding "content" (listToJson content)

end Block

def Image.toJson (image : Image) : Json :=
  .object (Json.given "contentUri" (image.contentUri.map .string) ++
    Json.given "sourceUri" (image.sourceUri.map .string))

def Embedded.toJson (embedded : Embedded) : Json :=
  .object (Json.given "title" (embedded.title.map .string) ++
    Json.given "description" (embedded.description.map .string) ++
    Json.given "imageProperties" (embedded.image.map Image.toJson))

def InlineObject.toJson (object : InlineObject) : Json :=
  .object (Json.given "objectId" (object.id.map .string) ++
    [("inlineObjectProperties", .object [("embeddedObject", object.embedded.toJson)])])

def Document.toJson (document : Document) : Json :=
  .object (Json.given "documentId" (document.id.map .string) ++
    Json.given "title" (document.title.map .string) ++
    ("body", .holding "content" (Block.listToJson document.content)) ::
    (if document.inlineObjects.isEmpty then []
      else [("inlineObjects",
        .object (document.inlineObjects.entries.map fun (id, object) => (id, object.toJson)))]))

end EditScript
