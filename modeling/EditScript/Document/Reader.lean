import EditScript.Document.Basic
import EditScript.File
import EditScript.Style.Reader

namespace EditScript

def TextRun.reader : Reader TextRun :=
  .map (fun (content, style, ()) => ⟨content, style⟩) (.record
    (.cons (.withDefault "content" .string "")
      (.cons (.withDefault "textStyle" Style.reader .empty) .nil)))

namespace Element

/-- Members of an element that say where it stands and not what it is. -/
def positionKeys : List String := ["startIndex", "endIndex"]

/-- The kind of an element of which only these members are left: the first key in order that is no
position. -/
def kind (others : List (String × Json)) : String :=
  (((Entries.sort others).map (·.1)).find? (· ∉ positionKeys)).getD "unknown"

/-- An element of two known kinds: of the first one that is given, or else of an unknown kind. -/
def reader {α β γ : Type} (first : String) (readFirst : Reader α)
    (second : String) (readSecond : Reader β)
    (ofFirst : α → γ) (ofSecond : β → γ) (unknown : String → γ) : Reader γ :=
  .map (fun
      | ((some a, _, ()), _) => ofFirst a
      | ((none, some b, ()), _) => ofSecond b
      | ((none, none, ()), others) => unknown (kind others))
    (.openRecord (.cons (.optional first readFirst) (.cons (.optional second readSecond) .nil)))

end Element

namespace Inline

def objectReader : Reader String :=
  .map (fun (id, ()) => id) (.record (.cons (.required "inlineObjectId" .string) .nil))

def reader : Reader Inline :=
  Element.reader "textRun" TextRun.reader "inlineObjectElement" objectReader
    .text .object .unsupported

end Inline

def Paragraph.reader : Reader Paragraph :=
  .map (fun (elements, style, ()) => ⟨elements, style⟩) (.record
    (.cons (.withDefault "elements" (.list Inline.reader) [])
      (.cons (.withDefault "paragraphStyle" Style.reader .empty) .nil)))

namespace Table
variable {β : Type}

def cellReader (read : Reader β) : Reader (List β) :=
  .map (fun (content, ()) => content)
    (.record (.cons (.withDefault "content" (.list read) []) .nil))

def rowReader (read : Reader β) : Reader (List (List β)) :=
  .map (fun (cells, ()) => cells)
    (.record (.cons (.withDefault "tableCells" (.list (cellReader read)) []) .nil))

def reader (read : Reader β) : Reader (Table β) :=
  .map (fun (rows, columns, grid, ()) => ⟨rows, columns, grid⟩) (.record
    (.cons (.required "rows" .word)
      (.cons (.required "columns" .word)
        (.cons (.withDefault "tableRows" (.list (rowReader read)) []) .nil))))

end Table

namespace Block

def readerOver (inner : Reader Block) : Reader Block :=
  Element.reader "paragraph" Paragraph.reader "table" (Table.reader inner)
    .paragraph .table .unsupported

/-- Blocks with fewer than `depth` tables around a block. -/
def readerWithin : Nat → Reader Block
  | 0 => fun _ _ => .error .malformed
  | depth+1 => readerOver (readerWithin depth)

/-- Blocks with any tables: each takes up brackets, so more than the budget cannot be open. -/
def reader : Reader Block := fun budget => readerWithin (budget+1) budget

end Block

def Image.reader : Reader Image :=
  .map (fun (contentUri, sourceUri, ()) => ⟨contentUri, sourceUri⟩) (.record
    (.cons (.optional "contentUri" .string) (.cons (.optional "sourceUri" .string) .nil)))

def Embedded.reader : Reader Embedded :=
  .map (fun (title, description, image, ()) => ⟨title, description, image⟩) (.record
    (.cons (.optional "title" .string)
      (.cons (.optional "description" .string)
        (.cons (.optional "imageProperties" Image.reader) .nil))))

namespace InlineObject

def propertiesReader : Reader Embedded :=
  .map (fun (embedded, ()) => embedded)
    (.record (.cons (.withDefault "embeddedObject" Embedded.reader .empty) .nil))

def reader : Reader InlineObject :=
  .map (fun (id, embedded, ()) => ⟨id, embedded⟩) (.record
    (.cons (.optional "objectId" .string)
      (.cons (.withDefault "inlineObjectProperties" propertiesReader .empty) .nil)))

end InlineObject

inductive ModelError where
  | json (error : ReadError)
  | io (error : FileError)
  deriving DecidableEq

def ModelError.message : ModelError → String
  | .json error => "Invalid document JSON: " ++ error.message
  | .io error => "IO error: " ++ error.message

namespace Document

def bodyReader : Reader (List Block) :=
  .map (fun (content, ()) => content)
    (.record (.cons (.withDefault "content" (.list Block.reader) []) .nil))

def reader : Reader Document :=
  .map (fun (id, title, content, inlineObjects, ()) => ⟨id, title, content, inlineObjects⟩) (.record
    (.cons (.optional "documentId" .string)
      (.cons (.optional "title" .string)
        (.cons (.withDefault "body" bodyReader [])
          (.cons (.withDefault "inlineObjects" (.dict InlineObject.reader) .empty) .nil)))))

def ofScan (scan : Scan) : Except ModelError Document := (scan.read reader).mapError .json

def ofText (text : String) : Except ModelError Document := ofScan (.ofText text)

/-- The document in the bytes that a stream gives before it ends or fails. -/
def ofBytes (bytes : List UInt8) (ending : Ending) : Except ModelError Document :=
  ofScan (.ofBytes bytes ending)

/-- The document in a file. A directory opens like a file and fails when it is read. -/
def ofFile : File → Except ModelError Document
  | .absent => .error (.io .notFound)
  | .directory => ofBytes [] .failed
  | .bytes bytes => ofBytes bytes .ended

end Document
end EditScript
