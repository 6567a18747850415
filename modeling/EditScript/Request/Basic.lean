import EditScript.Position
import EditScript.Style

namespace EditScript

inductive Request where
  | insertText (location : Location) (text : String)
  | updateTextStyle (span : Span) (style : Style) (fields : String)
  | insertInlineImage (location : Location) (uri : String)
  | insertTable (rows columns : Nat) (location : Location)
  | updateParagraphStyle (span : Span) (style : Style) (fields : String)
  deriving DecidableEq

namespace Request

/-- The style replaces every attribute of the text, given or not. -/
def allFields : String := "*"

def restyle (span : Span) (style : Style) : Request := .updateTextStyle span style allFields

/-- Sets the attributes of a paragraph that the style names. -/
def styleParagraph (span : Span) (style : Style) : Request :=
  .updateParagraphStyle span style style.fieldMask

def kind : Request → String
  | .insertText _ _ => "insertText"
  | .updateTextStyle _ _ _ => "updateTextStyle"
  | .insertInlineImage _ _ => "insertInlineImage"
  | .insertTable _ _ _ => "insertTable"
  | .updateParagraphStyle _ _ _ => "updateParagraphStyle"

def cell : Request → Option CellAddress
  | .insertText location _ | .insertInlineImage location _
  | .insertTable _ _ location => location.cell
  | .updateTextStyle span _ _ | .updateParagraphStyle span _ _ => span.cell

/-- Where the request inserts, or where its span starts. -/
def start : Request → Nat
  | .insertText location _ | .insertInlineImage location _
  | .insertTable _ _ location => location.index
  | .updateTextStyle span _ _ | .updateParagraphStyle span _ _ => span.start

def isInsert : Request → Bool
  | .insertText _ _ | .insertInlineImage _ _ | .insertTable _ _ _ => true
  | .updateTextStyle _ _ _ | .updateParagraphStyle _ _ _ => false

end Request

/-- Requests to be replayed together, in order. -/
@[ext] structure Batch where
  requests : List Request
  deriving DecidableEq

end EditScript
