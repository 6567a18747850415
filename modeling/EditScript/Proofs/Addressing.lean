import EditScript.Proofs.Moves

namespace EditScript

def Request.inCell (address : CellAddress) : Request → Request
  | .insertText location text => .insertText { location with cell := some address } text
  | .updateTextStyle span style fields =>
      .updateTextStyle { span with cell := some address } style fields
  | .insertInlineImage location uri =>
      .insertInlineImage { location with cell := some address } uri
  | .insertTable rows columns location =>
      .insertTable rows columns { location with cell := some address }
  | .updateParagraphStyle span style fields =>
      .updateParagraphStyle { span with cell := some address } style fields

def Compilation.inCell (address : CellAddress) (done : Compilation) : Compilation :=
  { done with requests := done.requests.map (Request.inCell address) }

namespace Move

end Move

namespace Compiler
open Emitter

variable {arithmetic : Arithmetic} {compiler : Compiler arithmetic} {address : CellAddress}
  {start : Nat}

end Compiler
end EditScript
