import EditScript.Compile
import EditScript.Proofs.Target

namespace EditScript
variable {arithmetic : Arithmetic}

/-- The units of the elements of a paragraph; an inline object that cannot be shown has none. -/
def Inline.rendered (compiler : Compiler arithmetic) : Inline → List Atom
  | .text run =>
      (compiler.options.lengthUnit.codes run.content).map fun code => ⟨.code code, run.style, .empty⟩
  | .object id => match compiler.objects.get? id >>= InlineObject.contentUri with
    | some uri => [.plain (.image uri)]
    | none => []
  | .unsupported _ => []

def Paragraph.rendered (compiler : Compiler arithmetic) (paragraph : Paragraph) : List Atom :=
  let atoms := paragraph.elements.flatMap (Inline.rendered compiler)
  if compiler.options.paragraphStyles then
    atoms.map fun atom => { atom with paragraphStyle := paragraph.style }
  else atoms

/-- The units of a block in its own space; a table is one there. -/
def Block.rendered (compiler : Compiler arithmetic) : Block → List Atom
  | .paragraph p => p.rendered compiler
  | .table t => [.plain (.table t.rows.toNat t.columns.toNat)]
  | .unsupported _ => []

/-- The cells of a block at an index of the body: those that a table declares. -/
def Block.renderedCells (compiler : Compiler arithmetic) (index : Nat) : Block → Cells
  | .table t, address =>
      if address.tableStart = index ∧ address.row < t.rows.toNat ∧ address.column < t.columns.toNat
      then (t.cell? address.row address.column).map (List.flatMap (Block.rendered compiler))
      else none
  | .paragraph _, _ | .unsupported _, _ => none

/-- The cells of a list of elements, each standing after the units of those before it. -/
def Cells.along {α : Type} (atoms : α → List Atom) (cells : Nat → α → Cells) : Nat → List α → Cells
  | _, [], _ => none
  | index, a :: as, address =>
      (cells index a address).or (along atoms cells (index+(atoms a).length) as address)

def Document.rendered (document : Document) (options : Options) : List Atom :=
  document.content.flatMap (Block.rendered (document.compiler .naturals options))

def Document.renderedCells (document : Document) (options : Options) : Cells :=
  Cells.along (Block.rendered (document.compiler .naturals options))
    (Block.renderedCells (document.compiler .naturals options)) options.startIndex.toNat
    document.content

end EditScript
