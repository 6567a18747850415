import EditScript.Arithmetic

namespace EditScript

/-- A table cell: where its table starts in the body, and its row and column. -/
@[ext] structure CellAddress where
  tableStart : Nat
  row : Nat
  column : Nat
  deriving DecidableEq

@[ext] structure Location where
  index : Nat
  cell : Option CellAddress
  deriving DecidableEq

/-- The units from `start` up to and without `stop`, in one space. -/
@[ext] structure Span where
  start : Nat
  stop : Nat
  cell : Option CellAddress
  deriving DecidableEq

/-- The place in one space at which the next insertion happens. -/
@[ext] structure Cursor where
  index : Nat
  cell : Option CellAddress
  deriving DecidableEq

namespace Cursor

def cellStart : Nat := 1

def advance (arithmetic : Arithmetic) (cursor : Cursor) (units : Nat) : Option Cursor :=
  (arithmetic.add cursor.index units).map fun index => { cursor with index }

/-- The cell at a row and column of a table that starts here. -/
def cellAddress (cursor : Cursor) (row column : Nat) : CellAddress := ⟨cursor.index, row, column⟩

def inCell (address : CellAddress) : Cursor := ⟨cellStart, some address⟩

def isNested (cursor : Cursor) : Bool := cursor.cell.isSome

def here (cursor : Cursor) : Location := ⟨cursor.index, cursor.cell⟩

/-- So many units from here on. -/
def span (arithmetic : Arithmetic) (cursor : Cursor) (units : Nat) : Option Span :=
  (arithmetic.add cursor.index units).map fun stop => ⟨cursor.index, stop, cursor.cell⟩

/-- The units from a start up to here. -/
def spanFrom (cursor : Cursor) (start : Nat) : Span := ⟨start, cursor.index, cursor.cell⟩

end Cursor
end EditScript
