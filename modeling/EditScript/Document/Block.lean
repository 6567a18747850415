import EditScript.Style

namespace EditScript

@[ext] structure TextRun where
  content : String
  style : Style
  deriving DecidableEq

/-- An element of a paragraph: text, a reference to an inline object, or something else. -/
inductive Inline where
  | text (run : TextRun)
  | object (id : String)
  | unsupported (kind : String)
  deriving DecidableEq

namespace Inline

def plain (content : String) : Inline := .text ⟨content, .empty⟩

def styled (content : String) (style : Style) : Inline := .text ⟨content, style⟩

def kind : Inline → String
  | .text _ => "textRun"
  | .object _ => "inlineObjectElement"
  | .unsupported kind => kind

end Inline

@[ext] structure Paragraph where
  elements : List Inline
  style : Style
  deriving DecidableEq

namespace Paragraph

def plain (content : String) : Paragraph := ⟨[.plain content], .empty⟩

def styled (content : String) (style : Style) : Paragraph := ⟨[.styled content style], .empty⟩

def withStyle (paragraph : Paragraph) (style : Style) : Paragraph := { paragraph with style }

end Paragraph

/-- A table: the size that it declares, and its cells row by row, which need not agree. A cell holds
a list of `β`. -/
@[ext] structure Table (β : Type) where
  rows : UInt64
  columns : UInt64
  grid : List (List (List β))

namespace Table
variable {β : Type}

/-- The table of these cells, as wide as its first row. -/
def ofGrid (grid : List (List (List β))) : Table β :=
  ⟨.ofNat grid.length, .ofNat (grid.head?.elim 0 List.length), grid⟩

def cell? (table : Table β) (row column : Nat) : Option (List β) :=
  table.grid[row]? >>= fun cells => cells[column]?

end Table

/-- An element of a body or of a table cell. -/
inductive Block where
  | paragraph (paragraph : Paragraph)
  | table (table : Table Block)
  | unsupported (kind : String)

namespace Block

def kind : Block → String
  | .paragraph _ => "paragraph"
  | .table _ => "table"
  | .unsupported kind => kind

mutual

def decEq : (a b : Block) → Decidable (a = b)
  | .paragraph a, .paragraph b => decidable_of_iff (a = b) (by simp)
  | .table ⟨rows, columns, grid⟩, .table ⟨rows', columns', grid'⟩ =>
    @decidable_of_iff _ (rows = rows' ∧ columns = columns' ∧ grid = grid') (by simp)
      (@instDecidableAnd _ _ _ (@instDecidableAnd _ _ _ (decEqGrid grid grid')))
  | .unsupported a, .unsupported b => decidable_of_iff (a = b) (by simp)
  | .paragraph _, .table _ | .paragraph _, .unsupported _
  | .table _, .paragraph _ | .table _, .unsupported _
  | .unsupported _, .paragraph _ | .unsupported _, .table _ => .isFalse (by simp)

def decEqGrid : (a b : List (List (List Block))) → Decidable (a = b)
  | [], [] => .isTrue rfl
  | a :: as, b :: bs =>
    @decidable_of_iff _ (a = b ∧ as = bs) (by simp)
      (@instDecidableAnd _ _ (decEqRow a b) (decEqGrid as bs))
  | [], _ :: _ | _ :: _, [] => .isFalse (by simp)

def decEqRow : (a b : List (List Block)) → Decidable (a = b)
  | [], [] => .isTrue rfl
  | a :: as, b :: bs =>
    @decidable_of_iff _ (a = b ∧ as = bs) (by simp)
      (@instDecidableAnd _ _ (decEqList a b) (decEqRow as bs))
  | [], _ :: _ | _ :: _, [] => .isFalse (by simp)

def decEqList : (a b : List Block) → Decidable (a = b)
  | [], [] => .isTrue rfl
  | a :: as, b :: bs =>
    @decidable_of_iff _ (a = b ∧ as = bs) (by simp)
      (@instDecidableAnd _ _ (decEq a b) (decEqList as bs))
  | [], _ :: _ | _ :: _, [] => .isFalse (by simp)

end

instance : DecidableEq Block := decEq

end Block
end EditScript
