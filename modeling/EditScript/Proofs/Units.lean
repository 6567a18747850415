import EditScript.Proofs.Success
import Mathlib.Algebra.GroupWithZero.Nat

namespace EditScript

/-- The units of an element in its space, said of the content alone. -/
def Inline.units (unit : LengthUnit) : Inline → Nat
  | .text run => unit.measure run.content
  | .object _ => 1
  | .unsupported _ => 0

def Paragraph.units (unit : LengthUnit) (paragraph : Paragraph) : Nat :=
  (paragraph.elements.map (Inline.units unit)).sum

/-- A table takes one unit whatever its size. -/
def Block.units (unit : LengthUnit) : Block → Nat
  | .paragraph p => p.units unit
  | .table _ => 1
  | .unsupported _ => 0

theorem Emitter.add_each {α : Type} {emit : Emitter α} {arithmetic : Arithmetic}
    {cell : Option CellAddress} {units : α → Nat}
    (h : ∀ index a done, arithmetic.Holds index → emit ⟨index, cell⟩ a = .ok done →
      arithmetic.add index (units a) = some done.endIndex) {as : List α} {index : Nat}
    {done : Compilation} (hi : arithmetic.Holds index) (hd : each emit ⟨index, cell⟩ as = .ok done) :
    arithmetic.add index (as.map units).sum = some done.endIndex := by
  refine each_induct (motive := fun index as done => arithmetic.Holds index →
    arithmetic.add index (as.map units).sum = some done.endIndex) ?_ ?_ hd hi
  · exact fun index hi => Arithmetic.add_zero hi
  · intro index a as first rest hf _ ih hi
    have hfirst := h index a first hi hf
    exact Arithmetic.add_add hfirst (ih (Arithmetic.holds_add hfirst))

namespace Compiler

variable {arithmetic : Arithmetic} {compiler : Compiler arithmetic} {index : Nat}
  {cell : Option CellAddress} {done : Compilation}

theorem add_inline {element : Inline} (hi : arithmetic.Holds index)
    (h : compiler.inline ⟨index, cell⟩ element = .ok done) :
    arithmetic.add index (element.units compiler.options.lengthUnit) = some done.endIndex := by
  obtain ⟨run, stop, rfl, hs, rfl⟩ | ⟨id, found, uri, stop, rfl, -, -, hs, rfl⟩ |
    ⟨kind, rfl, rfl⟩ := inline_ok h
  · exact hs
  · exact hs
  · exact Arithmetic.add_zero hi

theorem add_paragraph {paragraph : Paragraph} (hi : arithmetic.Holds index)
    (h : compiler.paragraph ⟨index, cell⟩ paragraph = .ok done) :
    arithmetic.add index (paragraph.units compiler.options.lengthUnit) = some done.endIndex := by
  obtain ⟨inner, hin, rfl⟩ := paragraph_ok h
  have hinner := Emitter.add_each (fun _ _ _ => add_inline) hi hin
  exact hinner

theorem add_table {table : Table Block} (h : compiler.table ⟨index, none⟩ table = .ok done) :
    arithmetic.add index 1 = some done.endIndex := by
  obtain ⟨-, cells, stop, -, hs, rfl⟩ := table_ok h
  exact hs

theorem add_block {block : Block} (hi : arithmetic.Holds index)
    (h : compiler.block compiler.table ⟨index, cell⟩ block = .ok done) :
    arithmetic.add index (block.units compiler.options.lengthUnit) = some done.endIndex := by
  obtain ⟨p, rfl, hp⟩ | ⟨t, rfl, rfl, ht⟩ | ⟨kind, rfl, rfl⟩ := block_ok h
  · exact add_paragraph hi hp
  · exact add_table ht
  · exact Arithmetic.add_zero hi

/-- Content that compiles leads from its start to its end by its units. -/
theorem add_compile {content : List Block} {start : Nat} (hs : arithmetic.Holds start)
    (h : compiler.compile content cell start = .ok done) :
    arithmetic.add start (content.map (Block.units compiler.options.lengthUnit)).sum =
      some done.endIndex :=
  Emitter.add_each (fun _ _ _ => add_block) hs h

end Compiler
end EditScript
