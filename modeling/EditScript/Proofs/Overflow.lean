import EditScript.Proofs.Success

namespace EditScript

/-- A checked run stops at an index that is too large, or comes to what an unchecked one does. -/
def StopsOr {ε α : Type} (checked other : Except (Halt ε) α) : Prop :=
  checked = .error .overflow ∨ other = checked

namespace StopsOr
variable {ε α β : Type} {checked other : Except (Halt ε) α}

theorem refl (x : Except (Halt ε) α) : StopsOr x x := .inr rfl

theorem bind {f g : α → Except (Halt ε) β} (h : StopsOr checked other)
    (hf : ∀ a, StopsOr (f a) (g a)) : StopsOr (checked >>= f) (other >>= g) := by
  rcases h with rfl | rfl
  · exact .inl rfl
  · cases other with
    | error e => exact refl _
    | ok a => exact hf a

theorem map (f : α → β) (h : StopsOr checked other) : StopsOr (checked.map f) (other.map f) := by
  rcases h with rfl | rfl
  · exact .inl rfl
  · exact refl _

theorem add (arithmetic : Arithmetic) (index units : Nat) (f : Nat → α) :
    StopsOr (Halt.unlessOverflow (((Arithmetic.words .stops).add index units).map f) :
        Except (Halt ε) α)
      (Halt.unlessOverflow ((arithmetic.add index units).map f)) := by
  by_cases h : index+units < UInt64.size
  · rw [Arithmetic.add_of_lt h, Arithmetic.add_of_lt h]
    exact refl _
  · exact .inl (by simp [Arithmetic.add, h])

theorem each {emit emit' : Emitter α} {cell : Option CellAddress}
    (h : ∀ index a, StopsOr (emit ⟨index, cell⟩ a) (emit' ⟨index, cell⟩ a)) (index : Nat)
    (as : List α) : StopsOr (emit.each ⟨index, cell⟩ as) (emit'.each ⟨index, cell⟩ as) := by
  induction as generalizing index with
  | nil => exact refl _
  | cons a as ih =>
    rw [Emitter.each_cons, Emitter.each_cons]
    exact (h index a).bind fun first => (ih first.endIndex).map _

end StopsOr

namespace Compiler
variable {arithmetic : Arithmetic} (compiler : Compiler arithmetic)

abbrev checked : Compiler (.words .stops) := compiler.counting (.words .stops)

theorem inline_stopsOr (cell : Option CellAddress) (index : Nat) (element : Inline) :
    StopsOr (compiler.checked.inline ⟨index, cell⟩ element)
      (compiler.inline ⟨index, cell⟩ element) := by
  cases element with
  | text run =>
    rw [inline_text, inline_text]
    exact .add arithmetic index _ _
  | unsupported kind => exact .refl _
  | object id =>
    cases hf : compiler.objects.get? id with
    | none => simpa only [inline, counting, hf] using .refl _
    | some found =>
      cases hu : found.contentUri with
      | none => simpa only [inline, counting, hf, hu] using .refl _
      | some uri =>
        rw [compiler.inline_object index cell hf hu,
          compiler.checked.inline_object index cell hf hu]
        exact .add arithmetic index _ _

theorem paragraph_stopsOr (cell : Option CellAddress) (index : Nat) (paragraph : Paragraph) :
    StopsOr (compiler.checked.paragraph ⟨index, cell⟩ paragraph)
      (compiler.paragraph ⟨index, cell⟩ paragraph) := by
  rw [paragraph_eq, paragraph_eq]
  exact (StopsOr.each (compiler.inline_stopsOr cell) index paragraph.elements).map _

theorem block_stopsOr {table table' : Emitter (Table Block)} {cell : Option CellAddress}
    (h : ∀ index t, StopsOr (table ⟨index, cell⟩ t) (table' ⟨index, cell⟩ t)) (index : Nat)
    (block : Block) :
    StopsOr (compiler.checked.block table ⟨index, cell⟩ block)
      (compiler.block table' ⟨index, cell⟩ block) := by
  cases block with
  | paragraph p => exact compiler.paragraph_stopsOr cell index p
  | table t => exact h index t
  | unsupported kind => exact .refl _

theorem slot_stopsOr (cell : Option CellAddress) (index : Nat) (slot : Table.Slot Block) :
    StopsOr (compiler.checked.slot ⟨index, cell⟩ slot) (compiler.slot ⟨index, cell⟩ slot) := by
  simp only [Compiler.slot]
  cases slot.content with
  | none => exact .refl _
  | some content =>
    have hcell : StopsOr
        (compiler.checked.cell ⟨index, slot.row, slot.column⟩ content)
        (compiler.cell ⟨index, slot.row, slot.column⟩ content) :=
      .each (compiler.block_stopsOr fun _ _ => .refl _) _ content
    exact hcell.bind fun _ => .refl _

theorem table_stopsOr (cell : Option CellAddress) (index : Nat) (table : Table Block) :
    StopsOr (compiler.checked.table ⟨index, cell⟩ table)
      (compiler.table ⟨index, cell⟩ table) := by
  cases cell with
  | some address => exact .refl _
  | none =>
    rw [table_eq, table_eq]
    exact (StopsOr.each (compiler.slot_stopsOr none) index table.slots).bind fun _ =>
      .add arithmetic index _ _

theorem compile_stopsOr (content : List Block) (cell : Option CellAddress) (start : Nat) :
    StopsOr (compiler.checked.compile content cell start) (compiler.compile content cell start) :=
  .each (compiler.block_stopsOr (compiler.table_stopsOr cell)) start content

section
variable {compiler : Compiler arithmetic} {cell : Option CellAddress} {index : Nat}

end

/-- No index is too large for a word: the checked run does not stop at one. -/
def InWords (content : List Block) (cell : Option CellAddress) (start : Nat) : Prop :=
  compiler.checked.compile content cell start ≠ .error .overflow

variable {compiler} {content : List Block} {cell : Option CellAddress} {start : Nat}
  {done : Compilation}

theorem inWords_of_ok (h : compiler.checked.compile content cell start = .ok done) :
    compiler.InWords content cell start := by
  rw [InWords, h]
  exact nofun

/-- Then all arithmetics come to the same. -/
theorem compile_counting (h : compiler.InWords content cell start) (other : Arithmetic) :
    (compiler.counting other).compile content cell start = compiler.compile content cell start := by
  -- Both runs agree with the checked one, which does not stop.
  rcases compiler.compile_stopsOr content cell start with hs | hs
  · exact absurd hs h
  · rcases (compiler.counting other).compile_stopsOr content cell start with ho | ho
    · exact absurd ho h
    · exact ho.trans hs.symm

theorem compile_naturals (h : arithmetic = .naturals ∨ compiler.InWords content cell start) :
    (compiler.counting .naturals).compile content cell start = compiler.compile content cell start := by
  rcases h with rfl | h
  · rfl
  · exact compile_counting h .naturals

/-- A run that succeeds stays within words, unless it goes on past them by design. -/
theorem inWords_of_unwrapped
    (hw : arithmetic = .words .wraps → compiler.InWords content cell start)
    (h : compiler.compile content cell start = .ok done) :
    arithmetic = .naturals ∨ compiler.InWords content cell start := by
  match arithmetic with
  | .naturals => exact .inl rfl
  | .words .wraps => exact .inr (hw rfl)
  | .words .stops => exact .inr (inWords_of_ok h)

theorem compile_naturals_ok
    (hw : arithmetic = .words .wraps → compiler.InWords content cell start)
    (h : compiler.compile content cell start = .ok done) :
    (compiler.counting .naturals).compile content cell start = .ok done :=
  (compile_naturals (inWords_of_unwrapped hw h)).trans h

theorem InWords.checked_ok (hw : compiler.InWords content cell start)
    (h : compiler.compile content cell start = .ok done) :
    compiler.checked.compile content cell start = .ok done :=
  (compile_counting hw (.words .stops)).trans h

end Compiler

def Document.boldTitle : Document where
  id := none
  title := none
  content := [.paragraph ⟨[.styled "ab" .bold], .named "TITLE"⟩]
  inlineObjects := .empty

/-- What the title is compiled to at the last index of a word, if that wraps around. -/
def Compilation.wrapped : Compilation where
  requests := [.insertText ⟨18446744073709551615, none⟩ "ab",
    .restyle ⟨18446744073709551615, 1, none⟩ .bold]
  endIndex := 1
  stats := ⟨1, 0, 0, 0, 0, 0⟩

theorem compile_wrapped :
    (Document.boldTitle.compiler (.words .wraps) ⟨18446744073709551615, .utf16, true⟩).compile
      Document.boldTitle.content none 18446744073709551615 = .ok .wrapped := by
  decide

end EditScript
