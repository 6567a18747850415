import EditScript.Proofs.FirstDefect
import EditScript.Proofs.Texts
import EditScript.Proofs.Widening

namespace EditScript

namespace Glyph

/-- A code that needs another one behind it. -/
def Leads : Glyph → Prop
  | .code value => 0xD800 ≤ value ∧ value ≤ 0xDBFF
  | .image _ | .table _ _ => False

/-- A code that needs another one before it. -/
def Trails : Glyph → Prop
  | .code value => 0xDC00 ≤ value ∧ value ≤ 0xDFFF
  | .image _ | .table _ _ => False

end Glyph

/-- The place lies between the two codes of a surrogate pair. -/
def SplitsPair (glyphs : List Glyph) (place : Nat) : Prop :=
  ∃ before high low after, glyphs = before ++ high :: low :: after ∧ place = before.length+1 ∧
    high.Leads ∧ low.Trails

/-- Every character of the text is one unit of UTF-16. -/
def InFirstPlane (text : String) : Prop := ∀ c ∈ text.toList, c.toNat ≤ 0xFFFF

/-- The error without the place of the table that it speaks of. -/
def CompileError.unplaced : CompileError → CompileError
  | .nestedTable address => .nestedTable { address with tableStart := 0 }
  | .missingCell address => .missingCell { address with tableStart := 0 }
  | .missingResource id => .missingResource id
  | .missingContentUri id => .missingContentUri id

namespace LengthUnit

theorem not_leads_encode (c : Char) :
    ∀ glyph ∈ ((utf16.encode c).map Glyph.code).getLast?, ¬glyph.Leads := by
  intro glyph hg
  have hvalid : c.toNat < 0xD800 ∨ 0xDFFF < c.toNat ∧ c.toNat < 0x110000 := c.valid
  simp only [encode] at hg
  split at hg
  case isTrue =>
    obtain rfl : Glyph.code c.toNat = glyph := Option.some.inj hg
    simp only [Glyph.Leads]
    omega
  case isFalse =>
    obtain rfl : Glyph.code (0xDC00+(c.toNat-0x10000)%0x400) = glyph := Option.some.inj hg
    simp only [Glyph.Leads]
    omega

end LengthUnit

namespace Compilation
variable {space : Option CellAddress} {done : Compilation}

theorem not_leads_piece : ∀ piece ∈ done.pieces space, ∀ glyph ∈ piece.getLast?, ¬glyph.Leads := by
  intro piece hp
  obtain ⟨request, -, hp⟩ := List.mem_flatMap.mp hp
  cases request with
  | insertText location text =>
    obtain ⟨c, -, rfl⟩ := List.mem_map.mp hp
    exact LengthUnit.not_leads_encode c
  | insertInlineImage location uri =>
    rw [List.mem_singleton.mp hp]
    rintro _ ⟨⟩ ⟨⟩
  | insertTable rows columns location =>
    rw [List.mem_singleton.mp hp]
    rintro _ ⟨⟩ ⟨⟩
  | updateTextStyle span style fields => cases hp
  | updateParagraphStyle span style fields => cases hp

end Compilation

theorem not_leads_flatten {pieces : List (List Glyph)}
    (h : ∀ piece ∈ pieces, ∀ glyph ∈ piece.getLast?, ¬glyph.Leads) :
    ∀ glyph ∈ pieces.flatten.getLast?, ¬glyph.Leads := by
  induction pieces with
  | nil => exact fun glyph hg => nomatch hg
  | cons piece pieces ih =>
    intro glyph hg
    rw [List.flatten_cons, List.getLast?_append, Option.mem_def, Option.or_eq_some_iff] at hg
    rcases hg with hrest | ⟨-, hpiece⟩
    · exact ih (fun other ho => h other (List.mem_cons_of_mem _ ho)) glyph hrest
    · exact h piece List.mem_cons_self glyph hpiece

theorem not_splitsPair_take {pieces : List (List Glyph)}
    (h : ∀ piece ∈ pieces, ∀ glyph ∈ piece.getLast?, ¬glyph.Leads) (n : Nat) :
    ¬SplitsPair pieces.flatten (pieces.take n).flatten.length := by
  rintro ⟨before, high, low, after, he, hplace, hleads, -⟩
  have hsplit : (pieces.take n).flatten ++ (pieces.drop n).flatten =
      (before ++ [high]) ++ (low :: after) := by
    rw [← List.flatten_append, List.take_append_drop, he, List.append_assoc]
    rfl
  have htake : (pieces.take n).flatten = before ++ [high] :=
    (List.append_inj hsplit (by rw [hplace, List.length_append]; rfl)).1
  have hlast : high ∈ (pieces.take n).flatten.getLast? := by
    rw [htake, List.getLast?_append]
    rfl
  exact not_leads_flatten (fun piece hp => h piece (List.mem_of_mem_take hp)) high hlast hleads

namespace Compiler
variable {compiler : Compiler .naturals} {cell : Option CellAddress} {done : Compilation}
  {start : Nat}

/-- No position of the widened compilation splits a surrogate pair. -/
theorem not_splitsPair_widening {content : List Block}
    (h : (compiler.measuring .chars).compile content cell start = .ok done) :
    let wide := (done.widening ⟨start, cell⟩).compilation cell done
    ∀ p ∈ wide.positions cell,
      ¬SplitsPair (wide.pieces p.cell).flatten (p.index-Cursor.origin ⟨start, cell⟩ p.cell) := by
  intro wide p hp
  rw [Compilation.positions_widening] at hp
  obtain ⟨q, hq, rfl⟩ := List.mem_map.mp hp
  have hpieces : wide.pieces ((done.widening ⟨start, cell⟩).cell q.cell) = done.pieces q.cell :=
    Compilation.pieces_compilation (cell_widening_inj h (Compilation.cell_of_mem_positions hq))
  simp only [Move.location, hpieces, Compilation.origin_widening]
  simp only [Compilation.widening, Compilation.widen, Nat.add_sub_cancel_left]
  exact not_splitsPair_take Compilation.not_leads_piece _

end Compiler

theorem length_flatten_of_one {α : Type} {parts : List (List α)}
    (h : ∀ part ∈ parts, part.length = 1) : parts.flatten.length = parts.length := by
  have hones : parts.map List.length = List.replicate parts.length 1 :=
    List.eq_replicate_iff.mpr ⟨List.length_map _, by simpa using h⟩
  rw [List.length_flatten, hones, List.sum_replicate_nat, Nat.mul_one]

namespace LengthUnit

theorem width_eq_one {unit : LengthUnit} {c : Char} (h : c.toNat ≤ 0xFFFF) : unit.width c = 1 := by
  cases unit with
  | chars => rfl
  | utf16 => exact if_pos (Nat.lt_succ_of_le h)

theorem measure_eq_length {unit : LengthUnit} {text : String} (h : InFirstPlane text) :
    unit.measure text = text.toList.length := by
  rw [← length_codes, codes, List.flatMap_def, length_flatten_of_one, List.length_map]
  intro code hc
  obtain ⟨c, hm, rfl⟩ := List.mem_map.mp hc
  rw [length_encode, width_eq_one (h c hm)]

end LengthUnit

namespace Compilation
variable {cell : Option CellAddress} {done : Compilation} {start : Nat}

theorem length_piece (h : ∀ text ∈ done.texts, InFirstPlane text) {space : Option CellAddress} :
    ∀ piece ∈ done.pieces space, piece.length = 1 := by
  intro piece hp
  obtain ⟨request, hr, hp⟩ := List.mem_flatMap.mp hp
  cases request with
  | insertText location text =>
    obtain ⟨c, hc, rfl⟩ := List.mem_map.mp hp
    have htext : text ∈ done.texts :=
      List.mem_filterMap.mpr ⟨_, (Request.mem_addressed.mp hr).1, rfl⟩
    rw [List.length_map, LengthUnit.length_encode, LengthUnit.width_eq_one (h text htext c hc)]
  | insertInlineImage location uri => rw [List.mem_singleton.mp hp]; rfl
  | insertTable rows columns location => rw [List.mem_singleton.mp hp]; rfl
  | updateTextStyle span style fields => cases hp
  | updateParagraphStyle span style fields => cases hp

/-- Where every piece is one unit, positions stay. -/
theorem widen_eq_self (h : ∀ text ∈ done.texts, InFirstPlane text) {cursor : Cursor}
    {space : Option CellAddress} {index : Nat}
    (hi : cursor.origin space ≤ index ∧ index ≤ cursor.origin space+(done.pieces space).length) :
    done.widen cursor space index = index := by
  have hone := length_flatten_of_one
    (fun piece hp => length_piece h piece (List.mem_of_mem_take hp) :
      ∀ piece ∈ (done.pieces space).take (index-cursor.origin space), piece.length = 1)
  rw [List.length_take] at hone
  rw [widen, hone]
  omega

end Compilation

namespace Compiler
variable {compiler : Compiler .naturals} {cell : Option CellAddress} {done : Compilation}
  {start : Nat}

theorem widening_eq_self {content : List Block}
    (h : (compiler.measuring .chars).compile content cell start = .ok done)
    (ht : ∀ text ∈ done.texts, InFirstPlane text) :
    (done.widening ⟨start, cell⟩).compilation cell done = done := by
  have hstay : ∀ p ∈ done.positions cell, done.widen ⟨start, cell⟩ p.cell p.index = p.index :=
    fun p hp => Compilation.widen_eq_self ht (positions_within rfl h p hp)
  have hrequest : ∀ request ∈ done.requests,
      (done.widening ⟨start, cell⟩).request request = request := by
    intro request hr
    have hmem : ∀ p ∈ request.positions cell, p ∈ done.positions cell := fun p hp =>
      List.mem_cons_of_mem _ (List.mem_flatMap.mpr ⟨request, hr, hp⟩)
    refine Move.request_eq_self ?_ ?_
    · intro i hi
      exact hstay ⟨i, request.cell⟩
        (hmem _ (List.mem_append_left _ (List.mem_map.mpr ⟨i, hi, rfl⟩)))
    · cases cell with
      | some address => rfl
      | none =>
        cases hc : request.cell with
        | none => rfl
        | some address =>
          have hstart := hstay ⟨address.tableStart, none⟩ (hmem _ (List.mem_append_right _ (by
            rw [if_pos rfl, hc]
            exact List.mem_singleton_self _)))
          exact congrArg (fun start => some { address with tableStart := start }) hstart
  have hend := hstay ⟨done.endIndex, cell⟩ List.mem_cons_self
  refine Compilation.ext ?_ hend rfl
  exact (List.map_congr_left hrequest).trans (List.map_id _)

end Compiler

/-- Up to their places, the defects of a table do not depend on where it starts. -/
theorem Table.defects_unplaced (objects : Dict InlineObject) (start : Nat) (table : Table Block) :
    (table.defects objects start).map CompileError.unplaced =
      (table.defects objects 0).map CompileError.unplaced := by
  have hblock : ∀ row column (block : Block),
      (block.defectsInCell objects ⟨start, row, column⟩).map CompileError.unplaced =
        (block.defectsInCell objects ⟨0, row, column⟩).map CompileError.unplaced := by
    intro row column block
    cases block <;> rfl
  have hcell : ∀ row column (content : Option (List Block)),
      (cellDefects objects ⟨start, row, column⟩ content).map CompileError.unplaced =
        (cellDefects objects ⟨0, row, column⟩ content).map CompileError.unplaced := by
    intro row column content
    cases content with
    | none => rfl
    | some blocks => simp only [cellDefects, List.map_flatMap, hblock]
  simp only [defects, List.map_flatMap, hcell]

theorem Block.defects_unplaced (objects : Dict InlineObject) (cell : Option CellAddress)
    (index : Nat) (block : Block) :
    (block.defects objects cell index).map CompileError.unplaced =
      (block.defects objects cell 0).map CompileError.unplaced := by
  cases cell with
  | some address => rfl
  | none =>
    cases block with
    | paragraph p => rfl
    | table t => exact t.defects_unplaced objects index
    | unsupported kind => rfl

theorem Block.units_eq {block : Block} (h : ∀ text ∈ block.trimmed.texts, InFirstPlane text)
    (unit other : LengthUnit) : block.units unit = block.units other := by
  cases block with
  | paragraph p =>
    rw [Block.units, Block.units, Paragraph.units, Paragraph.units]
    congr 1
    apply List.map_congr_left
    intro element he
    cases element with
    | text run =>
      have htext : run.content ∈ Block.texts (.paragraph p) :=
        List.mem_filterMap.mpr ⟨.text run, he, rfl⟩
      rw [Inline.units, Inline.units, LengthUnit.measure_eq_length (h _ htext),
        LengthUnit.measure_eq_length (h _ htext)]
    | object id => rfl
    | unsupported kind => rfl
  | table t => rfl
  | unsupported kind => rfl

namespace Compiler

theorem defects_unplaced (compiler : Compiler .naturals) (unit other : LengthUnit)
    (content : List Block) (cell : Option CellAddress) (start : Nat) :
    ((compiler.measuring unit).defects content cell start).map CompileError.unplaced =
      ((compiler.measuring other).defects content cell start).map CompileError.unplaced := by
  rw [defects, defects, Emitter.walk_map (Block.defects_unplaced _ cell),
    Emitter.walk_map (Block.defects_unplaced _ cell)]
  rfl

theorem defects_eq (compiler : Compiler .naturals) {content : List Block}
    (h : ∀ block ∈ content, ∀ text ∈ block.trimmed.texts, InFirstPlane text)
    (unit other : LengthUnit) (cell : Option CellAddress) (start : Nat) :
    (compiler.measuring unit).defects content cell start =
      (compiler.measuring other).defects content cell start := by
  refine Emitter.walk_congr ?_ start
  intro block hb
  exact Block.units_eq (h block hb) unit other

/-- With another unit content fails likewise, but the tables that errors speak of may start
elsewhere. -/
theorem compile_error_of_unit (compiler : Compiler .naturals) (unit other : LengthUnit)
    {content : List Block} {cell : Option CellAddress} {start : Nat} {halt : Halt CompileError}
    (h : (compiler.measuring unit).compile content cell start = .error halt) :
    ∃ e e', halt = .error e ∧
      (compiler.measuring other).compile content cell start = .error (.error e') ∧
      e'.unplaced = e.unplaced ∧
      ((∀ block ∈ content, ∀ text ∈ block.trimmed.texts, InFirstPlane text) → e' = e) := by
  have hhead := ((compiler.measuring unit).settles_compile content cell start).head?.mp h
  obtain ⟨e, hfirst, hhalt⟩ := Option.map_eq_some_iff.mp hhead
  have hunplaced := congrArg List.head? (compiler.defects_unplaced other unit content cell start)
  rw [List.head?_map, List.head?_map, hfirst, Option.map_some, Option.map_eq_some_iff] at hunplaced
  obtain ⟨e', he, hsame⟩ := hunplaced
  have herror : (compiler.measuring other).compile content cell start = .error (.error e') :=
    ((compiler.measuring other).settles_compile content cell start).head?.mpr
      (Option.map_eq_some_iff.mpr ⟨e', he, rfl⟩)
  refine ⟨e, e', hhalt.symm, herror, hsame, ?_⟩
  intro ht
  rw [compiler.defects_eq ht other unit, hfirst] at he
  exact (Option.some.inj he).symm

variable {arithmetic : Arithmetic}

theorem measuring_counting (compiler : Compiler arithmetic) (other : Arithmetic) (unit : LengthUnit) :
    (compiler.counting other).measuring unit = (compiler.measuring unit).counting other := rfl

/-- Counting characters or units of UTF-16, content compiles to the same edit if no index is too
large in either. Both fail, with the same error but for where its table starts, or the requests, the
end and the counts of one are those of the other, with every index behind the units of what it stood
behind in its own space. Indices that count characters lie within what is inserted into their space,
and those that count units split no surrogate pair. If no text leaves the first plane, then both are
equal. -/
theorem compile_utf16_of_chars (compiler : Compiler arithmetic) (content : List Block)
    (cell : Option CellAddress) (start : Nat)
    (hw : arithmetic = .naturals ∨
      ∀ unit, (compiler.measuring unit).InWords content cell start) :
    match (compiler.measuring .chars).compile content cell start with
    | .error halt =>
        ∃ e e', halt = .error e ∧
          (compiler.measuring .utf16).compile content cell start = .error (.error e') ∧
          e'.unplaced = e.unplaced ∧
          ((∀ block ∈ content, ∀ text ∈ block.trimmed.texts, InFirstPlane text) → e' = e)
    | .ok done =>
        let wide := (done.widening ⟨start, cell⟩).compilation cell done
        (compiler.measuring .utf16).compile content cell start = .ok wide ∧
        (∀ p ∈ done.positions cell, Cursor.origin ⟨start, cell⟩ p.cell ≤ p.index ∧
          p.index ≤ Cursor.origin ⟨start, cell⟩ p.cell+(done.pieces p.cell).length) ∧
        (∀ p ∈ wide.positions cell, ¬SplitsPair (wide.pieces p.cell).flatten
          (p.index-Cursor.origin ⟨start, cell⟩ p.cell)) ∧
        ((∀ text ∈ done.texts, InFirstPlane text) → wide = done) := by
  -- A move of indices is exact only on naturals, so both runs are taken there.
  have hnaturals : ∀ unit, ((compiler.counting .naturals).measuring unit).compile content cell start =
      (compiler.measuring unit).compile content cell start := by
    intro unit
    have hunit : arithmetic = .naturals ∨ (compiler.measuring unit).InWords content cell start :=
      hw.imp id fun h => h unit
    rw [measuring_counting, compile_naturals hunit]
  rw [← hnaturals .chars, ← hnaturals .utf16]
  cases h : ((compiler.counting .naturals).measuring .chars).compile content cell start with
  | error halt => exact (compiler.counting .naturals).compile_error_of_unit .chars .utf16 h
  | ok done =>
    exact ⟨compile_widens h, positions_within rfl h, not_splitsPair_widening h, widening_eq_self h⟩

end Compiler

def Compilation.sideBySideInChars : Compilation where
  requests := [
    .insertText ⟨3, none⟩ "a😀",
    .restyle ⟨3, 5, none⟩ .bold,
    .insertInlineImage ⟨5, none⟩ "u",
    .styleParagraph ⟨3, 6, none⟩ (.named "TITLE"),
    .insertTable 1 2 ⟨6, none⟩,
    .insertText ⟨1, some ⟨6, 0, 1⟩⟩ "b😀",
    .insertText ⟨3, some ⟨6, 0, 1⟩⟩ "c",
    .insertTable 2 1 ⟨7, none⟩,
    .insertText ⟨1, some ⟨7, 0, 0⟩⟩ "d",
    .restyle ⟨1, 2, some ⟨7, 0, 0⟩⟩ .bold,
    .insertInlineImage ⟨1, some ⟨7, 1, 0⟩⟩ "u",
    .insertText ⟨8, none⟩ "e"]
  endIndex := 9
  stats := ⟨5, 2, 2, 4, 0, 0⟩

namespace Compiler

/-- Behind the text beyond the first plane, everything in its space stands one unit later, and so do
the tables in the addresses of cells. -/
theorem compile_utf16_of_chars_sideBySide :
    let compiler := Document.sideBySide.compiler (.words .wraps) ⟨3, .utf16, true⟩
    let done := Compilation.sideBySideInChars
    (∀ unit, (compiler.measuring unit).InWords Document.sideBySide.content none 3) ∧
    (compiler.measuring .chars).compile Document.sideBySide.content none 3 = .ok done ∧
    (compiler.measuring .utf16).compile Document.sideBySide.content none 3 =
      .ok ((done.widening ⟨3, none⟩).compilation none done) ∧
    (done.widening ⟨3, none⟩).compilation none done = .sideBySide := by
  intro compiler done
  have hw : ∀ unit, (compiler.measuring unit).InWords Document.sideBySide.content none 3 := by
    intro unit
    cases unit with
    | chars =>
      have hchecked : (compiler.measuring .chars).checked.compile Document.sideBySide.content none
          3 = .ok .sideBySideInChars := by decide
      exact inWords_of_ok hchecked
    | utf16 => exact inWords_sideBySide (.words .wraps)
  have h := compile_utf16_of_chars compiler Document.sideBySide.content none 3 (.inr hw)
  have hd : (compiler.measuring .chars).compile Document.sideBySide.content none 3 =
      .ok .sideBySideInChars := by decide
  rw [hd] at h
  exact ⟨hw, hd, h.1, Except.ok.inj (h.1.symm.trans (compile_sideBySide _))⟩

/-- Where a character is one unit before the last index and its codes pass it, the paragraph is
styled in one unit only, or the other has no edit at all. -/
theorem compile_utf16_of_chars_wrapped :
    let compiler (overflow : Overflow) : Compiler (.words overflow) :=
      ⟨.empty, ⟨18446744073709551614, .utf16, true⟩⟩
    let content := [.paragraph ⟨[.text ⟨"😀", .empty⟩], .named "TITLE"⟩]
    let insertion := .insertText ⟨18446744073709551614, none⟩ "😀"
    (∀ overflow, ((compiler overflow).measuring .chars).compile content none 18446744073709551614 =
      .ok ⟨[insertion, .styleParagraph ⟨18446744073709551614, 18446744073709551615, none⟩
        (.named "TITLE")], 18446744073709551615, .oneTextRun⟩) ∧
    ((compiler .wraps).measuring .utf16).compile content none 18446744073709551614 =
      .ok ⟨[insertion], 0, .oneTextRun⟩ ∧
    ((compiler .stops).measuring .utf16).compile content none 18446744073709551614 =
      .error .overflow := by
  refine ⟨?_, by decide, by decide⟩
  intro overflow
  cases overflow <;> decide

end Compiler
end EditScript
