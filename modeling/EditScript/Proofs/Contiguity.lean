import EditScript.Proofs.Spaces

namespace EditScript

namespace Request

/-- The units that an insert takes in its space, none for a request that styles. -/
def units (unit : LengthUnit) : Request → Nat
  | .insertText _ text => unit.measure text
  | .insertInlineImage _ _ | .insertTable _ _ _ => 1
  | .updateTextStyle _ _ _ | .updateParagraphStyle _ _ _ => 0

def inserts (space : Option CellAddress) (requests : List Request) : List Request :=
  (addressed space requests).filter isInsert

/-- The first stands at an index, and each next one where the units of the one before end. -/
def Contiguous (unit : LengthUnit) : Nat → List Request → Prop
  | _, [] => True
  | index, request :: requests =>
      request.start = index ∧ Contiguous unit (request.start+request.units unit) requests

variable {unit : LengthUnit} {space : Option CellAddress}

@[simp] theorem inserts_append (requests more : List Request) :
    inserts space (requests ++ more) = inserts space requests ++ inserts space more := by
  simp [inserts]

theorem inserts_of_style {requests : List Request}
    (h : ∀ request ∈ requests, request.isInsert = false) : inserts space requests = [] := by
  rw [inserts, List.filter_eq_nil_iff]
  intro request hr
  rw [h request (mem_addressed.mp hr).1]
  exact Bool.false_ne_true

theorem contiguous_append {index : Nat} {requests more : List Request} :
    Contiguous unit index (requests ++ more) ↔ Contiguous unit index requests ∧
      Contiguous unit (index+(requests.map (units unit)).sum) more := by
  induction requests generalizing index with
  | nil => simp [Contiguous]
  | cons request requests ih =>
    simp only [List.cons_append, Contiguous, ih, List.map_cons, List.sum_cons, and_assoc]
    constructor
    · rintro ⟨rfl, hr, hm⟩
      exact ⟨rfl, hr, by rwa [Nat.add_assoc] at hm⟩
    · rintro ⟨rfl, hr, hm⟩
      exact ⟨rfl, hr, by rwa [Nat.add_assoc]⟩

end Request

open Request

/-- In one space, the inserts of a stretch of content stand without gaps from an index up to the
end of the stretch. -/
structure Compilation.Gapless (unit : LengthUnit) (space : Option CellAddress) (index : Nat)
    (done : Compilation) : Prop where
  contiguous : Contiguous unit index (inserts space done.requests)
  endIndex : done.endIndex = index+((inserts space done.requests).map (units unit)).sum

namespace Compilation
variable {unit : LengthUnit} {space : Option CellAddress} {index : Nat}

theorem gapless_still {stats : Stats} : Gapless unit space index ⟨[], index, stats⟩ :=
  ⟨trivial, rfl⟩

theorem gapless_insert {request : Request} {more : List Request} {stats : Stats} {stop : Nat}
    (hc : request.cell = space) (hi : request.isInsert) (hs : request.start = index)
    (hm : inserts space more = []) (he : stop = index+request.units unit) :
    Gapless unit space index ⟨request :: more, stop, stats⟩ := by
  have h : inserts space (request :: more) = [request] := by
    rw [← List.singleton_append, inserts_append, hm, List.append_nil]
    simp [inserts, addressed, hc, hi]
  constructor
  · rw [h]
    exact ⟨hs, trivial⟩
  · rw [h]
    exact he

theorem Gapless.andThen {first rest : Compilation} (hf : Gapless unit space index first)
    (hr : Gapless unit space first.endIndex rest) :
    Gapless unit space index (first.andThen rest) := by
  constructor
  · rw [Compilation.andThen, inserts_append, contiguous_append, ← hf.endIndex]
    exact ⟨hf.contiguous, hr.contiguous⟩
  · simp only [Compilation.andThen, inserts_append, List.map_append, List.sum_append]
    rw [hr.endIndex, hf.endIndex, Nat.add_assoc]

end Compilation

namespace Emitter
variable {α : Type} {emit : Emitter α} {unit : LengthUnit} {cell : Option CellAddress}

theorem gapless_each (h : ∀ index a done, emit ⟨index, cell⟩ a = .ok done →
      done.Gapless unit cell index) {as : List α} {index : Nat} {done : Compilation}
    (hd : each emit ⟨index, cell⟩ as = .ok done) : done.Gapless unit cell index :=
  each_invariant (fun _ => Compilation.gapless_still) (fun _ _ _ hf hr => hf.andThen hr) h hd

end Emitter

namespace Compiler
open Emitter

section
variable {compiler : Compiler .naturals} {index : Nat} {cell : Option CellAddress}
  {done : Compilation}

theorem gapless_inline {element : Inline}
    (h : compiler.inline ⟨index, cell⟩ element = .ok done) :
    done.Gapless compiler.options.lengthUnit cell index := by
  obtain ⟨run, stop, -, hs, rfl⟩ | ⟨id, found, uri, stop, -, -, -, hs, rfl⟩ | ⟨kind, -, rfl⟩ :=
    inline_ok h
  · refine Compilation.gapless_insert rfl rfl rfl ?_ (Option.some.inj hs).symm
    split
    · rfl
    · exact inserts_of_style fun request hr => by rw [List.mem_singleton.mp hr]; rfl
  · exact Compilation.gapless_insert rfl rfl rfl rfl (Option.some.inj hs).symm
  · exact Compilation.gapless_still

theorem inserts_styling (space : Option CellAddress) (span : Span) (style : Style) :
    inserts space (compiler.styling span style) = [] := by
  apply inserts_of_style
  intro request hr
  rw [mem_styling hr]
  rfl

theorem gapless_paragraph {paragraph : Paragraph}
    (h : compiler.paragraph ⟨index, cell⟩ paragraph = .ok done) :
    done.Gapless compiler.options.lengthUnit cell index := by
  obtain ⟨inner, hin, rfl⟩ := paragraph_ok h
  have hinner : inner.Gapless compiler.options.lengthUnit cell index :=
    gapless_each (fun _ _ _ hd => gapless_inline hd) hin
  constructor
  · rw [inserts_append, inserts_styling, List.append_nil]
    exact hinner.contiguous
  · rw [inserts_append, inserts_styling, List.append_nil]
    exact hinner.endIndex

theorem gapless_table {table : Table Block} (h : compiler.table ⟨index, none⟩ table = .ok done) :
    done.Gapless compiler.options.lengthUnit none index := by
  obtain ⟨-, cells, stop, hcells, hs, rfl⟩ := table_ok h
  refine Compilation.gapless_insert rfl rfl rfl ?_ (Option.some.inj hs).symm
  rw [inserts, addressed_slots hcells]
  rfl

theorem gapless_block {block : Block}
    (h : compiler.block compiler.table ⟨index, cell⟩ block = .ok done) :
    done.Gapless compiler.options.lengthUnit cell index := by
  obtain ⟨p, rfl, hp⟩ | ⟨t, rfl, rfl, ht⟩ | ⟨kind, rfl, rfl⟩ := block_ok h
  · exact gapless_paragraph hp
  · exact gapless_table ht
  · exact Compilation.gapless_still

theorem gapless_compile {content : List Block} {start : Nat}
    (h : compiler.compile content cell start = .ok done) :
    done.Gapless compiler.options.lengthUnit cell start :=
  gapless_each (fun _ _ _ hd => gapless_block hd) h

/-- The inserts into a space other than the one compiled start at the first index of a cell. -/
theorem contiguous_other {content : List Block} {start : Nat}
    (h : compiler.compile content cell start = .ok done) {space : Option CellAddress}
    (hs : space ≠ cell) :
    Contiguous compiler.options.lengthUnit Cursor.cellStart (inserts space done.requests) := by
  by_cases hused : ∃ request ∈ done.requests, request.cell = space
  · obtain ⟨request, hr, rfl⟩ := hused
    obtain ⟨held, inner, hin, haddressed⟩ := compile_space h hr
    rw [if_neg hs] at hin
    rw [inserts, ← haddressed]
    exact (gapless_compile hin).contiguous
  · have hnone : addressed space done.requests = [] :=
      addressed_of_forall_ne fun request hr hc => hused ⟨request, hr, hc⟩
    rw [inserts, hnone]
    trivial

end

/-- Inserts are contiguous in the space that is compiled, from the start on, and in every cell that
is filled on the way, from its first index on. The units inserted into the space that is compiled
lead to its end. -/
theorem inserts_contiguous {arithmetic : Arithmetic} {compiler : Compiler arithmetic}
    {content : List Block} {cell : Option CellAddress} {start : Nat} {done : Compilation}
    (hw : arithmetic = .words .wraps → compiler.InWords content cell start)
    (h : compiler.compile content cell start = .ok done) :
    (∀ space, Contiguous compiler.options.lengthUnit
      (if space = cell then start else Cursor.cellStart) (inserts space done.requests)) ∧
    done.endIndex = start+
      ((inserts cell done.requests).map (units compiler.options.lengthUnit)).sum := by
  have hn := compile_naturals_ok hw h
  have hown := gapless_compile hn
  refine ⟨?_, hown.endIndex⟩
  intro space
  split
  case isTrue hs =>
    rw [hs]
    exact hown.contiguous
  case isFalse hs => exact contiguous_other hn hs

theorem inserts_contiguous_sideBySide :
    (Document.sideBySide.compiler (.words .wraps) ⟨3, .utf16, true⟩).compile
      Document.sideBySide.content none 3 = .ok .sideBySide ∧
    (∀ space, Contiguous .utf16 (if space = none then 3 else Cursor.cellStart)
      (inserts space Compilation.sideBySide.requests)) ∧
    Compilation.sideBySide.endIndex =
      3+((inserts none Compilation.sideBySide.requests).map (units .utf16)).sum :=
  ⟨compile_sideBySide _,
    inserts_contiguous (fun _ => inWords_sideBySide _) (compile_sideBySide (.words .wraps))⟩

/-- Where an index wraps around, the units inserted do not lead to the end. -/
theorem inserts_contiguous_wrapped :
    (Document.boldTitle.compiler (.words .wraps) ⟨18446744073709551615, .utf16, true⟩).compile
      Document.boldTitle.content none 18446744073709551615 = .ok .wrapped ∧
    Compilation.wrapped.endIndex ≠ 18446744073709551615+
      ((inserts none Compilation.wrapped.requests).map (units .utf16)).sum :=
  ⟨compile_wrapped, by decide⟩

end Compiler
end EditScript
