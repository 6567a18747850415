import EditScript.Proofs.Contiguity
import EditScript.Proofs.Target

namespace EditScript

namespace Request

/-- What the request inserts: the UTF-16 codes of each character, or one unit for an object or a
table. -/
def pieces : Request → List (List Glyph)
  | .insertText _ text => text.toList.map fun c => (LengthUnit.utf16.encode c).map .code
  | .insertInlineImage _ uri => [[.image uri]]
  | .insertTable rows columns _ => [[.table rows columns]]
  | .updateTextStyle _ _ _ | .updateParagraphStyle _ _ _ => []

def indices : Request → List Nat
  | .insertText location _ | .insertInlineImage location _
  | .insertTable _ _ location => [location.index]
  | .updateTextStyle span _ _ | .updateParagraphStyle span _ _ => [span.start, span.stop]

/-- The positions that a request speaks of. If it is made for a cell of a table in the body, it
speaks of the start of that table too. -/
def positions (space : Option CellAddress) (request : Request) : List Location :=
  request.indices.map (fun index => ⟨index, request.cell⟩) ++
    if space = none then request.cell.toList.map fun address => ⟨address.tableStart, none⟩ else []

theorem length_pieces (request : Request) : request.pieces.length = request.units .chars := by
  cases request with
  | insertText location text =>
    rw [units, ← LengthUnit.length_codes, pieces, List.length_map]
    simp [LengthUnit.codes, LengthUnit.encode]
  | insertInlineImage location uri => rfl
  | insertTable rows columns location => rfl
  | updateTextStyle span style fields => rfl
  | updateParagraphStyle span style fields => rfl

theorem length_flatten_pieces (request : Request) :
    request.pieces.flatten.length = request.units .utf16 := by
  cases request with
  | insertText location text =>
    rw [units, ← LengthUnit.length_codes, pieces, LengthUnit.codes, ← List.flatMap_def,
      ← List.map_flatMap, List.length_map]
  | insertInlineImage location uri => rfl
  | insertTable rows columns location => rfl
  | updateTextStyle span style fields => rfl
  | updateParagraphStyle span style fields => rfl

theorem piece_ne_nil {request : Request} : ∀ piece ∈ request.pieces, piece ≠ [] := by
  cases request with
  | insertText location text =>
    intro piece hp
    obtain ⟨c, -, rfl⟩ := List.mem_map.mp hp
    simp only [LengthUnit.encode]
    split <;> simp
  | insertInlineImage location uri => simp [pieces]
  | insertTable rows columns location => simp [pieces]
  | updateTextStyle span style fields => simp [pieces]
  | updateParagraphStyle span style fields => simp [pieces]

theorem units_of_style {unit : LengthUnit} {request : Request} (h : request.isInsert = false) :
    request.units unit = 0 := by
  cases request with
  | insertText location text => cases h
  | insertInlineImage location uri => cases h
  | insertTable rows columns location => cases h
  | updateTextStyle span style fields => rfl
  | updateParagraphStyle span style fields => rfl

theorem sum_units_isInsert (unit : LengthUnit) (requests : List Request) :
    ((requests.filter isInsert).map (units unit)).sum = (requests.map (units unit)).sum := by
  induction requests with
  | nil => rfl
  | cons request requests ih =>
    cases hi : request.isInsert with
    | true => simp [hi, ih]
    | false => simp [hi, ih, units_of_style hi]

end Request

/-- The first index of a space, if content is compiled from the cursor on. -/
def Cursor.origin (cursor : Cursor) (space : Option CellAddress) : Nat :=
  if space = cursor.cell then cursor.index else cellStart

namespace Compilation

def pieces (space : Option CellAddress) (done : Compilation) : List (List Glyph) :=
  (Request.addressed space done.requests).flatMap Request.pieces

/-- The positions that are spoken of in content compiled into a space. -/
def positions (space : Option CellAddress) (done : Compilation) : List Location :=
  ⟨done.endIndex, space⟩ :: done.requests.flatMap (Request.positions space)

variable {space : Option CellAddress} {index : Nat} {done : Compilation}

theorem pieces_andThen (first rest : Compilation) :
    (first.andThen rest).pieces space = first.pieces space ++ rest.pieces space := by
  simp [pieces, andThen]

theorem piece_ne_nil : ∀ piece ∈ done.pieces space, piece ≠ [] := by
  intro piece hp
  obtain ⟨request, -, hp⟩ := List.mem_flatMap.mp hp
  exact Request.piece_ne_nil piece hp

theorem cell_of_mem_positions {p : Location} (hp : p ∈ done.positions space) :
    p.cell = space ∨ ∃ request ∈ done.requests, request.cell = p.cell := by
  rcases List.mem_cons.mp hp with rfl | hp
  · exact .inl rfl
  obtain ⟨request, hr, hrequest⟩ := List.mem_flatMap.mp hp
  rcases List.mem_append.mp hrequest with hown | htable
  · obtain ⟨i, -, rfl⟩ := List.mem_map.mp hown
    exact .inr ⟨request, hr, rfl⟩
  · split at htable
    case isTrue hnone =>
      obtain ⟨address, -, rfl⟩ := List.mem_map.mp htable
      exact .inl hnone.symm
    case isFalse => exact absurd htable List.not_mem_nil

/-- In characters, every piece takes one unit. -/
theorem Gapless.endIndex_chars (h : done.Gapless .chars space index) :
    done.endIndex = index+(done.pieces space).length := by
  have hl : (fun request => (Request.pieces request).length) = Request.units .chars :=
    funext Request.length_pieces
  rw [h.endIndex, Request.inserts, Request.sum_units_isInsert, pieces, List.length_flatMap, hl]

structure Bounded (space : Option CellAddress) (index : Nat) (done : Compilation) : Prop where
  le : index ≤ done.endIndex
  within : ∀ request ∈ done.requests, request.cell = space →
    ∀ i ∈ request.indices, index ≤ i ∧ i ≤ done.endIndex

theorem bounded_still {stats : Stats} : Bounded space index ⟨[], index, stats⟩ :=
  ⟨Nat.le_refl _, List.forall_mem_nil _⟩

theorem Bounded.andThen {first rest : Compilation} (hf : first.Bounded space index)
    (hr : rest.Bounded space first.endIndex) : (first.andThen rest).Bounded space index where
  le := Nat.le_trans hf.le hr.le
  within := by
    intro request hm hc i hi
    rcases List.mem_append.mp hm with hm | hm
    · have h := hf.within request hm hc i hi
      exact ⟨h.1, Nat.le_trans h.2 hr.le⟩
    · have h := hr.within request hm hc i hi
      exact ⟨Nat.le_trans hf.le h.1, h.2⟩

end Compilation

namespace Compiler
open Emitter Request

variable {compiler : Compiler .naturals} {index : Nat} {cell : Option CellAddress}
  {done : Compilation}

theorem bounded_inline {element : Inline}
    (h : compiler.inline ⟨index, cell⟩ element = .ok done) : done.Bounded cell index := by
  obtain ⟨run, _, -, hs, rfl⟩ | ⟨id, found, uri, _, -, -, -, hs, rfl⟩ | ⟨kind, -, rfl⟩ :=
    inline_ok h
  · obtain rfl := Option.some.inj hs
    refine ⟨Nat.le_add_right _ _, ?_⟩
    intro request hr _ i hi
    rcases List.mem_cons.mp hr with rfl | hr
    · rw [List.mem_singleton.mp hi]
      exact ⟨Nat.le_refl _, Nat.le_add_right _ _⟩
    · split at hr
      · exact absurd hr List.not_mem_nil
      · rw [List.mem_singleton.mp hr, restyle, indices, List.mem_pair] at hi
        rcases hi with rfl | rfl
        · exact ⟨Nat.le_refl _, Nat.le_add_right _ _⟩
        · exact ⟨Nat.le_add_right _ _, Nat.le_refl _⟩
  · obtain rfl := Option.some.inj hs
    refine ⟨Nat.le_succ _, ?_⟩
    intro request hr _ i hi
    rw [List.mem_singleton.mp hr, indices] at hi
    rw [List.mem_singleton.mp hi]
    exact ⟨Nat.le_refl _, Nat.le_succ _⟩
  · exact Compilation.bounded_still

theorem bounded_paragraph {paragraph : Paragraph}
    (h : compiler.paragraph ⟨index, cell⟩ paragraph = .ok done) : done.Bounded cell index := by
  obtain ⟨inner, hin, rfl⟩ := paragraph_ok h
  have hinner : inner.Bounded cell index :=
    each_invariant (fun _ => Compilation.bounded_still) (fun _ _ _ hf hr => hf.andThen hr)
      (fun _ _ _ hd => bounded_inline hd) hin
  refine ⟨hinner.le, ?_⟩
  intro request hr hc i hi
  rcases List.mem_append.mp hr with hr | hr
  · exact hinner.within request hr hc i hi
  · rw [mem_styling hr, styleParagraph, indices, List.mem_pair] at hi
    rcases hi with rfl | rfl
    · exact ⟨Nat.le_refl _, hinner.le⟩
    · exact ⟨hinner.le, Nat.le_refl _⟩

theorem bounded_table {table : Table Block} (h : compiler.table ⟨index, none⟩ table = .ok done) :
    done.Bounded none index := by
  obtain ⟨-, cells, _, hcells, hs, rfl⟩ := table_ok h
  obtain rfl := Option.some.inj hs
  refine ⟨Nat.le_succ _, ?_⟩
  intro request hr hc i hi
  rcases List.mem_cons.mp hr with rfl | hr
  · rw [List.mem_singleton.mp hi]
    exact ⟨Nat.le_refl _, Nat.le_succ _⟩
  · obtain ⟨slot, -, hs⟩ := plain_slots hcells request hr
    rw [hs.cell] at hc
    cases hc

theorem bounded_compile {content : List Block} {start : Nat}
    (h : compiler.compile content cell start = .ok done) : done.Bounded cell start := by
  refine each_invariant (fun _ => Compilation.bounded_still) (fun _ _ _ hf hr => hf.andThen hr)
    ?_ h
  intro index block done hd
  obtain ⟨p, rfl, hp⟩ | ⟨t, rfl, rfl, ht⟩ | ⟨kind, rfl, rfl⟩ := block_ok hd
  · exact bounded_paragraph hp
  · exact bounded_table ht
  · exact Compilation.bounded_still

/-- Every position lies within what is inserted into its space, counted in characters. -/
theorem positions_within (hu : compiler.options.lengthUnit = .chars) {content : List Block}
    {start : Nat} (h : compiler.compile content cell start = .ok done) :
    ∀ p ∈ done.positions cell, Cursor.origin ⟨start, cell⟩ p.cell ≤ p.index ∧
      p.index ≤ Cursor.origin ⟨start, cell⟩ p.cell+(done.pieces p.cell).length := by
  have hgapless := gapless_compile h
  rw [hu] at hgapless
  have hend := hgapless.endIndex_chars
  have horigin : Cursor.origin ⟨start, cell⟩ cell = start := if_pos rfl
  intro p hp
  rcases List.mem_cons.mp hp with rfl | hp
  · simp only [horigin, hend]
    exact ⟨Nat.le_add_right _ _, Nat.le_refl _⟩
  obtain ⟨request, hr, hrequest⟩ := List.mem_flatMap.mp hp
  rcases List.mem_append.mp hrequest with hown | htable
  · -- An index of the request itself, in whose space the request was compiled.
    obtain ⟨i, hi, rfl⟩ := List.mem_map.mp hown
    obtain ⟨held, inner, hin, haddressed⟩ := compile_space h hr
    have hinner : request ∈ inner.requests := by
      have hm : request ∈ addressed request.cell done.requests := mem_addressed.mpr ⟨hr, rfl⟩
      rw [← haddressed] at hm
      exact (mem_addressed.mp hm).1
    have hpieces : inner.pieces request.cell = done.pieces request.cell := by
      rw [Compilation.pieces, haddressed]
      rfl
    have hg := gapless_compile hin
    rw [hu] at hg
    have hb := (bounded_compile hin).within request hinner rfl i hi
    rw [hg.endIndex_chars, hpieces] at hb
    exact hb
  · -- The start of a table in the body.
    split at htable
    case isTrue hnone =>
      subst hnone
      obtain ⟨address, ha, rfl⟩ := List.mem_map.mp htable
      have hb := tableStart_bounds h hr (Option.mem_toList.mp ha)
      simp only [horigin]
      omega
    case isFalse => exact absurd htable List.not_mem_nil

end Compiler
end EditScript
