import EditScript.Proofs.ParagraphStyles
import EditScript.Proofs.Positions

namespace EditScript

namespace Request

/-- What a request that styles needs of the requests before it. A style of text needs the insert of
that text directly before. A style of a paragraph needs an insert where its span starts, and the last
insert of its space to end where its span does. -/
def Follows (unit : LengthUnit) (before : List Request) : Request → Prop
  | .updateTextStyle span style _ =>
      style.isEmpty = false ∧ ∃ earlier text,
        before = earlier ++ [.insertText ⟨span.start, span.cell⟩ text] ∧
        span.stop = span.start+unit.measure text
  | .updateParagraphStyle span style _ =>
      style.isEmpty = false ∧ span.start < span.stop ∧
      (∃ insert ∈ inserts span.cell before, insert.start = span.start) ∧
      ∃ last ∈ (inserts span.cell before).getLast?, span.stop = last.start+last.units unit
  | .insertText _ _ | .insertInlineImage _ _ | .insertTable _ _ _ => True

/-- Every request has before it what it needs. -/
def Following (unit : LengthUnit) (requests : List Request) : Prop :=
  ∀ before request after, requests = before ++ request :: after → request.Follows unit before

variable {unit : LengthUnit} {requests more : List Request}

theorem follows_insert {request : Request} (h : request.isInsert) (before : List Request) :
    request.Follows unit before := by
  cases request with
  | insertText location text => trivial
  | insertInlineImage location uri => trivial
  | insertTable rows columns location => trivial
  | updateTextStyle span style fields => cases h
  | updateParagraphStyle span style fields => cases h

theorem Follows.mono {before : List Request} {request : Request} (h : request.Follows unit before)
    (earlier : List Request) : request.Follows unit (earlier ++ before) := by
  cases request with
  | insertText location text => trivial
  | insertInlineImage location uri => trivial
  | insertTable rows columns location => trivial
  | updateTextStyle span style fields =>
    obtain ⟨hs, first, text, rfl, hstop⟩ := h
    exact ⟨hs, earlier ++ first, text, (List.append_assoc _ _ _).symm, hstop⟩
  | updateParagraphStyle span style fields =>
    obtain ⟨hs, hlt, ⟨insert, hi, hstart⟩, last, hl, hstop⟩ := h
    refine ⟨hs, hlt, ⟨insert, ?_, hstart⟩, last, ?_, hstop⟩
    · rw [inserts_append]
      exact List.mem_append_right _ hi
    · rw [inserts_append, List.getLast?_append, Option.mem_def.mp hl]
      rfl

theorem following_nil : Following unit [] := by
  intro before request after h
  cases before <;> cases h

/-- A request of a concatenation stands in the first part, or in the second with the first before. -/
theorem Following.append_of (h : Following unit requests)
    (hm : ∀ before request after, more = before ++ request :: after →
      request.Follows unit (requests ++ before)) : Following unit (requests ++ more) := by
  intro before request after he
  rcases List.append_eq_append_iff.mp he with ⟨rest, rfl, hrest⟩ | ⟨rest, hrest, he⟩
  · exact hm rest request after hrest
  · cases rest with
    | nil =>
      rw [List.append_nil] at hrest
      have hfollows := hm [] request after he.symm
      rwa [List.append_nil, hrest] at hfollows
    | cons _ rest =>
      obtain ⟨rfl, -⟩ := List.cons.inj he
      exact h before request rest hrest

theorem Following.append (h : Following unit requests) (hm : Following unit more) :
    Following unit (requests ++ more) :=
  h.append_of fun before request after he => (hm before request after he).mono requests

theorem Following.concat (h : Following unit requests) {request : Request}
    (hr : request.Follows unit requests) : Following unit (requests ++ [request]) := by
  refine h.append_of ?_
  intro before other after he
  cases before with
  | nil =>
    obtain ⟨rfl, -⟩ := List.cons.inj he
    rwa [List.append_nil]
  | cons _ before => cases before <;> cases (List.cons.inj he).2

theorem following_singleton {request : Request} (h : request.isInsert) :
    Following unit [request] :=
  following_nil.concat (follows_insert h [])

/-- The last insert ends where the units of all of them do. -/
theorem Contiguous.last_stop {index : Nat} (h : Contiguous unit index requests) :
    ∀ last ∈ requests.getLast?,
      last.start+last.units unit = index+(requests.map (units unit)).sum := by
  intro last hl
  rw [← List.dropLast_append_getLast? last hl] at h ⊢
  obtain ⟨-, hstart, -⟩ := contiguous_append.mp h
  rw [hstart, List.map_append, List.sum_append, List.map_singleton, List.sum_singleton,
    Nat.add_assoc]

/-- Inserts without gaps that take units start with the first of them and end with the last. -/
theorem Contiguous.covers {index : Nat} (h : Contiguous unit index requests)
    (hpos : 0 < (requests.map (units unit)).sum) :
    (∃ insert ∈ requests, insert.start = index) ∧
    ∃ last ∈ requests.getLast?,
      index+(requests.map (units unit)).sum = last.start+last.units unit := by
  cases requests with
  | nil => exact absurd hpos (Nat.lt_irrefl 0)
  | cons first rest =>
    have hlast := List.getLast?_eq_some_getLast (List.cons_ne_nil first rest)
    exact ⟨⟨first, List.mem_cons_self, h.1⟩, _, hlast, (h.last_stop _ hlast).symm⟩

/-- The units of the paragraph that a request styles. -/
def paragraphSpan? : Request → Option Span
  | .updateParagraphStyle span _ _ => some span
  | .insertText _ _ | .insertInlineImage _ _ | .insertTable _ _ _ | .updateTextStyle _ _ _ => none

/-- What a request takes of its space as a whole: the one unit of a table, or the units of a
paragraph. -/
def extent? : Request → Option Span
  | .insertTable _ _ location => some ⟨location.index, location.index+1, location.cell⟩
  | request => request.paragraphSpan?

theorem extent?_of_paragraph {request : Request} {span : Span}
    (h : span ∈ request.paragraphSpan?) : span ∈ request.extent? := by
  cases request with
  | updateParagraphStyle given style fields => exact h
  | insertText location text => cases h
  | insertInlineImage location uri => cases h
  | insertTable rows columns location => cases h
  | updateTextStyle given style fields => cases h

/-- In one space, the extent of the second request lies behind that of the first. -/
def Clear (a b : Request) : Prop :=
  ∀ s ∈ a.extent?, ∀ t ∈ b.extent?, s.cell = t.cell → s.stop ≤ t.start

theorem extent?_cell {request : Request} {span : Span} (h : span ∈ request.extent?) :
    span.cell = request.cell := by
  cases request with
  | insertTable rows columns location =>
    obtain rfl := Option.some.inj h
    rfl
  | updateParagraphStyle span style fields =>
    obtain rfl := Option.some.inj h
    rfl
  | insertText location text => cases h
  | insertInlineImage location uri => cases h
  | updateTextStyle span style fields => cases h

def textStyle? : Request → Option Style
  | .updateTextStyle _ style _ => some style
  | .insertText _ _ | .insertInlineImage _ _ | .insertTable _ _ _
  | .updateParagraphStyle _ _ _ => none

/-- The texts that are inserted, each with the style that the request directly behind gives it. -/
def styledTexts : List Request → List (String × Option Style)
  | [] => []
  | .insertText _ text :: requests => (text, requests.head? >>= textStyle?) :: styledTexts requests
  | .updateTextStyle _ _ _ :: requests | .insertInlineImage _ _ :: requests
  | .insertTable _ _ _ :: requests | .updateParagraphStyle _ _ _ :: requests =>
      styledTexts requests

/-- Requests that start with no style for text say nothing of the texts before them. -/
theorem styledTexts_append (h : ∀ request ∈ more.head?, request.textStyle? = none) :
    styledTexts (requests ++ more) = styledTexts requests ++ styledTexts more := by
  induction requests with
  | nil => rfl
  | cons request requests ih =>
    cases request with
    | insertText location text =>
      -- Only behind the last of the first requests the second ones could be looked at.
      have hhead : (requests ++ more).head? >>= textStyle? = requests.head? >>= textStyle? := by
        cases requests with
        | cons next requests => rfl
        | nil =>
          cases more with
          | nil => rfl
          | cons next more => exact h next rfl
      rw [List.cons_append, styledTexts, styledTexts, hhead, ih]
      rfl
    | insertInlineImage location uri => exact ih
    | insertTable rows columns location => exact ih
    | updateTextStyle span style fields => exact ih
    | updateParagraphStyle span style fields => exact ih

end Request

def TextRun.styled (run : TextRun) : String × Option Style :=
  (run.content, if run.style.isEmpty then none else some run.style)

def Inline.runs : Inline → List TextRun
  | .text run => [run]
  | .object _ | .unsupported _ => []

def Block.runs : Block → List TextRun
  | .paragraph p => p.elements.flatMap Inline.runs
  | .table _ | .unsupported _ => []

open Request

/-- The requests insert the texts of these runs, each directly followed by its style. They start with
no style for a text before them. -/
structure Request.Writes (runs : List TextRun) (requests : List Request) : Prop where
  texts : styledTexts requests = runs.map TextRun.styled
  head : ∀ request ∈ requests.head?, request.textStyle? = none

theorem Request.writes_nil : Writes [] [] := ⟨rfl, fun _ hr => by cases hr⟩

theorem Request.Writes.append {runs others : List TextRun} {requests more : List Request}
    (h : Writes runs requests) (hm : Writes others more) :
    Writes (runs ++ others) (requests ++ more) where
  texts := by rw [styledTexts_append hm.head, h.texts, hm.texts, List.map_append]
  head := by
    cases requests with
    | nil => exact hm.head
    | cons request requests => exact h.head

/-- In a space that is compiled from an index on, the extents lie one behind the other. -/
structure Compilation.Tiled (space : Option CellAddress) (index : Nat) (done : Compilation) :
    Prop where
  le : index ≤ done.endIndex
  within : ∀ request ∈ addressed space done.requests, ∀ span ∈ request.extent?,
    index ≤ span.start ∧ span.stop ≤ done.endIndex
  clear : (addressed space done.requests).Pairwise Clear

namespace Compilation
variable {space : Option CellAddress} {index : Nat}

theorem Tiled.andThen {first rest : Compilation} (hf : first.Tiled space index)
    (hr : rest.Tiled space first.endIndex) : (first.andThen rest).Tiled space index where
  le := Nat.le_trans hf.le hr.le
  within := by
    intro request hm span hs
    rw [Compilation.andThen, addressed_append] at hm
    rcases List.mem_append.mp hm with hm | hm
    · have h := hf.within request hm span hs
      exact ⟨h.1, Nat.le_trans h.2 hr.le⟩
    · have h := hr.within request hm span hs
      exact ⟨Nat.le_trans hf.le h.1, h.2⟩
  clear := by
    rw [Compilation.andThen, addressed_append]
    refine List.pairwise_append.mpr ⟨hf.clear, hr.clear, ?_⟩
    intro a ha b hb s hs t ht _
    exact Nat.le_trans (hf.within a ha s hs).2 (hr.within b hb t ht).1

/-- Requests of which only the last may have an extent, within the units that are compiled. -/
theorem tiled_of_last {requests last : List Request} {stop : Nat} {stats : Stats}
    (hle : index ≤ stop) (hnone : ∀ request ∈ requests, request.extent? = none)
    (hlast : last.Pairwise Clear)
    (hspan : ∀ request ∈ last, ∀ span ∈ request.extent?, index ≤ span.start ∧ span.stop ≤ stop) :
    Tiled space index ⟨requests ++ last, stop, stats⟩ where
  le := hle
  within := by
    intro request hm span hs
    rcases List.mem_append.mp (mem_addressed.mp hm).1 with hm | hm
    · rw [hnone request hm] at hs
      cases hs
    · exact hspan request hm span hs
  clear := by
    refine List.Pairwise.filter _ (List.pairwise_append.mpr ⟨?_, ?_, ?_⟩)
    · refine List.pairwise_of_forall_mem_list ?_
      intro a ha b _ s hs
      rw [hnone a ha] at hs
      cases hs
    · exact hlast
    · intro a ha b _ s hs
      rw [hnone a ha] at hs
      cases hs

end Compilation

namespace Compiler
open Emitter

section
variable {compiler : Compiler .naturals} {index : Nat} {cell : Option CellAddress}
  {done : Compilation}

theorem following_inline {element : Inline}
    (h : compiler.inline ⟨index, cell⟩ element = .ok done) :
    Following compiler.options.lengthUnit done.requests := by
  obtain ⟨run, _, -, hs, rfl⟩ | ⟨id, found, uri, _, -, -, -, hs, rfl⟩ | ⟨kind, -, rfl⟩ :=
    inline_ok h
  · obtain rfl := Option.some.inj hs
    have htext : Following compiler.options.lengthUnit
        [.insertText ⟨index, cell⟩ run.content] := following_singleton rfl
    cases hs : run.style.isEmpty with
    | true => exact htext
    | false => exact htext.concat ⟨hs, [], run.content, rfl, rfl⟩
  · exact following_singleton rfl
  · exact following_nil

theorem following_paragraph {paragraph : Paragraph}
    (h : compiler.paragraph ⟨index, cell⟩ paragraph = .ok done) :
    Following compiler.options.lengthUnit done.requests := by
  obtain ⟨inner, hin, rfl⟩ := paragraph_ok h
  have hinner : Following compiler.options.lengthUnit inner.requests :=
    each_invariant (motive := fun _ done => Following compiler.options.lengthUnit done.requests)
      (fun _ => following_nil) (fun _ _ _ hf hr => hf.append hr)
      (fun _ _ _ hd => following_inline hd) hin
  have hgapless : inner.Gapless compiler.options.lengthUnit cell index :=
    gapless_each (fun _ _ _ hd => gapless_inline hd) hin
  simp only [styling]
  split
  case isFalse => rwa [List.append_nil]
  case isTrue hstyled =>
    obtain ⟨-, hstyle, hlt⟩ := hstyled
    -- The inserts before are those of the paragraph, and it takes units: so there are some.
    refine hinner.concat ⟨Bool.eq_false_iff.mpr hstyle, hlt, ?_⟩
    rw [hgapless.endIndex] at hlt ⊢
    exact hgapless.contiguous.covers (Nat.lt_add_right_iff_pos.mp hlt)

theorem account_following (compiler : Compiler .naturals) :
    compiler.Account fun _ requests _ => Following compiler.options.lengthUnit requests where
  nil := following_nil
  append := fun ha hb => ha.append hb
  paragraph := fun h => following_paragraph h
  table := fun _ _ => following_singleton rfl
  unsupported := fun _ => following_nil

theorem extent?_inline {element : Inline} (h : compiler.inline ⟨index, cell⟩ element = .ok done) :
    ∀ request ∈ done.requests, request.extent? = none := by
  intro request hr
  have htable := (plain_inline h request hr).not_isTable
  have hstyle := stylesParagraph_inline h request hr
  cases request with
  | insertText location text => rfl
  | insertInlineImage location uri => rfl
  | updateTextStyle span style fields => rfl
  | insertTable rows columns location => cases htable
  | updateParagraphStyle span style fields => cases hstyle

theorem tiled_paragraph {paragraph : Paragraph}
    (h : compiler.paragraph ⟨index, cell⟩ paragraph = .ok done) : done.Tiled cell index := by
  have hle := (bounded_paragraph h).le
  obtain ⟨inner, hin, rfl⟩ := paragraph_ok h
  refine Compilation.tiled_of_last hle
    (each_forall (fun _ _ _ _ hd => extent?_inline hd) hin) ?_ ?_
  · rw [styling]
    split
    · exact List.pairwise_singleton _ _
    · exact List.Pairwise.nil
  · intro request hr span hs
    rw [mem_styling hr] at hs
    obtain rfl := Option.some.inj hs
    exact ⟨Nat.le_refl _, Nat.le_refl _⟩

theorem tiled_table {table : Table Block} (h : compiler.table ⟨index, none⟩ table = .ok done) :
    done.Tiled none index := by
  obtain ⟨-, cells, _, hcells, hs, rfl⟩ := table_ok h
  obtain rfl := Option.some.inj hs
  let head : Request := .insertTable table.rows.toNat table.columns.toNat ⟨index, none⟩
  have hbody : addressed none (head :: cells.requests) = [head] := by
    rw [← List.singleton_append, addressed_append, addressed_slots hcells]
    rfl
  refine ⟨Nat.le_succ index, ?_, ?_⟩
  · intro request hr span hs
    rw [hbody] at hr
    rw [List.mem_singleton.mp hr] at hs
    obtain rfl := Option.some.inj hs
    exact ⟨Nat.le_refl _, Nat.le_refl _⟩
  · rw [hbody]
    exact List.pairwise_singleton _ _

theorem tiled_compile {content : List Block} {start : Nat}
    (h : compiler.compile content cell start = .ok done) : done.Tiled cell start := by
  have hnothing : ∀ {index stats}, Compilation.Tiled cell index ⟨[], index, stats⟩ :=
    fun {index _} => ⟨Nat.le_refl index, List.forall_mem_nil _, List.Pairwise.nil⟩
  refine each_invariant (fun _ => hnothing) (fun _ _ _ hf hr => hf.andThen hr) ?_ h
  intro index block done hd
  obtain ⟨p, rfl, hp⟩ | ⟨t, rfl, rfl, ht⟩ | ⟨kind, rfl, rfl⟩ := block_ok hd
  · exact tiled_paragraph hp
  · exact tiled_table ht
  · exact hnothing

theorem clear_compile {content : List Block} {start : Nat}
    (h : compiler.compile content cell start = .ok done) : done.requests.Pairwise Clear := by
  rw [List.pairwise_iff_forall_sublist]
  intro a b hab s hs t ht hcell
  have hb : b.cell = a.cell := by rw [← extent?_cell ht, ← hcell, extent?_cell hs]
  -- Both requests are for one space, and what is for a space is compiled there by itself.
  obtain ⟨held, inner, hin, haddressed⟩ := compile_space h (hab.subset List.mem_cons_self)
  have hsub : [a, b].Sublist (addressed a.cell done.requests) := by
    have hfilter := hab.filter fun request => decide (request.cell = a.cell)
    rwa [List.filter_eq_self.mpr (by simp [hb])] at hfilter
  rw [← haddressed] at hsub
  exact List.pairwise_iff_forall_sublist.mp (tiled_compile hin).clear hsub s hs t ht hcell

theorem writes_inline {element : Inline} (h : compiler.inline ⟨index, cell⟩ element = .ok done) :
    Writes element.runs done.requests := by
  obtain ⟨run, _, rfl, hs, rfl⟩ | ⟨id, found, uri, _, rfl, -, -, hs, rfl⟩ |
    ⟨kind, rfl, rfl⟩ := inline_ok h
  · refine ⟨?_, fun request hr => Option.some.inj hr ▸ rfl⟩
    rw [Inline.runs, List.map_singleton, TextRun.styled]
    cases run.style.isEmpty <;> rfl
  · exact ⟨rfl, fun request hr => Option.some.inj hr ▸ rfl⟩
  · exact writes_nil

theorem writes_paragraph {paragraph : Paragraph}
    (h : compiler.paragraph ⟨index, cell⟩ paragraph = .ok done) :
    Writes (Block.paragraph paragraph).runs done.requests := by
  obtain ⟨inner, hin, rfl⟩ := paragraph_ok h
  have hinner : Writes (paragraph.elements.flatMap Inline.runs) inner.requests := by
    refine each_induct (motive := fun _ elements done =>
      Writes (elements.flatMap Inline.runs) done.requests) (fun _ => writes_nil) ?_ hin
    intro index element elements first rest hf _ ih
    exact (writes_inline hf).append ih
  have hstyling : Writes [] (compiler.styling ⟨index, inner.endIndex, cell⟩ paragraph.style) := by
    rw [styling]
    split
    · exact ⟨rfl, fun request hr => Option.some.inj hr ▸ rfl⟩
    · exact writes_nil
  have hall := hinner.append hstyling
  rwa [List.append_nil] at hall

theorem account_writes (compiler : Compiler .naturals) :
    compiler.Account fun blocks requests _ => Writes (blocks.flatMap Block.runs) requests where
  nil := writes_nil
  append := by
    intro as bs rs qs _ _ ha hb
    rw [List.flatMap_append]
    exact ha.append hb
  paragraph := by
    intro p index cell done h
    rw [List.flatMap_singleton]
    exact writes_paragraph h
  table := fun _ _ => ⟨rfl, fun request hr => Option.some.inj hr ▸ rfl⟩
  unsupported := fun _ => writes_nil

end

/-- A request that styles text stands directly behind the insert of just this text, and one that
styles a paragraph behind inserts that start and end as its span does; neither has an empty style or,
for a paragraph, an empty span. Spans of paragraphs in one space contain no table and lie one behind
the other. Every run of text on the walk is inserted, directly followed by its style if it has one.
All this holds unless indices wrap around. -/
theorem styles_cover_inserts {arithmetic : Arithmetic} {compiler : Compiler arithmetic}
    {content : List Block} {cell : Option CellAddress} {start : Nat} {done : Compilation}
    (hw : arithmetic = .words .wraps → compiler.InWords content cell start)
    (h : compiler.compile content cell start = .ok done) :
    Following compiler.options.lengthUnit done.requests ∧
    (∀ span style fields, .updateParagraphStyle span style fields ∈ done.requests →
      ∀ rows columns location, .insertTable rows columns location ∈ done.requests →
        location.cell = span.cell → location.index < span.start ∨ span.stop ≤ location.index) ∧
    (done.requests.Pairwise fun a b => ∀ s ∈ a.paragraphSpan?, ∀ t ∈ b.paragraphSpan?,
      s.cell = t.cell → s.stop ≤ t.start) ∧
    styledTexts done.requests =
      ((content.flatMap Block.walked).flatMap Block.runs).map TextRun.styled := by
  have hn := compile_naturals_ok hw h
  have hclear := clear_compile hn
  have hwrites := (compiler.counting .naturals).account_writes.compile hn
  refine ⟨(compiler.counting .naturals).account_following.compile hn, ?_, ?_, hwrites.texts⟩
  · intro span style fields hp rows columns location ht hcell
    obtain ⟨before, after, he⟩ := List.append_of_mem hp
    rw [he] at hclear ht
    obtain ⟨-, hafter, hbefore⟩ := List.pairwise_append.mp hclear
    rcases List.mem_append.mp ht with ht | ht
    · exact .inl (hbefore _ ht _ List.mem_cons_self _ rfl _ rfl hcell)
    · rcases List.mem_cons.mp ht with ht | ht
      · cases ht
      · exact .inr ((List.pairwise_cons.mp hafter).1 _ ht _ rfl _ rfl hcell.symm)
  · refine hclear.imp ?_
    intro a b hab s hs t ht
    exact hab s (extent?_of_paragraph hs) t (extent?_of_paragraph ht)

theorem styles_cover_inserts_sideBySide :
    let requests := Compilation.sideBySide.requests
    (Document.sideBySide.compiler (.words .wraps) ⟨3, .utf16, true⟩).compile
      Document.sideBySide.content none 3 = .ok .sideBySide ∧
    Following .utf16 requests ∧
    (∀ span style fields, .updateParagraphStyle span style fields ∈ requests →
      ∀ rows columns location, .insertTable rows columns location ∈ requests →
        location.cell = span.cell → location.index < span.start ∨ span.stop ≤ location.index) ∧
    (requests.Pairwise fun a b => ∀ s ∈ a.paragraphSpan?, ∀ t ∈ b.paragraphSpan?,
      s.cell = t.cell → s.stop ≤ t.start) ∧
    styledTexts requests = [("a😀", some .bold), ("b😀", none), ("c", none), ("d", some .bold),
      ("e", none)] :=
  ⟨compile_sideBySide _,
    styles_cover_inserts (fun _ => inWords_sideBySide _) (compile_sideBySide (.words .wraps))⟩

/-- Where the index wraps around within a text, its style ends before the text does. -/
theorem styles_cover_inserts_wrapped :
    (Document.boldTitle.compiler (.words .wraps) ⟨18446744073709551615, .utf16, true⟩).compile
      Document.boldTitle.content none 18446744073709551615 = .ok .wrapped ∧
    ¬Following .utf16 Compilation.wrapped.requests := by
  refine ⟨compile_wrapped, ?_⟩
  intro h
  obtain ⟨-, -, text, -, hstop⟩ :=
    h [.insertText ⟨18446744073709551615, none⟩ "ab"] _ [] rfl
  simp only at hstop
  omega

end Compiler
end EditScript
