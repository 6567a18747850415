import EditScript.Proofs.StyleSpans

namespace EditScript

theorem LengthUnit.measure_pos_iff {unit : LengthUnit} {text : String} :
    0 < unit.measure text ↔ text ≠ "" := by
  rw [Nat.pos_iff_ne_zero, ne_eq, ne_eq, not_iff_not, ← String.toList_eq_nil_iff, measure]
  cases text.toList with
  | nil => simp
  | cons c rest =>
    have hwidth : 0 < unit.width c := by
      cases unit with
      | utf16 =>
        rw [width]
        split <;> decide
      | chars => exact Nat.one_pos
    rw [List.foldr_cons]
    simp only [reduceCtorEq, iff_false]
    omega

namespace Request

/-- The units that a request styles, of a text or of a paragraph. -/
def styledSpan? : Request → Option Span
  | .updateTextStyle span _ _ | .updateParagraphStyle span _ _ => some span
  | .insertText _ _ | .insertInlineImage _ _ | .insertTable _ _ _ => none

/-- One of the requests inserts a unit at this index. -/
def Inserted (unit : LengthUnit) (requests : List Request) (index : Nat) : Prop :=
  ∃ request ∈ requests, request.start ≤ index ∧ index < request.start+request.units unit

variable {unit : LengthUnit} {index : Nat} {requests : List Request}

theorem Contiguous.le_start (h : Contiguous unit index requests) :
    ∀ request ∈ requests, index ≤ request.start := by
  intro request hr
  obtain ⟨before, after, rfl⟩ := List.append_of_mem hr
  obtain ⟨-, hstart, -⟩ := contiguous_append.mp h
  rw [hstart]
  exact Nat.le_add_right _ _

/-- Inserts without gaps insert every unit up to their end. -/
theorem Contiguous.inserted (h : Contiguous unit index requests) {i : Nat} (hi : index ≤ i)
    (hlt : i < index+(requests.map (units unit)).sum) : Inserted unit requests i := by
  induction requests generalizing index with
  | nil => exact absurd hlt (Nat.not_lt.mpr hi)
  | cons request requests ih =>
    obtain ⟨rfl, hrest⟩ := h
    by_cases hown : i < request.start+request.units unit
    · exact ⟨request, List.mem_cons_self, hi, hown⟩
    · rw [List.map_cons, List.sum_cons, ← Nat.add_assoc] at hlt
      obtain ⟨other, ho, hother⟩ := ih hrest (Nat.le_of_not_lt hown) hlt
      exact ⟨other, List.mem_cons_of_mem request ho, hother⟩

theorem mem_styledTexts {text : String} {style : Style} :
    (text, some style) ∈ styledTexts requests ↔ ∃ location span fields,
      [.insertText location text, .updateTextStyle span style fields] <:+: requests := by
  induction requests with
  | nil => simp [styledTexts]
  | cons request requests ih =>
    cases request with
    | insertText location inserted =>
      have hnext : requests.head? >>= textStyle? = some style ↔
          ∃ span fields, [.updateTextStyle span style fields] <+: requests := by
        cases requests with
        | nil => simp
        | cons next rest => cases next <;> simp [textStyle?, List.cons_prefix_cons, eq_comm]
      have hhere : (text, some style) = (inserted, requests.head? >>= textStyle?) ↔
          ∃ place span fields, [.insertText place text, .updateTextStyle span style fields] <+:
            .insertText location inserted :: requests := by
        rw [Prod.mk.injEq, @eq_comm _ (some style), hnext]
        simp [List.cons_prefix_cons, and_assoc]
      simp only [styledTexts, List.mem_cons, ih, hhere, List.infix_cons_iff, exists_or]
    | insertInlineImage location uri => simp [styledTexts, ih, List.infix_cons_iff]
    | insertTable rows columns location => simp [styledTexts, ih, List.infix_cons_iff]
    | updateTextStyle span style fields => simp [styledTexts, ih, List.infix_cons_iff]
    | updateParagraphStyle span style fields => simp [styledTexts, ih, List.infix_cons_iff]

/-- Every unit of a span is inserted before, if the inserts before are without gaps. -/
theorem Follows.inserted {before : List Request} {request : Request}
    (h : request.Follows unit before) {span : Span} (hs : span ∈ request.styledSpan?)
    (hc : Contiguous unit index (inserts span.cell before)) {i : Nat} (hi : span.start ≤ i)
    (hlt : i < span.stop) : Inserted unit (inserts span.cell before) i := by
  cases request with
  | updateTextStyle given style fields =>
    obtain rfl := Option.some.inj hs
    obtain ⟨-, earlier, text, rfl, hstop⟩ := h
    refine ⟨.insertText ⟨given.start, given.cell⟩ text, ?_, hi, hstop ▸ hlt⟩
    rw [inserts_append]
    refine List.mem_append_right _ ?_
    rw [inserts, List.mem_filter, mem_addressed]
    exact ⟨⟨List.mem_singleton_self _, rfl⟩, rfl⟩
  | updateParagraphStyle given style fields =>
    -- The span goes from one of the inserts to the end of the last, and between them is no gap.
    obtain rfl := Option.some.inj hs
    obtain ⟨-, -, ⟨first, hf, hstart⟩, last, hl, hstop⟩ := h
    have hle := hc.le_start first hf
    refine hc.inserted (by omega) ?_
    rw [← hc.last_stop last hl, ← hstop]
    exact hlt
  | insertText location text => cases hs
  | insertInlineImage location uri => cases hs
  | insertTable rows columns location => cases hs

end Request

namespace Compiler
open Request

section
variable {compiler : Compiler .naturals} {cell : Option CellAddress} {done : Compilation}

theorem contiguous_compile {content : List Block} {start : Nat}
    (h : compiler.compile content cell start = .ok done) (space : Option CellAddress) :
    Contiguous compiler.options.lengthUnit (Cursor.origin ⟨start, cell⟩ space)
      (inserts space done.requests) := by
  rw [Cursor.origin]
  split
  case isTrue hs =>
    rw [hs]
    exact (gapless_compile h).contiguous
  case isFalse hs => exact contiguous_other h hs

/-- A request that styles text spans no units just when the text is empty. -/
theorem textSpan_compile {content : List Block} {start : Nat}
    (h : compiler.compile content cell start = .ok done) {before after : List Request}
    {span : Span} {style : Style} {fields : String}
    (he : done.requests = before ++ .updateTextStyle span style fields :: after) :
    style.isEmpty = false ∧ ∃ earlier text,
      before = earlier ++ [.insertText ⟨span.start, span.cell⟩ text] ∧
      (span.start < span.stop ↔ text ≠ "") := by
  obtain ⟨hstyle, earlier, text, hb, hstop⟩ :=
    compiler.account_following.compile h before _ after he
  refine ⟨hstyle, earlier, text, hb, ?_⟩
  rw [hstop, Nat.lt_add_right_iff_pos, LengthUnit.measure_pos_iff]

theorem textSpans_proper_iff {content : List Block} {start : Nat}
    (h : compiler.compile content cell start = .ok done) :
    (∀ span style fields, .updateTextStyle span style fields ∈ done.requests →
      span.start < span.stop) ↔
    ∀ run ∈ (content.flatMap Block.walked).flatMap Block.runs,
      run.style.isEmpty = false → run.content ≠ "" := by
  have htexts := (compiler.account_writes.compile h).texts
  constructor
  · intro hspans run hr hstyle
    have hm : (run.content, some run.style) ∈ styledTexts done.requests := by
      rw [htexts]
      exact List.mem_map.mpr ⟨run, hr, by rw [TextRun.styled, hstyle]; rfl⟩
    obtain ⟨location, span, fields, before, after, he⟩ := mem_styledTexts.mp hm
    have he' : done.requests = (before ++ [.insertText location run.content]) ++
        .updateTextStyle span run.style fields :: after := by simpa using he.symm
    -- The insert that the request follows is the one directly before it: the text is that of the run.
    obtain ⟨-, earlier, text, hb, hproper⟩ := textSpan_compile h he'
    obtain ⟨-, hinsert⟩ := List.append_inj' hb rfl
    obtain ⟨-, rfl⟩ := (Request.insertText.injEq ..).mp (List.cons.inj hinsert).1
    refine hproper.mp (hspans span run.style fields ?_)
    rw [he']
    exact List.mem_append_right _ List.mem_cons_self
  · intro hruns span style fields hr
    obtain ⟨before, after, he⟩ := List.append_of_mem hr
    obtain ⟨hstyle, earlier, text, rfl, hproper⟩ := textSpan_compile h he
    have hm : (text, some style) ∈ styledTexts done.requests :=
      mem_styledTexts.mpr ⟨_, span, fields, earlier, after, by simpa using he.symm⟩
    rw [htexts] at hm
    obtain ⟨run, hwalked, hrun⟩ := List.mem_map.mp hm
    rw [TextRun.styled, Prod.mk.injEq] at hrun
    obtain ⟨rfl, hsome⟩ := hrun
    split at hsome
    · cases hsome
    · obtain rfl := Option.some.inj hsome
      exact hproper.mpr (hruns run hwalked hstyle)

end

/-- Every unit that a request styles is inserted into its space before. What styles a paragraph has
units; what styles text stands directly behind the insert of the text, and has units unless the
text is empty. So every request that styles has units if and only if no run on the walk has a style
and no text. All this holds unless indices wrap around. -/
theorem styled_units_inserted {arithmetic : Arithmetic} {compiler : Compiler arithmetic}
    {content : List Block} {cell : Option CellAddress} {start : Nat} {done : Compilation}
    (hw : arithmetic = .words .wraps → compiler.InWords content cell start)
    (h : compiler.compile content cell start = .ok done) :
    (∀ before request after, done.requests = before ++ request :: after →
      ∀ span ∈ request.styledSpan?, ∀ i, span.start ≤ i → i < span.stop →
        Inserted compiler.options.lengthUnit (inserts span.cell before) i) ∧
    (∀ span style fields, .updateParagraphStyle span style fields ∈ done.requests →
      span.start < span.stop) ∧
    (∀ before span style fields after,
      done.requests = before ++ .updateTextStyle span style fields :: after →
      ∃ earlier text, before = earlier ++ [.insertText ⟨span.start, span.cell⟩ text] ∧
        (span.start < span.stop ↔ text ≠ "")) ∧
    ((∀ request ∈ done.requests, ∀ span ∈ request.styledSpan?, span.start < span.stop) ↔
      ∀ run ∈ (content.flatMap Block.walked).flatMap Block.runs,
        run.style.isEmpty = false → run.content ≠ "") := by
  have hn := compile_naturals_ok hw h
  have hfollowing := (compiler.counting .naturals).account_following.compile hn
  have hparagraph : ∀ span style fields,
      .updateParagraphStyle span style fields ∈ done.requests → span.start < span.stop := by
    intro span style fields hr
    obtain ⟨before, after, he⟩ := List.append_of_mem hr
    exact (hfollowing before _ after he).2.1
  refine ⟨?_, hparagraph, ?_, ?_⟩
  · intro before request after he span hs i hi hlt
    have hc := contiguous_compile hn span.cell
    rw [he, inserts_append] at hc
    exact (hfollowing before request after he).inserted hs (contiguous_append.mp hc).1 hi hlt
  · intro before span style fields after he
    exact (textSpan_compile hn he).2
  · refine Iff.trans ?_ (textSpans_proper_iff hn)
    constructor
    · exact fun hall span style fields hr => hall _ hr span rfl
    · intro htext request hr span hs
      cases request with
      | updateTextStyle given style fields =>
        obtain rfl := Option.some.inj hs
        exact htext given style fields hr
      | updateParagraphStyle given style fields =>
        obtain rfl := Option.some.inj hs
        exact hparagraph given style fields hr
      | insertText location text => cases hs
      | insertInlineImage location uri => cases hs
      | insertTable rows columns location => cases hs

theorem styled_units_inserted_sideBySide :
    (Document.sideBySide.compiler (.words .wraps) ⟨3, .utf16, true⟩).compile
      Document.sideBySide.content none 3 = .ok .sideBySide ∧
    ∀ request ∈ Compilation.sideBySide.requests, ∀ span ∈ request.styledSpan?,
      span.start < span.stop := by
  obtain ⟨-, -, -, hproper⟩ := styled_units_inserted (fun _ => inWords_sideBySide _)
    (compile_sideBySide (.words .wraps))
  exact ⟨compile_sideBySide _, hproper.mpr (by decide)⟩

end Compiler

namespace Document

/-- A document of one run that has a style and no text. -/
def styledEmpty : Document := .ofContent [.paragraph ⟨[.text ⟨"", .bold⟩], .empty⟩]

/-- The run is styled all the same, and the span takes no units. -/
theorem styledEmpty_spans_nothing : ∃ done,
    styledEmpty.compile (.words .wraps) .defaults = .ok done ∧
    done.requests = [.insertText ⟨1, none⟩ "", .restyle ⟨1, 1, none⟩ .bold] ∧
    ¬∀ request ∈ done.requests, ∀ span ∈ request.styledSpan?, span.start < span.stop :=
  ⟨⟨[.insertText ⟨1, none⟩ "", .restyle ⟨1, 1, none⟩ .bold], 1, .oneTextRun⟩,
    by decide, by decide, by decide⟩

end Document
end EditScript
