import EditScript.Proofs.Document.Accepted
import EditScript.Proofs.Request.Reads
import EditScript.Proofs.Styles

namespace EditScript

open Json (depth depthItems depthMembers)

namespace Reader
variable {α : Type} {budget : Nat}

theorem index_eq_ok {tree : Tree} {n : Nat} (h : index budget tree = .ok n) :
    n < UInt64.size := by
  obtain ⟨value, -, rfl⟩ := Outcome.map_eq_ok.mp h
  exact value.toNat_lt

theorem required_eq_ok {reads : Tree → Prop} {a : α} (h : (∃ tree, reads tree) ∨ none = some a) :
    ∃ tree, reads tree := by
  rcases h with h | h
  · exact h
  · cases h

/-- Where a choice comes from if every variant has a value: an object of that name and value. -/
theorem choice_eq_ok {variant? : String → Option (Variant α)} {tree : Tree} {a : α}
    (h : choice variant? budget tree = .ok a)
    (hp : ∀ name variant, variant? name = some variant → ∃ read, variant = .payload read) :
    ∃ b key name read inner, budget = b+1 ∧ tree = .object [(key, inner)] none ∧
      key.read = .ok name ∧ variant? name = some (.payload read) ∧ read b inner = .ok a := by
  cases tree with
  | string quoted =>
    obtain ⟨name, -, h⟩ := Outcome.bind_eq_ok.mp h
    cases hv : variant? name with
    | none =>
      rw [hv] at h
      cases h
    | some variant =>
      obtain ⟨read, rfl⟩ := hp name variant hv
      rw [hv] at h
      cases h
  | object members fault =>
    obtain ⟨b, key, inner, name, variant, rfl, rfl, rfl, hname, hv, hr⟩ :=
      choice_object_eq_ok.mp h
    obtain ⟨read, rfl⟩ := hp name variant hv
    exact ⟨b, key, name, read, inner, rfl, rfl, hname, hv, hr⟩
  | _ => cases h

end Reader

namespace CellAddress

theorem tableStartReader_eq_ok {budget n : Nat} {tree : Tree}
    (h : tableStartReader budget tree = .ok n) : n < UInt64.size := by
  obtain ⟨⟨index, _⟩, hr, rfl⟩ := Outcome.map_eq_ok.mp h
  obtain ⟨b, -, hindex, -⟩ := Reader.record_eq_ok hr
  obtain ⟨_, hindex⟩ := Reader.required_eq_ok hindex
  exact Reader.index_eq_ok hindex

theorem reader_words {budget : Nat} {tree : Tree} {address : CellAddress}
    (h : reader budget tree = .ok address) : address.Words := by
  obtain ⟨⟨tableStart, row, column, _⟩, hr, rfl⟩ := Outcome.map_eq_ok.mp h
  obtain ⟨b, -, hstart, hrow, hcolumn, -⟩ := Reader.record_eq_ok hr
  obtain ⟨_, hstart⟩ := Reader.required_eq_ok hstart
  obtain ⟨_, hrow⟩ := Reader.required_eq_ok hrow
  obtain ⟨_, hcolumn⟩ := Reader.required_eq_ok hcolumn
  exact ⟨tableStartReader_eq_ok hstart, Reader.index_eq_ok hrow, Reader.index_eq_ok hcolumn⟩

theorem words_ofMembers? {members : List (String × Json)} :
    ∀ address ∈ ofMembers? members, address.Words :=
  fun _ h => reader_words (ofMembers?_eq_some.mp h)

end CellAddress

theorem Location.reader_words {budget : Nat} {tree : Tree} {location : Location}
    (h : Location.reader budget tree = .ok location) : location.Words := by
  obtain ⟨⟨⟨index, _⟩, others⟩, hr, rfl⟩ := Outcome.map_eq_ok.mp h
  obtain ⟨b, -, ⟨hi, -⟩, -⟩ := Reader.openRecord_eq_ok hr
  obtain ⟨_, hi⟩ := Reader.required_eq_ok hi
  exact ⟨Reader.index_eq_ok hi, CellAddress.words_ofMembers?⟩

theorem Span.reader_words {budget : Nat} {tree : Tree} {span : Span}
    (h : Span.reader budget tree = .ok span) : span.Words := by
  obtain ⟨⟨⟨start, stop, _⟩, others⟩, hr, rfl⟩ := Outcome.map_eq_ok.mp h
  obtain ⟨b, -, ⟨hstart, hstop, -⟩, -⟩ := Reader.openRecord_eq_ok hr
  obtain ⟨_, hstart⟩ := Reader.required_eq_ok hstart
  obtain ⟨_, hstop⟩ := Reader.required_eq_ok hstop
  exact ⟨Reader.index_eq_ok hstart, Reader.index_eq_ok hstop, CellAddress.words_ofMembers?⟩

theorem Location.depth_toJson (location : Location) : location.toJson.depth ≤ 2 := by
  have hc := CellAddress.depthMembers_elim location.cell
  simp only [toJson, depth, depthMembers, Json.ofNat]
  omega

theorem Span.depth_toJson (span : Span) : span.toJson.depth ≤ 2 := by
  have hc := CellAddress.depthMembers_elim span.cell
  simp only [toJson, depth, depthMembers, Json.ofNat]
  omega

theorem Request.depth_toJson {request : Request} {n : Nat} (hn : 2 ≤ n)
    (h : ∀ style ∈ request.style?, style.toJson.depth ≤ n) : request.toJson.depth ≤ n+2 := by
  cases request with
  | insertText location _ | insertInlineImage location _ | insertTable _ _ location =>
    have hl := location.depth_toJson
    simp only [toJson, payload, depth, depthMembers, Json.ofNat]
    omega
  | updateTextStyle span style _ | updateParagraphStyle span style _ =>
    have hs := h style rfl
    have hl := span.depth_toJson
    simp only [toJson, payload, depth, depthMembers]
    omega

theorem Batch.depth_toJson {batch : Batch} {n : Nat}
    (h : ∀ request ∈ batch.requests, request.toJson.depth ≤ n) : batch.toJson.depth ≤ n+2 := by
  have hd : depthItems (batch.requests.map Request.toJson) ≤ n := by
    rw [Json.depthItems_le]
    intro item hi
    obtain ⟨request, hr, rfl⟩ := List.mem_map.mp hi
    exact h request hr
  simp only [toJson, depth, depthMembers]
  omega

namespace Request

/-- The kinds of requests by their names, each with how what it carries is read. -/
def payloadReaders : List (String × Reader Request) :=
  [("insertText", insertTextReader), ("updateTextStyle", updateTextStyleReader),
    ("insertInlineImage", insertInlineImageReader), ("insertTable", insertTableReader),
    ("updateParagraphStyle", updateParagraphStyleReader)]

theorem variant?_eq_some {name : String} {variant : Reader.Variant Request}
    (h : variant? name = some variant) :
    ∃ read, (name, read) ∈ payloadReaders ∧ variant = .payload read := by
  unfold variant? at h
  repeat' split at h
  all_goals cases h
  all_goals
    subst name
    exact ⟨_, by simp [payloadReaders], rfl⟩

theorem reader_eq_ok {budget : Nat} {tree : Tree} {request : Request}
    (h : Request.reader budget tree = .ok request) :
    ∃ b key name read inner, budget = b+1 ∧ tree = .object [(key, inner)] none ∧
      key.read = .ok name ∧ (name, read) ∈ payloadReaders ∧ read b inner = .ok request := by
  have hp : ∀ name variant, variant? name = some variant → ∃ read, variant = .payload read := by
    intro name variant hv
    obtain ⟨read, -, hr⟩ := variant?_eq_some hv
    exact ⟨read, hr⟩
  obtain ⟨b, key, name, read, inner, rfl, rfl, hname, hv, h⟩ := Reader.choice_eq_ok h hp
  obtain ⟨known, hm, hr⟩ := variant?_eq_some hv
  obtain rfl := Reader.Variant.payload.inj hr
  exact ⟨b, key, name, read, inner, rfl, rfl, hname, hm, h⟩

theorem words_insertion {name : String} {budget : Nat} {tree : Tree} {location : Location}
    {text : String}
    (h : Reader.record (.cons (.required "location" Location.reader)
      (.cons (.required name .string) .nil)) budget tree = .ok (location, text, ())) :
    location.Words := by
  obtain ⟨b, -, hl, -⟩ := Reader.record_eq_ok h
  obtain ⟨_, hl⟩ := Reader.required_eq_ok hl
  exact Location.reader_words hl

theorem fits_styling {name : String} {budget : Nat} {tree : Tree} {span : Span} {style : Style}
    {fields : String}
    (h : Reader.record (.cons (.required "range" Span.reader)
      (.cons (.required name Style.reader) (.cons (.required "fields" .string) .nil)))
        budget tree = .ok (span, style, fields, ())) :
    span.Words ∧ style.toJson.depth+1 ≤ budget := by
  obtain ⟨b, rfl, hspan, hstyle, -⟩ := Reader.record_eq_ok h
  obtain ⟨_, hspan⟩ := Reader.required_eq_ok hspan
  obtain ⟨_, hstyle⟩ := Reader.required_eq_ok hstyle
  exact ⟨Span.reader_words hspan, Nat.succ_le_succ (Style.reader_depth hstyle)⟩

/-- The request has words for indices, and a style that leaves room for the request around it. -/
def Fits (budget : Nat) (request : Request) : Prop :=
  request.Words ∧ ∀ style ∈ request.style?, style.toJson.depth+2 ≤ budget

theorem fits_of_words {budget : Nat} {request : Request} (hw : request.Words)
    (hs : request.style? = none) : request.Fits budget := by
  refine ⟨hw, ?_⟩
  intro style h
  rw [hs] at h
  cases h

theorem fits_of_style {budget : Nat} {request : Request} {style : Style} (hw : request.Words)
    (hs : request.style? = some style) (hd : style.toJson.depth+1 ≤ budget) :
    request.Fits (budget+1) := by
  refine ⟨hw, ?_⟩
  intro other h
  rw [hs] at h
  obtain rfl := Option.some.inj h
  exact Nat.succ_le_succ hd

theorem insertTableReader_words {budget : Nat} {tree : Tree} {request : Request}
    (h : insertTableReader budget tree = .ok request) :
    request.Words ∧ request.style? = none := by
  obtain ⟨⟨rows, columns, location, _⟩, hr, rfl⟩ := Outcome.map_eq_ok.mp h
  obtain ⟨b, -, hrows, hcolumns, hl, -⟩ := Reader.record_eq_ok hr
  obtain ⟨_, hrows⟩ := Reader.required_eq_ok hrows
  obtain ⟨_, hcolumns⟩ := Reader.required_eq_ok hcolumns
  obtain ⟨_, hl⟩ := Reader.required_eq_ok hl
  exact ⟨⟨Reader.index_eq_ok hrows, Reader.index_eq_ok hcolumns, Location.reader_words hl⟩, rfl⟩

theorem reader_fits {budget : Nat} {tree : Tree} {request : Request}
    (h : Request.reader budget tree = .ok request) : request.Fits budget := by
  obtain ⟨b, key, name, read, inner, rfl, rfl, -, hm, h⟩ := reader_eq_ok h
  simp only [payloadReaders, List.mem_cons, Prod.mk.injEq, List.not_mem_nil, or_false] at hm
  rcases hm with ⟨-, rfl⟩ | ⟨-, rfl⟩ | ⟨-, rfl⟩ | ⟨-, rfl⟩ | ⟨-, rfl⟩
  · obtain ⟨⟨location, text, _⟩, hr, rfl⟩ := Outcome.map_eq_ok.mp h
    exact fits_of_words (words_insertion hr) rfl
  · obtain ⟨⟨span, style, fields, _⟩, hr, rfl⟩ := Outcome.map_eq_ok.mp h
    obtain ⟨hw, hd⟩ := fits_styling hr
    exact fits_of_style hw rfl hd
  · obtain ⟨⟨location, uri, _⟩, hr, rfl⟩ := Outcome.map_eq_ok.mp h
    exact fits_of_words (words_insertion hr) rfl
  · obtain ⟨hw, hs⟩ := insertTableReader_words h
    exact fits_of_words hw hs
  · obtain ⟨⟨span, style, fields, _⟩, hr, rfl⟩ := Outcome.map_eq_ok.mp h
    obtain ⟨hw, hd⟩ := fits_styling hr
    exact fits_of_style hw rfl hd

end Request

/-- A batch that is read from within the limit has words for indices and can be written within the
limit. -/
theorem Batch.reader_fits {tree : Tree} {batch : Batch}
    (h : Batch.reader Scan.depthLimit tree = .ok batch) :
    batch.Words ∧ batch.toJson.depth ≤ Scan.depthLimit := by
  obtain ⟨⟨requests, _⟩, hr, rfl⟩ := Outcome.map_eq_ok.mp h
  obtain ⟨b, hb, hlist, -⟩ := Reader.record_eq_ok hr
  obtain ⟨_, hlist⟩ := Reader.required_eq_ok hlist
  obtain ⟨c, rfl, hrequests⟩ := Reader.list_eq_ok hlist
  obtain rfl : c = 125 := by
    have hl : Scan.depthLimit = 127 := rfl
    omega
  have hfits : ∀ request ∈ requests, request.Fits 125 := by
    intro request hm
    obtain ⟨item, hi⟩ := hrequests request hm
    exact Request.reader_fits hi
  refine ⟨fun request hm => (hfits request hm).1, ?_⟩
  apply Batch.depth_toJson
  intro request hm
  apply Request.depth_toJson (by decide)
  intro style hs
  exact Nat.le_of_add_le_add_right ((hfits request hm).2 style hs)

end EditScript
