import EditScript.Proofs.Document.Reads

namespace EditScript

open Json (depth depthItems depthMembers)

theorem Json.depthMembers_append (members others : List (String × Json)) :
    depthMembers (members ++ others) = max (depthMembers members) (depthMembers others) := by
  induction members with
  | nil => simp [depthMembers]
  | cons member members ih => simp [depthMembers, ih, Nat.max_assoc]

namespace Reader

mutual

/-- A value that is read is no deeper than the brackets that were left. -/
theorem value_depth : (tree : Tree) → (budget : Nat) → (v : Json) →
    Reader.value budget tree = .ok v → depth v ≤ budget
  | .null, _, _, h | .bool _, _, _, h => by
    rw [Reader.value] at h
    cases h
    exact Nat.zero_le _
  | .numeral _, _, _, h | .string _, _, _, h => by
    rw [Reader.value] at h
    obtain ⟨_, -, rfl⟩ := Outcome.map_eq_ok.mp h
    exact Nat.zero_le _
  | .array _ _, 0, _, h | .object _ _, 0, _, h => by
    rw [Reader.value] at h
    cases h
  | .array items _, budget+1, _, h => by
    rw [Reader.value] at h
    obtain ⟨values, hv, h⟩ := Outcome.bind_eq_ok.mp h
    obtain ⟨_, -, h⟩ := Outcome.bind_eq_ok.mp h
    cases h
    exact Nat.succ_le_succ (valueItems_depth items budget values hv)
  | .object members _, budget+1, _, h => by
    rw [Reader.value] at h
    obtain ⟨values, hv, h⟩ := Outcome.bind_eq_ok.mp h
    obtain ⟨_, -, h⟩ := Outcome.bind_eq_ok.mp h
    cases h
    exact Nat.succ_le_succ (valueMembers_depth members budget values hv)
  | .brokenNumeral _ _, _, _, h | .brokenLiteral _, _, _, h | .absent _, _, _, h => by
    rw [Reader.value] at h
    cases h

theorem valueItems_depth : (items : List Tree) → (budget : Nat) → (values : List Json) →
    valueItems budget items = .ok values → depthItems values ≤ budget
  | [], _, _, h => by
    rw [valueItems] at h
    cases h
    exact Nat.zero_le _
  | item :: items, budget, _, h => by
    rw [valueItems] at h
    obtain ⟨first, hf, h⟩ := Outcome.bind_eq_ok.mp h
    obtain ⟨rest, hr, h⟩ := Outcome.bind_eq_ok.mp h
    cases h
    exact Nat.max_le.mpr ⟨value_depth item budget first hf, valueItems_depth items budget rest hr⟩

theorem valueMembers_depth : (members : List (Quoted × Tree)) → (budget : Nat) →
    (values : List (String × Json)) → valueMembers budget members = .ok values →
    depthMembers values ≤ budget
  | [], _, _, h => by
    rw [valueMembers] at h
    cases h
    exact Nat.zero_le _
  | (_, member) :: members, budget, _, h => by
    rw [valueMembers] at h
    obtain ⟨_, -, h⟩ := Outcome.bind_eq_ok.mp h
    obtain ⟨first, hf, h⟩ := Outcome.bind_eq_ok.mp h
    obtain ⟨rest, hr, h⟩ := Outcome.bind_eq_ok.mp h
    cases h
    exact Nat.max_le.mpr ⟨value_depth member budget first hf,
      valueMembers_depth members budget rest hr⟩

end

theorem members_depth {budget : Nat} {tree : Tree} {members : List (String × Json)}
    (h : Reader.members budget tree = .ok members) : (Json.object members).depth ≤ budget := by
  cases tree with
  | object trees fault =>
    obtain ⟨b, rfl, h⟩ := enter_eq_ok h
    obtain ⟨values, hv, h⟩ := Outcome.bind_eq_ok.mp h
    obtain ⟨_, -, h⟩ := Outcome.bind_eq_ok.mp h
    cases h
    exact Nat.succ_le_succ (valueMembers_depth trees b _ hv)
  | _ => cases h

theorem holding_eq_ok {α : Type} {read : Reader α} {name : String} {budget : Nat} {tree : Tree}
    {as : List α}
    (h : map (fun (as, ()) => as) (record (.cons (.withDefault name (.list read) []) .nil))
      budget tree = .ok as) :
    ∃ b, budget = b+1 ∧ ∀ a ∈ as, ∃ c item, b = c+1 ∧ read c item = .ok a := by
  obtain ⟨⟨found, _⟩, hr, hfound⟩ := Outcome.map_eq_ok.mp h
  obtain rfl : found = as := hfound
  obtain ⟨b, rfl, hp, -⟩ := record_eq_ok hr
  exact ⟨b, rfl, mem_list_eq_ok hp⟩

end Reader

theorem Json.depth_holding_le {α : Type} {f : α → Json} {as : List α} {budget : Nat}
    (name : String) (hb : 2 ≤ budget) (h : ∀ a ∈ as, (f a).depth+2 ≤ budget) :
    (Json.holding name (as.map f)).depth ≤ budget := by
  have hd : depthItems (as.map f) ≤ budget-2 := by
    rw [depthItems_le]
    intro item hi
    obtain ⟨a, ha, rfl⟩ := List.mem_map.mp hi
    have := h a ha
    omega
  simp only [holding, depth, depthMembers]
  omega

namespace Style

theorem reader_depth {budget : Nat} {tree : Tree} {style : Style}
    (h : Style.reader budget tree = .ok style) : style.toJson.depth ≤ budget := by
  obtain ⟨members, hm, rfl⟩ := Outcome.map_eq_ok.mp h
  exact Nat.le_trans (depth_ofAttributes members) (Reader.members_depth hm)

theorem toMembers_depth {budget : Nat} {style : Style} (name : String)
    (h : (∃ tree, Style.reader budget tree = .ok style) ∨ some Style.empty = some style) :
    depthMembers (style.toMembers name) ≤ budget := by
  rcases h with ⟨tree, h⟩ | h
  · exact Nat.le_trans (style.depthMembers_toMembers name) (reader_depth h)
  · rw [← Option.some.inj h]
    exact Nat.zero_le budget

end Style

theorem TextRun.reader_depth {budget : Nat} {tree : Tree} {run : TextRun}
    (h : TextRun.reader budget tree = .ok run) : run.toJson.depth ≤ budget := by
  obtain ⟨⟨content, style, _⟩, hr, rfl⟩ := Outcome.map_eq_ok.mp h
  obtain ⟨b, rfl, -, hstyle, -⟩ := Reader.record_eq_ok hr
  have hs : depthMembers (style.toMembers "textStyle") ≤ b := Style.toMembers_depth _ hstyle
  simp only [toJson, depth, depthMembers]
  omega

namespace Element
variable {α β γ : Type} {first second : String} {readFirst : Reader α} {readSecond : Reader β}
variable {ofFirst : α → γ} {ofSecond : β → γ} {unknown : String → γ}

theorem kind_not_mem {others : List (String × Json)} {names : List String}
    (hu : "unknown" ∉ names ++ positionKeys) (h : ∀ other ∈ others, other.1 ∉ names) :
    kind others ∉ names ++ positionKeys := by
  unfold kind
  cases hf : ((Entries.sort others).map (·.1)).find? (· ∉ positionKeys) with
  | none => exact hu
  | some name =>
    have hpos : name ∉ positionKeys := by
      simpa using List.find?_some hf
    obtain ⟨other, ho, rfl⟩ := List.mem_map.mp (List.mem_of_find?_eq_some hf)
    intro hm
    rcases List.mem_append.mp hm with hm | hm
    · exact h other (Entries.mem_sort ho) hm
    · exact hpos hm

/-- What an element is read from: its first kind, its second one, or some other name. -/
theorem reader_eq_ok (hu : "unknown" ∉ [first, second] ++ positionKeys) {budget : Nat}
    {tree : Tree} {c : γ}
    (h : reader first readFirst second readSecond ofFirst ofSecond unknown budget tree = .ok c) :
    ∃ b, budget = b+1 ∧ ((∃ a inner, readFirst b inner = .ok a ∧ c = ofFirst a) ∨
      (∃ a inner, readSecond b inner = .ok a ∧ c = ofSecond a) ∨
      ∃ kind, kind ∉ [first, second] ++ positionKeys ∧ c = unknown kind) := by
  obtain ⟨⟨⟨one, two, _⟩, others⟩, hr, hc⟩ := Outcome.map_eq_ok.mp h
  obtain ⟨b, rfl, ⟨hone, htwo, -⟩, hothers⟩ := Reader.openRecord_eq_ok hr
  refine ⟨b, rfl, ?_⟩
  cases one with
  | some a =>
    rcases hone with ⟨inner, hi⟩ | hi
    · exact .inl ⟨a, inner, Reader.optional_eq_ok hi, hc.symm⟩
    · cases hi
  | none =>
    cases two with
    | some a =>
      rcases htwo with ⟨inner, hi⟩ | hi
      · exact .inr (.inl ⟨a, inner, Reader.optional_eq_ok hi, hc.symm⟩)
      · cases hi
    | none => exact .inr (.inr ⟨kind others, kind_not_mem hu hothers, hc.symm⟩)

end Element

theorem Inline.reader_fits {budget : Nat} (hb : 2 ≤ budget) {tree : Tree} {element : Inline}
    (h : Inline.reader budget tree = .ok element) :
    element.Apart ∧ element.toJson.depth ≤ budget := by
  obtain ⟨b, rfl, hcases⟩ := Element.reader_eq_ok (by decide) h
  rcases hcases with ⟨run, inner, hr, rfl⟩ | ⟨id, inner, -, rfl⟩ | ⟨kind, hk, rfl⟩
  · have hd := TextRun.reader_depth hr
    refine ⟨trivial, ?_⟩
    simp only [toJson, depth, depthMembers]
    omega
  · exact ⟨trivial, hb⟩
  · exact ⟨hk, hb⟩

theorem Paragraph.reader_fits {budget : Nat} (hb : 4 ≤ budget) {tree : Tree}
    {paragraph : Paragraph} (h : Paragraph.reader budget tree = .ok paragraph) :
    (∀ element ∈ paragraph.elements, element.Apart) ∧ paragraph.toJson.depth ≤ budget := by
  obtain ⟨⟨elements, style, _⟩, hr, rfl⟩ := Outcome.map_eq_ok.mp h
  obtain ⟨b, rfl, helements, hstyle, -⟩ := Reader.record_eq_ok hr
  have hs : depthMembers (style.toMembers "paragraphStyle") ≤ b := Style.toMembers_depth _ hstyle
  have hfits : ∀ element ∈ elements, element.Apart ∧ element.toJson.depth ≤ b-1 := by
    intro element he
    obtain ⟨c, item, rfl, hitem⟩ := Reader.mem_list_eq_ok helements element he
    exact Inline.reader_fits (by omega) hitem
  have hd : depthItems (elements.map Inline.toJson) ≤ b-1 := by
    rw [Json.depthItems_le]
    intro item hi
    obtain ⟨element, he, rfl⟩ := List.mem_map.mp hi
    exact (hfits element he).2
  refine ⟨fun element he => (hfits element he).1, ?_⟩
  simp only [toJson, depth, depthMembers]
  omega

namespace Block

open Json (holding)

/-- The block can be written with this budget and read again. -/
def Fits (budget : Nat) (block : Block) : Prop := block.Apart ∧ block.toJson.depth ≤ budget

/-- The blocks in the cells of a table stand seven brackets deeper than the table, and whatever the
table leaves out can be written. -/
theorem table_fits {inner : Reader Block} {budget : Nat} (hb : budget%7 = 4)
    (hinner : ∀ b item block, b+6 = budget → inner b item = .ok block → Fits b block)
    {tree : Tree} {table : Table Block} (h : Table.reader inner budget tree = .ok table) :
    (∀ row ∈ table.grid, ∀ cell ∈ row, ∀ block ∈ cell, block.Apart) ∧
      (Table.toJsonWith table.rows table.columns (gridToJson table.grid)).depth ≤ budget := by
  obtain ⟨⟨rows, columns, grid, _⟩, hr, rfl⟩ := Outcome.map_eq_ok.mp h
  obtain ⟨b, rfl, -, -, hgrid, -⟩ := Reader.record_eq_ok hr
  have hcell : ∀ row ∈ grid, ∀ cell ∈ row, (∀ block ∈ cell, block.Apart) ∧
      (cellToJson cell).depth+3 ≤ b := by
    intro row hrow cell hcell
    obtain ⟨c, item, rfl, hc⟩ := Reader.mem_list_eq_ok hgrid row hrow
    obtain ⟨d, rfl, hd⟩ := Reader.holding_eq_ok hc
    obtain ⟨e, cellItem, rfl, he⟩ := hd cell hcell
    obtain ⟨f, rfl, hf⟩ := Reader.holding_eq_ok he
    have hblock : ∀ block ∈ cell, block.Apart ∧ block.toJson.depth+2 ≤ f+1 := by
      intro block hblock
      obtain ⟨g, blockItem, rfl, hg⟩ := hf block hblock
      have hfit := hinner g blockItem block (by omega) hg
      exact ⟨hfit.1, Nat.add_le_add_right hfit.2 2⟩
    refine ⟨fun block hm => (hblock block hm).1, ?_⟩
    have hdepth : (cellToJson cell).depth ≤ f+1 := by
      rw [cellToJson, listToJson_eq]
      exact Json.depth_holding_le "content" (by omega) fun block hm => (hblock block hm).2
    omega
  refine ⟨fun row hrow cell hc => (hcell row hrow cell hc).1, ?_⟩
  have hd : depthItems (gridToJson grid) ≤ b-1 := by
    rw [gridToJson_eq, Json.depthItems_le]
    intro item hi
    obtain ⟨row, hrow, rfl⟩ := List.mem_map.mp hi
    apply Json.depth_holding_le
    · omega
    · intro cell hc
      have := (hcell row hrow cell hc).2
      omega
  simp only [Table.toJsonWith, depth, depthMembers, Json.ofNat]
  omega

theorem readerWithin_fits {limit budget : Nat} (hb : budget%7 = 5) {tree : Tree} {block : Block}
    (h : readerWithin limit budget tree = .ok block) : Fits budget block := by
  induction limit generalizing budget tree block with
  | zero => cases h
  | succ limit ih =>
    obtain ⟨b, rfl, hcases⟩ := Element.reader_eq_ok (by decide) h
    rcases hcases with ⟨p, inner, hp, rfl⟩ | ⟨t, inner, ht, rfl⟩ | ⟨kind, hk, rfl⟩
    · have hfit := Paragraph.reader_fits (by omega) hp
      refine ⟨hfit.1, ?_⟩
      simp only [toJson, depth, depthMembers]
      omega
    · have hfit := table_fits (by omega)
        (fun b' item block hb' hi => ih (by omega) hi) ht
      obtain ⟨rows, columns, grid⟩ := t
      refine ⟨apartGrid_iff.mpr hfit.1, ?_⟩
      have hd := hfit.2
      simp only [toJson, depth, depthMembers] at hd ⊢
      omega
    · refine ⟨hk, ?_⟩
      simp only [toJson, Element.unknownToJson, depth, depthMembers]
      omega

end Block

theorem Json.depthMembers_given {α : Type} {f : α → Json} {n : Nat} (name : String)
    (value : Option α) (h : ∀ a ∈ value, (f a).depth ≤ n) :
    depthMembers (Json.given name (value.map f)) ≤ n := by
  cases value with
  | none => exact Nat.zero_le n
  | some a => exact Nat.max_le.mpr ⟨h a rfl, Nat.zero_le n⟩

theorem Json.depthMembers_givenText (name : String) (value : Option String) :
    depthMembers (Json.given name (value.map .string)) = 0 :=
  Nat.le_zero.mp (Json.depthMembers_given name value fun _ _ => Nat.le_refl 0)

theorem Image.depth_toJson (image : Image) : image.toJson.depth = 1 := by
  simp [toJson, depth, Json.depthMembers_append, Json.depthMembers_givenText]

theorem Embedded.depth_toJson (embedded : Embedded) : embedded.toJson.depth ≤ 2 := by
  have hi := Json.depthMembers_given (f := Image.toJson) "imageProperties" embedded.image
    fun image _ => Nat.le_of_eq image.depth_toJson
  simp only [toJson, depth, Json.depthMembers_append, Json.depthMembers_givenText]
  omega

theorem InlineObject.depth_toJson (object : InlineObject) : object.toJson.depth ≤ 4 := by
  have he := object.embedded.depth_toJson
  simp only [toJson, depth, depthMembers, Json.depthMembers_append, Json.depthMembers_givenText]
  omega

namespace Document

theorem depth_objects (objects : Dict InlineObject) :
    depthMembers (if objects.isEmpty then []
      else [("inlineObjects",
        Json.object (objects.entries.map fun (id, object) => (id, object.toJson)))]) ≤ 126 := by
  split
  · decide
  · have hd : depthMembers (objects.entries.map fun entry => (entry.1, entry.2.toJson)) ≤ 4 := by
      rw [Json.depthMembers_le]
      intro member hm
      obtain ⟨entry, -, rfl⟩ := List.mem_map.mp hm
      exact entry.2.depth_toJson
    exact Nat.max_le.mpr ⟨Nat.le_trans (Nat.succ_le_succ hd) (by decide), Nat.zero_le 126⟩

/-- A document that is read from within the limit can be written within the limit and read again. -/
theorem reader_fits {tree : Tree} {document : Document}
    (h : Document.reader Scan.depthLimit tree = .ok document) :
    document.Apart ∧ document.toJson.depth ≤ Scan.depthLimit := by
  obtain ⟨⟨id, title, content, objects, _⟩, hr, rfl⟩ := Outcome.map_eq_ok.mp h
  obtain ⟨b, hb, -, -, hbody, -⟩ := Reader.record_eq_ok hr
  obtain rfl : b = 126 := by
    have hl : Scan.depthLimit = 127 := rfl
    omega
  -- The document, its body and the list of blocks open one bracket each.
  have hfits : ∀ block ∈ content, block.Fits 124 := by
    rcases hbody with ⟨inner, hi⟩ | hi
    · obtain ⟨c, hc, hblocks⟩ := Reader.holding_eq_ok hi
      intro block hblock
      obtain ⟨d, item, hd, hitem⟩ := hblocks block hblock
      obtain rfl : d = 124 := by omega
      exact Block.readerWithin_fits rfl hitem
    · have hnil : content = [] := (Option.some.inj hi).symm
      intro block hblock
      exact absurd (hnil ▸ hblock : block ∈ []) List.not_mem_nil
  refine ⟨fun block hm => (hfits block hm).1, ?_⟩
  have hcontent : (Json.holding "content" (Block.listToJson content)).depth ≤ 126 := by
    rw [Block.listToJson_eq]
    apply Json.depth_holding_le
    · decide
    · intro block hm
      exact Nat.add_le_add_right (hfits block hm).2 2
  show depth (toJson ⟨id, title, content, objects⟩) ≤ 127
  rw [toJson, depth, Json.depthMembers_append, Json.depthMembers_append,
    Json.depthMembers_givenText, Json.depthMembers_givenText, depthMembers]
  exact Nat.succ_le_succ (Nat.max_le.mpr ⟨by decide, Nat.max_le.mpr ⟨hcontent, depth_objects objects⟩⟩)

end Document
end EditScript
