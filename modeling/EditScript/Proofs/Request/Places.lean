import EditScript.Proofs.ReadValues
import EditScript.Proofs.Request.Accepted

namespace EditScript

/-- The value is written as a whole number of an unsigned 64-bit word. -/
def Tree.IsWord (tree : Tree) (n : Nat) : Prop :=
  ∃ numeral : Numeral, tree = .numeral numeral ∧ numeral.integral ∧ ¬numeral.negative ∧
    numeral.significand = n ∧ n < UInt64.size

def Tree.word (n : Nat) : Tree := .numeral ⟨false, n, 0, 0, true⟩

theorem Tree.isWord_word {n : Nat} (h : n < UInt64.size) : (word n).IsWord n :=
  ⟨_, rfl, rfl, Bool.false_ne_true, rfl, h⟩

def GivesWord (object : List (String × Tree)) (name : String) (n : Nat) : Prop :=
  ∃ tree, valuesOf name object = [tree] ∧ tree.IsWord n

/-- The value says where a table starts: an object gives its index, among whatever else it holds,
and an array is that index alone. -/
inductive Tree.StartsTable : Tree → Nat → Prop where
  | object {members : List (Quoted × Tree)} {object : List (String × Tree)} {n : Nat}
      (named : Named members object) (index : GivesWord object "index" n) :
      StartsTable (.object members none) n
  | array {tree : Tree} {n : Nat} (index : tree.IsWord n) : StartsTable (.array [tree] none) n

/-- The object names this cell in full. -/
structure CellAddress.GivenIn (address : CellAddress) (object : List (String × Tree)) : Prop where
  tableStart : ∃ tree, valuesOf "tableStartLocation" object = [tree] ∧
    tree.StartsTable address.tableStart
  row : GivesWord object "rowIndex" address.row
  column : GivesWord object "columnIndex" address.column

/-- The numerals that mean a word are those without a sign, a point and an exponent, up to the
largest word. -/
theorem Numeral.number?_eq_word {numeral : Numeral} {n : Nat} :
    (∃ exact, numeral.number? = some (.integer n exact)) ↔
      numeral.integral ∧ ¬numeral.negative ∧ numeral.significand = n ∧ n < UInt64.size := by
  constructor
  · rintro ⟨exact, h⟩
    have hupper : n < UInt64.size := Int.ofNat_lt.mp exact.2
    obtain ⟨negative, significand, places, exponent, integral⟩ := numeral
    cases negative
    all_goals
      simp only [number?, Bool.false_eq_true, if_true, if_false] at h
      split at h
    case true.isTrue hwhole =>
      simp only [Option.some.injEq, Number.integer.injEq] at h
      exact absurd ⟨trivial, by omega⟩ hwhole.2.1
    case false.isTrue hwhole =>
      simp only [Option.some.injEq, Number.integer.injEq] at h
      exact ⟨hwhole.1, Bool.false_ne_true, Int.ofNat_inj.mp h, hupper⟩
    all_goals
      split at h
      · cases h
      · obtain ⟨d, -, hd⟩ := Option.map_eq_some_iff.mp h
        cases hd
  · rintro ⟨hintegral, hnegative, rfl, hlt⟩
    have hexact : Number.Exact numeral.significand := Number.exact_of_lt hlt
    have hnumber : numeral.number? = some (.integer numeral.significand hexact) := by
      simp [number?, hintegral, hnegative, hexact]
    exact ⟨hexact, hnumber⟩

namespace Reader

theorem index_eq_ok_iff (budget : Nat) {tree : Tree} {n : Nat} :
    index budget tree = .ok n ↔ tree.IsWord n := by
  constructor
  · intro h
    cases tree with
    | numeral numeral =>
      obtain ⟨given, hgiven, rfl⟩ := Outcome.map_eq_ok.mp h
      obtain ⟨number, hnumber, hgiven⟩ := Outcome.bind_eq_ok.mp hgiven
      cases number with
      | integer i exact =>
        simp only at hgiven
        split at hgiven
        · cases hgiven
        case isFalse hpos =>
          obtain rfl := Except.ok.inj hgiven
          have hi : (i.toNat : Int) = i := Int.toNat_of_nonneg (Int.not_lt.mp hpos)
          have hupper : i < 0x10000000000000000 := exact.2
          have hlt : i.toNat < UInt64.size := by
            unfold UInt64.size
            omega
          rw [UInt64.toNat_ofNat_of_lt' hlt]
          refine ⟨numeral, rfl, Numeral.number?_eq_word.mp ⟨Number.exact_of_lt hlt, ?_⟩⟩
          rw [Numeral.read_eq_ok.mp hnumber]
          simp only [hi]
      | double d => cases hgiven
    | _ => cases h
  · rintro ⟨numeral, rfl, hword⟩
    obtain ⟨exact, hnumber⟩ := Numeral.number?_eq_word.mpr hword
    have hlt : n < UInt64.size := hword.2.2.2
    refine reads_index budget hlt _ ⟨numeral, rfl, ?_⟩
    rw [hnumber, Number.ofNat_of_lt hlt]

theorem readFrom_index (budget : Nat) {name : String} {object : List (String × Tree)} {n : Nat} :
    (Field.required name .index).ReadFrom budget (valuesOf name object) n ↔
      GivesWord object name n := by
  simp only [Field.readFrom_required, index_eq_ok_iff]
  rfl

end Reader

section
variable {budget more n : Nat} {tree other : Tree} {given : Json}

theorem ValuesRead.only {object others : List (String × Tree)} {values : List (String × Json)}
    (h : ValuesRead budget object values) (ho : ValuesRead more others values) {name : String}
    (honly : valuesOf name object = [tree]) :
    ∃ other given, valuesOf name others = [other] ∧ Reader.value budget tree = .ok given ∧
      Reader.value more other = .ok given := by
  have hnamed := h.named name
  have hothers := ho.named name
  rw [honly] at hnamed
  generalize values.filter (fun value => value.1 = name) = alike at hnamed hothers
  generalize valuesOf name others = trees at hothers ⊢
  cases hnamed with
  | cons hread hmore =>
    cases hmore
    cases hothers with
    | cons hagain hmore =>
      cases hmore
      exact ⟨_, _, rfl, hread.2, hagain.2⟩

theorem Tree.IsWord.again (hw : tree.IsWord n) (h : Reader.value budget tree = .ok given)
    (ho : Reader.value more other = .ok given) : other.IsWord n := by
  obtain ⟨numeral, rfl, hword⟩ := hw
  obtain ⟨exact, hmeans⟩ := Numeral.number?_eq_word.mpr hword
  cases Reader.Valued.of_value h with
  | number means =>
    obtain rfl := Option.some.inj (hmeans.symm.trans means)
    cases Reader.Valued.of_value ho with
    | @number _ numeral _ means => exact ⟨numeral, rfl, Numeral.number?_eq_word.mp ⟨exact, means⟩⟩

theorem GivesWord.again {object others : List (String × Tree)} {values : List (String × Json)}
    {name : String} (hg : GivesWord object name n) (h : ValuesRead budget object values)
    (ho : ValuesRead more others values) : GivesWord others name n := by
  obtain ⟨tree, honly, hword⟩ := hg
  obtain ⟨other, given, hother, hread, hagain⟩ := h.only ho honly
  exact ⟨other, hother, hword.again hread hagain⟩

theorem Tree.StartsTable.again (hs : tree.StartsTable n) (h : Reader.value budget tree = .ok given)
    (ho : Reader.value more other = .ok given) : other.StartsTable n := by
  cases hs with
  | object named index =>
    cases Reader.Valued.of_value h with
    | object same read =>
      cases Reader.Valued.of_value ho with
      | object others again =>
        rw [named.unique same] at index
        exact .object others (index.again read again)
  | array index =>
    cases Reader.Valued.of_value h with
    | array read =>
      cases Reader.Valued.of_value ho with
      | array again =>
        cases read with
        | cons hread hmore =>
          cases hmore
          cases again with
          | cons hagain hmore =>
            cases hmore
            exact .array (index.again hread hagain)

end

namespace CellAddress
variable {budget n : Nat} {tree : Tree} {address : CellAddress}
  {members : List (Quoted × Tree)} {object : List (String × Tree)}

theorem GivenIn.again {more : Nat} {others : List (String × Tree)}
    {values : List (String × Json)} (hg : address.GivenIn object)
    (h : ValuesRead budget object values) (ho : ValuesRead more others values) :
    address.GivenIn others := by
  obtain ⟨⟨tree, honly, hstart⟩, hrow, hcolumn⟩ := hg
  obtain ⟨other, given, hother, hread, hagain⟩ := h.only ho honly
  exact ⟨⟨other, hother, hstart.again hread hagain⟩, hrow.again h ho, hcolumn.again h ho⟩

/-- Whole values say where a table starts exactly if the reader for that takes them. -/
theorem tableStartReader_eq_ok_iff (hf : tree.fault? = none) :
    tableStartReader (budget+1) tree = .ok n ↔ tree.StartsTable n := by
  rw [tableStartReader, Reader.map, Outcome.map_eq_ok]
  constructor
  · rintro ⟨⟨index, ⟨⟩⟩, h, rfl⟩
    cases tree with
    | object members fault =>
      obtain rfl : fault = none := (Option.or_eq_none_iff.mp hf).2
      obtain ⟨_, -, hheld, -⟩ := Reader.record_heldBy (by decide) h
      obtain ⟨value, hholds, hread⟩ := Reader.required_eq_ok hheld
      cases hholds with
      | member named only => exact .object named ⟨value, only, (Reader.index_eq_ok_iff _).mp hread⟩
    | array items fault =>
      obtain rfl : fault = none := (Option.or_eq_none_iff.mp hf).2
      match items with
      | [] => cases h
      | [item] =>
        obtain ⟨first, hread, hfirst⟩ := Outcome.bind_eq_ok.mp h
        cases hfirst
        exact .array ((Reader.index_eq_ok_iff _).mp hread)
      | _ :: _ :: _ =>
        obtain ⟨_, -, hmore⟩ := Outcome.bind_eq_ok.mp h
        cases hmore
    | _ => cases h
  · intro hstart
    refine ⟨(n, ()), ?_, rfl⟩
    cases hstart with
    | object named index =>
      have hwhole := named.whole (Option.or_eq_none_iff.mp hf).1
      exact (Reader.record_eq_ok_iff (by decide) named).mpr
        ⟨⟨(Reader.readFrom_index _).mpr index, trivial⟩, fun entry hentry _ => hwhole entry hentry⟩
    | array index =>
      have hread := (Reader.index_eq_ok_iff budget).mpr index
      simp [Reader.record, Reader.enter, Fields.ofItems, Field.required, Reader.proceed, hread]

/-- A cell is read from an object of whole values exactly if that names it in full. -/
theorem reader_eq_ok_iff (hm : Named members object)
    (hf : ∀ entry ∈ object, entry.2.fault? = none) :
    reader (budget+2) (.object members none) = .ok address ↔ address.GivenIn object := by
  have hstart (n : Nat) : (Field.required "tableStartLocation" tableStartReader).ReadFrom (budget+1)
      (valuesOf "tableStartLocation" object) n ↔
        ∃ tree, valuesOf "tableStartLocation" object = [tree] ∧ tree.StartsTable n := by
    rw [Field.readFrom_required]
    refine exists_congr fun tree => and_congr_right fun honly => ?_
    have htree : tree ∈ valuesOf "tableStartLocation" object := by simp [honly]
    obtain ⟨entry, hentry, rfl⟩ := List.mem_map.mp htree
    exact tableStartReader_eq_ok_iff (hf entry (List.mem_filter.mp hentry).1)
  rw [reader, Reader.map, Outcome.map_eq_ok]
  constructor
  · rintro ⟨⟨tableStart, row, column, ⟨⟩⟩, h, rfl⟩
    obtain ⟨⟨ht, hr, hc, -⟩, -⟩ := (Reader.record_eq_ok_iff (by decide) hm).mp h
    exact ⟨(hstart _).mp ht, (Reader.readFrom_index _).mp hr, (Reader.readFrom_index _).mp hc⟩
  · rintro ⟨ht, hr, hc⟩
    refine ⟨(address.tableStart, address.row, address.column, ()), ?_, rfl⟩
    refine (Reader.record_eq_ok_iff (by decide) hm).mpr ⟨⟨?_, ?_, ?_, trivial⟩, ?_⟩
    · exact (hstart _).mpr ht
    · exact (Reader.readFrom_index _).mpr hr
    · exact (Reader.readFrom_index _).mpr hc
    · exact fun entry hentry _ => hf entry hentry

/-- The members that a position keeps are read again as they were read before. -/
theorem ofMembers?_eq_some_iff {others : List (String × Json)}
    (h : ValuesRead budget object others) :
    ofMembers? others = some address ↔ address.GivenIn object := by
  obtain ⟨again, hnamed, hread⟩ := exists_again (Nat.le_refl (Json.depthMembers others))
  have hwhole := hnamed.whole (Json.membersFault?_memberTrees others)
  have hagain : reader (125+2) (Json.object others).toTree = .ok address ↔
      address.GivenIn again := reader_eq_ok_iff hnamed hwhole
  rw [ofMembers?_eq_some]
  exact hagain.trans ⟨fun hg => hg.again hread h, fun hg => hg.again h hread⟩

theorem GivenIn.congr {address : CellAddress} {object other : List (String × Tree)}
    (h : ∀ key ∈ keys, valuesOf key object = valuesOf key other) :
    address.GivenIn object ↔ address.GivenIn other := by
  have hstart := h "tableStartLocation" (by decide)
  have hrow := h "rowIndex" (by decide)
  have hcolumn := h "columnIndex" (by decide)
  constructor
  · rintro ⟨ht, hr, hc⟩
    exact ⟨hstart ▸ ht, by rwa [GivesWord, ← hrow], by rwa [GivesWord, ← hcolumn]⟩
  · rintro ⟨ht, hr, hc⟩
    exact ⟨hstart ▸ ht, by rwa [GivesWord, hrow], by rwa [GivesWord, hcolumn]⟩

end CellAddress

theorem valuesOf_filter {names : List String} {name : String} (h : name ∉ names)
    (object : List (String × Tree)) :
    valuesOf name (object.filter (·.1 ∉ names)) = valuesOf name object := by
  rw [valuesOf, valuesOf, List.filter_filter]
  refine congrArg _ (List.filter_congr fun entry _ => ?_)
  by_cases hname : entry.1 = name <;> simp [hname, h]

/-- The values of an object can be read with these brackets left to open, whatever stands under the
names that are set aside. -/
structure ReadableBeside (names : List String) (budget : Nat) (members : List (Quoted × Tree))
    (object : List (String × Tree)) : Prop where
  named : Named members object
  readable : ∀ entry ∈ object, entry.1 ∉ names → ∃ given, Reader.value budget entry.2 = .ok given

section
variable {names : List String} {budget : Nat} {members : List (Quoted × Tree)}
  {object : List (String × Tree)}

theorem readableBeside_iff (hm : Named members object) :
    ReadableBeside names budget members object ↔
      ∃ others, ValuesRead budget (object.filter (·.1 ∉ names)) others := by
  rw [exists_valuesRead]
  constructor
  · intro h entry he
    obtain ⟨hmem, hother⟩ := List.mem_filter.mp he
    exact h.readable entry hmem (by simpa using hother)
  · intro h
    refine ⟨hm, fun entry he hother => h entry ?_⟩
    exact List.mem_filter.mpr ⟨he, by simpa using hother⟩

/-- The cell that is found among other members is the one that the whole object names in full. -/
theorem CellAddress.ofMembers?_beside (hk : ∀ key ∈ keys, key ∉ names)
    {others : List (String × Json)}
    (h : ValuesRead budget (object.filter (·.1 ∉ names)) others) (address : CellAddress) :
    ofMembers? others = some address ↔ address.GivenIn object := by
  rw [ofMembers?_eq_some_iff h]
  exact GivenIn.congr fun key hkey => valuesOf_filter (hk key hkey) object

theorem ReadableBeside.exists_cell (h : ReadableBeside names budget members object)
    (hk : ∀ key ∈ CellAddress.keys, key ∉ names) :
    ∃ cell, ∀ address : CellAddress, cell = some address ↔ address.GivenIn object := by
  obtain ⟨others, hothers⟩ := (readableBeside_iff h.named).mp h
  exact ⟨_, CellAddress.ofMembers?_beside hk hothers⟩

end

namespace Reader
variable {budget n : Nat} {tree : Tree} {members : List (Quoted × Tree)}
  {object : List (String × Tree)}

/-- A position is read if its indices and its other members are, with the cell that is named in
full. -/
theorem openRecord_cell_iff {α : Type} {fields : Fields α} (hn : fields.names.Nodup)
    (hk : ∀ key ∈ CellAddress.keys, key ∉ fields.names) (hm : Named members object) {a : α}
    {cell : Option CellAddress} :
    (∃ others, openRecord fields (budget+1) (.object members none) = .ok (a, others) ∧
        CellAddress.ofMembers? others = cell) ↔
      fields.ReadFrom budget object a ∧ ReadableBeside fields.names budget members object ∧
        ∀ address, cell = some address ↔ address.GivenIn object := by
  simp only [openRecord_eq_ok_iff hn hm, Fields.othersOf_eq_ok, readableBeside_iff hm]
  constructor
  · rintro ⟨others, ⟨hfields, hothers⟩, rfl⟩
    exact ⟨hfields, ⟨others, hothers⟩, CellAddress.ofMembers?_beside hk hothers⟩
  · rintro ⟨hfields, ⟨others, hothers⟩, hgiven⟩
    refine ⟨others, ⟨hfields, hothers⟩, ?_⟩
    apply Option.ext
    intro address
    rw [CellAddress.ofMembers?_beside hk hothers, hgiven]

end Reader

section
variable {budget : Nat} {members : List (Quoted × Tree)} {object : List (String × Tree)}

theorem Location.reader_eq_ok_iff (hm : Named members object) {location : Location} :
    Location.reader (budget+1) (.object members none) = .ok location ↔
      GivesWord object "index" location.index ∧ ReadableBeside ["index"] budget members object ∧
        ∀ address, location.cell = some address ↔ address.GivenIn object := by
  let fields : Fields (Nat × Unit) := .cons (.required "index" .index) .nil
  have hread := @Reader.openRecord_cell_iff budget members object _ fields (by decide) (by decide)
    hm (location.index, ()) location.cell
  have hfields : fields.ReadFrom budget object (location.index, ()) ↔
      GivesWord object "index" location.index := by
    rw [← Reader.readFrom_index budget]
    exact iff_of_eq (and_true _)
  rw [hfields] at hread
  refine Iff.trans ?_ hread
  rw [Location.reader, Reader.map, Outcome.map_eq_ok]
  constructor
  · rintro ⟨⟨⟨index, ⟨⟩⟩, others⟩, hothers, rfl⟩
    exact ⟨others, hothers, rfl⟩
  · rintro ⟨others, hothers, hcell⟩
    exact ⟨_, hothers, Location.ext rfl hcell⟩

theorem Span.reader_eq_ok_iff (hm : Named members object) {span : Span} :
    Span.reader (budget+1) (.object members none) = .ok span ↔
      (GivesWord object "startIndex" span.start ∧ GivesWord object "endIndex" span.stop) ∧
        ReadableBeside ["startIndex", "endIndex"] budget members object ∧
        ∀ address, span.cell = some address ↔ address.GivenIn object := by
  let fields : Fields (Nat × Nat × Unit) :=
    .cons (.required "startIndex" .index) (.cons (.required "endIndex" .index) .nil)
  have hread := @Reader.openRecord_cell_iff budget members object _ fields (by decide) (by decide)
    hm (span.start, span.stop, ()) span.cell
  have hfields : fields.ReadFrom budget object (span.start, span.stop, ()) ↔
      GivesWord object "startIndex" span.start ∧ GivesWord object "endIndex" span.stop := by
    rw [← Reader.readFrom_index budget, ← Reader.readFrom_index budget]
    exact and_congr_right fun _ => iff_of_eq (and_true _)
  rw [hfields] at hread
  refine Iff.trans ?_ hread
  rw [Span.reader, Reader.map, Outcome.map_eq_ok]
  constructor
  · rintro ⟨⟨⟨start, stop, ⟨⟩⟩, others⟩, hothers, rfl⟩
    exact ⟨others, hothers, rfl⟩
  · rintro ⟨others, hothers, hcell⟩
    exact ⟨_, hothers, Span.ext rfl rfl hcell⟩

end

/-- The object of a location: it gives the index, and the cell of the location is the one that it
names in full. -/
inductive Location.GivenBy (location : Location) : Tree → Prop where
  | object {members : List (Quoted × Tree)} {object : List (String × Tree)}
      (named : Named members object) (index : GivesWord object "index" location.index)
      (cell : ∀ address, location.cell = some address ↔ address.GivenIn object) :
      GivenBy location (.object members none)

/-- The object of a span: it gives both indices, and the cell of the span is the one that it names
in full. -/
inductive Span.GivenBy (span : Span) : Tree → Prop where
  | object {members : List (Quoted × Tree)} {object : List (String × Tree)}
      (named : Named members object) (start : GivesWord object "startIndex" span.start)
      (stop : GivesWord object "endIndex" span.stop)
      (cell : ∀ address, span.cell = some address ↔ address.GivenIn object) :
      GivenBy span (.object members none)

theorem Location.givenBy_of_reader {budget : Nat} {tree : Tree} {location : Location}
    (h : Location.reader budget tree = .ok location) : location.GivenBy tree := by
  obtain ⟨_, hread, -⟩ := Outcome.map_eq_ok.mp h
  obtain ⟨b, members, object, rfl, rfl, hm⟩ := Reader.openRecord_named hread
  obtain ⟨hindex, -, hcell⟩ := (reader_eq_ok_iff hm).mp h
  exact .object hm hindex hcell

theorem Span.givenBy_of_reader {budget : Nat} {tree : Tree} {span : Span}
    (h : Span.reader budget tree = .ok span) : span.GivenBy tree := by
  obtain ⟨_, hread, -⟩ := Outcome.map_eq_ok.mp h
  obtain ⟨b, members, object, rfl, rfl, hm⟩ := Reader.openRecord_named hread
  obtain ⟨⟨hstart, hstop⟩, -, hcell⟩ := (reader_eq_ok_iff hm).mp h
  exact .object hm hstart hstop hcell

namespace Request
variable {budget : Nat} {tree : Tree}

/-- What a request carries holds its position, in the object of which index and cell stand. -/
def PlacedBy (payload : Tree) : Request → Prop
  | .insertText location _ | .insertInlineImage location _ =>
      ∃ tree, payload.Holds "location" 0 tree ∧ location.GivenBy tree
  | .insertTable _ _ location => ∃ tree, payload.Holds "location" 2 tree ∧ location.GivenBy tree
  | .updateTextStyle span _ _ | .updateParagraphStyle span _ _ =>
      ∃ tree, payload.Holds "range" 0 tree ∧ span.GivenBy tree

theorem held_insertion {name : String} (hn : name ≠ "location") {location : Location}
    {text : String}
    (h : Reader.record (.cons (.required "location" Location.reader)
      (.cons (.required name .string) .nil)) budget tree = .ok (location, text, ())) :
    ∃ inner, tree.Holds "location" 0 inner ∧ location.GivenBy inner := by
  have hnames : ["location", name].Nodup := by simpa using hn.symm
  obtain ⟨b, rfl, hlocation, -⟩ := Reader.record_heldBy (by exact hnames) h
  obtain ⟨inner, hheld, hread⟩ := Reader.required_eq_ok hlocation
  exact ⟨inner, hheld, Location.givenBy_of_reader hread⟩

theorem held_styling {name : String} (hn : name ∉ ["range", "fields"]) {span : Span} {style : Style}
    {fields : String}
    (h : Reader.record (.cons (.required "range" Span.reader)
      (.cons (.required name Style.reader) (.cons (.required "fields" .string) .nil)))
        budget tree = .ok (span, style, fields, ())) :
    ∃ inner, tree.Holds "range" 0 inner ∧ span.GivenBy inner := by
  have hnames : ["range", name, "fields"].Nodup := by simpa [eq_comm] using hn
  obtain ⟨b, rfl, hspan, -⟩ := Reader.record_heldBy (by exact hnames) h
  obtain ⟨inner, hheld, hread⟩ := Reader.required_eq_ok hspan
  exact ⟨inner, hheld, Span.givenBy_of_reader hread⟩

theorem held_insertTable {request : Request} (h : insertTableReader budget tree = .ok request) :
    request.kind = "insertTable" ∧ request.PlacedBy tree := by
  obtain ⟨⟨rows, columns, location, _⟩, hr, rfl⟩ := Outcome.map_eq_ok.mp h
  obtain ⟨b, rfl, -, -, hlocation, -⟩ := Reader.record_heldBy (by decide) hr
  obtain ⟨inner, hheld, hread⟩ := Reader.required_eq_ok hlocation
  exact ⟨rfl, inner, hheld, Location.givenBy_of_reader hread⟩

/-- A request is read from its kind and from what it carries, and that holds its position. -/
theorem placedBy_of_reader {request : Request} (h : Request.reader budget tree = .ok request) :
    ∃ key payload, tree = .object [(key, payload)] none ∧ key.read = .ok request.kind ∧
      request.PlacedBy payload := by
  obtain ⟨b, key, name, read, payload, rfl, rfl, hname, hm, h⟩ := reader_eq_ok h
  suffices hplaced : name = request.kind ∧ request.PlacedBy payload from
    ⟨key, payload, rfl, hplaced.1 ▸ hname, hplaced.2⟩
  simp only [payloadReaders, List.mem_cons, Prod.mk.injEq, List.not_mem_nil, or_false] at hm
  rcases hm with ⟨rfl, rfl⟩ | ⟨rfl, rfl⟩ | ⟨rfl, rfl⟩ | ⟨rfl, rfl⟩ | ⟨rfl, rfl⟩
  · obtain ⟨⟨location, text, _⟩, hr, rfl⟩ := Outcome.map_eq_ok.mp h
    exact ⟨rfl, held_insertion (by decide) hr⟩
  · obtain ⟨⟨span, style, fields, _⟩, hr, rfl⟩ := Outcome.map_eq_ok.mp h
    exact ⟨rfl, held_styling (by decide) hr⟩
  · obtain ⟨⟨location, uri, _⟩, hr, rfl⟩ := Outcome.map_eq_ok.mp h
    exact ⟨rfl, held_insertion (by decide) hr⟩
  · obtain ⟨hkind, hplaced⟩ := held_insertTable h
    exact ⟨hkind.symm, hplaced⟩
  · obtain ⟨⟨span, style, fields, _⟩, hr, rfl⟩ := Outcome.map_eq_ok.mp h
    exact ⟨rfl, held_styling (by decide) hr⟩

end Request

/-- Every position whose indices are given, among other members that can be read, is read with these
indices. It has a cell exactly if its object names one in full, so a request that is read never has
a cell that is named in part or in more than one place. -/
theorem positions_find_cells :
    (∀ {budget members object index}, ReadableBeside ["index"] budget members object →
      GivesWord object "index" index →
      ∃ cell, Location.reader (budget+1) (.object members none) = .ok ⟨index, cell⟩ ∧
        ∀ address, cell = some address ↔ address.GivenIn object) ∧
    (∀ {budget members object start stop},
      ReadableBeside ["startIndex", "endIndex"] budget members object →
      GivesWord object "startIndex" start → GivesWord object "endIndex" stop →
      ∃ cell, Span.reader (budget+1) (.object members none) = .ok ⟨start, stop, cell⟩ ∧
        ∀ address, cell = some address ↔ address.GivenIn object) ∧
    ∀ {budget tree request}, Request.reader budget tree = .ok request →
      ∃ key payload, tree = .object [(key, payload)] none ∧ key.read = .ok request.kind ∧
        request.PlacedBy payload := by
  refine ⟨?_, ?_, Request.placedBy_of_reader⟩
  · intro budget members object index hreadable hindex
    obtain ⟨cell, hcell⟩ := hreadable.exists_cell (by decide)
    have hread : Location.reader (budget+1) (.object members none) = .ok ⟨index, cell⟩ :=
      (Location.reader_eq_ok_iff hreadable.named).mpr ⟨hindex, hreadable, hcell⟩
    exact ⟨cell, hread, hcell⟩
  · intro budget members object start stop hreadable hstart hstop
    obtain ⟨cell, hcell⟩ := hreadable.exists_cell (by decide)
    have hread : Span.reader (budget+1) (.object members none) = .ok ⟨start, stop, cell⟩ :=
      (Span.reader_eq_ok_iff hreadable.named).mpr ⟨⟨hstart, hstop⟩, hreadable, hcell⟩
    exact ⟨cell, hread, hcell⟩

/-- A location with a cell that is named in full, a span with a row too many for one, and a request
at a location with a row and no more. -/
theorem positions_find_cells_rows :
    let start := membersOf [("of", .array [] none), ("index", .word 3)]
    let full := [("rowIndex", .word 0), ("index", .word 4),
      ("tableStartLocation", .object start none), ("columnIndex", .word 1)]
    let rows := [("startIndex", .word 1), ("rowIndex", .word 0), ("rowIndex", .word 0),
      ("tableStartLocation", .array [.word 3] none), ("columnIndex", .word 1),
      ("endIndex", .word 2)]
    let part := [("index", .word 1), ("rowIndex", .word 0)]
    let payload := membersOf [("location", .object (membersOf part) none),
      ("text", .string (.ofText "a"))]
    let tree : Tree := .object (membersOf [("insertText", .object payload none)]) none
    let request : Request := .insertText ⟨1, none⟩ "a"
    (ReadableBeside ["index"] 126 (membersOf full) full ∧ GivesWord full "index" 4 ∧
      Location.reader 127 (.object (membersOf full) none) = .ok ⟨4, some ⟨3, 0, 1⟩⟩) ∧
    (ReadableBeside ["startIndex", "endIndex"] 126 (membersOf rows) rows ∧
      GivesWord rows "startIndex" 1 ∧ GivesWord rows "endIndex" 2 ∧
      Span.reader 127 (.object (membersOf rows) none) = .ok ⟨1, 2, none⟩) ∧
    Request.reader 127 tree = .ok request ∧
      ∃ key payload, tree = .object [(key, payload)] none ∧ key.read = .ok request.kind ∧
        request.PlacedBy payload := by
  intro start full rows part payload tree request
  obtain ⟨hlocation, hspan, hrequest⟩ := positions_find_cells
  refine ⟨?_, ?_, ?_⟩
  · have hreadable : ReadableBeside ["index"] 126 (membersOf full) full := by
      refine ⟨named_membersOf full, ?_⟩
      simp only [full, List.forall_mem_cons]
      exact ⟨fun _ => ⟨_, rfl⟩, fun _ => ⟨_, rfl⟩, fun _ => ⟨_, rfl⟩, fun _ => ⟨_, rfl⟩,
        List.forall_mem_nil _⟩
    have hindex : GivesWord full "index" 4 := ⟨_, rfl, Tree.isWord_word (by decide)⟩
    have hgiven : CellAddress.GivenIn ⟨3, 0, 1⟩ full := by
      refine ⟨⟨_, rfl, .object (named_membersOf _) ?_⟩, ?_, ?_⟩
      · exact ⟨_, rfl, Tree.isWord_word (by decide)⟩
      · exact ⟨_, rfl, Tree.isWord_word (by decide)⟩
      · exact ⟨_, rfl, Tree.isWord_word (by decide)⟩
    obtain ⟨cell, hread, hcell⟩ := hlocation hreadable hindex
    rw [(hcell _).mpr hgiven] at hread
    exact ⟨hreadable, hindex, hread⟩
  · have hreadable : ReadableBeside ["startIndex", "endIndex"] 126 (membersOf rows) rows := by
      refine ⟨named_membersOf rows, ?_⟩
      simp only [rows, List.forall_mem_cons]
      exact ⟨fun _ => ⟨_, rfl⟩, fun _ => ⟨_, rfl⟩, fun _ => ⟨_, rfl⟩, fun _ => ⟨_, rfl⟩,
        fun _ => ⟨_, rfl⟩, fun _ => ⟨_, rfl⟩, List.forall_mem_nil _⟩
    have hstart : GivesWord rows "startIndex" 1 := ⟨_, rfl, Tree.isWord_word (by decide)⟩
    have hstop : GivesWord rows "endIndex" 2 := ⟨_, rfl, Tree.isWord_word (by decide)⟩
    obtain ⟨cell, hread, hcell⟩ := hspan hreadable hstart hstop
    have hnone : cell = none := by
      apply Option.eq_none_iff_forall_ne_some.mpr
      intro address haddress
      obtain ⟨tree, honly, -⟩ := ((hcell address).mp haddress).row
      cases honly
    rw [hnone] at hread
    exact ⟨hreadable, hstart, hstop, hread⟩
  · have hreadable : ReadableBeside ["index"] 124 (membersOf part) part := by
      refine ⟨named_membersOf part, ?_⟩
      simp only [part, List.forall_mem_cons]
      exact ⟨fun _ => ⟨_, rfl⟩, fun _ => ⟨_, rfl⟩, List.forall_mem_nil _⟩
    obtain ⟨cell, hplace, hcell⟩ := hlocation hreadable ⟨_, rfl, Tree.isWord_word (by decide)⟩
    have hnone : cell = none := by
      apply Option.eq_none_iff_forall_ne_some.mpr
      intro address haddress
      obtain ⟨tree, honly, -⟩ := ((hcell address).mp haddress).column
      cases honly
    rw [hnone] at hplace
    have hcarried : Request.insertTextReader 126 (.object payload none) = .ok request := by
      refine Outcome.map_eq_ok.mpr ⟨(⟨1, none⟩, "a", ()), ?_, rfl⟩
      refine (Reader.record_eq_ok_iff (by decide) (named_membersOf _)).mpr
        ⟨⟨hplace, Quoted.read_ofText "a", trivial⟩, ?_⟩
      simp [Fields.names, Field.required]
    have hread : Request.reader 127 tree = .ok request :=
      Reader.choice_object_eq_ok.mpr ⟨126, _, _, "insertText", _, rfl, rfl, rfl,
        Quoted.read_ofText _, rfl, hcarried⟩
    exact ⟨hread, hrequest hread⟩

end EditScript
