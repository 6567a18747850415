import EditScript.Proofs.Json.Derivation
import EditScript.Proofs.Kept
import Mathlib.Logic.Relation

namespace EditScript

/-- The places in the text of a document or of options where a value stands. -/
inductive Place where
  | leaf
  | list (item : Place)
  | dict (value : Place)
  | document
  | body
  | block
  | paragraph
  | inline
  | textRun
  | objectElement
  | table
  | row
  | cell
  | inlineObject
  | properties
  | embedded
  | image
  | options

namespace Place

def fields : Place → List (String × Place)
  | .leaf | .list _ | .dict _ => []
  | .document =>
      [("documentId", .leaf), ("title", .leaf), ("body", .body),
        ("inlineObjects", .dict .inlineObject)]
  | .body => [("content", .list .block)]
  | .block => [("paragraph", .paragraph), ("table", .table)]
  | .paragraph => [("elements", .list .inline), ("paragraphStyle", .leaf)]
  | .inline => [("textRun", .textRun), ("inlineObjectElement", .objectElement)]
  | .textRun => [("content", .leaf), ("textStyle", .leaf)]
  | .objectElement => [("inlineObjectId", .leaf)]
  | .table => [("rows", .leaf), ("columns", .leaf), ("tableRows", .list .row)]
  | .row => [("tableCells", .list .cell)]
  | .cell => [("content", .list .block)]
  | .inlineObject => [("objectId", .leaf), ("inlineObjectProperties", .properties)]
  | .properties => [("embeddedObject", .embedded)]
  | .embedded => [("title", .leaf), ("description", .leaf), ("imageProperties", .image)]
  | .image => [("contentUri", .leaf), ("sourceUri", .leaf)]
  | .options => [("startIndex", .leaf), ("lengthUnit", .leaf), ("paragraphStyles", .leaf)]

def names (place : Place) : List String := place.fields.map (·.1)

theorem nodup_names (place : Place) : place.names.Nodup := by
  cases place with
  | leaf | list _ | dict _ => exact List.nodup_nil
  | _ => decide

def isElement : Place → Bool
  | .block | .inline => true
  | _ => false

def isRecord : Place → Bool
  | .leaf | .list _ | .dict _ | .block | .inline => false
  | _ => true

end Place

open Grammar

/-- One member that is not known is inserted at a place, with brackets left to open there. -/
inductive Widen : Place → Nat → Tree → Tree → Prop where
  /-- A record skips it: the value is any JSON. -/
  | skipped {place : Place} (record : place.isRecord) {budget : Nat}
      (before after : List (Quoted × Tree)) {key : Quoted} {name : String}
      (hk : key.read = .ok name) (hn : name ∉ place.names) {value : Tree} {text : List Char}
      (hv : Derives (.value value) text) :
      Widen place budget (.object (before ++ after) none)
        (.object (before ++ (key, value) :: after) none)
  /-- An element of a known kind keeps it: the value is one that can be read in full. -/
  | kept {place : Place} (element : place.isElement) {budget : Nat}
      (before after : List (Quoted × Tree)) {member : Quoted × Tree} {kind : String}
      (hm : member ∈ before ++ after) (hkind : member.1.read = .ok kind) (hplace : kind ∈ place.names)
      (hnull : member.2 ≠ .null) {key : Quoted} {name : String}
      (hk : key.read = .ok name) (hn : name ∉ place.names) {value : Tree} {json : Json}
      (hv : Reader.value budget value = .ok json) :
      Widen place (budget+1) (.object (before ++ after) none)
        (.object (before ++ (key, value) :: after) none)
  | field {place inner : Place} {budget : Nat} (before after : List (Quoted × Tree)) {key : Quoted}
      {name : String} (hk : key.read = .ok name) (hf : (name, inner) ∈ place.fields)
      {value other : Tree} (widen : Widen inner budget value other) :
      Widen place (budget+1) (.object (before ++ (key, value) :: after) none)
        (.object (before ++ (key, other) :: after) none)
  /-- A record may also be written as an array. -/
  | position {place inner : Place} {budget : Nat} (before after : List Tree) {name : String}
      (hf : place.fields[before.length]? = some (name, inner)) {item other : Tree}
      (widen : Widen inner budget item other) :
      Widen place (budget+1) (.array (before ++ item :: after) none)
        (.array (before ++ other :: after) none)
  | item {inner : Place} {budget : Nat} (before after : List Tree) {item other : Tree}
      (widen : Widen inner budget item other) :
      Widen (.list inner) (budget+1) (.array (before ++ item :: after) none)
        (.array (before ++ other :: after) none)
  | entry {inner : Place} {budget : Nat} (before after : List (Quoted × Tree)) (key : Quoted)
      {value other : Tree} (widen : Widen inner budget value other) :
      Widen (.dict inner) (budget+1) (.object (before ++ (key, value) :: after) none)
        (.object (before ++ (key, other) :: after) none)

/-- Any number of members that are not known are inserted. -/
abbrev Widened (place : Place) (budget : Nat) : Tree → Tree → Prop :=
  Relation.ReflTransGen (Widen place budget)

theorem Widen.ne_null {place : Place} {budget : Nat} {tree other : Tree}
    (h : Widen place budget tree other) : tree ≠ .null ∧ other ≠ .null := by
  cases h <;> exact ⟨Tree.noConfusion, Tree.noConfusion⟩

theorem Fields.names_eq_map {α : Type} (fields : Fields α) :
    fields.names = fields.toList.map fun field => field.2.name := by
  induction fields with
  | nil => rfl
  | cons field fields ih => rw [names, toList, List.map_cons, ih]

namespace Reader
variable {α β γ : Type} {place inner : Place} {read : Reader α}

/-- What is read at a place is not changed by members that are not known there. -/
def Keeps (place : Place) (read : Reader α) : Prop :=
  ∀ budget tree other, Widen place budget tree other → Kept read budget tree other

theorem keeps_leaf (read : Reader α) : Keeps .leaf read := by
  intro budget tree other h
  cases h with
  | skipped record => cases record
  | kept element => cases element
  | field before after hk hf => cases hf
  | position before after hf => cases hf

theorem Keeps.map (f : α → β) (h : Keeps place read) : Keeps place (.map f read) :=
  fun budget tree other hw => (h budget tree other hw).map f

theorem Keeps.optional (h : Keeps place read) : Keeps place (.optional read) := by
  intro budget tree other hw
  obtain ⟨ht, ho⟩ := hw.ne_null
  exact (h budget tree other hw).optional ⟨fun hn => absurd hn ht, fun hn => absurd hn ho⟩

theorem Keeps.list (h : Keeps inner read) : Keeps (.list inner) (.list read) := by
  intro budget tree other hw
  cases hw with
  | skipped record => cases record
  | kept element => cases element
  | field before after hk hf => cases hf
  | position before after hf => cases hf
  | item before after widen =>
    refine kept_list fun b hb => ?_
    cases hb
    exact h _ _ _ widen

theorem Keeps.dict (h : Keeps inner read) : Keeps (.dict inner) (.dict read) := by
  intro budget tree other hw
  cases hw with
  | skipped record => cases record
  | kept element => cases element
  | field before after hk hf => cases hf
  | position before after hf => cases hf
  | entry before after key widen =>
    refine kept_dict fun b hb => ?_
    cases hb
    exact h _ _ _ widen

theorem Keeps.diagonal (read : Nat → Reader α) (h : ∀ depth, Keeps place (read depth)) :
    Keeps place (fun budget => read budget budget) :=
  fun budget tree other hw a ha => h budget budget tree other hw a ha

/-- The fields of a record are these, and none is changed where its value stands. -/
def FieldsKeep : List (String × Place) → {α : Type} → Fields α → Prop
  | [], _, .nil => True
  | entry :: entries, _, .cons field fields =>
      field.name = entry.1 ∧ Keeps entry.2 field.read ∧ FieldsKeep entries fields
  | _, _, _ => False

theorem FieldsKeep.names {entries : List (String × Place)} {fields : Fields α}
    (h : FieldsKeep entries fields) : entries.map (·.1) = fields.names := by
  induction fields generalizing entries with
  | nil =>
    cases entries with
    | nil => rfl
    | cons entry entries => exact absurd h id
  | cons field fields ih =>
    cases entries with
    | nil => exact absurd h id
    | cons entry entries =>
      obtain ⟨hname, -, hs⟩ := h
      rw [Fields.names, List.map_cons, ih hs, hname]

theorem FieldsKeep.position {entries : List (String × Place)} {fields : Fields α}
    (h : FieldsKeep entries fields) {i : Nat} {name : String}
    (he : entries[i]? = some (name, inner)) {field : Σ γ : Type, Field γ}
    (hf : fields.toList[i]? = some field) : Keeps inner field.2.read := by
  induction fields generalizing entries i with
  | nil => cases hf
  | cons first fields ih =>
    cases entries with
    | nil => cases he
    | cons entry entries =>
      obtain ⟨-, hk, hs⟩ := h
      cases i with
      | zero =>
        cases he
        cases hf
        exact hk
      | succ i => exact ih hs he hf

theorem FieldsKeep.field {entries : List (String × Place)} {fields : Fields α}
    (h : FieldsKeep entries fields) (hn : (entries.map (·.1)).Nodup)
    {field : Σ γ : Type, Field γ} (hf : field ∈ fields.toList)
    (he : (field.2.name, inner) ∈ entries) : Keeps inner field.2.read := by
  have hnames := h.names
  obtain ⟨i, hi⟩ := List.mem_iff_getElem?.mp hf
  obtain ⟨j, hj⟩ := List.mem_iff_getElem?.mp he
  have hat : fields.names[i]? = some field.2.name := by
    rw [Fields.names_eq_map, List.getElem?_map, hi]
    rfl
  have hplace : fields.names[j]? = some field.2.name := by
    rw [← hnames, List.getElem?_map, hj]
    rfl
  rw [hnames] at hn
  have hij : i = j := by
    have hlt := (List.getElem?_eq_some_iff.mp hat).1
    exact (List.getElem?_inj hlt hn).mp (hat.trans hplace.symm)
  exact h.position (hij ▸ hj) hi

theorem kept_record_insert {fields : Fields α} {budget : Nat} {before after : List (Quoted × Tree)}
    {key : Quoted} {name : String} {value : Tree} {fault : Option Fault}
    (hk : key.read = .ok name) (hn : name ∉ fields.names) (hv : value.fault? = none) :
    Kept (.record fields) budget (.object (before ++ after) fault)
      (.object (before ++ (key, value) :: after) fault) := by
  refine @kept_record_middle _ _ _ _ before [] [(key, value)] after ?_
  intro b hb slots next h
  cases h
  rw [Outcome.foldlM_singleton]
  exact Fields.skipMember_eq_ok.mpr ⟨name, hk, .inr ⟨hn, hv, rfl⟩⟩

/-- A record of these fields keeps what its fields keep. -/
theorem Keeps.record {fields : Fields α} (record : place.isRecord)
    (h : FieldsKeep place.fields fields) : Keeps place (.record fields) := by
  intro budget tree other hw
  have hnames : place.names = fields.names := h.names
  cases hw with
  | skipped _ before after hk hn hv => exact kept_record_insert hk (hnames ▸ hn) hv.whole
  | kept element => cases place <;> contradiction
  | field before after hk hf widen =>
    refine kept_record_member (fun b hb name hname field hfield heq => ?_) ?_
    · cases hb
      rw [hk] at hname
      cases hname
      subst heq
      exact h.field place.nodup_names hfield hf _ _ _ widen
    · intro name hname hmem
      rw [hk] at hname
      cases hname
      have hin : _ ∈ place.names := List.mem_map.mpr ⟨_, hf, rfl⟩
      exact absurd (hnames ▸ hin) hmem
  | position before after hf widen =>
    refine kept_record_item fun b hb field hfield => ?_
    cases hb
    exact h.position hf hfield _ _ _ widen
  | item => cases record
  | entry => cases record

section
variable {first second : String} {readFirst : Reader α} {readSecond : Reader β} {budget : Nat}

abbrev elementFields (first : String) (readFirst : Reader α) (second : String)
    (readSecond : Reader β) : Fields (Option α × Option β × Unit) :=
  .cons (.optional first readFirst) (.cons (.optional second readSecond) .nil)

/-- One of the two kinds is given. -/
def KindKnown (slots : (elementFields first readFirst second readSecond).Slots) : Prop :=
  (∃ a, slots.1 = some (some a)) ∨ ∃ b, slots.2.1 = some (some b)

theorem optional_ne_none {read : Reader α} {tree : Tree} (hn : tree ≠ .null) {a : Option α}
    (h : optional read budget tree = .ok a) : ∃ b, a = some b := by
  rw [optional_of_ne_null hn] at h
  obtain ⟨b, -, rfl⟩ := Outcome.map_eq_ok.mp h
  exact ⟨b, rfl⟩

theorem fills_element {name : String} {tree : Tree}
    {slots filled : (elementFields first readFirst second readSecond).Slots}
    (h : Fields.Fills budget name tree (elementFields first readFirst second readSecond) slots
      filled) :
    (slots.1 = none ∧ ∃ a, optional readFirst budget tree = .ok a ∧ filled = (some a, slots.2)) ∨
      slots.2.1 = none ∧
        ∃ b, optional readSecond budget tree = .ok b ∧ filled = (slots.1, some b, ()) := by
  rcases Fields.fills_cons.mp h with ⟨-, hempty, a, ha, hfilled⟩ | ⟨-, hslot, hrest⟩
  · exact .inl ⟨hempty, a, ha, hfilled⟩
  · rcases Fields.fills_cons.mp hrest with ⟨-, hempty, b, hb, hfilled⟩ | ⟨-, -, read, hread, -⟩
    · exact .inr ⟨hempty, b, hb, Prod.ext hslot hfilled⟩
    · cases hread

/-- A kind stays known, and a field that is no null makes one known. -/
theorem fills_kindKnown {name : String} {tree : Tree}
    {slots filled : (elementFields first readFirst second readSecond).Slots}
    (h : Fields.Fills budget name tree (elementFields first readFirst second readSecond) slots
      filled) (hk : KindKnown slots ∨ tree ≠ .null) : KindKnown filled := by
  rcases fills_element h with ⟨hempty, a, ha, rfl⟩ | ⟨hempty, b, hb, rfl⟩
  · rcases hk with (⟨a', ha'⟩ | hsecond) | hn
    · rw [hempty] at ha'
      cases ha'
    · exact .inr hsecond
    · obtain ⟨a', rfl⟩ := optional_ne_none hn ha
      exact .inl ⟨a', rfl⟩
  · rcases hk with (hfirst | ⟨b', hb'⟩) | hn
    · exact .inl hfirst
    · rw [hempty] at hb'
      cases hb'
    · obtain ⟨b', rfl⟩ := optional_ne_none hn hb
      exact .inr ⟨b', rfl⟩

/-- A member that gives one of the two kinds, and not as null. -/
def GivesKind (first second : String) (member : Quoted × Tree) : Prop :=
  (member.1.read = .ok first ∨ member.1.read = .ok second) ∧ member.2 ≠ .null

theorem keepMembers_kindKnown {members : List (Quoted × Tree)}
    {state last : (elementFields first readFirst second readSecond).Slots × List (String × Json)}
    (h : members.foldlM
      ((elementFields first readFirst second readSecond).keepMember budget) state = .ok last)
    (hk : KindKnown state.1 ∨ ∃ member ∈ members, GivesKind first second member) :
    KindKnown last.1 := by
  induction members generalizing state with
  | nil =>
    cases h
    rcases hk with hk | ⟨_, hm, -⟩
    · exact hk
    · exact absurd hm List.not_mem_nil
  | cons member members ih =>
    obtain ⟨slots, others⟩ := state
    rw [List.foldlM_cons] at h
    obtain ⟨⟨filled, kept⟩, hnext, hrest⟩ := Outcome.bind_eq_ok.mp h
    refine ih hrest ?_
    obtain ⟨name, hname, hm⟩ := Fields.keepMember_eq_ok.mp hnext
    rcases hk with hk | ⟨other, hother, hgives⟩
    · left
      rcases hm with ⟨hfill, -⟩ | ⟨-, hslots, -⟩
      · exact fills_kindKnown hfill (.inl hk)
      · rw [hslots]
        exact hk
    · rcases List.mem_cons.mp hother with rfl | hother
      · left
        obtain ⟨hkey, hn⟩ := hgives
        rcases hm with ⟨hfill, -⟩ | ⟨hmem, -⟩
        · exact fills_kindKnown hfill (.inr hn)
        · rw [hname, Except.ok.injEq, Except.ok.injEq] at hkey
          simp only [Fields.names, Field.optional, List.mem_cons, List.not_mem_nil, or_false] at hmem
          exact absurd hkey hmem
      · exact .inr ⟨other, hother, hgives⟩

theorem openRecord_insert {fields : Fields α} {before after : List (Quoted × Tree)} {key : Quoted}
    {name : String} {tree : Tree} {json : Json} (hk : key.read = .ok name)
    (hn : name ∉ fields.names) (hv : value budget tree = .ok json) {a : α}
    {kept : List (String × Json)} {fault : Option Fault}
    (h : openRecord fields (budget+1) (.object (before ++ after) fault) = .ok (a, kept)) :
    ∃ more, openRecord fields (budget+1) (.object (before ++ (key, tree) :: after) fault) =
      .ok (a, more) := by
  have hmiddle (b : Nat) (hb : budget+1 = b+1) (slots : Fields.Slots fields)
      (entries : List (String × Json)) (filled : Fields.Slots fields) (last : List (String × Json))
      (h : [].foldlM (fields.keepMember b) (slots, entries) = .ok (filled, last)) :
      ∃ more, [(key, tree)].foldlM (fields.keepMember b) (slots, entries) = .ok (filled, more) ∧
        True := by
    cases hb
    cases h
    rw [Outcome.foldlM_singleton]
    exact ⟨(name, json) :: entries,
      Fields.keepMember_eq_ok.mpr ⟨name, hk, .inr ⟨hn, rfl, json, hv, rfl⟩⟩, trivial⟩
  obtain ⟨more, hmore, -⟩ :=
    @openRecord_middle _ _ _ _ (fun _ _ => True) before [] [(key, tree)] after (fun _ => trivial)
      hmiddle _ _ h
  exact ⟨more, hmore⟩

theorem openRecord_field {fields : Fields α} {before after : List (Quoted × Tree)} {key : Quoted}
    {name : String} {tree other : Tree} (hk : key.read = .ok name) (hn : name ∈ fields.names)
    (hkept : ∀ field ∈ fields.toList, field.2.name = name → Kept field.2.read budget tree other)
    {fault : Option Fault} :
    Kept (.openRecord fields) (budget+1) (.object (before ++ (key, tree) :: after) fault)
      (.object (before ++ (key, other) :: after) fault) := by
  rintro ⟨a, kept⟩ h
  have hsame {given : String} (hg : key.read = .ok given) : given = name :=
    Except.ok.inj (hg.symm.trans hk)
  obtain ⟨more, hmore, hr⟩ := @openRecord_member _ fields (budget+1) tree other fault Eq before after
    key (fun _ => rfl) (fun hr => congrArg _ hr)
    (fun b hb given hg field hfield heq => by
      cases hb
      exact hkept field hfield (heq.trans (hsame hg)))
    (fun _ _ given hg hmem => absurd (hsame hg ▸ hn) hmem) a kept h
  rw [List.reverse_inj.mp hr]
  exact hmore

theorem openRecord_kindKnown {members : List (Quoted × Tree)} {fault : Option Fault}
    {a : Option α} {b : Option β} {kept : List (String × Json)}
    (hg : ∃ member ∈ members, GivesKind first second member)
    (h : openRecord (elementFields first readFirst second readSecond) budget
      (.object members fault) = .ok ((a, b, ()), kept)) :
    (∃ x, a = some x) ∨ ∃ y, b = some y := by
  obtain ⟨b', rfl, h⟩ := enter_eq_ok h
  obtain ⟨⟨slots, entries⟩, hentries, h⟩ := Outcome.bind_eq_ok.mp h
  obtain ⟨_, -, h⟩ := Outcome.bind_eq_ok.mp h
  obtain ⟨a', hfinish, h⟩ := Outcome.bind_eq_ok.mp h
  cases h
  have hknown := keepMembers_kindKnown hentries (.inr hg)
  obtain ⟨slot, other, ⟨⟩⟩ := slots
  rcases hknown with ⟨x, rfl⟩ | ⟨y, rfl⟩
  · cases other with
    | none | some v =>
      cases hfinish
      exact .inl ⟨x, rfl⟩
  · cases slot with
    | none | some v =>
      cases hfinish
      exact .inr ⟨y, rfl⟩

end

/-- An element of a known kind keeps what the readers of its kinds keep. -/
theorem Keeps.element {first second : String} {firstPlace secondPlace : Place}
    {readFirst : Reader α} {readSecond : Reader β} (element : place.isElement)
    (hp : place.fields = [(first, firstPlace), (second, secondPlace)])
    (hf : Keeps firstPlace readFirst) (hs : Keeps secondPlace readSecond)
    (ofFirst : α → γ) (ofSecond : β → γ) (unknown : String → γ) :
    Keeps place (Element.reader first readFirst second readSecond ofFirst ofSecond unknown) := by
  have hfields : FieldsKeep place.fields (elementFields first readFirst second readSecond) := by
    rw [hp]
    exact ⟨rfl, hf.optional, rfl, hs.optional, trivial⟩
  have hnames : place.names = (elementFields first readFirst second readSecond).names :=
    hfields.names
  intro budget tree other hw
  cases hw with
  | skipped record => cases place <;> contradiction
  | kept _ before after hm hkind hplace hnull hk hn hv =>
    intro c hc
    obtain ⟨⟨⟨a, b, ⟨⟩⟩, kept⟩, ha, rfl⟩ := Outcome.map_eq_ok.mp hc
    obtain ⟨more, hmore⟩ := openRecord_insert hk (hnames ▸ hn) hv ha
    refine Outcome.map_eq_ok.mpr ⟨_, hmore, ?_⟩
    have hg : ∃ member ∈ before ++ after, GivesKind first second member := by
      refine ⟨_, hm, ?_, hnull⟩
      have hmem := hplace
      simp only [Place.names, hp, List.map_cons, List.map_nil, List.mem_cons, List.not_mem_nil,
        or_false] at hmem
      rcases hmem with rfl | rfl
      · exact .inl hkind
      · exact .inr hkind
    rcases openRecord_kindKnown hg ha with ⟨x, rfl⟩ | ⟨y, rfl⟩
    · rfl
    · cases a <;> rfl
  | field before after hk hin widen =>
    refine .map _ (openRecord_field hk ?_ fun field hfield heq => ?_)
    · exact hnames ▸ List.mem_map.mpr ⟨_, hin, rfl⟩
    · subst heq
      exact hfields.field place.nodup_names hfield hin _ _ _ widen
  | position before after hin widen => exact .map _ fun _ ha => nomatch ha
  | item => cases element
  | entry => cases element

end Reader

open Reader

theorem TextRun.reader_keeps : Keeps .textRun TextRun.reader :=
  .map _ (.record rfl ⟨rfl, keeps_leaf _, rfl, keeps_leaf _, trivial⟩)

theorem Inline.reader_keeps : Keeps .inline Inline.reader := by
  have hobject : Keeps .objectElement Inline.objectReader :=
    .map _ (.record rfl ⟨rfl, keeps_leaf _, trivial⟩)
  exact .element rfl rfl TextRun.reader_keeps hobject _ _ _

theorem Paragraph.reader_keeps : Keeps .paragraph Paragraph.reader :=
  .map _ (.record rfl ⟨rfl, Inline.reader_keeps.list, rfl, keeps_leaf _, trivial⟩)

theorem Table.reader_keeps {read : Reader Block} (h : Keeps .block read) :
    Keeps .table (Table.reader read) := by
  have hcell : Keeps .cell (cellReader read) := .map _ (.record rfl ⟨rfl, h.list, trivial⟩)
  have hrow : Keeps .row (rowReader read) := .map _ (.record rfl ⟨rfl, hcell.list, trivial⟩)
  exact .map _ (.record rfl
    ⟨rfl, keeps_leaf _, rfl, keeps_leaf _, rfl, hrow.list, trivial⟩)

namespace Block

theorem readerWithin_keeps (depth : Nat) : Keeps .block (readerWithin depth) := by
  induction depth with
  | zero => exact fun _ _ _ _ _ h => nomatch h
  | succ depth ih => exact .element rfl rfl Paragraph.reader_keeps (Table.reader_keeps ih) _ _ _

theorem reader_keeps : Keeps .block Block.reader :=
  .diagonal (fun depth => readerWithin (depth+1)) fun depth => readerWithin_keeps (depth+1)

end Block

theorem InlineObject.reader_keeps : Keeps .inlineObject InlineObject.reader := by
  have himage : Keeps .image Image.reader :=
    .map _ (.record rfl ⟨rfl, keeps_leaf _, rfl, keeps_leaf _, trivial⟩)
  have hembedded : Keeps .embedded Embedded.reader :=
    .map _ (.record rfl
      ⟨rfl, keeps_leaf _, rfl, keeps_leaf _, rfl, himage.optional, trivial⟩)
  have hproperties : Keeps .properties propertiesReader :=
    .map _ (.record rfl ⟨rfl, hembedded, trivial⟩)
  exact .map _ (.record rfl ⟨rfl, keeps_leaf _, rfl, hproperties, trivial⟩)

theorem Document.reader_keeps : Keeps .document Document.reader := by
  have hbody : Keeps .body bodyReader :=
    .map _ (.record rfl ⟨rfl, Block.reader_keeps.list, trivial⟩)
  exact .map _ (.record rfl
    ⟨rfl, keeps_leaf _, rfl, keeps_leaf _, rfl, hbody, rfl, InlineObject.reader_keeps.dict, trivial⟩)

theorem Options.reader_keeps : Keeps .options Options.reader :=
  .map _ (.record rfl ⟨rfl, keeps_leaf _, rfl, keeps_leaf _, rfl, keeps_leaf _, trivial⟩)

theorem Reader.Keeps.widened {α : Type} {place : Place} {read : Reader α} (h : Keeps place read)
    {budget : Nat} {tree other : Tree} (hw : Widened place budget tree other) :
    Kept read budget tree other := by
  induction hw with
  | refl => exact .refl _ _ _
  | tail _ hw ih => exact ih.trans (h _ _ _ hw)

/-- Any text that is read is grammatical, and stays readable as the same value with members that
are not known. -/
theorem Scan.read_widened {α : Type} {place : Place} {read : Reader α} (h : Keeps place read)
    {text : String} {a : α} (ha : (Scan.ofText text).read read = .ok a) :
    ∃ tree, Grammatical text tree ∧ ∀ more widened, Widened place depthLimit tree widened →
      Grammatical more widened → (Scan.ofText more).read read = .ok a := by
  obtain ⟨tree, ht, hread⟩ := Scan.read_ofText_eq_ok.mp ha
  refine ⟨tree, ht, fun more widened hw hm => ?_⟩
  exact Scan.read_ofText_eq_ok.mpr ⟨widened, hm, h.widened hw a hread⟩

/-- Members that are not known are ignored in documents and in options, wherever they are inserted:
in a record, whatever their values are; in an element of a known kind, if their values can be
read. -/
theorem unknown_members_ignored :
    (∀ text document, Document.ofText text = .ok document →
      ∃ tree, Grammatical text tree ∧ ∀ more widened,
        Widened .document Scan.depthLimit tree widened → Grammatical more widened →
          Document.ofText more = .ok document) ∧
      ∀ text options, Options.ofText text = .ok options →
        ∃ tree, Grammatical text tree ∧ ∀ more widened,
          Widened .options Scan.depthLimit tree widened → Grammatical more widened →
            Options.ofText more = .ok options := by
  simp only [Document.ofText, Document.ofScan, Options.ofText, Outcome.mapError_eq_ok]
  exact ⟨fun _ _ h => Scan.read_widened Document.reader_keeps h,
    fun _ _ h => Scan.read_widened Options.reader_keeps h⟩

/-- A document with one empty paragraph, with a member that it skips and with one that the element
around the paragraph keeps; and options with a member of another name. -/
theorem unknown_members_ignored_paragraph :
    Document.ofText
        "\x7b\"body\":\x7b\"content\":[\x7b\"paragraph\":\x7b\x7d\x7d]\x7d\x7d" =
        .ok (.ofContent [.paragraph ⟨[], .empty⟩]) ∧
      Document.ofText ("\x7b\"tags\":[\x7b\x7d], \"body\":" ++
          "\x7b\"content\":[\x7b\"paragraph\":\x7b\x7d,\"endIndex\":[]\x7d]\x7d\x7d") =
        .ok (.ofContent [.paragraph ⟨[], .empty⟩]) ∧
      Options.ofText "\x7b\x7d" = .ok .defaults ∧
      Options.ofText "\x7b\"unit\":[\x7b\x7d]\x7d" = .ok .defaults := by
  let tags : Tree := .array [.object [] none] none
  have htags : Derives (.value tags) ['[', '\x7b', '\x7d', ']'] :=
    .array (.firstItem (.element blank_nil (.emptyObject blank_nil) blank_nil))
  let paragraph : Quoted × Tree := (.ofText "paragraph", .object [] none)
  let endIndex : Quoted × Tree := (.ofText "endIndex", .array [] none)
  let body (element : List (Quoted × Tree)) : Quoted × Tree :=
    (.ofText "body",
      .object [(.ofText "content", .array [.object element none] none)] none)
  have hbody : Grammatical
      "\x7b\"body\":\x7b\"content\":[\x7b\"paragraph\":\x7b\x7d\x7d]\x7d\x7d"
      (.object [body [paragraph]] none) := Scan.ofText_eq_iff.mp rfl
  have hdocument : Document.ofText
      "\x7b\"body\":\x7b\"content\":[\x7b\"paragraph\":\x7b\x7d\x7d]\x7d\x7d" =
      .ok (.ofContent [.paragraph ⟨[], .empty⟩]) := by
    rw [Document.ofText, Document.ofScan, Scan.read_grammatical hbody]
    rfl
  have hoptions : Options.ofText "\x7b\x7d" = .ok .defaults := rfl
  refine ⟨hdocument, ?_, hoptions, ?_⟩
  · obtain ⟨tree, ht, hmore⟩ := unknown_members_ignored.1 _ _ hdocument
    obtain rfl : tree = .object [body [paragraph]] none := ht.unique hbody
    have hkept : Widen .block 124 (.object [paragraph] none)
        (.object [paragraph, endIndex] none) :=
      .kept rfl [paragraph] [] List.mem_cons_self (Quoted.read_ofText _) (by decide)
        Tree.noConfusion (Quoted.read_ofText _) (by decide) rfl
    have hskipped : Widen .document Scan.depthLimit (.object [body [paragraph, endIndex]] none)
        (.object [(.ofText "tags", tags), body [paragraph, endIndex]] none) :=
      .skipped rfl [] [_] (Quoted.read_ofText _) (by decide) htags
    have hbodyField : ("body", .body) ∈ Place.document.fields := by simp [Place.fields]
    have hfield : Widen .document Scan.depthLimit (.object [body [paragraph]] none)
        (.object [body [paragraph, endIndex]] none) :=
      .field [] [] (Quoted.read_ofText _) hbodyField
        (.field [] [] (Quoted.read_ofText _) List.mem_cons_self (.item [] [] hkept))
    exact hmore _ _ ((Relation.ReflTransGen.single hfield).tail hskipped)
      (Scan.ofText_eq_iff.mp rfl)
  · obtain ⟨tree, ht, hmore⟩ := unknown_members_ignored.2 _ _ hoptions
    obtain rfl : tree = .object [] none := ht.unique (Scan.ofText_eq_iff.mp rfl)
    have hskipped : Widen .options Scan.depthLimit (.object [] none)
        (.object [(.ofText "unit", tags)] none) :=
      .skipped rfl [] [] (Quoted.read_ofText _) (by decide) htags
    exact hmore _ _ (.single hskipped) (Scan.ofText_eq_iff.mp rfl)

end EditScript
