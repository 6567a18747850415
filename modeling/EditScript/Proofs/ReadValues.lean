import EditScript.Proofs.OpenRecords

namespace EditScript

namespace Outcome
variable {ε α β : Type}

theorem mapM_eq_ok_iff {f : α → Except ε β} {as : List α} {bs : List β} :
    as.mapM f = .ok bs ↔ List.Forall₂ (fun a b => f a = .ok b) as bs := by
  induction as generalizing bs with
  | nil => simp [eq_comm]
  | cons a as ih =>
    rw [List.mapM_cons, bind_eq_ok]
    constructor
    · rintro ⟨b, hb, h⟩
      obtain ⟨rest, hrest, h⟩ := bind_eq_ok.mp h
      cases h
      exact .cons hb (ih.mp hrest)
    · intro h
      cases h with
      | cons hb hrest =>
        refine ⟨_, hb, ?_⟩
        rw [ih.mpr hrest]
        rfl

theorem foldlM_mem {f : β → α → Except ε β} {as : List α} {b c : β} (h : as.foldlM f b = .ok c) :
    ∀ a ∈ as, ∃ before after, f before a = .ok after := by
  induction as generalizing b with
  | nil => exact List.forall_mem_nil _
  | cons a as ih =>
    rw [List.foldlM_cons] at h
    obtain ⟨next, hnext, h⟩ := bind_eq_ok.mp h
    exact List.forall_mem_cons.mpr ⟨⟨b, next, hnext⟩, ih h⟩

end Outcome

theorem exists_named {members : List (Quoted × Tree)}
    (h : ∀ member ∈ members, ∃ name, member.1.read = .ok name) :
    ∃ object, Named members object := by
  induction members with
  | nil => exact ⟨[], .nil⟩
  | cons member members ih =>
    obtain ⟨⟨name, hname⟩, hmembers⟩ := List.forall_mem_cons.mp h
    obtain ⟨object, hm⟩ := ih hmembers
    exact ⟨(name, member.2) :: object, .cons ⟨hname, rfl⟩ hm⟩

/-- Keys that can be read mean one text each. -/
theorem Named.unique {members : List (Quoted × Tree)} {object other : List (String × Tree)}
    (h : Named members object) (ho : Named members other) : object = other := by
  induction h generalizing other with
  | nil =>
    cases ho
    rfl
  | cons hentry h ih =>
    cases ho with
    | cons hother ho =>
      have hname := Except.ok.inj (hentry.1.symm.trans hother.1)
      have htree := hentry.2.symm.trans hother.2
      rw [Prod.ext hname htree, ih ho]

theorem Named.whole {members : List (Quoted × Tree)} {object : List (String × Tree)}
    (h : Named members object) (hf : Tree.membersFault? members = none) :
    ∀ entry ∈ object, entry.2.fault? = none := by
  have hwhole := Tree.membersFault?_eq_none.mp hf
  clear hf
  induction h with
  | nil => exact List.forall_mem_nil _
  | cons hentry h ih =>
    obtain ⟨hmember, hmembers⟩ := List.forall_mem_cons.mp hwhole
    exact List.forall_mem_cons.mpr ⟨hentry.2 ▸ hmember.2, ih hmembers⟩

/-- The values of an object as they are read, each under its name. -/
def ValuesRead (budget : Nat) (object : List (String × Tree)) (values : List (String × Json)) :
    Prop :=
  List.Forall₂ (fun entry value =>
    value.1 = entry.1 ∧ Reader.value budget entry.2 = .ok value.2) object values

theorem exists_valuesRead {budget : Nat} {object : List (String × Tree)} :
    (∃ values, ValuesRead budget object values) ↔
      ∀ entry ∈ object, ∃ given, Reader.value budget entry.2 = .ok given := by
  induction object with
  | nil => exact iff_of_true ⟨[], .nil⟩ (List.forall_mem_nil _)
  | cons entry object ih =>
    rw [List.forall_mem_cons, ← ih]
    constructor
    · rintro ⟨values, hread⟩
      cases hread with
      | cons hentry hread => exact ⟨⟨_, hentry.2⟩, _, hread⟩
    · rintro ⟨⟨given, hgiven⟩, values, hread⟩
      exact ⟨(entry.1, given) :: values, .cons ⟨rfl, hgiven⟩ hread⟩

/-- Values that were read are read again from their trees. -/
theorem exists_again {budget : Nat} {values : List (String × Json)}
    (hd : Json.depthMembers values ≤ budget) :
    ∃ object, Named (Json.memberTrees values) object ∧ ValuesRead budget object values := by
  induction values with
  | nil => exact ⟨[], .nil, .nil⟩
  | cons member values ih =>
    obtain ⟨name, value⟩ := member
    obtain ⟨hvalue, hvalues⟩ := Nat.max_le.mp hd
    obtain ⟨object, hm, hr⟩ := ih hvalues
    exact ⟨(name, value.toTree) :: object, .cons ⟨Quoted.read_ofText name, rfl⟩ hm,
      .cons ⟨rfl, (Reader.reads_value value budget hvalue).toTree⟩ hr⟩

theorem ValuesRead.named {budget : Nat} {object : List (String × Tree)}
    {values : List (String × Json)} (h : ValuesRead budget object values) (name : String) :
    List.Forall₂ (fun tree value => value.1 = name ∧ Reader.value budget tree = .ok value.2)
      (valuesOf name object) (values.filter fun value => value.1 = name) := by
  induction h with
  | nil => exact .nil
  | @cons entry value object values hentry h ih =>
    obtain ⟨given, tree⟩ := entry
    obtain ⟨hname, hvalue⟩ := hentry
    by_cases hgiven : given = name
    · subst hgiven
      rw [List.filter_cons_of_pos (by simpa using hname), valuesOf_cons_self]
      exact .cons ⟨hname, hvalue⟩ ih
    · rw [List.filter_cons_of_neg (by simpa [hname] using hgiven), valuesOf_cons_ne hgiven]
      exact ih

theorem Numeral.read_eq_ok {numeral : Numeral} {number : Number} :
    numeral.read = .ok number ↔ numeral.number? = some number := by
  cases hn : numeral.number? <;> simp [Numeral.read, hn]

namespace Reader
variable {budget : Nat} {tree : Tree} {members : List (Quoted × Tree)}
  {values : List (String × Json)}

theorem mapM_entry_eq_ok :
    members.mapM (entry value budget) = .ok values ↔
      ∃ object, Named members object ∧ ValuesRead budget object values := by
  rw [Outcome.mapM_eq_ok_iff]
  constructor
  · intro h
    induction h with
    | nil => exact ⟨[], .nil, .nil⟩
    | cons hentry h ih =>
      obtain ⟨object, hm, hv⟩ := ih
      obtain ⟨name, hname, hentry⟩ := Outcome.bind_eq_ok.mp hentry
      obtain ⟨value, hvalue, hentry⟩ := Outcome.bind_eq_ok.mp hentry
      obtain rfl := Except.ok.inj hentry
      exact ⟨(name, _) :: object, .cons ⟨hname, rfl⟩ hm, .cons ⟨rfl, hvalue⟩ hv⟩
  · rintro ⟨object, hm, hv⟩
    induction hm generalizing values with
    | nil =>
      cases hv
      exact .nil
    | @cons member given members object hentry hm ih =>
      obtain ⟨hname, htree⟩ := hentry
      cases hv with
      | cons hvalue hv =>
        refine .cons ?_ (ih hv)
        rw [entry, hname, Outcome.ok_bind, htree, hvalue.2, ← hvalue.1]
        rfl

theorem proceed_eq_ok {fault : Option Fault} : proceed fault = .ok () ↔ fault = none := by
  cases fault <;> simp [proceed]

/-- What a value is read from, one case for each of its kinds. -/
inductive Valued : Nat → Tree → Json → Prop where
  | null {budget : Nat} : Valued budget .null .null
  | bool {budget : Nat} (b : Bool) : Valued budget (.bool b) (.bool b)
  | number {budget : Nat} {numeral : Numeral} {number : Number}
      (means : numeral.number? = some number) : Valued budget (.numeral numeral) (.number number)
  | string {budget : Nat} {quoted : Quoted} {text : String} (means : quoted.read = .ok text) :
      Valued budget (.string quoted) (.string text)
  | array {budget : Nat} {items : List Tree} {values : List Json}
      (read : List.Forall₂ (fun item given => value budget item = .ok given) items values) :
      Valued (budget+1) (.array items none) (.array values)
  | object {budget : Nat} {members : List (Quoted × Tree)} {object : List (String × Tree)}
      {values : List (String × Json)} (named : Named members object)
      (read : ValuesRead budget object values) :
      Valued (budget+1) (.object members none) (.object values)

theorem Valued.of_value {given : Json} (h : value budget tree = .ok given) :
    Valued budget tree given := by
  cases tree with
  | null =>
    obtain rfl := Except.ok.inj h
    exact .null
  | bool b =>
    obtain rfl := Except.ok.inj h
    exact .bool b
  | numeral numeral =>
    obtain ⟨number, hn, rfl⟩ := Outcome.map_eq_ok.mp h
    exact .number (Numeral.read_eq_ok.mp hn)
  | string quoted =>
    obtain ⟨text, ht, rfl⟩ := Outcome.map_eq_ok.mp h
    exact .string ht
  | array items fault =>
    rw [value_array] at h
    obtain ⟨b, rfl, h⟩ := enter_eq_ok h
    obtain ⟨values, hvalues, h⟩ := Outcome.bind_eq_ok.mp h
    obtain ⟨_, hfault, h⟩ := Outcome.bind_eq_ok.mp h
    obtain rfl := proceed_eq_ok.mp hfault
    obtain rfl := Except.ok.inj h
    exact .array (Outcome.mapM_eq_ok_iff.mp hvalues)
  | object members fault =>
    rw [value_object] at h
    obtain ⟨b, rfl, h⟩ := enter_eq_ok h
    obtain ⟨values, hvalues, h⟩ := Outcome.bind_eq_ok.mp h
    obtain ⟨_, hfault, h⟩ := Outcome.bind_eq_ok.mp h
    obtain rfl := proceed_eq_ok.mp hfault
    obtain rfl := Except.ok.inj h
    obtain ⟨object, hm, hv⟩ := mapM_entry_eq_ok.mp hvalues
    exact .object hm hv
  | brokenNumeral numeral fault => cases budget <;> cases h
  | brokenLiteral fault | absent fault => cases budget <;> cases h

end Reader

/-- The other members of an open record are read value by value. -/
theorem Fields.othersOf_eq_ok {α : Type} {fields : Fields α} {budget : Nat}
    {object : List (String × Tree)} {others : List (String × Json)} :
    fields.othersOf budget object = .ok others ↔
      ValuesRead budget (object.filter (·.1 ∉ fields.names)) others := by
  rw [othersOf, Outcome.mapM_eq_ok_iff, ValuesRead]
  have hstep : ∀ (entry : String × Tree) (other : String × Json),
      (Reader.value budget entry.2).map (entry.1, ·) = .ok other ↔
        other.1 = entry.1 ∧ Reader.value budget entry.2 = .ok other.2 := by
    intro entry other
    rw [Outcome.map_eq_ok]
    constructor
    · rintro ⟨given, hgiven, rfl⟩
      exact ⟨rfl, hgiven⟩
    · rintro ⟨hname, hgiven⟩
      exact ⟨other.2, hgiven, Prod.ext hname.symm rfl⟩
  simp only [hstep]

/-- What a record holds for a field: the only value under its name in an object, or the one in its
place in an array. -/
inductive Tree.Holds (name : String) (place : Nat) : Tree → Tree → Prop where
  | member {members : List (Quoted × Tree)} {fault : Option Fault} {object : List (String × Tree)}
      {value : Tree} (named : Named members object) (only : valuesOf name object = [value]) :
      Holds name place (.object members fault) value
  | item {items : List Tree} {fault : Option Fault} {value : Tree}
      (placed : items[place]? = some value) : Holds name place (.array items fault) value

/-- A field is read from the only value that is given for it, or something stands in for it. -/
theorem Field.ReadFrom.one_or_absent {α : Type} {budget : Nat} {field : Field α}
    {trees : List Tree} {a : α} (h : field.ReadFrom budget trees a) :
    (∃ tree, trees = [tree] ∧ field.read budget tree = .ok a) ∨
      trees = [] ∧ field.absent = some a := by
  match trees with
  | [] => exact .inr ⟨rfl, h⟩
  | [tree] => exact .inl ⟨tree, rfl, h⟩
  | _ :: _ :: _ => exact absurd h id

theorem Field.readFrom_required {α : Type} {budget : Nat} {name : String} {read : Reader α}
    {trees : List Tree} {a : α} :
    (Field.required name read).ReadFrom budget trees a ↔
      ∃ tree, trees = [tree] ∧ read budget tree = .ok a := by
  constructor
  · intro h
    rcases h.one_or_absent with honly | ⟨-, habsent⟩
    · exact honly
    · cases habsent
  · rintro ⟨tree, rfl, hread⟩
    exact hread

namespace Fields
variable {α : Type} {budget : Nat}

/-- Every field, from a place on, is read from what the tree holds for it, or something stands in
for it. -/
def HeldBy (budget : Nat) (tree : Tree) : {α : Type} → Fields α → Nat → α → Prop
  | _, .nil, _, _ => True
  | _, .cons field fields, place, values =>
      ((∃ value, tree.Holds field.name place value ∧ field.read budget value = .ok values.1) ∨
        field.absent = some values.1) ∧ HeldBy budget tree fields (place+1) values.2

theorem heldBy_of_readFrom {members : List (Quoted × Tree)} {fault : Option Fault}
    {object : List (String × Tree)} (hm : Named members object) {fields : Fields α} {place : Nat}
    {a : α} (h : fields.ReadFrom budget object a) :
    fields.HeldBy budget (.object members fault) place a := by
  induction fields generalizing place with
  | nil => trivial
  | cons field fields ih =>
    refine ⟨?_, ih h.2⟩
    rcases h.1.one_or_absent with ⟨value, honly, hread⟩ | ⟨-, habsent⟩
    · exact .inl ⟨value, .member hm honly, hread⟩
    · exact .inr habsent

theorem heldBy_of_items {fault : Option Fault} {fields : Fields α} {items : List Tree} {place : Nat}
    {a : α} (h : fields.ofItems budget fault (items.drop place) = .ok a) :
    fields.HeldBy budget (.array items fault) place a := by
  induction fields generalizing place with
  | nil => trivial
  | cons field fields ih =>
    have htail : items.drop (place+1) = (items.drop place).tail := List.tail_drop.symm
    cases hleft : items.drop place with
    | nil =>
      rw [hleft] at h htail
      obtain ⟨_, -, h⟩ := Outcome.bind_eq_ok.mp h
      cases habsent : field.absent with
      | none => simp [habsent] at h
      | some first =>
        simp only [habsent] at h
        obtain ⟨rest, hrest, rfl⟩ := Outcome.map_eq_ok.mp h
        refine ⟨.inr habsent, ih ?_⟩
        rw [htail]
        exact hrest
    | cons item left =>
      rw [hleft] at h htail
      obtain ⟨first, hfirst, h⟩ := Outcome.bind_eq_ok.mp h
      obtain ⟨rest, hrest, h⟩ := Outcome.bind_eq_ok.mp h
      obtain rfl := Except.ok.inj h
      have hplaced : items[place]? = some item := by
        have hdrop : (items.drop place)[0]? = items[place+0]? := List.getElem?_drop
        rw [hleft] at hdrop
        exact hdrop.symm
      refine ⟨.inl ⟨item, .item hplaced, hfirst⟩, ih ?_⟩
      rw [htail]
      exact hrest

theorem skipMembers_eq_ok {fields : Fields α} (hn : fields.names.Nodup)
    {members : List (Quoted × Tree)} {object : List (String × Tree)} (hm : Named members object)
    {slots filled : Slots fields} :
    members.foldlM (fields.skipMember budget) slots = .ok filled ↔
      FilledFrom budget object fields slots filled ∧
        ∀ entry ∈ object, entry.1 ∉ fields.names → entry.2.fault? = none := by
  induction hm generalizing slots with
  | nil =>
    rw [filledFrom_nil]
    simp [eq_comm]
  | @cons member entry members object hentry hm ih =>
    obtain ⟨key, given⟩ := member
    obtain ⟨name, tree⟩ := entry
    obtain ⟨hkey, rfl⟩ : key.read = .ok name ∧ given = tree := hentry
    rw [List.foldlM_cons, Outcome.bind_eq_ok, filledFrom_cons hn, List.forall_mem_cons]
    constructor
    · rintro ⟨next, hnext, hrest⟩
      obtain ⟨hfilled, hwhole⟩ := ih.mp hrest
      obtain ⟨_, hname, hstep⟩ := skipMember_eq_ok.mp hnext
      obtain rfl := Except.ok.inj (hkey.symm.trans hname)
      rcases hstep with hfill | ⟨hmem, hfault, rfl⟩
      · exact ⟨⟨next, .inl hfill, hfilled⟩, fun hmem => absurd hfill.name_mem hmem, hwhole⟩
      · exact ⟨⟨next, .inr ⟨hmem, rfl⟩, hfilled⟩, fun _ => hfault, hwhole⟩
    · rintro ⟨⟨next, hnext, hfilled⟩, hfault, hwhole⟩
      refine ⟨next, skipMember_eq_ok.mpr ⟨name, hkey, ?_⟩, ih.mpr ⟨hfilled, hwhole⟩⟩
      rcases hnext with hfill | ⟨hmem, rfl⟩
      · exact .inl hfill
      · exact .inr ⟨hmem, hfault hmem, rfl⟩

end Fields

namespace Reader
variable {α : Type} {fields : Fields α} {budget : Nat} {tree : Tree}

/-- A record is read from an object if every field is, and the other members are whole. -/
theorem record_eq_ok_iff (hn : fields.names.Nodup) {members : List (Quoted × Tree)}
    {object : List (String × Tree)} (hm : Named members object) {a : α} :
    record fields (budget+1) (.object members none) = .ok a ↔
      fields.ReadFrom budget object a ∧
        ∀ entry ∈ object, entry.1 ∉ fields.names → entry.2.fault? = none := by
  rw [Fields.readFrom_iff]
  simp only [record, enter, proceed, Outcome.bind_eq_ok, Fields.skipMembers_eq_ok hn hm]
  constructor
  · rintro ⟨filled, ⟨hfilled, hwhole⟩, _, -, hfinish⟩
    exact ⟨⟨filled, hfilled, hfinish⟩, hwhole⟩
  · rintro ⟨⟨filled, hfilled, hfinish⟩, hwhole⟩
    exact ⟨filled, ⟨hfilled, hwhole⟩, (), trivial, hfinish⟩

theorem record_heldBy (hn : fields.names.Nodup) {a : α} (h : record fields budget tree = .ok a) :
    ∃ b, budget = b+1 ∧ fields.HeldBy b tree 0 a := by
  cases tree with
  | object members fault =>
    obtain ⟨b, rfl, h⟩ := enter_eq_ok h
    obtain ⟨filled, hfilled, h⟩ := Outcome.bind_eq_ok.mp h
    obtain ⟨_, -, h⟩ := Outcome.bind_eq_ok.mp h
    obtain ⟨object, hm⟩ := exists_named fun member hmember => by
      obtain ⟨_, _, hstep⟩ := Outcome.foldlM_mem hfilled member hmember
      obtain ⟨name, hname, -⟩ := Fields.skipMember_eq_ok.mp hstep
      exact ⟨name, hname⟩
    have hobject := (Fields.skipMembers_eq_ok hn hm).mp hfilled
    exact ⟨b, rfl, Fields.heldBy_of_readFrom hm (Fields.readFrom_iff.mpr ⟨filled, hobject.1, h⟩)⟩
  | array items fault =>
    obtain ⟨b, rfl, h⟩ := enter_eq_ok h
    exact ⟨b, rfl, Fields.heldBy_of_items h⟩
  | _ => cases h

/-- An open record is read from an object, all of whose keys can be read. -/
theorem openRecord_named {a : α × List (String × Json)}
    (h : openRecord fields budget tree = .ok a) :
    ∃ b members object, budget = b+1 ∧ tree = .object members none ∧ Named members object := by
  cases tree with
  | object members fault =>
    obtain ⟨b, rfl, h⟩ := enter_eq_ok h
    obtain ⟨state, hstate, h⟩ := Outcome.bind_eq_ok.mp h
    obtain ⟨_, hfault, -⟩ := Outcome.bind_eq_ok.mp h
    obtain rfl := proceed_eq_ok.mp hfault
    obtain ⟨object, hm⟩ := exists_named fun member hmember => by
      obtain ⟨before, after, hstep⟩ := Outcome.foldlM_mem hstate member hmember
      have hstep : fields.keepMember b (before.1, before.2) (member.1, member.2) =
        .ok (after.1, after.2) := hstep
      obtain ⟨name, hname, -⟩ := Fields.keepMember_eq_ok.mp hstep
      exact ⟨name, hname⟩
    exact ⟨b, members, object, rfl, rfl, hm⟩
  | _ => cases h

end Reader
end EditScript
