import EditScript.Proofs.Kept
import Mathlib.Data.List.Forall2

namespace EditScript

/-- The members with the texts that their keys mean. -/
def Named (members : List (Quoted × Tree)) (object : List (String × Tree)) : Prop :=
  List.Forall₂ (fun member entry => member.1.read = .ok entry.1 ∧ member.2 = entry.2) members object

def membersOf (object : List (String × Tree)) : List (Quoted × Tree) :=
  object.map fun entry => (.ofText entry.1, entry.2)

theorem named_membersOf (object : List (String × Tree)) : Named (membersOf object) object := by
  induction object with
  | nil => exact .nil
  | cons entry object ih => exact .cons ⟨Quoted.read_ofText entry.1, rfl⟩ ih

/-- The values that are given for a name. -/
def valuesOf (name : String) (object : List (String × Tree)) : List Tree :=
  (object.filter (·.1 = name)).map (·.2)

theorem valuesOf_cons_self (name : String) (tree : Tree) (object : List (String × Tree)) :
    valuesOf name ((name, tree) :: object) = tree :: valuesOf name object := by
  simp [valuesOf]

theorem valuesOf_cons_ne {name given : String} (h : given ≠ name) (tree : Tree)
    (object : List (String × Tree)) :
    valuesOf name ((given, tree) :: object) = valuesOf name object := by
  simp [valuesOf, h]

theorem valuesOf_cases {object : List (String × Tree)} (hd : (object.map (·.1)).Nodup)
    (name : String) :
    valuesOf name object = [] ∨ ∃ tree, valuesOf name object = [tree] := by
  have hlength : (valuesOf name object).length ≤ 1 := by
    have hcount := List.nodup_iff_count.mp hd name
    rw [List.count, List.countP_map] at hcount
    rw [valuesOf, List.length_map, ← List.countP_eq_length_filter]
    exact hcount
  cases hvalues : valuesOf name object with
  | nil => exact .inl rfl
  | cons tree rest =>
    rw [hvalues, List.length_cons] at hlength
    obtain rfl : rest = [] := List.eq_nil_of_length_eq_zero (by omega)
    exact .inr ⟨tree, rfl⟩

/-- The value of a field for which these are given. -/
def Field.ReadFrom {α : Type} (budget : Nat) (field : Field α) : List Tree → α → Prop
  | [], a => field.absent = some a
  | [tree], a => field.read budget tree = .ok a
  | _ :: _ :: _, _ => False

/-- How a slot is filled by these values: not a second time. -/
def Reader.FillsSlot {α : Type} (budget : Nat) (read : Reader α) :
    List Tree → Option α → Option α → Prop
  | [], slot, filled => filled = slot
  | tree :: trees, slot, filled =>
      slot = none ∧ ∃ a, read budget tree = .ok a ∧ FillsSlot budget read trees (some a) filled

theorem Field.readFrom_iff {α : Type} {budget : Nat} {field : Field α} {trees : List Tree} {a : α} :
    field.ReadFrom budget trees a ↔
      ∃ filled, field.read.FillsSlot budget trees none filled ∧
        filled.or field.absent = some a := by
  match trees with
  | [] => simp [Field.ReadFrom, Reader.FillsSlot]
  | [tree] =>
    simp only [Field.ReadFrom, Reader.FillsSlot, true_and]
    constructor
    · exact fun h => ⟨some a, ⟨a, h, rfl⟩, rfl⟩
    · rintro ⟨_, ⟨b, hb, rfl⟩, ha⟩
      obtain rfl := Option.some.inj ha
      exact hb
  | _ :: _ :: _ => simp [Field.ReadFrom, Reader.FillsSlot]

namespace Fields
variable {α : Type} {budget : Nat} {object : List (String × Tree)}

def ReadFrom (budget : Nat) (object : List (String × Tree)) : {α : Type} → Fields α → α → Prop
  | _, .nil, _ => True
  | _, .cons field fields, values =>
      field.ReadFrom budget (valuesOf field.name object) values.1 ∧
        ReadFrom budget object fields values.2

/-- Every slot is filled by the values that are given for the name of its field. -/
def FilledFrom (budget : Nat) (object : List (String × Tree)) :
    {α : Type} → (fields : Fields α) → Slots fields → Slots fields → Prop
  | _, .nil, _, _ => True
  | _, .cons field fields, slots, filled =>
      field.read.FillsSlot budget (valuesOf field.name object) slots.1 filled.1 ∧
        FilledFrom budget object fields slots.2 filled.2

theorem Fills.name_mem {name : String} {tree : Tree} {fields : Fields α}
    {slots filled : Slots fields} (h : Fills budget name tree fields slots filled) :
    name ∈ fields.names := by
  obtain ⟨read, hread, -⟩ := h
  exact fill?_eq_some hread

theorem filledFrom_nil {fields : Fields α} {slots filled : Slots fields} :
    FilledFrom budget [] fields slots filled ↔ filled = slots := by
  induction fields with
  | nil => exact iff_of_true trivial rfl
  | cons field fields ih =>
    rw [FilledFrom, ih]
    exact Prod.ext_iff.symm

theorem filledFrom_cons_ne {name : String} {tree : Tree} {fields : Fields α}
    (hn : name ∉ fields.names) {slots filled : Slots fields} :
    FilledFrom budget ((name, tree) :: object) fields slots filled ↔
      FilledFrom budget object fields slots filled := by
  induction fields with
  | nil => rfl
  | cons field fields ih =>
    rw [names, List.mem_cons, not_or] at hn
    simp only [FilledFrom, valuesOf_cons_ne hn.1, ih hn.2]

theorem filledFrom_cons {name : String} {tree : Tree} {fields : Fields α}
    (hn : fields.names.Nodup) {slots filled : Slots fields} :
    FilledFrom budget ((name, tree) :: object) fields slots filled ↔
      ∃ next, (Fills budget name tree fields slots next ∨ name ∉ fields.names ∧ next = slots) ∧
        FilledFrom budget object fields next filled := by
  induction fields with
  | nil => exact iff_of_true trivial ⟨slots, .inr ⟨List.not_mem_nil, rfl⟩, trivial⟩
  | cons field fields ih =>
    obtain ⟨hfield, hfields⟩ := List.nodup_cons.mp hn
    by_cases hname : name = field.name
    · -- The fields behind have other names, so the member is for this field alone.
      subst hname
      rw [FilledFrom, valuesOf_cons_self, Reader.FillsSlot, filledFrom_cons_ne hfield]
      constructor
      · rintro ⟨⟨hslot, a, ha, hfirst⟩, hrest⟩
        refine ⟨(some a, slots.2), .inl ?_, hfirst, hrest⟩
        exact fills_cons.mpr (.inl ⟨rfl, hslot, a, ha, rfl⟩)
      · rintro ⟨next, hnext | ⟨hmem, -⟩, hfirst, hrest⟩
        · rcases fills_cons.mp hnext with ⟨-, hslot, a, ha, rfl⟩ | ⟨hne, -⟩
          · exact ⟨⟨hslot, a, ha, hfirst⟩, hrest⟩
          · exact absurd rfl hne
        · exact absurd List.mem_cons_self hmem
    · rw [FilledFrom, valuesOf_cons_ne hname, ih hfields]
      constructor
      · rintro ⟨hfirst, rest, hfill | ⟨hmem, rfl⟩, hrest⟩
        · exact ⟨(slots.1, rest), .inl (fills_cons.mpr (.inr ⟨hname, rfl, hfill⟩)), hfirst, hrest⟩
        · refine ⟨slots, .inr ⟨?_, rfl⟩, hfirst, hrest⟩
          exact List.not_mem_cons_of_ne_of_not_mem hname hmem
      · rintro ⟨next, hnext | ⟨hmem, rfl⟩, hfirst, hrest⟩
        · rcases fills_cons.mp hnext with ⟨heq, -⟩ | ⟨-, hslot, hfill⟩
          · exact absurd heq hname
          · exact ⟨hslot ▸ hfirst, next.2, .inl hfill, hrest⟩
        · exact ⟨hfirst, next.2, .inr ⟨fun h => hmem (List.mem_cons_of_mem _ h), rfl⟩, hrest⟩

/-- What stands in for absent values does so where nothing was given. -/
theorem readFrom_iff {fields : Fields α} {a : α} :
    ReadFrom budget object fields a ↔
      ∃ filled, FilledFrom budget object fields fields.blank filled ∧
        fields.finish filled = .ok a := by
  induction fields with
  | nil => exact iff_of_true trivial ⟨(), trivial, rfl⟩
  | cons field fields ih =>
    rw [ReadFrom, Field.readFrom_iff, ih]
    constructor
    · rintro ⟨⟨slot, hslot, ha⟩, filled, hfilled, hfinish⟩
      refine ⟨(slot, filled), ⟨hslot, hfilled⟩, ?_⟩
      simp only [finish, ha, hfinish, Outcome.map_ok]
    · rintro ⟨⟨slot, filled⟩, ⟨hslot, hfilled⟩, hfinish⟩
      simp only [finish] at hfinish
      cases ha : slot.or field.absent with
      | none =>
        rw [ha] at hfinish
        cases hfinish
      | some first =>
        rw [ha] at hfinish
        obtain ⟨rest, hrest, rfl⟩ := Outcome.map_eq_ok.mp hfinish
        exact ⟨⟨slot, hslot, ha⟩, filled, hfilled, hrest⟩

def othersOf (fields : Fields α) (budget : Nat) (object : List (String × Tree)) :
    Except ReadError (List (String × Json)) :=
  (object.filter (·.1 ∉ fields.names)).mapM fun entry =>
    (Reader.value budget entry.2).map (entry.1, ·)

theorem othersOf_cons_mem {fields : Fields α} {name : String} (h : name ∈ fields.names)
    (tree : Tree) :
    othersOf fields budget ((name, tree) :: object) = othersOf fields budget object := by
  simp [othersOf, h]

theorem othersOf_cons {fields : Fields α} {name : String} (h : name ∉ fields.names) {tree : Tree}
    {others : List (String × Json)} :
    othersOf fields budget ((name, tree) :: object) = .ok others ↔
      ∃ value rest, Reader.value budget tree = .ok value ∧
        othersOf fields budget object = .ok rest ∧ others = (name, value) :: rest := by
  rw [othersOf, List.filter_cons_of_pos (by simpa using h), List.mapM_cons, Outcome.bind_eq_ok]
  constructor
  · rintro ⟨entry, hentry, hrest⟩
    obtain ⟨value, hvalue, rfl⟩ := Outcome.map_eq_ok.mp hentry
    obtain ⟨rest, hothers, hcons⟩ := Outcome.bind_eq_ok.mp hrest
    exact ⟨value, rest, hvalue, hothers, (Except.ok.inj hcons).symm⟩
  · rintro ⟨value, rest, hvalue, hrest, rfl⟩
    refine ⟨(name, value), by rw [hvalue]; rfl, Outcome.bind_eq_ok.mpr ⟨rest, hrest, rfl⟩⟩

theorem othersOf_ok (fields : Fields α)
    (h : ∀ entry ∈ object, ∃ json, Reader.value budget entry.2 = .ok json) :
    ∃ others, othersOf fields budget object = .ok others ∧
      others.map (·.1) = (object.map (·.1)).filter (· ∉ fields.names) := by
  induction object with
  | nil => exact ⟨[], rfl, rfl⟩
  | cons entry object ih =>
    obtain ⟨⟨json, hjson⟩, hobject⟩ := List.forall_mem_cons.mp h
    obtain ⟨others, hothers, hkeys⟩ := ih hobject
    by_cases hmem : entry.1 ∈ fields.names
    · refine ⟨others, (othersOf_cons_mem hmem entry.2).trans hothers, ?_⟩
      rw [List.map_cons, List.filter_cons_of_neg (by simpa using hmem), hkeys]
    · refine ⟨(entry.1, json) :: others, ?_, ?_⟩
      · exact (othersOf_cons hmem).mpr ⟨json, others, hjson, hothers, rfl⟩
      · rw [List.map_cons, List.map_cons, List.filter_cons_of_pos (by simpa using hmem), hkeys]

/-- Members fill the slots of the fields, and the others are put in front of those kept before. -/
theorem keepMembers_eq_ok {fields : Fields α} (hn : fields.names.Nodup)
    {members : List (Quoted × Tree)} (hm : Named members object) {slots filled : Slots fields}
    {kept last : List (String × Json)} :
    members.foldlM (fields.keepMember budget) (slots, kept) = .ok (filled, last) ↔
      FilledFrom budget object fields slots filled ∧
        ∃ others, othersOf fields budget object = .ok others ∧ last = others.reverse ++ kept := by
  induction hm generalizing slots kept with
  | nil =>
    rw [filledFrom_nil]
    simp [othersOf, eq_comm]
  | @cons member entry members object hentry hm ih =>
    obtain ⟨key, given⟩ := member
    obtain ⟨name, tree⟩ := entry
    obtain ⟨hkey, rfl⟩ : key.read = .ok name ∧ given = tree := hentry
    rw [List.foldlM_cons, Outcome.bind_eq_ok, filledFrom_cons hn]
    constructor
    · rintro ⟨⟨next, more⟩, hstep, hrest⟩
      obtain ⟨hfilled, others, hothers, rfl⟩ := ih.mp hrest
      obtain ⟨_, hname, hstep⟩ := keepMember_eq_ok.mp hstep
      obtain rfl := Except.ok.inj (hkey.symm.trans hname)
      rcases hstep with ⟨hfill, rfl⟩ | ⟨hmem, rfl, value, hvalue, rfl⟩
      · refine ⟨⟨next, .inl hfill, hfilled⟩, others, ?_, rfl⟩
        rwa [othersOf_cons_mem hfill.name_mem]
      · refine ⟨⟨next, .inr ⟨hmem, rfl⟩, hfilled⟩, (name, value) :: others, ?_, ?_⟩
        · exact (othersOf_cons hmem).mpr ⟨value, others, hvalue, hothers, rfl⟩
        · rw [List.reverse_cons, List.append_assoc, List.singleton_append]
    · rintro ⟨⟨next, hnext, hfilled⟩, others, hothers, rfl⟩
      rcases hnext with hfill | ⟨hmem, rfl⟩
      · rw [othersOf_cons_mem hfill.name_mem] at hothers
        exact ⟨(next, kept), keepMember_eq_ok.mpr ⟨name, hkey, .inl ⟨hfill, rfl⟩⟩,
          ih.mpr ⟨hfilled, others, hothers, rfl⟩⟩
      · obtain ⟨value, rest, hvalue, hrest, rfl⟩ := (othersOf_cons hmem).mp hothers
        refine ⟨(next, (name, value) :: kept), ?_, ih.mpr ⟨hfilled, rest, hrest, ?_⟩⟩
        · exact keepMember_eq_ok.mpr ⟨name, hkey, .inr ⟨hmem, rfl, value, hvalue, rfl⟩⟩
        · rw [List.reverse_cons, List.append_assoc, List.singleton_append]

end Fields

/-- An open record is read from an object if every field is, and every other member. -/
theorem Reader.openRecord_eq_ok_iff {α : Type} {fields : Fields α} (hn : fields.names.Nodup)
    {members : List (Quoted × Tree)} {object : List (String × Tree)} (hm : Named members object)
    {budget : Nat} {a : α} {others : List (String × Json)} :
    openRecord fields (budget+1) (.object members none) = .ok (a, others) ↔
      fields.ReadFrom budget object a ∧ fields.othersOf budget object = .ok others := by
  rw [Fields.readFrom_iff]
  simp only [openRecord, enter, proceed, Outcome.bind_eq_ok, Outcome.pure_eq]
  constructor
  · rintro ⟨⟨filled, last⟩, hmembers, _, -, values, hfinish, hlast⟩
    obtain ⟨hfilled, rest, hrest, rfl⟩ := (Fields.keepMembers_eq_ok hn hm).mp hmembers
    rw [List.append_nil, List.reverse_reverse, Except.ok.injEq, Prod.mk.injEq] at hlast
    obtain ⟨rfl, rfl⟩ := hlast
    exact ⟨⟨filled, hfilled, hfinish⟩, hrest⟩
  · rintro ⟨⟨filled, hfilled, hfinish⟩, hothers⟩
    refine ⟨(filled, others.reverse), ?_, (), trivial, a, hfinish, ?_⟩
    · exact (Fields.keepMembers_eq_ok hn hm).mpr
        ⟨hfilled, others, hothers, (List.append_nil _).symm⟩
    · rw [List.reverse_reverse]

end EditScript
