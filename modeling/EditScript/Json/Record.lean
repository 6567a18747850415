import EditScript.Json.Reader

namespace EditScript

/-- A field: its name, how its value is read, and the value that stands in for an absent one. -/
structure Field (α : Type) where
  name : String
  read : Reader α
  absent : Option α

namespace Field
variable {α : Type}

def required (name : String) (read : Reader α) : Field α := ⟨name, read, none⟩

def withDefault (name : String) (read : Reader α) (absent : α) : Field α :=
  ⟨name, read, some absent⟩

def optional (name : String) (read : Reader α) : Field (Option α) :=
  ⟨name, .optional read, some none⟩

end Field

/-- The fields of a record in order, with the type of their values together. -/
inductive Fields : Type → Type 1 where
  | nil : Fields Unit
  | cons {α β : Type} (field : Field α) (fields : Fields β) : Fields (α × β)

namespace Fields

/-- The values of the fields met so far. -/
def Slots : {α : Type} → Fields α → Type
  | _, .nil => Unit
  | _, @cons α _ _ fields => Option α × Slots fields

def blank : {α : Type} → (fields : Fields α) → Slots fields
  | _, .nil => ()
  | _, .cons _ fields => (none, blank fields)

/-- How the value of the field with this name is added; none if there is no such field. A field that
was met before is refused before its value is looked at. -/
def fill? (name : String) :
    {α : Type} → (fields : Fields α) → Slots fields → Option (Reader (Slots fields))
  | _, .nil, _ => none
  | _, .cons field fields, slots =>
      if name = field.name then
        some fun budget tree => match slots.1 with
          | some _ => .error (.duplicateField name)
          | none => (field.read budget tree).map fun a => (some a, slots.2)
      else (fill? name fields slots.2).map fun read => Reader.map (slots.1, ·) read

/-- The values of all fields. The first one that is absent and must not be is missing. -/
def finish : {α : Type} → (fields : Fields α) → Slots fields → Except ReadError α
  | _, .nil, _ => .ok ()
  | _, .cons field fields, slots =>
      match slots.1.or field.absent with
      | some a => (finish fields slots.2).map (a, ·)
      | none => .error (.missingField field.name)

/-- The values of all fields by place. -/
def ofItems (budget : Nat) (fault : Option Fault) :
    {α : Type} → (fields : Fields α) → List Tree → Except ReadError α
  | _, .nil, [] => Reader.proceed fault
  | _, .nil, _ :: _ => .error .malformed
  | _, .cons field fields, [] => do
      Reader.proceed fault
      match field.absent with
      | some a => (ofItems budget fault fields []).map (a, ·)
      | none => .error .invalidLength
  | _, .cons field fields, item :: items => do
      let a ← field.read budget item
      return (a, ← ofItems budget fault fields items)

/-- A member of a record that skips what it does not know. -/
def skipMember {α : Type} (fields : Fields α) (budget : Nat) (slots : Slots fields)
    (member : Quoted × Tree) : Except ReadError (Slots fields) := do
  let name ← member.1.read
  match fill? name fields slots with
  | some read => read budget member.2
  | none => do
      Reader.proceed member.2.fault?
      return slots

/-- A member of a record that keeps what it does not know, in reverse. -/
def keepMember {α : Type} (fields : Fields α) (budget : Nat)
    (state : Slots fields × List (String × Json)) (member : Quoted × Tree) :
    Except ReadError (Slots fields × List (String × Json)) := do
  let name ← member.1.read
  match fill? name fields state.1 with
  | some read => return (← read budget member.2, state.2)
  | none => return (state.1, (name, ← Reader.value budget member.2) :: state.2)

end Fields

namespace Reader
variable {α β : Type}

/-- A record: an object with the fields in any order and other members skipped, or an array. -/
def record (fields : Fields α) : Reader α
  | budget, .object members fault => enter (fun budget => do
      let slots ← members.foldlM (fields.skipMember budget) fields.blank
      proceed fault
      fields.finish slots) budget
  | budget, .array items fault => enter (fun budget => fields.ofItems budget fault items) budget
  | _, tree => .error tree.wrongKind

/-- A record in the form of an object, with its other members as they stand in the text. -/
def openRecord (fields : Fields α) : Reader (α × List (String × Json))
  | budget, .object members fault => enter (fun budget => do
      let (slots, others) ← members.foldlM (fields.keepMember budget) (fields.blank, [])
      proceed fault
      return (← fields.finish slots, others.reverse)) budget
  | _, tree => .error tree.wrongKind

end Reader
end EditScript
