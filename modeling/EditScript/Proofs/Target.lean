import EditScript.Options
import EditScript.Request.Basic
import Mathlib.Tactic.SplitIfs

namespace EditScript

namespace LengthUnit

/-- The codes of a character: its UTF-16 code units, or its scalar value. -/
def encode : LengthUnit → Char → List Nat
  | .utf16, c =>
      if c.toNat < 0x10000 then [c.toNat]
      else [0xD800+(c.toNat-0x10000)/0x400, 0xDC00+(c.toNat-0x10000)%0x400]
  | .chars, c => [c.toNat]

def codes (unit : LengthUnit) (text : String) : List Nat := text.toList.flatMap unit.encode

theorem length_encode (unit : LengthUnit) (c : Char) : (unit.encode c).length = unit.width c := by
  cases unit with
  | chars => rfl
  | utf16 =>
    simp only [encode, width]
    split_ifs <;> rfl

theorem length_codes (unit : LengthUnit) (text : String) :
    (unit.codes text).length = unit.measure text := by
  rw [codes, measure]
  induction text.toList with
  | nil => rfl
  | cons c chars ih =>
    rw [List.flatMap_cons, List.length_append, length_encode, ih, List.foldr_cons]

end LengthUnit

/-- What one unit of a target shows. -/
inductive Glyph where
  | code (value : Nat)
  | image (uri : String)
  | table (rows columns : Nat)
  deriving DecidableEq

/-- One unit of a target with the styles that are set on it. -/
@[ext] structure Atom where
  glyph : Glyph
  textStyle : Style
  paragraphStyle : Style
  deriving DecidableEq

/-- A unit as it is inserted. -/
def Atom.plain (glyph : Glyph) : Atom := ⟨glyph, .empty, .empty⟩

abbrev Cells := CellAddress → Option (List Atom)

/-- A document under edit. Its body is numbered from an origin, every cell from 1. -/
@[ext] structure Target where
  origin : Nat
  body : List Atom
  cells : Cells

namespace Target

def first (target : Target) : Option CellAddress → Nat
  | none => target.origin
  | some _ => 1

def space (target : Target) : Option CellAddress → Option (List Atom)
  | none => some target.body
  | some address => target.cells address

/-- The target with other units in one space. -/
def write (target : Target) (cell : Option CellAddress) (atoms : List Atom) : Target :=
  match cell with
  | none => { target with body := atoms }
  | some address =>
      { target with cells := fun other => if other = address then some atoms else target.cells other }

/-- The target with further cells in it. -/
def withCells (target : Target) (cells : Cells) : Target :=
  { target with cells := fun address => (cells address).or (target.cells address) }

/-- An index between the first of a space and the one just past its last unit. -/
def Within (target : Target) (cell : Option CellAddress) (atoms : List Atom) (index : Nat) : Prop :=
  target.first cell ≤ index ∧ index ≤ target.first cell+atoms.length

instance (target : Target) (cell : Option CellAddress) (atoms : List Atom) (index : Nat) :
    Decidable (target.Within cell atoms index) := inferInstanceAs (Decidable (_ ∧ _))

def insert (target : Target) (location : Location) (atoms : List Atom) : Option Target := do
  let old ← target.space location.cell
  let place := location.index-target.first location.cell
  if target.Within location.cell old location.index then
    some (target.write location.cell (old.take place ++ atoms ++ old.drop place))
  else none

def restyle (target : Target) (span : Span) (change : Atom → Atom) : Option Target := do
  let old ← target.space span.cell
  if target.Within span.cell old span.start ∧ target.Within span.cell old span.stop then
    some (target.write span.cell (old.mapIdx fun place atom =>
      let index := target.first span.cell+place
      if span.start ≤ index ∧ index < span.stop then change atom else atom))
  else none

/-- The empty cells that a new table opens. -/
def emptyCells (start rows columns : Nat) : Cells := fun address =>
  if address.tableStart = start ∧ address.row < rows ∧ address.column < columns then some []
  else none

/-- None of the cells of a new table is open yet. -/
def Vacant (target : Target) (start rows columns : Nat) : Prop :=
  ∀ row < rows, ∀ column < columns, target.cells ⟨start, row, column⟩ = none

instance (target : Target) (start rows columns : Nat) :
    Decidable (target.Vacant start rows columns) :=
  inferInstanceAs (Decidable (∀ row < rows, ∀ column < columns, _))

/-- One request, if it is admitted. -/
def apply (unit : LengthUnit) (target : Target) : Request → Option Target
  | .insertText location text =>
      target.insert location ((unit.codes text).map fun code => .plain (.code code))
  | .insertInlineImage location uri => target.insert location [.plain (.image uri)]
  | .insertTable rows columns location =>
      if target.Vacant location.index rows columns then
        (target.insert location [.plain (.table rows columns)]).map
          (·.withCells (emptyCells location.index rows columns))
      else none
  | .updateTextStyle span style _ => target.restyle span fun atom => { atom with textStyle := style }
  | .updateParagraphStyle span style _ =>
      target.restyle span fun atom => { atom with paragraphStyle := style }

/-- Requests in order, if all of them are admitted. -/
def replay (unit : LengthUnit) (target : Target) (requests : List Request) : Option Target :=
  requests.foldlM (apply unit) target

@[simp] theorem first_write (target : Target) (cell other : Option CellAddress)
    (atoms : List Atom) : (target.write cell atoms).first other = target.first other := by
  cases cell <;> cases other <;> rfl

@[simp] theorem first_withCells (target : Target) (cells : Cells) (cell : Option CellAddress) :
    (target.withCells cells).first cell = target.first cell := by
  cases cell <;> rfl

@[simp] theorem space_write (target : Target) (cell : Option CellAddress) (atoms : List Atom) :
    (target.write cell atoms).space cell = some atoms := by
  cases cell <;> simp [write, space]

@[simp] theorem write_write (target : Target) (cell : Option CellAddress) (atoms more : List Atom) :
    (target.write cell atoms).write cell more = target.write cell more := by
  cases cell with
  | none => rfl
  | some address =>
    simp only [write, mk.injEq, true_and]
    funext other
    split_ifs <;> rfl

theorem write_self {target : Target} {cell : Option CellAddress} {atoms : List Atom}
    (h : target.space cell = some atoms) : target.write cell atoms = target := by
  cases cell with
  | none =>
    have hb : target.body = atoms := Option.some.inj h
    simp [write, ← hb]
  | some address =>
    have hc : target.cells address = some atoms := h
    refine Target.ext rfl rfl ?_
    funext other
    by_cases ho : other = address
    · simp [write, ho, hc]
    · simp [write, ho]

theorem replay_append (unit : LengthUnit) (target : Target) (as bs : List Request) :
    target.replay unit (as ++ bs) = target.replay unit as >>= fun next => next.replay unit bs := by
  simp [replay, List.foldlM_append]

theorem insert_between {target : Target} {cell : Option CellAddress} {before after : List Atom}
    {index : Nat} (hs : target.space cell = some (before ++ after))
    (hi : index = target.first cell+before.length) (atoms : List Atom) :
    target.insert ⟨index, cell⟩ atoms = some (target.write cell (before ++ atoms ++ after)) := by
  have hw : target.Within cell (before ++ after) index := by
    simp only [Within, List.length_append]
    omega
  have hp : index-target.first cell = before.length := by omega
  simp [insert, hs, hw, hp]

theorem apply_insertTable {unit : LengthUnit} {target next : Target} {rows columns : Nat}
    {location : Location} (h : target.Vacant location.index rows columns)
    (hi : target.insert location [.plain (.table rows columns)] = some next) :
    target.apply unit (.insertTable rows columns location) =
      some (next.withCells (emptyCells location.index rows columns)) := by
  rw [apply, if_pos h, hi]
  rfl

private theorem mapIdx_of_forall {α : Type} (f : Nat → α → α) (g : α → α) (as : List α)
    (h : ∀ i a, i < as.length → f i a = g a) : as.mapIdx f = as.map g := by
  apply List.ext_getElem
  · simp
  · intro i hi _
    simp [h i _ (by simpa using hi)]

theorem restyle_between {target : Target} {cell : Option CellAddress}
    {before middle after : List Atom} {start stop : Nat}
    (hs : target.space cell = some (before ++ middle ++ after))
    (hi : start = target.first cell+before.length) (hj : stop = start+middle.length)
    (change : Atom → Atom) :
    target.restyle ⟨start, stop, cell⟩ change =
      some (target.write cell (before ++ middle.map change ++ after)) := by
  have hw : target.Within cell (before ++ middle ++ after) start := by
    simp only [Within, List.length_append]
    omega
  have hw' : target.Within cell (before ++ middle ++ after) stop := by
    simp only [Within, List.length_append]
    omega
  -- Only the places of the middle part are between the ends of the span.
  have hm : (before ++ middle ++ after).mapIdx (fun place atom =>
      if start ≤ target.first cell+place ∧ target.first cell+place < stop
      then change atom else atom) = before ++ middle.map change ++ after := by
    rw [List.mapIdx_append, List.mapIdx_append]
    congr 1
    · congr 1
      · rw [mapIdx_of_forall _ id, List.map_id]
        intro i a h
        rw [if_neg (by omega)]
        rfl
      · apply mapIdx_of_forall
        intro i a h
        rw [if_pos (by omega)]
    · rw [mapIdx_of_forall _ id, List.map_id]
      intro i a h
      rw [List.length_append, if_neg (by omega)]
      rfl
  simp only [restyle, hs, Option.bind_eq_bind, Option.bind_some, hw, hw', and_self, if_true, hm]

end Target
end EditScript
