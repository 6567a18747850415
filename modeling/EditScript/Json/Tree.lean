import EditScript.Json.Symbol
import EditScript.Json.Value

namespace EditScript

/-- How text breaks off: it is not JSON there, it ends too early, or the stream failed before it
could go on. -/
inductive Fault where
  | malformed
  | truncated
  | interrupted
  deriving DecidableEq

/-- The fault of a number whose meaning is not asked for: where its text ends it is malformed. -/
def Fault.skipped : Fault → Fault
  | .malformed | .truncated => .malformed
  | .interrupted => .interrupted

/-- A piece of a string between its quotes: a symbol, an escaped character or a `\u` unit. -/
inductive Piece where
  | symbol (symbol : Symbol)
  | escaped (c : Char)
  | unit (code : Nat)
  deriving DecidableEq

/-- A string as it stands in the text, closed if there is no fault. -/
structure Quoted where
  pieces : List Piece
  fault : Option Fault
  deriving DecidableEq

/-- A number as it stands in the text: `significand*10^(exponent-places)`, `places` counting the
digits after the point. It is integral if it has neither point nor exponent. -/
structure Numeral where
  negative : Bool
  significand : Nat
  places : Nat
  exponent : Int
  integral : Bool
  deriving DecidableEq

/-- JSON text with its structure found, as far as it goes. -/
inductive Tree where
  | null
  | bool (value : Bool)
  | numeral (numeral : Numeral)
  | string (quoted : Quoted)
  | array (items : List Tree) (fault : Option Fault)
  | object (members : List (Quoted × Tree)) (fault : Option Fault)
  | brokenLiteral (fault : Fault)
  | brokenNumeral (numeral : Numeral) (fault : Fault)
  /-- No value begins here. -/
  | absent (fault : Fault)

namespace Tree

instance : Inhabited Tree := ⟨.null⟩

mutual

/-- The first fault of a value whose meaning is not asked for. -/
def fault? : Tree → Option Fault
  | .null | .bool _ | .numeral _ => none
  | .string quoted => quoted.fault
  | .array items fault => (itemsFault? items).or fault
  | .object members fault => (membersFault? members).or fault
  | .brokenNumeral _ fault => some fault.skipped
  | .brokenLiteral fault | .absent fault => some fault

def itemsFault? : List Tree → Option Fault
  | [] => none
  | item :: items => (fault? item).or (itemsFault? items)

def membersFault? : List (Quoted × Tree) → Option Fault
  | [] => none
  | (key, value) :: members => key.fault.or ((fault? value).or (membersFault? members))

end

theorem membersFault?_eq_none {members : List (Quoted × Tree)} :
    membersFault? members = none ↔
      ∀ member ∈ members, member.1.fault = none ∧ member.2.fault? = none := by
  induction members with
  | nil => exact ⟨fun _ _ h => absurd h List.not_mem_nil, fun _ => rfl⟩
  | cons member members ih =>
    simp only [membersFault?, Option.or_eq_none_iff, ih, List.forall_mem_cons, and_assoc]

end Tree

namespace Numeral

def wholeDigit (n : Numeral) (d : Nat) : Numeral := { n with significand := 10*n.significand+d }

def fractionDigit (n : Numeral) (d : Nat) : Numeral :=
  { n with significand := 10*n.significand+d, places := n.places+1 }

def exponentDigit (n : Numeral) (negative : Bool) (d : Nat) : Numeral :=
  { n with exponent := if negative then 10*n.exponent-d else 10*n.exponent+d }

def parted (n : Numeral) : Numeral := { n with integral := false }

/-- Exponents above this are refused as soon as they are reached, unless all digits are zero. -/
def exponentLimit : Int := 0x7fffffff

def tooLarge (n : Numeral) : Bool := n.significand ≠ 0 ∧ exponentLimit < n.exponent

/-- The number meant: exact if it is integral, in range and not `-0`, otherwise the nearest double;
none if it lies beyond the finite doubles. -/
def number? (n : Numeral) : Option Number :=
  let whole : Int := if n.negative then -n.significand else n.significand
  if h : n.integral ∧ ¬(n.negative ∧ n.significand = 0) ∧ Number.Exact whole then
    some (.integer whole h.2.2)
  else if n.tooLarge then none
  else (Double.ofDecimal? n.negative n.significand (n.exponent-n.places)).map .double

end Numeral

/-- The piece that is found for a character as it is written. -/
def Piece.ofChar (c : Char) : Piece :=
  if c = '"' ∨ c = '\\' ∨ c = '\x08' ∨ c = '\x0c' ∨ c = '\n' ∨ c = '\r' ∨ c = '\t' then .escaped c
  else if c.toNat < 32 then .unit c.toNat
  else .symbol (.char c)

namespace Quoted

def isLeading (unit : Nat) : Bool := 0xD800 ≤ unit ∧ unit < 0xDC00

def isTrailing (unit : Nat) : Bool := 0xDC00 ≤ unit ∧ unit < 0xE000

def join (leading trailing : Nat) : Char :=
  Char.ofNat (0x10000+(leading-0xD800)*0x400+(trailing-0xDC00))

/-- The symbols of a string, two surrogates joined to one character. A surrogate without its
partner is malformed; if the string breaks off right after a leading one, that is the fault. -/
def symbols (fault : Option Fault) : List Piece → Except Fault (List Symbol)
  | [] => match fault with
    | none => .ok []
    | some fault => .error fault
  | .symbol symbol :: pieces => (symbol :: ·) <$> symbols fault pieces
  | .escaped c :: pieces => (.char c :: ·) <$> symbols fault pieces
  | .unit code :: pieces =>
      if isTrailing code then .error .malformed
      else if isLeading code then
        match pieces with
        | [] => .error (fault.getD .malformed)
        | .unit next :: pieces =>
            if isTrailing next then (.char (join code next) :: ·) <$> symbols fault pieces
            else .error .malformed
        | _ :: _ => .error .malformed
      else (.char (Char.ofNat code) :: ·) <$> symbols fault pieces

/-- The text meant. Stray bytes are found only when the string is closed. -/
def text (quoted : Quoted) : Except Fault String := do
  match Symbol.chars? (← symbols quoted.fault quoted.pieces) with
  | some chars => .ok (.ofList chars)
  | none => .error .malformed

/-- The string that is found for a text as it is written. -/
def ofText (text : String) : Quoted := ⟨text.toList.map .ofChar, none⟩

end Quoted

/-- A numeral that means the double. -/
def Double.numeral (d : Double) : Numeral :=
  if d.ordinal = 0 then ⟨d.negative, 0, 0, 0, false⟩
  else ⟨d.negative, (shortest d.ordinal).1, 0, (shortest d.ordinal).2, false⟩

def Number.numeral : Number → Numeral
  | .integer n _ => ⟨n < 0, n.natAbs, 0, 0, true⟩
  | .double d => d.numeral

namespace Json

mutual

/-- The tree of a value that was read before, so that it can be read again. -/
def toTree : Json → Tree
  | .null => .null
  | .bool value => .bool value
  | .number value => .numeral value.numeral
  | .string value => .string (.ofText value)
  | .array items => .array (itemTrees items) none
  | .object members => .object (memberTrees members) none

def itemTrees : List Json → List Tree
  | [] => []
  | item :: items => toTree item :: itemTrees items

def memberTrees : List (String × Json) → List (Quoted × Tree)
  | [] => []
  | (key, value) :: members => (.ofText key, toTree value) :: memberTrees members

end

mutual

theorem fault?_toTree : (value : Json) → value.toTree.fault? = none
  | .null | .bool _ | .number _ | .string _ => rfl
  | .array items => by simp only [toTree, Tree.fault?, itemsFault?_itemTrees items, Option.or_none]
  | .object members => by
    simp only [toTree, Tree.fault?, membersFault?_memberTrees members, Option.or_none]

theorem itemsFault?_itemTrees : (items : List Json) → Tree.itemsFault? (itemTrees items) = none
  | [] => rfl
  | item :: items => by
    simp only [itemTrees, Tree.itemsFault?, fault?_toTree item, itemsFault?_itemTrees items,
      Option.or_none]

theorem membersFault?_memberTrees :
    (members : List (String × Json)) → Tree.membersFault? (memberTrees members) = none
  | [] => rfl
  | (_, value) :: members => by
    simp only [memberTrees, Tree.membersFault?, Quoted.ofText, fault?_toTree value,
      membersFault?_memberTrees members, Option.or_none]

end

theorem itemTrees_eq_map (items : List Json) : itemTrees items = items.map toTree := by
  induction items with
  | nil => rfl
  | cons item items ih => rw [itemTrees, ih, List.map_cons]

theorem memberTrees_eq_map (members : List (String × Json)) :
    memberTrees members = members.map fun member => (.ofText member.1, member.2.toTree) := by
  induction members with
  | nil => rfl
  | cons member members ih => rw [memberTrees, ih, List.map_cons]

end Json
end EditScript
