import EditScript.Json.Scan

namespace EditScript

/-- Why reading stopped. -/
inductive ReadError where
  | fault (fault : Fault)
  | invalidType
  | invalidValue
  | invalidLength
  | missingField (name : String)
  | duplicateField (name : String)
  | unknownVariant (name : String)
  deriving DecidableEq

namespace ReadError

def malformed : ReadError := .fault .malformed

def message : ReadError → String
  | .fault .malformed | .fault .truncated => "syntax"
  | .fault .interrupted => "io"
  | .invalidType => "invalid type"
  | .invalidValue => "invalid value"
  | .invalidLength => "invalid length"
  | .missingField name => "missing field `" ++ name ++ "`"
  | .duplicateField name => "duplicate field `" ++ name ++ "`"
  | .unknownVariant name => "unknown variant `" ++ name ++ "`"

end ReadError

def Quoted.read (quoted : Quoted) : Except ReadError String := quoted.text.mapError .fault

/-- The number meant by a numeral; none is too large. -/
def Numeral.read (numeral : Numeral) : Except ReadError Number :=
  match numeral.number? with
  | some number => .ok number
  | none => .error .malformed

/-- What is wrong with a value of the wrong kind. A scalar is read before its kind is looked at, a
container is not. -/
def Tree.wrongKind : Tree → ReadError
  | .null | .bool _ | .array _ _ | .object _ _ => .invalidType
  | .numeral n => match n.read with
    | .ok _ => .invalidType
    | .error e => e
  | .string quoted => match quoted.read with
    | .ok _ => .invalidType
    | .error e => e
  | .brokenNumeral n fault => if n.tooLarge then .malformed else .fault fault
  | .brokenLiteral fault | .absent fault => .fault fault

/-- Reads a tree with a number of brackets left to open. -/
abbrev Reader (α : Type) := Nat → Tree → Except ReadError α

namespace Reader
variable {α β : Type}

/-- What is inside a bracket is read with one bracket less. -/
def enter (inside : Nat → Except ReadError α) : Nat → Except ReadError α
  | 0 => .error .malformed
  | budget+1 => inside budget

def proceed : Option Fault → Except ReadError Unit
  | none => .ok ()
  | some fault => .error (.fault fault)

def map (f : α → β) (read : Reader α) : Reader β := fun budget tree => (read budget tree).map f

def bool : Reader Bool
  | _, .bool value => .ok value
  | _, tree => .error tree.wrongKind

def string : Reader String
  | _, .string quoted => quoted.read
  | _, tree => .error tree.wrongKind

/-- A whole number of an unsigned 64-bit word. -/
def word : Reader UInt64
  | _, .numeral numeral => do
    match ← numeral.read with
    | .integer n _ => if n < 0 then .error .invalidValue else .ok (.ofNat n.toNat)
    | .double _ => .error .invalidType
  | _, tree => .error tree.wrongKind

def index : Reader Nat := map UInt64.toNat word

/-- Null reads as none. -/
def optional (read : Reader α) : Reader (Option α)
  | _, .null => .ok none
  | budget, tree => (read budget tree).map some

def list (read : Reader α) : Reader (List α)
  | budget, .array items fault => enter (fun budget => do
      let values ← items.mapM (read budget)
      proceed fault
      return values) budget
  | _, tree => .error tree.wrongKind

/-- An object of any keys; of members with one key the last counts. -/
def dict (read : Reader α) : Reader (Dict α)
  | budget, .object members fault => enter (fun budget => do
      let entries ← members.mapM fun (key, value) => do
        let name ← key.read
        return (name, ← read budget value)
      proceed fault
      return .ofList entries) budget
  | _, tree => .error tree.wrongKind

mutual

/-- Any JSON value, members as they stand in the text. -/
def value : Reader Json
  | _, .null => .ok .null
  | _, .bool b => .ok (.bool b)
  | _, .numeral numeral => numeral.read.map .number
  | _, .string quoted => quoted.read.map .string
  | 0, .array _ _ | 0, .object _ _ => .error .malformed
  | budget+1, .array items fault => do
      let items ← valueItems budget items
      proceed fault
      return .array items
  | budget+1, .object members fault => do
      let members ← valueMembers budget members
      proceed fault
      return .object members
  | _, .brokenNumeral numeral fault => .error (Tree.brokenNumeral numeral fault).wrongKind
  | _, .brokenLiteral fault | _, .absent fault => .error (.fault fault)

def valueItems (budget : Nat) : List Tree → Except ReadError (List Json)
  | [] => .ok []
  | item :: items => do
      let first ← value budget item
      return first :: (← valueItems budget items)

def valueMembers (budget : Nat) : List (Quoted × Tree) → Except ReadError (List (String × Json))
  | [] => .ok []
  | (key, member) :: members => do
      let name ← key.read
      let first ← value budget member
      return (name, first) :: (← valueMembers budget members)

end

def members : Reader (List (String × Json))
  | budget, .object members fault => enter (fun budget => do
      let members ← valueMembers budget members
      proceed fault
      return members) budget
  | _, tree => .error tree.wrongKind

/-- What a name stands for where one of several is chosen: itself, or a value that goes with it. -/
inductive Variant (α : Type) where
  | unit (a : α)
  | payload (read : Reader α)

/-- The value that goes with a variant's name. A name that needs none takes null. -/
def Variant.read : Variant α → Reader α
  | .unit a, _, .null => .ok a
  | .unit _, _, tree => .error tree.wrongKind
  | .payload read, budget, tree => read budget tree

/-- A choice by name: the bare name, or an object with that one key. -/
def choice (variant? : String → Option (Variant α)) : Reader α
  | _, .string quoted => do
      let name ← quoted.read
      match variant? name with
      | some (.unit a) => .ok a
      | some (.payload _) => .error .invalidType
      | none => .error (.unknownVariant name)
  | budget, .object members fault => enter (fun budget => match members with
      | [] => .error ((fault.map .fault).getD .malformed)
      | (key, tree) :: more => do
        let name ← key.read
        match variant? name with
        | none => .error (.unknownVariant name)
        | some variant => do
          let a ← variant.read budget tree
          match more with
          | [] => proceed fault
          | _ :: _ => .error .malformed
          return a) budget
  | _, .absent fault => .error (.fault fault)
  | _, _ => .error .malformed

end Reader

/-- Brackets that may be open at once. -/
def Scan.depthLimit : Nat := 127

/-- Reads a whole text: one value, and nothing but blanks after it. -/
def Scan.read {α : Type} (scan : Scan) (read : Reader α) : Except ReadError α := do
  let a ← read depthLimit scan.tree
  Reader.proceed scan.rest
  return a

end EditScript
