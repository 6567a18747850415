import EditScript.Json.Tree

namespace EditScript

/-- How the input stops: at its end, or because the stream failed. -/
inductive Ending where
  | ended
  | failed
  deriving DecidableEq

/-- The fault of text that stops before it is complete. -/
def Ending.fault : Ending → Fault
  | .ended => .truncated
  | .failed => .interrupted

/-- Input as far as it is JSON: its value, and the fault after it. -/
structure Scan where
  tree : Tree
  rest : Option Fault

namespace Scan

/-- A container that is open around the place read, with its finished parts in reverse. -/
inductive Frame where
  | array (items : List Tree)
  | object (members : List (Quoted × Tree)) (key : Quoted)

/-- The part of a number that was read last. -/
inductive Phase where
  | minus
  | zero
  | whole
  | point
  | fraction
  | mark
  | sign (negative : Bool)
  | exponent (negative : Bool)

def Phase.final : Phase → Bool
  | .zero | .whole | .fraction | .exponent _ => true
  | .minus | .point | .mark | .sign _ => false

/-- The part of an escape that was read last; of a `\u` unit the bytes so far and their value as
hexadecimal digits. -/
inductive Escape where
  | none
  | backslash
  | unit (bytes : Nat) (value : Option Nat)

/-- What is expected next. Finished parts are in reverse. -/
inductive Mode where
  | value
  | firstItem
  | afterItem (items : List Tree)
  | firstMember
  | nextKey (members : List (Quoted × Tree))
  | colon (members : List (Quoted × Tree)) (key : Quoted)
  | afterMember (members : List (Quoted × Tree))
  | literal (rest : List Char) (tree : Tree)
  | numeral (numeral : Numeral) (phase : Phase)
  | text (pieces : List Piece) (escape : Escape)
  | key (members : List (Quoted × Tree)) (pieces : List Piece) (escape : Escape)
  | complete (tree : Tree)

/-- The machine: reading, or past a fault with the tree that it leaves. -/
inductive State where
  | reading (frames : List Frame) (mode : Mode)
  | over (tree : Tree)

/-- The open containers closed around a tree that broke off. -/
def close (fault : Fault) : List Frame → Tree → Tree
  | [], tree => tree
  | .array items :: frames, tree => close fault frames (.array (tree :: items).reverse (some fault))
  | .object members key :: frames, tree =>
      close fault frames (.object ((key, tree) :: members).reverse (some fault))

/-- The tree of input that breaks off in this mode. A comma is always followed by an item or a
member, if only by an absent one. -/
def stop (fault : Fault) (frames : List Frame) : Mode → Tree
  | .value => close fault frames (.absent fault)
  | .firstItem => close fault frames (.array [] (some fault))
  | .afterItem items => close fault frames (.array items.reverse (some fault))
  | .firstMember => close fault frames (.object [] (some fault))
  | .nextKey members =>
      close fault frames
        (.object ((⟨[], some fault⟩, .absent fault) :: members).reverse (some fault))
  | .colon members key =>
      close fault frames (.object ((key, .absent fault) :: members).reverse (some fault))
  | .afterMember members => close fault frames (.object members.reverse (some fault))
  | .literal _ _ => close fault frames (.brokenLiteral fault)
  | .numeral numeral _ => close fault frames (.brokenNumeral numeral fault)
  | .text pieces _ => close fault frames (.string ⟨pieces.reverse, some fault⟩)
  | .key members pieces _ =>
      close fault frames
        (.object ((⟨pieces.reverse, some fault⟩, .absent fault) :: members).reverse (some fault))
  | .complete tree => tree

/-- The input is no JSON from here on. -/
def refuse (frames : List Frame) (mode : Mode) : State := .over (stop .malformed frames mode)

/-- A whole value takes its place in the innermost open container. -/
def plug : List Frame → Tree → State
  | [], tree => .reading [] (.complete tree)
  | .array items :: frames, tree => .reading frames (.afterItem (tree :: items))
  | .object members key :: frames, tree => .reading frames (.afterMember ((key, tree) :: members))

def isBlank (c : Char) : Bool := c = ' ' ∨ c = '\t' ∨ c = '\n' ∨ c = '\r'

def digit? (c : Char) : Option Nat := if c.isDigit then some (c.toNat-48) else none

def hexDigit? (c : Char) : Option Nat :=
  if c.isDigit then some (c.toNat-48)
  else if 'a' ≤ c ∧ c ≤ 'f' then some (c.toNat-87)
  else if 'A' ≤ c ∧ c ≤ 'F' then some (c.toNat-55)
  else none

def escaped? : Char → Option Char
  | '"' => some '"'
  | '\\' => some '\\'
  | '/' => some '/'
  | 'b' => some '\x08'
  | 'f' => some '\x0c'
  | 'n' => some '\n'
  | 'r' => some '\r'
  | 't' => some '\t'
  | _ => none

def begin (frames : List Frame) (c : Char) : State :=
  if c = 'n' then .reading frames (.literal ['u', 'l', 'l'] .null)
  else if c = 't' then .reading frames (.literal ['r', 'u', 'e'] (.bool true))
  else if c = 'f' then .reading frames (.literal ['a', 'l', 's', 'e'] (.bool false))
  else if c = '"' then .reading frames (.text [] .none)
  else if c = '[' then .reading frames .firstItem
  else if c = '\x7b' then .reading frames .firstMember
  else if c = '-' then .reading frames (.numeral ⟨true, 0, 0, 0, true⟩ .minus)
  else match digit? c with
    | some 0 => .reading frames (.numeral ⟨false, 0, 0, 0, true⟩ .zero)
    | some d => .reading frames (.numeral ⟨false, d, 0, 0, true⟩ .whole)
    | none => refuse frames .value

def separate (frames : List Frame) (mode : Mode) (c : Char) : State :=
  if isBlank c then .reading frames mode
  else match mode with
    | .value => begin frames c
    | .firstItem =>
        if c = ']' then plug frames (.array [] none) else begin (.array [] :: frames) c
    | .afterItem items =>
        if c = ',' then .reading (.array items :: frames) .value
        else if c = ']' then plug frames (.array items.reverse none)
        else refuse frames mode
    | .firstMember =>
        if c = '\x7d' then plug frames (.object [] none)
        else if c = '"' then .reading frames (.key [] [] .none)
        else refuse frames mode
    | .nextKey members =>
        if c = '"' then .reading frames (.key members [] .none) else refuse frames mode
    | .colon members key =>
        if c = ':' then .reading (.object members key :: frames) .value else refuse frames mode
    | .afterMember members =>
        if c = ',' then .reading frames (.nextKey members)
        else if c = '\x7d' then plug frames (.object members.reverse none)
        else refuse frames mode
    | _ => refuse frames mode

/-- What a symbol does to a number: it goes on, it ended before the symbol, or it breaks off. -/
inductive Growth where
  | more (numeral : Numeral) (phase : Phase)
  | done
  | broken

def grow (n : Numeral) (phase : Phase) (c : Char) : Growth :=
  let isMark := c = 'e' ∨ c = 'E'
  match phase, digit? c with
  | .minus, some 0 => .more n .zero
  | .minus, some d => .more (n.wholeDigit d) .whole
  | .minus, none => .broken
  | .zero, some _ => .broken
  | .whole, some d => .more (n.wholeDigit d) .whole
  | .zero, none | .whole, none =>
      if c = '.' then .more n.parted .point
      else if isMark then .more n.parted .mark
      else .done
  | .point, some d | .fraction, some d => .more (n.fractionDigit d) .fraction
  | .point, none => .broken
  | .fraction, none => if isMark then .more n .mark else .done
  | .mark, some d => .more (n.exponentDigit false d) (.exponent false)
  | .mark, none =>
      if c = '+' then .more n (.sign false)
      else if c = '-' then .more n (.sign true)
      else .broken
  | .sign negative, some d | .exponent negative, some d =>
      .more (n.exponentDigit negative d) (.exponent negative)
  | .sign _, none => .broken
  | .exponent _, none => .done

/-- What a symbol does to a string: it goes on, it closes, or it breaks off. -/
inductive Lengthening where
  | more (pieces : List Piece) (escape : Escape)
  | closed
  | broken

/-- One more symbol of a string. A `\u` unit takes four bytes before it is looked at. -/
def lengthen (pieces : List Piece) : Escape → Symbol → Lengthening
  | .none, .char c =>
      if c = '"' then .closed
      else if c = '\\' then .more pieces .backslash
      else if c.toNat < 32 then .broken
      else .more (.symbol (.char c) :: pieces) .none
  | .none, .stray byte => .more (.symbol (.stray byte) :: pieces) .none
  | .backslash, .char c =>
      if c = 'u' then .more pieces (.unit 0 (some 0))
      else match escaped? c with
        | some e => .more (.escaped e :: pieces) .none
        | none => .broken
  | .backslash, .stray _ => .broken
  | .unit bytes value, symbol =>
      let bytes := bytes+symbol.width
      let value := match symbol with
        | .char c => value.bind fun v => (hexDigit? c).map (16*v+·)
        | .stray _ => none
      if bytes < 4 then .more pieces (.unit bytes value)
      else match value with
        | some v => .more (.unit v :: pieces) .none
        | none => .broken

/-- A character between tokens, where the machine has just been brought. -/
def State.separate : State → Symbol → State
  | .reading frames mode, .char c => Scan.separate frames mode c
  | .reading frames mode, .stray _ => refuse frames mode
  | .over tree, _ => .over tree

def step : State → Symbol → State
  | .over tree, _ => .over tree
  | .reading frames mode, symbol => match mode with
    | .literal rest tree => match rest, symbol with
      | [], _ => (plug frames tree).separate symbol
      | [last], .char c => if c = last then plug frames tree else refuse frames mode
      | next :: rest, .char c =>
          if c = next then .reading frames (.literal rest tree) else refuse frames mode
      | _, .stray _ => refuse frames mode
    | .numeral n phase => match symbol with
      | .char c => match grow n phase c with
        | .more n phase => .reading frames (.numeral n phase)
        | .done => (plug frames (.numeral n)).separate symbol
        | .broken => refuse frames mode
      | .stray _ =>
          if phase.final then (plug frames (.numeral n)).separate symbol else refuse frames mode
    | .text pieces escape => match lengthen pieces escape symbol with
      | .more pieces escape => .reading frames (.text pieces escape)
      | .closed => plug frames (.string ⟨pieces.reverse, none⟩)
      | .broken => refuse frames mode
    | .key members pieces escape => match lengthen pieces escape symbol with
      | .more pieces escape => .reading frames (.key members pieces escape)
      | .closed => .reading frames (.colon members ⟨pieces.reverse, none⟩)
      | .broken => refuse frames mode
    | _ => (State.reading frames mode).separate symbol

def start : State := .reading [] .value

def run (state : State) (symbols : List Symbol) : State := symbols.foldl step state

/-- A number that may end is complete at the end of the input, but not where a stream fails. -/
def settle (ending : Ending) : State → State
  | .reading frames (.numeral n phase) =>
      if phase.final ∧ ending = .ended then plug frames (.numeral n)
      else .reading frames (.numeral n phase)
  | state => state

/-- What has been read when the input stops. -/
def finish (ending : Ending) (state : State) : Scan :=
  match settle ending state with
  | .over tree => ⟨tree, some .malformed⟩
  | .reading _ (.complete tree) =>
      ⟨tree, match ending with
        | .ended => none
        | .failed => some .interrupted⟩
  | .reading frames mode => ⟨stop ending.fault frames mode, some ending.fault⟩

def ofSymbols (symbols : List Symbol) (ending : Ending) : Scan := finish ending (run start symbols)

def ofText (text : String) : Scan := ofSymbols (Symbol.ofText text) .ended

def ofBytes (bytes : List UInt8) (ending : Ending) : Scan := ofSymbols (Symbol.ofBytes bytes) ending

end Scan
end EditScript
