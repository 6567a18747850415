namespace EditScript

/-- One thing read: a character, or a byte that belongs to none. -/
inductive Symbol where
  | char (c : Char)
  | stray (byte : UInt8)
  deriving DecidableEq

namespace Symbol

def width : Symbol → Nat
  | .char c => c.utf8Size
  | .stray _ => 1

def ofText (text : String) : List Symbol := text.toList.map .char

/-- The character whose bytes these ones begin with. -/
def leading? (bytes : List UInt8) : Option Char := (bytes.take 4).toByteArray.utf8DecodeChar? 0

/-- The symbols after `pending` bytes that the character before has taken. -/
def ofBytesAfter (pending : Nat) : List UInt8 → List Symbol
  | [] => []
  | byte :: bytes =>
      if 0 < pending then ofBytesAfter (pending-1) bytes
      else match leading? (byte :: bytes) with
        | some c => .char c :: ofBytesAfter (c.utf8Size-1) bytes
        | none => .stray byte :: ofBytesAfter 0 bytes

/-- Characters are taken as soon as their bytes stand there; a byte that begins none is a stray. -/
def ofBytes (bytes : List UInt8) : List Symbol := ofBytesAfter 0 bytes

def chars? : List Symbol → Option (List Char)
  | [] => some []
  | .char c :: symbols => (chars? symbols).map (c :: ·)
  | .stray _ :: _ => none

end Symbol
end EditScript
