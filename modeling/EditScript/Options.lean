import EditScript.File
import EditScript.Json.Printer
import EditScript.Json.Record
import EditScript.Position

namespace EditScript

/-- The unit in which the length of text is counted. -/
inductive LengthUnit where
  | utf16
  | chars
  deriving DecidableEq

namespace LengthUnit

def width : LengthUnit → Char → Nat
  | .utf16, c => if c.toNat < 0x10000 then 1 else 2
  | .chars, _ => 1

def measure (unit : LengthUnit) (text : String) : Nat :=
  text.toList.foldr (fun c units => unit.width c+units) 0

def name : LengthUnit → String
  | .utf16 => "utf16"
  | .chars => "chars"

def reader : Reader LengthUnit := .choice fun name =>
  if name = "utf16" then some (.unit .utf16)
  else if name = "chars" then some (.unit .chars)
  else none

end LengthUnit

@[ext] structure Options where
  /-- The index in the body at which the first request inserts. -/
  startIndex : UInt64
  lengthUnit : LengthUnit
  /-- Styles of paragraphs are set too. -/
  paragraphStyles : Bool
  deriving DecidableEq

inductive OptionsError where
  | json (error : ReadError)
  | io (error : FileError)
  deriving DecidableEq

def OptionsError.message : OptionsError → String
  | .json error => "Invalid options JSON: " ++ error.message
  | .io error => "Failed to read options: " ++ error.message

namespace Options

def fileName : String := "docsync.options.json"

def defaults : Options := ⟨.ofNat Cursor.cellStart, .utf16, false⟩

instance : Inhabited Options := ⟨defaults⟩

def reader : Reader Options :=
  .map (fun (startIndex, lengthUnit, paragraphStyles, ()) =>
      ⟨startIndex, lengthUnit, paragraphStyles⟩) (.record
    (.cons (.withDefault "startIndex" .word defaults.startIndex)
      (.cons (.withDefault "lengthUnit" LengthUnit.reader defaults.lengthUnit)
        (.cons (.withDefault "paragraphStyles" .bool defaults.paragraphStyles) .nil))))

def ofText (text : String) : Except OptionsError Options :=
  ((Scan.ofText text).read reader).mapError .json

/-- The options in a file, which must be text as a whole. -/
def ofFile : File → Except OptionsError Options
  | .absent => .ok defaults
  | .directory => .error (.io .isDirectory)
  | .bytes bytes => match Symbol.chars? (Symbol.ofBytes bytes) with
    | some chars => ofText (.ofList chars)
    | none => .error (.io .notText)

def toJson (options : Options) : Json :=
  .object [("startIndex", .ofNat options.startIndex.toNat),
    ("lengthUnit", .string options.lengthUnit.name),
    ("paragraphStyles", .bool options.paragraphStyles)]

end Options
end EditScript
