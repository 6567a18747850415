namespace EditScript

/-- What stands at a path. -/
inductive File where
  | absent
  | directory
  | bytes (bytes : List UInt8)

inductive FileError where
  | notFound
  | isDirectory
  | notText
  deriving DecidableEq

def FileError.message : FileError → String
  | .notFound => "No such file or directory (os error 2)"
  | .isDirectory => "Is a directory (os error 21)"
  | .notText => "stream did not contain valid UTF-8"

end EditScript
