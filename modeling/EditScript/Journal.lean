import EditScript.Sync

namespace EditScript.Journal

inductive Level where
  | trace
  | debug
  | info
  | warn
  deriving DecidableEq

def Level.name : Level → String
  | .trace => "TRACE"
  | .debug => "DEBUG"
  | .info => "INFO"
  | .warn => "WARN"

inductive Detail where
  | count (n : Nat)
  | flag (value : Bool)
  | text (value : String)

def Detail.toJson : Detail → Json
  | .count n => .ofNat n
  | .flag value => .bool value
  | .text value => .string value

/-- An entry opens a span of work or tells an event, inside the spans that are open around it. -/
structure Entry where
  opens : Bool
  name : String
  level : Level
  depth : Nat
  details : List (String × Detail)

def Entry.toJson (entry : Entry) : Json :=
  .object [(if entry.opens then "span" else "event", .string entry.name),
    ("level", .string entry.level.name), ("depth", .ofNat entry.depth),
    ("fields", .object (entry.details.map fun (name, detail) => (name, detail.toJson)))]

def span (level : Level) (depth : Nat) (name : String)
    (details : List (String × Detail)) : Entry :=
  ⟨true, name, level, depth, details⟩

def event (level : Level) (depth : Nat) (name : String)
    (details : List (String × Detail)) : Entry :=
  ⟨false, name, level, depth, details⟩

/-- The entries of one thing after another, as far as they are emitted. -/
def each {α : Type} (emit : Emitter α) (entries : Cursor → α → List Entry) :
    Cursor → List α → List Entry
  | _, [] => []
  | cursor, a :: as => entries cursor a ++ match emit cursor a with
      | .ok done => each emit entries { cursor with index := done.endIndex } as
      | .error _ => []

def ofInline (depth : Nat) (cursor : Cursor) : Inline → List Entry
  | .unsupported kind =>
      [event .debug depth "Skipping unsupported paragraph element"
        [("kind", .text kind), ("index", .count cursor.index)]]
  | .text _ | .object _ => []

variable {arithmetic : Arithmetic}

def ofBlock (compiler : Compiler arithmetic) (table : Emitter (Table Block))
    (ofTable : Cursor → Table Block → List Entry) (depth : Nat) (cursor : Cursor)
    (block : Block) : List Entry :=
  let emitted : List Entry := match compiler.block table cursor block with
    | .ok done =>
        [event .trace depth "Emitted element"
          [("kind", .text block.kind), ("count", .count done.requests.length)]]
    | .error _ => []
  match block with
  | .paragraph p => each compiler.inline (ofInline depth) cursor p.elements ++ emitted
  | .table t => ofTable cursor t ++ emitted
  | .unsupported kind =>
      [event .debug depth "Skipping unsupported element"
        [("kind", .text kind), ("index", .count cursor.index)]]

def ofContent (compiler : Compiler arithmetic) (table : Emitter (Table Block))
    (ofTable : Cursor → Table Block → List Entry) (depth : Nat) (cursor : Cursor)
    (content : List Block) : List Entry :=
  span .debug depth "compile_with"
    [("start_index", .count cursor.index), ("nested", .flag cursor.isNested),
      ("elements", .count content.length)] ::
  each (compiler.block table) (ofBlock compiler table ofTable (depth+1)) cursor content

def ofSlot (compiler : Compiler arithmetic) (depth : Nat) (cursor : Cursor) (slot : Table.Slot Block) :
    List Entry :=
  match slot.content with
  | none => []
  | some content =>
      let address := cursor.cellAddress slot.row slot.column
      ofContent compiler (fun _ _ => .error (.error (.nestedTable address))) (fun _ _ => []) depth
        (.inCell address) content

/-- The entries of a table: none if it stands in a cell. -/
def ofTable (compiler : Compiler arithmetic) (depth : Nat) (cursor : Cursor) (table : Table Block) :
    List Entry :=
  if cursor.isNested then []
  else event .debug depth "Emitting table"
      [("index", .count cursor.index), ("rows", .count table.rows.toNat),
        ("columns", .count table.columns.toNat)] ::
    each compiler.slot (ofSlot compiler depth) cursor table.slots

def ofCompile (compiler : Compiler arithmetic) (depth : Nat) (content : List Block)
    (cell : Option CellAddress) (start : Nat) : List Entry :=
  ofContent compiler compiler.table (ofTable compiler (depth+1)) depth ⟨start, cell⟩ content

def ofDocument (arithmetic : Arithmetic) (depth : Nat) (document : Document) (options : Options) :
    List Entry :=
  span .info depth "compile_document" [("document_id", .text (document.id.getD ""))] ::
  ofCompile (document.compiler arithmetic options) (depth+1) document.content none
    options.startIndex.toNat ++
  match document.compile arithmetic options with
  | .error _ => []
  | .ok done =>
      (if 0 < done.stats.skipped then
        [event .warn (depth+1) "Skipped unsupported elements"
          [("skipped_elements", .count done.stats.skippedElements),
            ("skipped_inline", .count done.stats.skippedInline)]]
      else []) ++
      [event .info (depth+1) "Compiled document"
        [("requests", .count done.requests.length), ("end_index", .count done.endIndex),
          ("tables", .count done.stats.tables)]]

def ofSync (arithmetic : Arithmetic) (source : Source) (options : Options)
    (result : Except (Halt SyncError) SyncReport) : List Entry :=
  span .info 0 "sync" [] ::
  (match source.load with
    | .error _ => []
    | .ok document => ofDocument arithmetic 1 document options) ++
  match result with
  | .error _ => []
  | .ok report => [event .info 1 "Replayed document" [("requests", .count report.requestsSent)]]

end EditScript.Journal
