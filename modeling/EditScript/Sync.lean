import EditScript.Compile
import EditScript.Document.Reader

namespace EditScript

/-- Where a document comes from: it can be loaded from there, or fails to load for a reason. -/
structure Source where
  load : Except ModelError Document

namespace Source

def given (document : Document) : Source := ⟨.ok document⟩

def stored (file : File) : Source := ⟨Document.ofFile file⟩

end Source

/-- Where batches go: a state that takes a batch, or refuses it for a reason. -/
structure Sink (σ : Type) where
  apply : Batch → σ → Except String Unit × σ

namespace Sink

def recording : Sink (List Batch) := ⟨fun batch batches => (.ok (), batches ++ [batch])⟩

def refusing {σ : Type} (reason : String) : Sink σ := ⟨fun _ state => (.error reason, state)⟩

end Sink

def Batch.requestCount (batches : List Batch) : Nat :=
  batches.foldr (fun batch count => batch.requests.length+count) 0

inductive SyncError where
  | load (error : ModelError)
  | compile (error : CompileError)
  | replay (reason : String)
  deriving DecidableEq

def SyncError.message : SyncError → String
  | .load error => "Failed to load document: " ++ error.message
  | .compile error => "Failed to compile document: " ++ error.message
  | .replay reason => "Failed to replay requests: " ++ reason

@[ext] structure SyncReport where
  requestsSent : Nat
  endIndex : Nat
  stats : Stats
  deriving DecidableEq

/-- Loads and compiles a document and hands its requests to a sink, if there are any. -/
def sync {σ : Type} (arithmetic : Arithmetic) (source : Source) (options : Options)
    (sink : Sink σ) (state : σ) : Except (Halt SyncError) SyncReport × σ :=
  match source.load with
  | .error e => (.error (.error (.load e)), state)
  | .ok document => match document.compile arithmetic options with
    | .error halt => (.error (halt.map .compile), state)
    | .ok compilation =>
        let report : SyncReport :=
          ⟨compilation.requests.length, compilation.endIndex, compilation.stats⟩
        if compilation.requests.isEmpty then (.ok report, state)
        else match sink.apply compilation.toBatch state with
          | (.ok (), state) => (.ok report, state)
          | (.error reason, state) => (.error (.error (.replay reason)), state)

end EditScript
