import EditScript.Proofs.Success
import EditScript.Sync

namespace EditScript

/-- There is something to insert for the element. -/
def Inline.shows : Inline → Bool
  | .text _ | .object _ => true
  | .unsupported _ => false

def Block.shows : Block → Bool
  | .paragraph p => p.elements.any Inline.shows
  | .table _ => true
  | .unsupported _ => false

/-- There is a text run, an inline object or a table in the content that is compiled. Whatever
stands in a cell stands in a table. -/
def Document.shows (document : Document) : Bool := document.content.any Block.shows

namespace Emitter
variable {α : Type} {emit : Emitter α} {cell : Option CellAddress}

theorem each_eq_nil {shows : α → Bool}
    (h : ∀ index a done, emit ⟨index, cell⟩ a = .ok done →
      (done.requests = [] ↔ shows a = false))
    {index : Nat} {as : List α} {done : Compilation}
    (hd : each emit ⟨index, cell⟩ as = .ok done) :
    done.requests = [] ↔ as.any shows = false := by
  refine each_induct (motive := fun _ as done => done.requests = [] ↔ as.any shows = false)
    ?_ ?_ hd
  · exact fun _ => iff_of_true rfl rfl
  · intro index a as first rest hf _ ih
    rw [Compilation.andThen, List.append_eq_nil_iff, h index a first hf, ih, List.any_cons,
      Bool.or_eq_false_iff]

end Emitter

namespace Compiler
open Emitter

variable {arithmetic : Arithmetic} {compiler : Compiler arithmetic} {index : Nat}
  {cell : Option CellAddress} {done : Compilation}

theorem inline_eq_nil {element : Inline}
    (h : compiler.inline ⟨index, cell⟩ element = .ok done) :
    done.requests = [] ↔ element.shows = false := by
  obtain ⟨run, stop, rfl, -, rfl⟩ | ⟨id, found, uri, stop, rfl, -, -, -, rfl⟩ |
    ⟨kind, rfl, rfl⟩ := inline_ok h
  · simp [Inline.shows]
  · simp [Inline.shows]
  · simp [Inline.shows]

theorem endIndex_of_eq_nil {elements : List Inline}
    (h : each compiler.inline ⟨index, cell⟩ elements = .ok done) :
    done.requests = [] → done.endIndex = index := by
  refine each_invariant (motive := fun index done => done.requests = [] →
    done.endIndex = index) (fun _ _ => rfl) ?_ ?_ h
  · intro index first rest hf hr he
    obtain ⟨hef, her⟩ := List.append_eq_nil_iff.mp he
    exact (hr her).trans (hf hef)
  · intro index element done hd he
    obtain ⟨run, stop, -, -, rfl⟩ | ⟨id, found, uri, stop, -, -, -, -, rfl⟩ |
      ⟨kind, -, rfl⟩ := inline_ok hd
    · cases he
    · cases he
    · rfl

theorem paragraph_eq_nil {paragraph : Paragraph}
    (h : compiler.paragraph ⟨index, cell⟩ paragraph = .ok done) :
    done.requests = [] ↔ paragraph.elements.any Inline.shows = false := by
  obtain ⟨inner, hin, rfl⟩ := paragraph_ok h
  rw [← each_eq_nil (fun _ _ _ hd => inline_eq_nil hd) hin, List.append_eq_nil_iff,
    and_iff_left_iff_imp]
  intro he
  apply if_neg
  rintro ⟨-, -, hlt⟩
  simp only [endIndex_of_eq_nil hin he] at hlt
  exact Nat.lt_irrefl _ hlt

theorem compile_eq_nil {content : List Block} {start : Nat}
    (h : compiler.compile content cell start = .ok done) :
    done.requests = [] ↔ content.any Block.shows = false := by
  refine each_eq_nil ?_ h
  intro index block done hd
  obtain ⟨p, rfl, hp⟩ | ⟨t, rfl, -, ht⟩ | ⟨kind, rfl, rfl⟩ := block_ok hd
  · exact paragraph_eq_nil hp
  · obtain ⟨-, cells, stop, -, -, rfl⟩ := table_ok ht
    simp [Block.shows]
  · simp [Block.shows]

end Compiler

def Compilation.report (done : Compilation) : SyncReport :=
  ⟨done.requests.length, done.endIndex, done.stats⟩

/-- The sink, with a record of the batches that it is handed. -/
def Sink.watched {σ : Type} (sink : Sink σ) : Sink (σ × List Batch) :=
  ⟨fun batch state =>
    ((sink.apply batch state.1).1, (sink.apply batch state.1).2, state.2 ++ [batch])⟩

structure Call where
  source : Source
  options : Options

namespace Call
variable {σ : Type} {arithmetic : Arithmetic} {call : Call} {sink : Sink σ} {state : σ}

def run (arithmetic : Arithmetic) (call : Call) (sink : Sink σ) (state : σ) :
    Except (Halt SyncError) SyncReport × σ :=
  sync arithmetic call.source call.options sink state

def runAll (arithmetic : Arithmetic) (sink : Sink σ) :
    σ → List Call → List (Except (Halt SyncError) SyncReport) × σ
  | state, [] => ([], state)
  | state, call :: calls =>
      let first := call.run arithmetic sink state
      let rest := runAll arithmetic sink first.2 calls
      (first.1 :: rest.1, rest.2)

/-- What the call compiles, if its document loads and then compiles. -/
def compiled (arithmetic : Arithmetic) (call : Call) : Except (Halt SyncError) Compilation := do
  let document ← call.source.load.mapError fun e => .error (.load e)
  (document.compile arithmetic call.options).mapError (.map .compile)

def sent (arithmetic : Arithmetic) (call : Call) : List Batch :=
  match call.compiled arithmetic with
  | .ok done => if done.requests = [] then [] else [⟨done.requests⟩]
  | .error _ => []

theorem compiled_ok {done : Compilation} : call.compiled arithmetic = .ok done ↔
    ∃ document, call.source.load = .ok document ∧
      document.compile arithmetic call.options = .ok done := by
  simp only [compiled, Outcome.bind_eq_ok, Outcome.mapError_eq_ok]

/-- What becomes of a call. If its document does not load or compile, or compiles to nothing, it
leaves every sink alone; otherwise it hands its requests over, and succeeds if the sink takes
them. -/
theorem run_cases (call : Call) (arithmetic : Arithmetic) :
    (∃ e, call.compiled arithmetic = .error e ∧ call.sent arithmetic = [] ∧
      ∀ {σ : Type} (sink : Sink σ) (state : σ),
        call.run arithmetic sink state = (.error e, state)) ∨
    (∃ done, call.compiled arithmetic = .ok done ∧ done.requests = [] ∧ call.sent arithmetic = [] ∧
      ∀ {σ : Type} (sink : Sink σ) (state : σ),
        call.run arithmetic sink state = (.ok done.report, state)) ∨
    ∃ done, call.compiled arithmetic = .ok done ∧ done.requests ≠ [] ∧
      call.sent arithmetic = [⟨done.requests⟩] ∧
      ∀ {σ : Type} (sink : Sink σ) (state : σ), call.run arithmetic sink state =
        (((sink.apply ⟨done.requests⟩ state).1.mapError fun reason => .error (.replay reason)).map
            fun _ => done.report,
          (sink.apply ⟨done.requests⟩ state).2) := by
  simp only [sent, run, sync]
  cases h : call.compiled arithmetic with
  | error e =>
    refine .inl ⟨e, rfl, rfl, ?_⟩
    intro σ sink state
    rw [compiled] at h
    cases hl : call.source.load with
    | error cause =>
      rw [hl] at h
      obtain rfl := Except.error.inj h
      rfl
    | ok document =>
      rw [hl] at h
      cases hc : document.compile arithmetic call.options with
      | error cause =>
        simp only [Except.mapError, Outcome.ok_bind, hc] at h
        obtain rfl := Except.error.inj h
        simp only [hc]
      | ok done =>
        simp only [Except.mapError, Outcome.ok_bind, hc] at h
        cases h
  | ok done =>
    obtain ⟨document, hl, hc⟩ := compiled_ok.mp h
    by_cases hn : done.requests = []
    · refine .inr (.inl ⟨done, rfl, hn, if_pos hn, ?_⟩)
      intro σ sink state
      simp only [hl, hc, hn, List.isEmpty_nil, if_true]
      rw [← hn]
      rfl
    · refine .inr (.inr ⟨done, rfl, hn, if_neg hn, ?_⟩)
      intro σ sink state
      have he : ¬done.requests.isEmpty := by simpa using hn
      simp only [hl, hc, if_neg he, Compilation.toBatch]
      rcases sink.apply ⟨done.requests⟩ state with ⟨reason | ⟨⟩, next⟩
      · rfl
      · rfl

theorem run_recording (call : Call) (batches : List Batch) :
    call.run arithmetic .recording batches =
      ((call.compiled arithmetic).map Compilation.report, batches ++ call.sent arithmetic) := by
  obtain ⟨e, h, hs, hr⟩ | ⟨done, h, -, hs, hr⟩ | ⟨done, h, -, hs, hr⟩ := call.run_cases arithmetic
  · rw [hr, h, hs, List.append_nil]
    rfl
  · rw [hr, h, hs, List.append_nil]
    rfl
  · rw [hr, h, hs]
    rfl

theorem runAll_recording (calls : List Call) (batches : List Batch) :
    runAll arithmetic .recording batches calls =
      (calls.map fun call => (call.compiled arithmetic).map Compilation.report,
        batches ++ calls.flatMap (sent arithmetic)) := by
  induction calls generalizing batches with
  | nil => simp [runAll]
  | cons call calls ih => simp [runAll, run_recording, ih]

theorem run_watched (call : Call) (sink : Sink σ) (state : σ) (seen : List Batch) :
    call.run arithmetic sink.watched (state, seen) =
      ((call.run arithmetic sink state).1, (call.run arithmetic sink state).2,
        seen ++ call.sent arithmetic) := by
  obtain ⟨e, -, hs, hr⟩ | ⟨done, -, -, hs, hr⟩ | ⟨done, -, -, hs, hr⟩ := call.run_cases arithmetic
  · rw [hr, hr, hs, List.append_nil]
  · rw [hr, hr, hs, List.append_nil]
  · rw [hr, hr, hs]
    rfl

theorem compiled_load {e : ModelError} :
    call.compiled arithmetic = .error (.error (.load e)) ↔ call.source.load = .error e := by
  simp only [compiled]
  cases call.source.load with
  | error other => simp [Except.mapError]
  | ok document =>
    cases hc : document.compile arithmetic call.options with
    | error halt => cases halt <;> simp [Except.mapError, hc]
    | ok done => simp [Except.mapError, hc]

theorem compiled_compile {halt : Halt CompileError} :
    call.compiled arithmetic = .error (halt.map .compile) ↔
      ∃ document, call.source.load = .ok document ∧
        document.compile arithmetic call.options = .error halt := by
  simp only [compiled]
  cases call.source.load with
  | error other => cases halt <;> simp [Except.mapError]
  | ok document =>
    cases hc : document.compile arithmetic call.options with
    | error other => cases halt <;> cases other <;> simp [Except.mapError, hc]
    | ok done => simp [Except.mapError, hc]

theorem compiled_replay (call : Call) (reason : String) :
    call.compiled arithmetic ≠ .error (.error (.replay reason)) := by
  simp only [compiled]
  cases call.source.load with
  | error other => simp [Except.mapError]
  | ok document =>
    cases hc : document.compile arithmetic call.options with
    | error halt => cases halt <;> simp [Except.mapError, hc]
    | ok done => simp [Except.mapError, hc]

theorem run_eq_error {halt : Halt SyncError} (he : ∀ reason, halt ≠ .error (.replay reason)) :
    (call.run arithmetic sink state).1 = .error halt ↔ call.compiled arithmetic = .error halt := by
  obtain ⟨other, h, -, hr⟩ | ⟨done, h, -, -, hr⟩ | ⟨done, h, -, -, hr⟩ := call.run_cases arithmetic
  · simp [hr, h]
  · simp [hr, h]
  · rw [hr, h]
    refine iff_of_false ?_ (by simp)
    cases (sink.apply ⟨done.requests⟩ state).1 with
    | ok => simp [Except.mapError]
    | error reason => simpa [Except.mapError] using (he reason).symm

theorem run_eq_replay {reason : String} :
    (call.run arithmetic sink state).1 = .error (.error (.replay reason)) ↔
    ∃ batch ∈ call.sent arithmetic, (sink.apply batch state).1 = .error reason := by
  obtain ⟨e, h, hs, hr⟩ | ⟨done, -, -, hs, hr⟩ | ⟨done, -, -, hs, hr⟩ := call.run_cases arithmetic
  · rw [hr, hs]
    refine iff_of_false ?_ (by simp)
    intro he
    obtain rfl := Except.error.inj he
    exact compiled_replay call reason h
  · simp [hr, hs]
  · rw [hr, hs]
    cases ha : (sink.apply ⟨done.requests⟩ state).1 <;> simp [Except.mapError, ha]

theorem run_eq_ok {report : SyncReport} : (call.run arithmetic sink state).1 = .ok report ↔
    ∃ done, call.compiled arithmetic = .ok done ∧ report = done.report ∧
      ∀ batch ∈ call.sent arithmetic, (sink.apply batch state).1 = .ok () := by
  obtain ⟨e, h, -, hr⟩ | ⟨done, h, -, hs, hr⟩ | ⟨done, h, -, hs, hr⟩ := call.run_cases arithmetic
  · simp [hr, h]
  · simp [hr, h, hs, eq_comm]
  · rw [hr, h, hs]
    cases ha : (sink.apply ⟨done.requests⟩ state).1 <;> simp [Except.mapError, ha, eq_comm]

/-- A call sends something exactly if its document is there, can be compiled and shows something. -/
theorem mem_sent {batch : Batch} : batch ∈ call.sent arithmetic ↔
    ∃ document done, call.source.load = .ok document ∧
      document.compile arithmetic call.options = .ok done ∧ document.shows ∧
        batch = ⟨done.requests⟩ := by
  have hshows : ∀ {document : Document} {done : Compilation},
      document.compile arithmetic call.options = .ok done →
        (document.shows ↔ done.requests ≠ []) := by
    intro document done hc
    rw [Ne, Compiler.compile_eq_nil hc, Bool.not_eq_false]
    rfl
  have hunique : ∀ {document : Document} {done other : Compilation},
      call.compiled arithmetic = .ok done → call.source.load = .ok document →
      document.compile arithmetic call.options = .ok other → other = done := by
    intro document done other h hl hc
    exact Except.ok.inj ((compiled_ok.mpr ⟨document, hl, hc⟩).symm.trans h)
  obtain ⟨e, h, hs, -⟩ | ⟨done, h, hn, hs, -⟩ | ⟨done, h, hn, hs, -⟩ := call.run_cases arithmetic
  · rw [hs]
    refine iff_of_false List.not_mem_nil ?_
    rintro ⟨document, done, hl, hc, -⟩
    rw [compiled_ok.mpr ⟨document, hl, hc⟩] at h
    cases h
  · rw [hs]
    refine iff_of_false List.not_mem_nil ?_
    rintro ⟨document, other, hl, hc, hshow, -⟩
    obtain rfl := hunique h hl hc
    exact (hshows hc).mp hshow hn
  · rw [hs, List.mem_singleton]
    constructor
    · rintro rfl
      obtain ⟨document, hl, hc⟩ := compiled_ok.mp h
      exact ⟨document, done, hl, hc, (hshows hc).mpr hn, rfl⟩
    · rintro ⟨document, other, hl, hc, -, rfl⟩
      rw [hunique h hl hc]

theorem length_sent_le (call : Call) : (call.sent arithmetic).length ≤ 1 := by
  obtain ⟨e, -, hs, -⟩ | ⟨done, -, -, hs, -⟩ | ⟨done, -, -, hs, -⟩ := call.run_cases arithmetic
  · simp [hs]
  · simp [hs]
  · simp [hs]

theorem run_state (call : Call) (sink : Sink σ) (state : σ) : (call.run arithmetic sink state).2 =
    (call.sent arithmetic).foldl (fun state batch => (sink.apply batch state).2) state := by
  obtain ⟨e, -, hs, hr⟩ | ⟨done, -, -, hs, hr⟩ | ⟨done, -, -, hs, hr⟩ := call.run_cases arithmetic
  · rw [hr, hs, List.foldl_nil]
  · rw [hr, hs, List.foldl_nil]
  · rw [hr, hs, List.foldl_cons, List.foldl_nil]

end Call

theorem Batch.requestCount_append (batches more : List Batch) :
    requestCount (batches ++ more) = requestCount batches+requestCount more := by
  induction batches with
  | nil => simp [requestCount]
  | cons batch batches ih =>
    simp only [requestCount, List.cons_append, List.foldr_cons] at ih ⊢
    rw [ih, Nat.add_assoc]

def SyncReport.total (results : List (Except (Halt SyncError) SyncReport)) : Nat :=
  ((results.filterMap Except.toOption).map requestsSent).sum

theorem SyncReport.total_cons (result : Except (Halt SyncError) SyncReport)
    (results : List (Except (Halt SyncError) SyncReport)) :
    total (result :: results) = total [result]+total results := by
  cases result with
  | error e => exact (Nat.zero_add _).symm
  | ok report => simp [total, Except.toOption]

namespace Call

theorem requestCount_sent (call : Call) :
    Batch.requestCount (call.sent arithmetic) =
      SyncReport.total [(call.compiled arithmetic).map Compilation.report] := by
  obtain ⟨e, h, hs, -⟩ | ⟨done, h, hn, hs, -⟩ | ⟨done, h, -, hs, -⟩ := call.run_cases arithmetic
  · rw [h, hs]
    rfl
  · rw [h, hs]
    simp [Batch.requestCount, SyncReport.total, Except.toOption, Compilation.report, hn]
  · rw [h, hs]
    rfl

theorem requestCount_flatMap_sent (calls : List Call) :
    Batch.requestCount (calls.flatMap (sent arithmetic)) =
      SyncReport.total (calls.map fun call => (call.compiled arithmetic).map Compilation.report) := by
  induction calls with
  | nil => rfl
  | cons call calls ih =>
    rw [List.flatMap_cons, Batch.requestCount_append, requestCount_sent, ih, List.map_cons,
      ← SyncReport.total_cons]

/-- How a call deals with a sink. -/
structure Delivers {σ : Type} (arithmetic : Arithmetic) (call : Call) (sink : Sink σ) (state : σ) :
    Prop where
  /-- Watched or not, it does the same, and it hands over just what it sends. -/
  watched : ∀ seen, call.run arithmetic sink.watched (state, seen) =
    ((call.run arithmetic sink state).1, (call.run arithmetic sink state).2,
      seen ++ call.sent arithmetic)
  /-- It sends at most one batch. -/
  once : (call.sent arithmetic).length ≤ 1
  /-- It sends all requests of its document, exactly if that compiles and shows something. -/
  whole : ∀ batch, batch ∈ call.sent arithmetic ↔ ∃ document done, call.source.load = .ok document ∧
    document.compile arithmetic call.options = .ok done ∧ document.shows ∧ batch = ⟨done.requests⟩
  /-- Nothing else changes the state of the sink. -/
  state_eq : (call.run arithmetic sink state).2 =
    (call.sent arithmetic).foldl (fun state batch => (sink.apply batch state).2) state
  load : ∀ e, (call.run arithmetic sink state).1 = .error (.error (.load e)) ↔
    call.source.load = .error e
  compile : ∀ halt, (call.run arithmetic sink state).1 = .error (halt.map .compile) ↔
    ∃ document, call.source.load = .ok document ∧
      document.compile arithmetic call.options = .error halt
  replay : ∀ reason, (call.run arithmetic sink state).1 = .error (.error (.replay reason)) ↔
    ∃ batch ∈ call.sent arithmetic, (sink.apply batch state).1 = .error reason
  ok : ∀ report, (call.run arithmetic sink state).1 = .ok report ↔
    ∃ document done, call.source.load = .ok document ∧
      document.compile arithmetic call.options = .ok done ∧ report = done.report ∧
      ∀ batch ∈ call.sent arithmetic, (sink.apply batch state).1 = .ok ()

/-- Calls that share a sink which keeps everything leave in it, in their order, the batches of those
that compile to at least one request, report what they compile to, and report as many requests as
the sink gains. With any sink, a call hands over the whole compiled document once, or nothing. -/
theorem replays_whole_once_or_not (arithmetic : Arithmetic) :
    (∀ (calls : List Call) (batches : List Batch),
      let done := runAll arithmetic .recording batches calls
      done.2 = batches ++ calls.flatMap (sent arithmetic) ∧
      done.1 = calls.map (fun call => (call.compiled arithmetic).map Compilation.report) ∧
      Batch.requestCount done.2 = Batch.requestCount batches+SyncReport.total done.1) ∧
    ∀ {σ : Type} (call : Call) (sink : Sink σ) (state : σ), call.Delivers arithmetic sink state := by
  constructor
  · intro calls batches
    rw [runAll_recording]
    refine ⟨rfl, rfl, ?_⟩
    rw [Batch.requestCount_append, requestCount_flatMap_sent]
  · intro σ call sink state
    refine ⟨call.run_watched sink state, call.length_sent_le, fun _ => mem_sent,
      call.run_state sink state, ?_, ?_, fun _ => run_eq_replay, ?_⟩
    · intro e
      rw [run_eq_error (by simp), compiled_load]
    · intro halt
      rw [run_eq_error (by cases halt <;> simp), compiled_compile]
    · intro report
      rw [run_eq_ok]
      constructor
      · rintro ⟨done, h, hr, ha⟩
        obtain ⟨document, hl, hc⟩ := compiled_ok.mp h
        exact ⟨document, done, hl, hc, hr, ha⟩
      · rintro ⟨document, done, hl, hc, hr, ha⟩
        exact ⟨done, compiled_ok.mpr ⟨document, hl, hc⟩, hr, ha⟩

end Call
end EditScript
