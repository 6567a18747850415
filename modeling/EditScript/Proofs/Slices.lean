import EditScript.Proofs.Walk

namespace EditScript

namespace Compilation

/-- Stretches that follow one another from an index on, as one. -/
def concat (start : Nat) (parts : List Compilation) : Compilation where
  requests := parts.flatMap requests
  endIndex := parts.getLast?.elim start endIndex
  stats :=
    { textRuns := (parts.map (·.stats.textRuns)).sum
      inlineImages := (parts.map (·.stats.inlineImages)).sum
      tables := (parts.map (·.stats.tables)).sum
      cells := (parts.map (·.stats.cells)).sum
      skippedElements := (parts.map (·.stats.skippedElements)).sum
      skippedInline := (parts.map (·.stats.skippedInline)).sum }

theorem concat_cons (start : Nat) (first : Compilation) (rest : List Compilation) :
    concat start (first :: rest) = first.andThen (concat first.endIndex rest) := by
  have hend : (first :: rest).getLast?.elim start endIndex =
      rest.getLast?.elim first.endIndex endIndex := by
    rw [List.getLast?_cons]
    cases rest.getLast? <;> rfl
  simp [concat, andThen, Stats.add_eq, hend]

end Compilation

namespace Compiler
open Emitter

variable {arithmetic : Arithmetic}

/-- Compiles slices of content one by one, each from the index at which the one before ends. -/
def compileSlices (compiler : Compiler arithmetic) (cell : Option CellAddress) :
    Nat → List (List Block) → Except (Halt CompileError) (List Compilation)
  | _, [] => .ok []
  | start, slice :: slices => do
      let first ← compiler.compile slice cell start
      let rest ← compileSlices compiler cell first.endIndex slices
      return first :: rest

theorem compile_append (compiler : Compiler arithmetic) (content more : List Block)
    (cell : Option CellAddress) (start : Nat) :
    compiler.compile (content ++ more) cell start =
      compiler.compile content cell start >>= fun first =>
        (compiler.compile more cell first.endIndex).map first.andThen :=
  each_append ⟨start, cell⟩ content more

theorem compile_flatten (compiler : Compiler arithmetic) (cell : Option CellAddress) (start : Nat)
    (slices : List (List Block)) :
    compiler.compile slices.flatten cell start =
      (compiler.compileSlices cell start slices).map (.concat start) := by
  induction slices generalizing start with
  | nil => exact each_nil ⟨start, cell⟩
  | cons slice slices ih =>
    rw [List.flatten_cons, compile_append, compileSlices]
    cases compiler.compile slice cell start with
    | error e => rfl
    | ok first =>
      simp only [Outcome.ok_bind, ih]
      cases compiler.compileSlices cell first.endIndex slices with
      | error e => rfl
      | ok rest => exact congrArg Except.ok (Compilation.concat_cons start first rest).symm

/-- Content is compiled up to any element and then on from there: the first error counts, and where
there is none the requests follow one another and every count is a sum. So a document may be cut into
any number of slices, which are compiled one by one and put together again. -/
theorem compiles_in_slices (arithmetic : Arithmetic) :
    (∀ (compiler : Compiler arithmetic) (content more : List Block) (cell : Option CellAddress)
        (start : Nat),
      compiler.compile (content ++ more) cell start =
        match compiler.compile content cell start with
        | .error e => .error e
        | .ok first => match compiler.compile more cell first.endIndex with
          | .error e => .error e
          | .ok second => .ok
              { requests := first.requests ++ second.requests
                endIndex := second.endIndex
                stats :=
                  { textRuns := first.stats.textRuns+second.stats.textRuns
                    inlineImages := first.stats.inlineImages+second.stats.inlineImages
                    tables := first.stats.tables+second.stats.tables
                    cells := first.stats.cells+second.stats.cells
                    skippedElements := first.stats.skippedElements+second.stats.skippedElements
                    skippedInline := first.stats.skippedInline+second.stats.skippedInline } }) ∧
    ∀ (document : Document) (options : Options) (slices : List (List Block)),
      document.content = slices.flatten →
      document.compile arithmetic options =
        ((document.compiler arithmetic options).compileSlices none options.startIndex.toNat
          slices).map (.concat options.startIndex.toNat) := by
  constructor
  · intro compiler content more cell start
    rw [compile_append]
    cases compiler.compile content cell start with
    | error e => rfl
    | ok first =>
      simp only [Outcome.ok_bind]
      cases compiler.compile more cell first.endIndex with
      | error e => rfl
      | ok second => rfl
  · intro document options slices hs
    rw [Document.compile, hs]
    exact compile_flatten (document.compiler arithmetic options) none options.startIndex.toNat slices

theorem compiles_in_slices_sideBySide :
    let options : Options := ⟨3, .utf16, true⟩
    let slices := [Document.sideBySide.content.take 2, [], Document.sideBySide.content.drop 2]
    Document.sideBySide.content = slices.flatten ∧
    Document.sideBySide.compile (.words .wraps) options = .ok .sideBySide ∧
    ((Document.sideBySide.compiler (.words .wraps) options).compileSlices none 3 slices).map
      (Compilation.concat 3) = .ok Compilation.sideBySide := by
  have hslices := (compiles_in_slices (.words .wraps)).2 Document.sideBySide ⟨3, .utf16, true⟩
    [Document.sideBySide.content.take 2, [], Document.sideBySide.content.drop 2] rfl
  have hd : Document.sideBySide.compile (.words .wraps) ⟨3, .utf16, true⟩ = .ok .sideBySide :=
    compile_sideBySide _
  exact ⟨rfl, hd, hslices.symm.trans hd⟩

end Compiler
end EditScript
