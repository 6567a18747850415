import EditScript.Compile
import EditScript.Proofs.Outcome
import Mathlib.Algebra.GroupWithZero.Nat

namespace EditScript

namespace Stats

@[simp] theorem zero_add (stats : Stats) : (0 : Stats)+stats = stats := by
  change add zero stats = stats
  simp [add, zero]

@[simp] theorem add_zero (stats : Stats) : stats+(0 : Stats) = stats := by
  change add stats zero = stats
  simp [add, zero]

theorem add_assoc (a b c : Stats) : a+b+c = a+(b+c) := by
  change add (add a b) c = add a (add b c)
  simp [add, Nat.add_assoc]

end Stats

namespace Compilation

@[simp] theorem nothing_andThen (index : Nat) (done : Compilation) :
    (nothing index).andThen done = done := by
  simp [andThen, nothing]

theorem andThen_assoc (a b c : Compilation) :
    (a.andThen b).andThen c = a.andThen (b.andThen c) := by
  simp [andThen, Stats.add_assoc]

end Compilation

namespace Emitter
variable {α : Type} {emit : Emitter α}

@[simp] theorem each_nil (cursor : Cursor) :
    each emit cursor [] = .ok (.nothing cursor.index) := by
  rw [each]

theorem each_cons (cursor : Cursor) (a : α) (as : List α) :
    each emit cursor (a :: as) = emit cursor a >>= fun first =>
      (each emit { cursor with index := first.endIndex } as).map first.andThen := by
  rw [each]
  cases emit cursor a with
  | error e => rfl
  | ok first => cases each emit { cursor with index := first.endIndex } as <;> rfl

theorem each_cons_ok {cursor : Cursor} {a : α} {as : List α} {done : Compilation}
    (h : each emit cursor (a :: as) = .ok done) :
    ∃ first rest, emit cursor a = .ok first ∧
      each emit { cursor with index := first.endIndex } as = .ok rest ∧
      done = first.andThen rest := by
  rw [each_cons] at h
  obtain ⟨first, hf, h⟩ := Outcome.bind_eq_ok.mp h
  obtain ⟨rest, hr, h⟩ := Outcome.map_eq_ok.mp h
  exact ⟨first, rest, hf, hr, h.symm⟩

theorem each_append (cursor : Cursor) (as bs : List α) :
    each emit cursor (as ++ bs) = each emit cursor as >>= fun first =>
      (each emit { cursor with index := first.endIndex } bs).map first.andThen := by
  induction as generalizing cursor with
  | nil =>
    have h : Compilation.andThen (.nothing cursor.index) = id := by
      funext done
      exact Compilation.nothing_andThen cursor.index done
    rw [List.nil_append, each_nil, Outcome.ok_bind, h, Except.map_id]
    rfl
  | cons a as ih =>
    simp only [List.cons_append, each_cons]
    cases emit cursor a with
    | error e => rfl
    | ok first =>
      simp only [Outcome.ok_bind, ih]
      cases each emit { cursor with index := first.endIndex } as with
      | error e => rfl
      | ok middle =>
        simp only [Outcome.ok_bind, Outcome.map_ok]
        change _ = Except.map _ (each emit { cursor with index := middle.endIndex } bs)
        cases each emit { cursor with index := middle.endIndex } bs with
        | error e => rfl
        | ok last => simp [Compilation.andThen_assoc]

/-- Emissions that agree on the elements of a list, in one space, emit that list alike there. -/
theorem each_congr_mem {other : Emitter α} {cell : Option CellAddress} {as : List α}
    (h : ∀ a ∈ as, ∀ index, emit ⟨index, cell⟩ a = other ⟨index, cell⟩ a) (index : Nat) :
    each emit ⟨index, cell⟩ as = each other ⟨index, cell⟩ as := by
  induction as generalizing index with
  | nil => rfl
  | cons a as ih =>
    rw [each_cons, each_cons, h a List.mem_cons_self]
    cases other ⟨index, cell⟩ a with
    | error e => rfl
    | ok first => simp only [Outcome.ok_bind, ih fun b hb => h b (List.mem_cons_of_mem _ hb)]

theorem each_congr {other : Emitter α} {cell : Option CellAddress}
    (h : ∀ index a, emit ⟨index, cell⟩ a = other ⟨index, cell⟩ a) (index : Nat) (as : List α) :
    each emit ⟨index, cell⟩ as = each other ⟨index, cell⟩ as :=
  each_congr_mem (fun a _ index => h index a) index

/-- Induction along the emission of a list that succeeds. -/
theorem each_induct {cell : Option CellAddress} {motive : Nat → List α → Compilation → Prop}
    (nil : ∀ index, motive index [] (.nothing index))
    (cons : ∀ index a as first rest, emit ⟨index, cell⟩ a = .ok first →
      each emit ⟨first.endIndex, cell⟩ as = .ok rest → motive first.endIndex as rest →
      motive index (a :: as) (first.andThen rest))
    {index : Nat} {as : List α} {done : Compilation}
    (h : each emit ⟨index, cell⟩ as = .ok done) : motive index as done := by
  induction as generalizing index done with
  | nil =>
    rw [each_nil] at h
    obtain rfl := Except.ok.inj h
    exact nil index
  | cons a as ih =>
    obtain ⟨first, rest, hf, hr, rfl⟩ := each_cons_ok h
    exact cons index a as first rest hf hr (ih hr)

/-- What holds of every stretch of content and is kept when one follows another holds of the list. -/
theorem each_invariant {cell : Option CellAddress} {motive : Nat → Compilation → Prop}
    (nil : ∀ index, motive index (.nothing index))
    (append : ∀ index first rest, motive index first → motive first.endIndex rest →
      motive index (first.andThen rest))
    (step : ∀ index a done, emit ⟨index, cell⟩ a = .ok done → motive index done)
    {index : Nat} {as : List α} {done : Compilation}
    (h : each emit ⟨index, cell⟩ as = .ok done) : motive index done :=
  each_induct (motive := fun index _ done => motive index done) nil
    (fun index a _ first rest hf _ => append index first rest (step index a first hf)) h

theorem each_split {cell : Option CellAddress} {before after : List α} {a : α} {index : Nat}
    {done : Compilation} (h : each emit ⟨index, cell⟩ (before ++ a :: after) = .ok done) :
    ∃ first middle last, each emit ⟨index, cell⟩ before = .ok first ∧
      emit ⟨first.endIndex, cell⟩ a = .ok middle ∧
      each emit ⟨middle.endIndex, cell⟩ after = .ok last ∧
      done = first.andThen (middle.andThen last) := by
  rw [each_append] at h
  obtain ⟨first, hf, h⟩ := Outcome.bind_eq_ok.mp h
  obtain ⟨rest, hr, rfl⟩ := Outcome.map_eq_ok.mp h
  obtain ⟨middle, last, hm, hl, rfl⟩ := each_cons_ok hr
  exact ⟨first, middle, last, hf, hm, hl, rfl⟩

theorem each_forall {holds : Request → Prop} {cell : Option CellAddress} {as : List α}
    (h : ∀ a ∈ as, ∀ index done, emit ⟨index, cell⟩ a = .ok done →
      ∀ request ∈ done.requests, holds request)
    {index : Nat} {done : Compilation} (hd : each emit ⟨index, cell⟩ as = .ok done) :
    ∀ request ∈ done.requests, holds request := by
  induction as generalizing index done with
  | nil =>
    rw [each_nil] at hd
    obtain rfl := Except.ok.inj hd
    exact List.forall_mem_nil _
  | cons a as ih =>
    obtain ⟨first, rest, hf, hr, rfl⟩ := each_cons_ok hd
    intro request hm
    rcases List.mem_append.mp hm with hm | hm
    · exact h a List.mem_cons_self index first hf request hm
    · exact ih (fun b hb => h b (List.mem_cons_of_mem _ hb)) hr request hm

/-- An emission settles: without defects it succeeds and stops at an index, otherwise it fails with
the first defect. -/
def Settles (outcome : Compiled) (defects : List CompileError) (stop : Nat) : Prop :=
  match defects with
  | [] => ∃ done, outcome = .ok done ∧ done.endIndex = stop
  | defect :: _ => outcome = .error (.error defect)

theorem Settles.head? {outcome : Compiled} {defects : List CompileError} {stop : Nat}
    {halt : Halt CompileError} (h : Settles outcome defects stop) :
    outcome = .error halt ↔ defects.head?.map .error = some halt := by
  cases defects with
  | nil =>
    obtain ⟨done, rfl, -⟩ := h
    simp
  | cons defect more =>
    have he : outcome = .error (.error defect) := h
    simp [he]

/-- The defects of a list, each element standing after the units of those before it. -/
def walk (width : α → Nat) (defects : Nat → α → List CompileError) :
    Nat → List α → List CompileError
  | _, [] => []
  | index, a :: as => defects index a ++ walk width defects (index+width a) as

theorem walk_const (width : α → Nat) (defects : α → List CompileError) (index : Nat)
    (as : List α) : walk width (fun _ => defects) index as = as.flatMap defects := by
  induction as generalizing index with
  | nil => rfl
  | cons a as ih => rw [walk, ih, List.flatMap_cons]

theorem walk_still (defects : Nat → α → List CompileError) (index : Nat) (as : List α) :
    walk (fun _ => 0) defects index as = as.flatMap (defects index) := by
  induction as with
  | nil => rfl
  | cons a as ih => rw [walk, Nat.add_zero, ih, List.flatMap_cons]

/-- Of defects that are told apart by less than where they stand, a walk meets the same anywhere. -/
theorem walk_map {β : Type} {f : CompileError → β} {width : α → Nat}
    {defects : Nat → α → List CompileError}
    (h : ∀ index a, (defects index a).map f = (defects 0 a).map f) (index : Nat) (as : List α) :
    (walk width defects index as).map f = as.flatMap fun a => (defects 0 a).map f := by
  induction as generalizing index with
  | nil => rfl
  | cons a as ih => rw [walk, List.map_append, h, ih, List.flatMap_cons]

theorem walk_congr {width other : α → Nat} {defects : Nat → α → List CompileError} {as : List α}
    (h : ∀ a ∈ as, width a = other a) (index : Nat) :
    walk width defects index as = walk other defects index as := by
  induction as generalizing index with
  | nil => rfl
  | cons a as ih =>
    rw [walk, walk, h a List.mem_cons_self, ih fun b hb => h b (List.mem_cons_of_mem _ hb)]

/-- If every element settles, then so does the list, and it takes the units of all elements. -/
theorem settles_each {width : α → Nat} {defects : Nat → α → List CompileError}
    {cell : Option CellAddress}
    (h : ∀ index a, Settles (emit ⟨index, cell⟩ a) (defects index a) (index+width a))
    (index : Nat) (as : List α) :
    Settles (each emit ⟨index, cell⟩ as) (walk width defects index as)
      (index+(as.map width).sum) := by
  induction as generalizing index with
  | nil => exact ⟨_, each_nil _, rfl⟩
  | cons a as ih =>
    have ha := h index a
    simp only [walk, each_cons]
    cases hd : defects index a with
    | cons defect more =>
      rw [hd] at ha
      have he : emit ⟨index, cell⟩ a = .error (.error defect) := ha
      simp [Settles, he]
    | nil =>
      rw [hd] at ha
      obtain ⟨first, he, hs⟩ := ha
      have hr := ih (index+width a)
      simp only [he, Outcome.ok_bind, hs, List.nil_append, List.map_cons, List.sum_cons,
        ← Nat.add_assoc]
      cases hw : walk width defects (index+width a) as with
      | cons defect more =>
        rw [hw] at hr
        have he' : each emit ⟨index+width a, cell⟩ as = .error (.error defect) := hr
        simp [Settles, he']
      | nil =>
        rw [hw] at hr
        obtain ⟨rest, he', hs'⟩ := hr
        exact ⟨first.andThen rest, by simp [he'], hs'⟩

end Emitter
end EditScript
