import EditScript.Json.Scan

namespace EditScript.Scan

def feed (state : State) (text : List Char) : State := run state (text.map .char)

@[simp] theorem feed_nil (state : State) : feed state [] = state := rfl

@[simp] theorem feed_cons (state : State) (c : Char) (text : List Char) :
    feed state (c :: text) = feed (step state (.char c)) text := rfl

theorem feed_append (state : State) (text more : List Char) :
    feed state (text ++ more) = feed (feed state text) more := by
  simp [feed, run]

def Blank (text : List Char) : Prop := ∀ c ∈ text, isBlank c

def Mode.Between : Mode → Prop
  | .value | .firstItem | .afterItem _ | .firstMember | .nextKey _ | .colon _ _ | .afterMember _
  | .complete _ => True
  | .literal _ _ | .numeral _ _ | .text _ _ | .key _ _ _ => False

variable {frames : List Frame} {mode : Mode}

theorem step_between (h : mode.Between) (symbol : Symbol) :
    step (.reading frames mode) symbol = (State.reading frames mode).separate symbol := by
  cases mode <;> first | rfl | exact absurd h id

theorem feed_blank (h : mode.Between) {blank : List Char} (hb : Blank blank) :
    feed (.reading frames mode) blank = .reading frames mode := by
  induction blank with
  | nil => rfl
  | cons c blank ih =>
    have hc : step (.reading frames mode) (.char c) = .reading frames mode := by
      rw [step_between h]
      exact if_pos (hb c List.mem_cons_self)
    rw [feed_cons, hc]
    exact ih fun d hd => hb d (List.mem_cons_of_mem _ hd)

theorem feed_blank_append (mode : Mode) (h : mode.Between) {blank : List Char} (hb : Blank blank)
    (text : List Char) :
    feed (.reading frames mode) (blank ++ text) = feed (.reading frames mode) text := by
  rw [feed_append, feed_blank h hb]

/-- The state after a value: the value is in its place, or a number is not known to be over yet. -/
inductive After (frames : List Frame) : Tree → State → Prop where
  | plugged (tree : Tree) : After frames tree (plug frames tree)
  | numeral (n : Numeral) (phase : Phase) (final : phase.final = true) :
      After frames (.numeral n) (.reading frames (.numeral n phase))

/-- A character that ends a number: a blank, a comma or a closing bracket. -/
def isDelimiter (c : Char) : Bool := isBlank c || c = ',' || c = ']' || c = '\x7d'

theorem grow_delimiter {n : Numeral} {phase : Phase} (hp : phase.final = true) {c : Char}
    (hc : isDelimiter c) : grow n phase c = .done := by
  have hd : digit? c = none ∧ c ≠ '.' ∧ c ≠ 'e' ∧ c ≠ 'E' := by
    simp only [isDelimiter, isBlank, Bool.or_eq_true, decide_eq_true_eq] at hc
    rcases hc with (((rfl | rfl | rfl | rfl) | rfl) | rfl) | rfl <;> decide
  obtain ⟨hd, hpoint, hsmall, hlarge⟩ := hd
  cases phase <;> first | exact absurd hp Bool.false_ne_true | simp [grow, hd, hpoint, hsmall, hlarge]

theorem between_plug (frames : List Frame) (tree : Tree) :
    ∃ outer mode, Mode.Between mode ∧ plug frames tree = .reading outer mode := by
  cases frames with
  | nil => exact ⟨[], .complete tree, trivial, rfl⟩
  | cons frame frames =>
    cases frame with
    | array items => exact ⟨frames, .afterItem (tree :: items), trivial, rfl⟩
    | object members key => exact ⟨frames, .afterMember ((key, tree) :: members), trivial, rfl⟩

/-- From a delimiter on, a value that may be over is in its place. -/
theorem After.feed {tree : Tree} {state : State} (h : After frames tree state) {c : Char}
    (hc : isDelimiter c) (text : List Char) :
    Scan.feed state (c :: text) = Scan.feed (plug frames tree) (c :: text) := by
  cases h with
  | plugged => rfl
  | numeral n phase final =>
    obtain ⟨outer, mode, hmode, hplug⟩ := between_plug frames (.numeral n)
    have hs : step (.reading frames (.numeral n phase)) (.char c) =
        (plug frames (.numeral n)).separate (.char c) := by
      simp only [step, grow_delimiter final hc]
    rw [feed_cons, feed_cons, hs, hplug, step_between hmode]

/-- Blanks after a value do not tell whether it is over. -/
theorem After.blank {tree : Tree} {state : State} (h : After frames tree state) {blank : List Char}
    (hb : Blank blank) : After frames tree (Scan.feed state blank) := by
  cases blank with
  | nil => exact h
  | cons c blank =>
    obtain ⟨outer, mode, hmode, hplug⟩ := between_plug frames tree
    have hc : isDelimiter c := by
      simp only [isDelimiter, hb c List.mem_cons_self, Bool.true_or]
    rw [h.feed hc, hplug, Scan.feed_blank hmode hb, ← hplug]
    exact .plugged tree

/-- A value that may be over is complete at the end of the text. -/
theorem After.finish {tree : Tree} {state : State} (h : After [] tree state) :
    Scan.finish .ended state = ⟨tree, none⟩ := by
  cases h with
  | plugged => rfl
  | numeral n phase final => simp [Scan.finish, settle, final, plug]

end EditScript.Scan
