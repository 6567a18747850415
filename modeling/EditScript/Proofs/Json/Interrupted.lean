import EditScript.Proofs.Json.Resumption
import EditScript.Proofs.Json.Utf8

namespace EditScript.Scan

open Relation EditScript.Tree

theorem run_over (tree : Tree) (symbols : List Symbol) : run (.over tree) symbols = .over tree := by
  induction symbols with
  | nil => rfl
  | cons symbol symbols ih => exact ih

theorem ne_of_wide {c d : Char} (hc : 1 < c.utf8Size) (hd : d.utf8Size = 1) : c ≠ d := by
  rintro rfl
  omega

theorem digit?_of_wide {c : Char} (hc : 1 < c.utf8Size) : digit? c = none :=
  if_neg (not_isDigit_of_wide hc)

theorem escaped?_of_wide {c : Char} (hc : 1 < c.utf8Size) : escaped? c = none := by
  unfold escaped?
  split
  case h_9 => rfl
  all_goals exact absurd hc (by decide)

theorem begin_wide (frames : List Frame) {c : Char} (hc : 1 < c.utf8Size) :
    begin frames c = refuse frames .value := by
  have hne (d : Char) (hd : d.utf8Size = 1) : c ≠ d := ne_of_wide hc hd
  simp only [begin, digit?_of_wide hc, hne 'n' rfl, hne 't' rfl, hne 'f' rfl, hne '"' rfl,
    hne '[' rfl, hne '\x7b' rfl, hne '-' rfl, if_false]

/-- Between tokens a wide character stops the machine, and so does any byte of it. -/
theorem separate_wide (frames : List Frame) (mode : Mode) {c : Char} (hc : 1 < c.utf8Size) :
    ∃ tree, separate frames mode c = .over tree ∧
      Continued (stop .malformed frames mode) tree := by
  have hne (d : Char) (hd : d.utf8Size = 1) : c ≠ d := ne_of_wide hc hd
  have hblank : isBlank c = false := by
    simp [isBlank, hne ' ' rfl, hne '\t' rfl, hne '\n' rfl, hne '\r' rfl]
  cases mode with
  | firstItem =>
    refine ⟨close .malformed frames (.array [.absent .malformed] (some .malformed)), ?_,
      continued_close frames _ (.single .first)⟩
    simp only [separate, hblank, hne ']' rfl, begin_wide _ hc, Bool.false_eq_true, if_false]
    rfl
  | value =>
    refine ⟨_, ?_, .refl⟩
    simp only [separate, hblank, begin_wide _ hc, Bool.false_eq_true, if_false]
    rfl
  | afterItem _ | firstMember | nextKey _ | colon _ _ | afterMember _ | literal _ _ | numeral _ _
  | text _ _ | key _ _ _ | complete _ =>
    refine ⟨_, ?_, .refl⟩
    simp only [separate, hblank, hne ',' rfl, hne ']' rfl, hne '\x7d' rfl, hne '"' rfl, hne ':' rfl,
      Bool.false_eq_true, if_false]
    rfl

/-- Both are past a fault, and what the second leaves continues what the first does. -/
def Stopped (state more : State) : Prop := state.Over ∧ State.Continued state more

theorem stopped_refuse (frames : List Frame) (mode : Mode) :
    Stopped (refuse frames mode) (refuse frames mode) := ⟨trivial, .refl _⟩

theorem stopped_separate (state : State) {c : Char} (hc : 1 < c.utf8Size) (byte : UInt8) :
    Stopped (state.separate (.stray byte)) (state.separate (.char c)) := by
  cases state with
  | «over» tree => exact ⟨trivial, .refl _⟩
  | reading frames mode =>
    obtain ⟨tree, hover, htree⟩ := separate_wide frames mode hc
    refine ⟨trivial, ?_⟩
    show State.Continued _ (separate frames mode c)
    rw [hover]
    exact ⟨htree, fun _ => trivial⟩

theorem grow_wide (n : Numeral) (phase : Phase) {c : Char} (hc : 1 < c.utf8Size) :
    grow n phase c = if phase.final then .done else .broken := by
  have hne (d : Char) (hd : d.utf8Size = 1) : c ≠ d := ne_of_wide hc hd
  cases phase <;>
    simp [grow, digit?_of_wide hc, Phase.final, hne '.' rfl, hne 'e' rfl, hne 'E' rfl, hne '+' rfl,
      hne '-' rfl]

def Mode.Inside : Mode → Prop
  | .text _ _ | .key _ _ _ => True
  | .value | .firstItem | .afterItem _ | .firstMember | .nextKey _ | .colon _ _ | .afterMember _
  | .literal _ _ | .numeral _ _ | .complete _ => False

/-- Outside strings a wide character stops the machine, and so does any byte of it. -/
theorem stopped_step {frames : List Frame} {mode : Mode} (h : mode.Fits) (hm : ¬mode.Inside)
    {c : Char} (hc : 1 < c.utf8Size) (byte : UInt8) :
    Stopped (step (.reading frames mode) (.stray byte)) (step (.reading frames mode) (.char c)) := by
  by_cases hb : mode.Between
  · rw [step_between hb, step_between hb]
    exact stopped_separate _ hc byte
  cases mode with
  | value | firstItem | afterItem _ | firstMember | nextKey _ | colon _ _ | afterMember _
  | complete _ => exact absurd trivial hb
  | literal rest tree =>
    match rest with
    | [] => exact stopped_separate _ hc byte
    | [last] =>
      have hne : c ≠ last := ne_of_wide hc (h.1 last List.mem_cons_self)
      simp only [step, hne, if_false]
      exact stopped_refuse _ _
    | next :: second :: rest =>
      have hne : c ≠ next := ne_of_wide hc (h.1 next List.mem_cons_self)
      simp only [step, hne, if_false]
      exact stopped_refuse _ _
  | numeral n phase =>
    simp only [step, grow_wide n phase hc]
    cases phase.final with
    | true => exact stopped_separate _ hc byte
    | false => exact stopped_refuse _ _
  | text | key => exact absurd trivial hm

namespace InString
variable {mode : List Piece → Escape → Mode}

theorem run_strays (hm : InString mode) (frames : List Frame) (pieces : List Piece)
    (strays : List UInt8) :
    run (.reading frames (mode pieces .none)) (strays.map .stray) =
      .reading frames (mode ((strays.map fun byte => .symbol (.stray byte)).reverse ++ pieces)
        .none) := by
  induction strays generalizing pieces with
  | nil => rfl
  | cons byte strays ih =>
    have hs : step (.reading frames (mode pieces .none)) (.stray byte) =
        .reading frames (mode (.symbol (.stray byte) :: pieces) .none) := hm.more _ _ _ _ _ _ rfl
    rw [List.map_cons, run, List.foldl_cons, hs, ← run, ih]
    simp

theorem step_unit (hm : InString mode) (frames : List Frame) (pieces : List Piece) (bytes : Nat)
    (value : Option Nat) {symbol : Symbol} (hs : ∀ c, symbol = .char c → 1 < c.utf8Size) :
    step (.reading frames (mode pieces (.unit bytes value))) symbol =
      if bytes+symbol.width < 4 then
        .reading frames (mode pieces (.unit (bytes+symbol.width) none))
      else refuse frames (mode pieces .none) := by
  have hl : lengthen pieces (.unit bytes value) symbol =
      if bytes+symbol.width < 4 then .more pieces (.unit (bytes+symbol.width) none)
      else .broken := by
    cases symbol with
    | stray byte => rfl
    | char c => cases value <;> simp [lengthen, hexDigit?_of_wide (hs c rfl)]
  split
  case isTrue hshort => exact hm.more _ _ _ _ _ _ (hl.trans (if_pos hshort))
  case isFalse hlong =>
    rw [hm.escape .none (.unit bytes value)]
    exact hm.broken (hl.trans (if_neg hlong))

/-- A unit takes bytes that are no digits up to the fourth. -/
theorem run_unit (hm : InString mode) (frames : List Frame) (pieces : List Piece) (bytes : Nat)
    (value : Option Nat) (byte : UInt8) (strays : List UInt8) :
    run (.reading frames (mode pieces (.unit bytes value))) ((byte :: strays).map .stray) =
      if bytes+(strays.length+1) < 4 then
        .reading frames (mode pieces (.unit (bytes+(strays.length+1)) none))
      else refuse frames (mode pieces .none) := by
  have hs (state : State) : run state ((byte :: strays).map .stray) =
      run (step state (.stray byte)) (strays.map .stray) := rfl
  have hwidth : (Symbol.stray byte).width = 1 := rfl
  rw [hs, hm.step_unit, hwidth]
  · cases strays with
    | nil => rfl
    | cons next strays =>
      rw [List.length_cons]
      by_cases h : bytes+1 < 4
      · rw [if_pos h, run_unit hm frames pieces (bytes+1) none next strays]
        simp only [Nat.add_assoc, Nat.add_comm 1]
      · rw [if_neg h, if_neg (by omega)]
        exact run_over _ _
  · intro c hc
    cases hc

/-- Inside strings a wide character goes on as any bytes of it do. -/
theorem continued_inside (hm : InString mode) (frames : List Frame) (pieces : List Piece)
    (escape : Escape) {c : Char} (byte : UInt8) (strays : List UInt8)
    (short : (byte :: strays).length < c.utf8Size) :
    State.Continued (run (.reading frames (mode pieces escape)) ((byte :: strays).map .stray))
      (step (.reading frames (mode pieces escape)) (.char c)) := by
  have hc : 1 < c.utf8Size := by
    rw [List.length_cons] at short
    omega
  have hne (d : Char) (hd : d.utf8Size = 1) : c ≠ d := ne_of_wide hc hd
  have hwide := toNat_of_wide hc
  cases escape with
  | none =>
    have hl : lengthen pieces .none (.char c) = .more (.symbol (.char c) :: pieces) .none := by
      have hprint : ¬c.toNat < 32 := by omega
      simp only [lengthen, hne '"' rfl, hne '\\' rfl, hprint, if_false]
    rw [hm.run_strays, hm.more _ _ _ _ _ _ hl]
    refine ⟨hm.resumed ?_, fun h => absurd h id⟩
    have hresumed := Quoted.resumed_stray pieces.reverse byte strays c [] (some .interrupted)
    simpa using hresumed
  | backslash =>
    have hstray : step (.reading frames (mode pieces .backslash)) (.stray byte) =
        refuse frames (mode pieces .backslash) := hm.broken rfl
    have hchar : step (.reading frames (mode pieces .backslash)) (.char c) =
        refuse frames (mode pieces .backslash) := by
      refine hm.broken ?_
      simp only [lengthen, hne 'u' rfl, escaped?_of_wide hc, if_false]
    rw [hchar, List.map_cons, run, List.foldl_cons, hstray, ← run, refuse, run_over]
    exact .refl _
  | unit bytes value =>
    have hs (d : Char) (hd : Symbol.char c = .char d) : 1 < d.utf8Size := by
      cases hd
      exact hc
    have hwidth : (Symbol.char c).width = c.utf8Size := rfl
    rw [hm.run_unit, hm.step_unit frames pieces bytes value hs, hwidth]
    rw [List.length_cons] at short
    by_cases hfirst : bytes+(strays.length+1) < 4
    · rw [if_pos hfirst]
      refine ⟨?_, fun h => absurd h id⟩
      split
      · exact hm.resumed (resumed_quotedFault _ _)
      · rw [hm.escape .none (.unit (bytes+(strays.length+1)) none)]
        exact continued_refuse _ _
    · rw [if_neg hfirst, if_neg (by omega)]
      exact .refl _

end InString

theorem continued_inside {state : State} (h : state.Fits) (strays : List UInt8) {c : Char}
    (short : strays.length < c.utf8Size) :
    State.Continued (run state (strays.map .stray)) (step state (.char c)) := by
  cases strays with
  | nil => exact .step h _
  | cons byte strays =>
    cases state with
    | «over» tree =>
      rw [run_over]
      exact .refl _
    | reading frames mode =>
      by_cases hm : mode.Inside
      · cases mode with
        | text pieces escape => exact inString_text.continued_inside _ _ _ _ _ short
        | key members pieces escape => exact (inString_key members).continued_inside _ _ _ _ _ short
        | _ => exact absurd hm id
      · have hc : 1 < c.utf8Size := by
          rw [List.length_cons] at short
          omega
        have hstep : Stopped (step (.reading frames mode) (.stray byte))
            (step (.reading frames mode) (.char c)) := stopped_step h hm hc byte
        obtain ⟨hover, hcontinued⟩ := hstep
        have hrun : run (.reading frames mode) ((byte :: strays).map .stray) =
            step (.reading frames mode) (.stray byte) := by
          show run (step (.reading frames mode) (.stray byte)) (strays.map .stray) = _
          cases hs : step (.reading frames mode) (.stray byte) with
          | «over» tree => exact run_over tree _
          | reading outer next =>
            rw [hs] at hover
            exact absurd hover id
        rw [hrun]
        exact hcontinued

/-- Whatever follows the place of a cut, it continues what stands before. -/
theorem continued_cut {symbols more : List Symbol} (hcut : Symbol.Cut symbols more)
    {state : State} (h : state.Fits) : State.Continued (run state symbols) (run state more) := by
  induction hcut generalizing state with
  | after more => exact .run h more
  | inside strays c more short =>
    exact (continued_inside h strays short).trans (.run (fits_step h _) more)
  | cons symbol cut ih => exact ih (fits_step h symbol)

/-- A scan beside one of more of the same text: a fault after the value is there already, or the
stream failed. -/
structure Continued (scan more : Scan) : Prop where
  tree : Tree.Continued scan.tree more.tree
  rest : scan.rest = some .interrupted ∨ scan.rest = some .malformed ∧ more.rest = some .malformed

theorem finish_failed (state : State) :
    (finish .failed state).tree = state.interrupted ∧
      ((finish .failed state).rest = some .interrupted ∨
        state.Over ∧ (finish .failed state).rest = some .malformed) := by
  cases state with
  | «over» tree => exact ⟨rfl, .inr ⟨trivial, rfl⟩⟩
  | reading frames mode =>
    have hsettle : settle .failed (.reading frames mode) = .reading frames mode := by
      cases mode <;> simp [settle]
    rw [finish, hsettle]
    cases mode <;> exact ⟨rfl, .inl rfl⟩

theorem continued_settle {state : State} (h : state.Fits) (ending : Ending) :
    Tree.Continued state.interrupted (settle ending state).interrupted := by
  unfold settle
  split
  · split
    · rw [interrupted_plug]
      exact continued_close _ _ (.single (.numeral fun large => read_tooLarge h large))
    · exact .refl
  · exact .refl

theorem continued_finish {state : State} (h : state.Fits) (ending : Ending) :
    Tree.Continued state.interrupted (finish ending state).tree := by
  refine (continued_settle h ending).trans ?_
  unfold finish
  split
  case h_1 hs =>
    rw [hs]
    exact .refl
  case h_2 hs =>
    rw [hs]
    exact .refl
  case h_3 hs =>
    rw [hs]
    exact continued_stop _ _ _

theorem finish_over {state : State} (h : state.Over) (ending : Ending) :
    (finish ending state).rest = some .malformed := by
  cases state with
  | «over» tree => rfl
  | reading frames mode => exact absurd h id

/-- What a failing stream leaves, beside what is left of more of the same bytes, however these
end. -/
theorem ofBytes_continued (bytes more : List UInt8) (ending : Ending) :
    Continued (ofBytes bytes .failed) (ofBytes (bytes ++ more) ending) := by
  have hstart : start.Fits := trivial
  -- The last character may be cut: its first bytes are strays here and part of it there.
  have hcut := continued_cut (Symbol.cut_ofBytes bytes more) hstart
  obtain ⟨htree, hrest⟩ := finish_failed (run start (Symbol.ofBytes bytes))
  refine ⟨?_, ?_⟩
  · show Tree.Continued (finish .failed (run start (Symbol.ofBytes bytes))).tree _
    rw [htree]
    exact hcut.tree.trans (continued_finish (fits_run hstart _) ending)
  · rcases hrest with hrest | ⟨hover, hrest⟩
    · exact .inl hrest
    · exact .inr ⟨hrest, finish_over (hcut.stays hover) ending⟩

end EditScript.Scan
