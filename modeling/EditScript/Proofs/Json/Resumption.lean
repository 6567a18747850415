import EditScript.Json.Reader
import EditScript.Proofs.Json.Strings
import Mathlib.Logic.Relation

namespace EditScript

namespace Quoted

/-- Strings that read alike, unless reading the first one stops where it was interrupted. -/
def Resumed (quoted more : Quoted) : Prop :=
  quoted.fault = some .interrupted ∧
    (quoted.text = .error .interrupted ∨ more.text = quoted.text)

theorem symbols_trailing (fault : Option Fault) {code : Nat} (h : isTrailing code)
    (pieces : List Piece) : symbols fault (.unit code :: pieces) = .error .malformed := by
  rw [symbols.eq_def]
  simp [h]

theorem symbols_scalar (fault : Option Fault) {code : Nat} (ht : ¬isTrailing code)
    (hl : ¬isLeading code) (pieces : List Piece) :
    symbols fault (.unit code :: pieces) =
      (.char (Char.ofNat code) :: ·) <$> symbols fault pieces := by
  rw [symbols.eq_def]
  simp [ht, hl]

theorem not_isTrailing {code : Nat} (h : isLeading code) : ¬isTrailing code := by
  simp only [isLeading, isTrailing, decide_eq_true_eq] at h ⊢
  omega

/-- After any pieces, what they are followed by counts in the same way. A leading surrogate at their
end is the one piece that looks at the next. -/
theorem symbols_append {fault : Option Fault} {rest more : List Piece}
    (hrest : symbols (some .interrupted) rest = .error .interrupted)
    (hleading : ∀ code, isLeading code →
      symbols (some .interrupted) (.unit code :: rest) = .error .interrupted ∨
        symbols fault (.unit code :: more) = symbols (some .interrupted) (.unit code :: rest)) :
    (pieces : List Piece) →
      symbols (some .interrupted) (pieces ++ rest) = .error .interrupted ∨
        symbols fault (pieces ++ more) = symbols (some .interrupted) (pieces ++ rest)
  | [] => .inl hrest
  | .symbol _ :: pieces | .escaped _ :: pieces => by
    simp only [List.cons_append, symbols]
    rcases symbols_append hrest hleading pieces with h | h
    · left
      rw [h]
      rfl
    · right
      rw [h]
  | .unit code :: pieces => by
    simp only [List.cons_append]
    by_cases ht : isTrailing code
    · right
      rw [symbols_trailing _ ht, symbols_trailing _ ht]
    by_cases hl : isLeading code
    · match pieces with
      | [] => exact hleading code hl
      | .symbol _ :: _ | .escaped _ :: _ =>
        right
        simp [symbols, ht, hl]
      | .unit next :: pieces =>
        by_cases hn : isTrailing next
        · simp only [List.cons_append, symbols, ht, hl, hn, if_true, if_false, Bool.false_eq_true]
          rcases symbols_append hrest hleading pieces with h | h
          · left
            rw [h]
            rfl
          · right
            rw [h]
        · right
          simp [symbols, ht, hl, hn]
    · rw [symbols_scalar _ ht hl, symbols_scalar _ ht hl]
      rcases symbols_append hrest hleading pieces with h | h
      · left
        rw [h]
        rfl
      · right
        rw [h]

theorem text_congr {quoted more : Quoted}
    (h : symbols quoted.fault quoted.pieces = .error .interrupted ∨
      symbols more.fault more.pieces = symbols quoted.fault quoted.pieces) :
    quoted.text = .error .interrupted ∨ more.text = quoted.text := by
  rcases h with h | h
  · left
    rw [text, h]
    rfl
  · right
    rw [text, text, h]

/-- A string goes on with any pieces. -/
theorem resumed_append (pieces more : List Piece) (fault : Option Fault) :
    Resumed ⟨pieces, some .interrupted⟩ ⟨pieces ++ more, fault⟩ := by
  refine ⟨rfl, text_congr ?_⟩
  have hleading (code : Nat) (hl : isLeading code) :
      symbols (some .interrupted) [.unit code] = .error .interrupted := by
    simp [symbols, hl, not_isTrailing hl]
  have h : symbols (some .interrupted) (pieces ++ []) = .error .interrupted ∨
      symbols fault (pieces ++ more) = symbols (some .interrupted) (pieces ++ []) :=
    symbols_append rfl (fun code hl => .inl (hleading code hl)) pieces
  rwa [List.append_nil] at h

theorem symbols_strays (strays : List UInt8) :
    symbols (some .interrupted) (strays.map fun byte => .symbol (.stray byte)) =
      .error .interrupted := by
  induction strays with
  | nil => rfl
  | cons byte strays ih =>
    rw [List.map_cons, symbols, ih]
    rfl

/-- A string that ends inside a character goes on with that character. -/
theorem resumed_stray (pieces : List Piece) (byte : UInt8) (strays : List UInt8) (c : Char)
    (more : List Piece) (fault : Option Fault) :
    Resumed ⟨pieces ++ (byte :: strays).map fun byte => .symbol (.stray byte), some .interrupted⟩
      ⟨pieces ++ .symbol (.char c) :: more, fault⟩ := by
  refine ⟨rfl, text_congr ?_⟩
  refine symbols_append (symbols_strays _) (fun code hl => .inr ?_) pieces
  simp [symbols, hl, not_isTrailing hl]

end Quoted

namespace Tree

/-- One step from what is left of interrupted text to what is left of more of it: the place where
the text broke off is mended. -/
inductive Resumed : Tree → Tree → Prop where
  | absent (tree : Tree) : Resumed (.absent .interrupted) tree
  | brokenLiteral (fault : Fault) : Resumed (.brokenLiteral .interrupted) (.brokenLiteral fault)
  | null : Resumed (.brokenLiteral .interrupted) .null
  | bool (value : Bool) : Resumed (.brokenLiteral .interrupted) (.bool value)
  | brokenNumeral {n m : Numeral} (fault : Fault) (large : n.tooLarge → m.tooLarge) :
      Resumed (.brokenNumeral n .interrupted) (.brokenNumeral m fault)
  | numeral {n : Numeral} (large : n.tooLarge → n.read = .error .malformed) :
      Resumed (.brokenNumeral n .interrupted) (.numeral n)
  | string {quoted more : Quoted} (resumed : quoted.Resumed more) :
      Resumed (.string quoted) (.string more)
  | items (items more : List Tree) (fault : Option Fault) :
      Resumed (.array items (some .interrupted)) (.array (items ++ more) fault)
  | item (items : List Tree) {last more : Tree} (fault : Option Fault) (resumed : Resumed last more) :
      Resumed (.array (items ++ [last]) fault) (.array (items ++ [more]) fault)
  | members (members more : List (Quoted × Tree)) (fault : Option Fault) :
      Resumed (.object members (some .interrupted)) (.object (members ++ more) fault)
  | key (members : List (Quoted × Tree)) {key more : Quoted} (value : Tree) (fault : Option Fault)
      (resumed : key.Resumed more) :
      Resumed (.object (members ++ [(key, value)]) fault) (.object (members ++ [(more, value)]) fault)
  | member (members : List (Quoted × Tree)) (key : Quoted) {last more : Tree} (fault : Option Fault)
      (resumed : Resumed last more) :
      Resumed (.object (members ++ [(key, last)]) fault) (.object (members ++ [(key, more)]) fault)
  /-- The one fault that a stray byte and a character leave in different places. -/
  | first : Resumed (.array [] (some .malformed)) (.array [.absent .malformed] (some .malformed))

abbrev Continued : Tree → Tree → Prop := Relation.ReflTransGen Resumed

end Tree

namespace Scan

open Relation EditScript.Tree

variable {frames : List Frame} {mode : Mode} {symbol : Symbol}

theorem continued_close (frames : List Frame) (fault : Fault) {tree more : Tree}
    (h : Continued tree more) : Continued (close fault frames tree) (close fault frames more) := by
  induction frames generalizing tree more with
  | nil => exact h
  | cons frame frames ih =>
    cases frame with
    | array items =>
      have hitem (last next : Tree) (hnext : Resumed last next) :
          Resumed (.array (last :: items).reverse (some fault))
            (.array (next :: items).reverse (some fault)) := by
        rw [List.reverse_cons, List.reverse_cons]
        exact .item _ _ hnext
      exact ih (ReflTransGen.lift _ hitem _ _ h)
    | object members key =>
      have hmember (last next : Tree) (hnext : Resumed last next) :
          Resumed (.object ((key, last) :: members).reverse (some fault))
            (.object ((key, next) :: members).reverse (some fault)) := by
        rw [List.reverse_cons, List.reverse_cons]
        exact .member _ _ _ hnext
      exact ih (ReflTransGen.lift _ hmember _ _ h)

theorem resumed_fault (items : List Tree) (fault : Option Fault) :
    Resumed (.array items (some .interrupted)) (.array items fault) := by
  have h := Resumed.items items [] fault
  rwa [List.append_nil] at h

theorem resumed_memberFault (members : List (Quoted × Tree)) (fault : Option Fault) :
    Resumed (.object members (some .interrupted)) (.object members fault) := by
  have h := Resumed.members members [] fault
  rwa [List.append_nil] at h

/-- Another fault in the place of the interruption, in all open containers. -/
theorem continued_closeFault (frames : List Frame) (fault : Fault) {tree more : Tree}
    (h : Continued tree more) :
    Continued (close .interrupted frames tree) (close fault frames more) := by
  induction frames generalizing tree more with
  | nil => exact h
  | cons frame frames ih =>
    refine (continued_close _ _ h).trans ?_
    cases frame with
    | array items => exact ih (.single (resumed_fault _ _))
    | object members key => exact ih (.single (resumed_memberFault _ _))

theorem resumed_quotedFault (pieces : List Piece) (fault : Option Fault) :
    Quoted.Resumed ⟨pieces, some .interrupted⟩ ⟨pieces, fault⟩ := by
  have h := Quoted.resumed_append pieces [] fault
  rwa [List.append_nil] at h

theorem continued_key (members : List (Quoted × Tree)) {key more : Quoted}
    (h : key.Resumed more) (fault : Fault) :
    Continued (.object ((key, .absent .interrupted) :: members).reverse (some .interrupted))
      (.object ((more, .absent fault) :: members).reverse (some .interrupted)) := by
  simp only [List.reverse_cons]
  exact .head (.key _ _ _ h) (.single (.member _ _ _ (.absent _)))

theorem continued_stop (frames : List Frame) (mode : Mode) (fault : Fault) :
    Continued (stop .interrupted frames mode) (stop fault frames mode) := by
  cases mode with
  | value => exact continued_closeFault _ _ (.single (.absent _))
  | firstItem | afterItem items => exact continued_closeFault _ _ (.single (resumed_fault _ _))
  | firstMember | afterMember members =>
    exact continued_closeFault _ _ (.single (resumed_memberFault _ _))
  | nextKey members =>
    exact continued_closeFault _ _ ((continued_key _ (resumed_quotedFault _ _) _).tail
      (resumed_memberFault _ _))
  | colon members key =>
    refine continued_closeFault _ _ (.head ?_ (.single (resumed_memberFault _ _)))
    simp only [List.reverse_cons]
    exact .member _ _ _ (.absent _)
  | literal rest tree => exact continued_closeFault _ _ (.single (.brokenLiteral _))
  | numeral n phase => exact continued_closeFault _ _ (.single (.brokenNumeral _ id))
  | text pieces escape =>
    exact continued_closeFault _ _ (.single (.string (resumed_quotedFault _ _)))
  | key members pieces escape =>
    exact continued_closeFault _ _ ((continued_key _ (resumed_quotedFault _ _) _).tail
      (resumed_memberFault _ _))
  | complete tree => exact .refl

/-- What is left of the text if the stream fails in this state. -/
def State.interrupted : State → Tree
  | .reading frames mode => stop .interrupted frames mode
  | .over tree => tree

theorem interrupted_plug (frames : List Frame) (tree : Tree) :
    (plug frames tree).interrupted = close .interrupted frames tree := by
  cases frames with
  | nil => rfl
  | cons frame frames => cases frame <;> rfl

theorem continued_refuse (frames : List Frame) (mode : Mode) :
    Continued (State.reading frames mode).interrupted (refuse frames mode).interrupted :=
  continued_stop frames mode .malformed

theorem continued_begin (frames : List Frame) (c : Char) :
    Continued (close .interrupted frames (.absent .interrupted)) (begin frames c).interrupted := by
  have habsent (tree : Tree) : Continued (close .interrupted frames (.absent .interrupted))
      (close .interrupted frames tree) := continued_close frames _ (.single (.absent _))
  unfold begin
  repeat' split
  all_goals first | exact habsent _ | exact continued_refuse frames .value

theorem continued_plug (frames : List Frame) {tree more : Tree} (h : tree.Resumed more) :
    Continued (close .interrupted frames tree) (plug frames more).interrupted := by
  rw [interrupted_plug]
  exact continued_close frames _ (.single h)

theorem continued_array (frames : List Frame) (items : List Tree) (c : Char) :
    Continued (State.reading frames (.afterItem items)).interrupted
      (separate frames (.afterItem items) c).interrupted := by
  unfold separate
  split
  · exact .refl
  · dsimp only
    split
    · refine continued_close frames _ (.single ?_)
      rw [List.reverse_cons]
      exact .items _ _ _
    · split
      · exact continued_plug frames (resumed_fault _ _)
      · exact continued_refuse frames _

theorem continued_object (frames : List Frame) (members : List (Quoted × Tree)) (c : Char) :
    Continued (State.reading frames (.afterMember members)).interrupted
      (separate frames (.afterMember members) c).interrupted := by
  unfold separate
  split
  · exact .refl
  · dsimp only
    split
    · refine continued_close frames _ (.single ?_)
      rw [List.reverse_cons]
      exact .members _ _ _
    · split
      · exact continued_plug frames (resumed_memberFault _ _)
      · exact continued_refuse frames _

theorem continued_char (frames : List Frame) (mode : Mode) (c : Char) :
    Continued (State.reading frames mode).interrupted (separate frames mode c).interrupted := by
  cases mode with
  | afterItem items => exact continued_array frames items c
  | afterMember members => exact continued_object frames members c
  | value =>
    unfold separate
    split
    · exact .refl
    · exact continued_begin frames c
  | firstItem =>
    unfold separate
    split
    · exact .refl
    · dsimp only
      split
      · exact continued_plug frames (resumed_fault _ _)
      · exact .trans (continued_close frames _ (.single (.items [] [.absent .interrupted] _)))
          (continued_begin (.array [] :: frames) c)
  | firstMember =>
    unfold separate
    split
    · exact .refl
    · dsimp only
      split
      · exact continued_plug frames (resumed_memberFault _ _)
      · split
        · exact continued_close frames _ (.single (.members [] _ _))
        · exact continued_refuse frames _
  | nextKey | colon =>
    unfold separate
    split
    · exact .refl
    · dsimp only
      split
      · exact .refl
      · exact continued_refuse frames _
  | literal | numeral | text | key | complete =>
    unfold separate
    split
    · exact .refl
    · exact continued_refuse frames _

theorem continued_separate (state : State) (symbol : Symbol) :
    Continued state.interrupted (state.separate symbol).interrupted := by
  cases state with
  | «over» tree => exact .refl
  | reading frames mode =>
    cases symbol with
    | stray byte => exact continued_refuse frames mode
    | char c => exact continued_char frames mode c

/-- What is known of a number from the part of it that was read last. -/
def Phase.Fits (n : Numeral) : Phase → Prop
  | .minus | .zero | .whole => n.exponent = 0
  | .point | .fraction | .mark | .sign _ => n.exponent = 0 ∧ n.integral = false
  | .exponent true => n.exponent ≤ 0 ∧ n.integral = false
  | .exponent false => n.integral = false

/-- A literal is ASCII and stands for a scalar, and a number fits its last part. -/
def Mode.Fits : Mode → Prop
  | .literal rest tree => (∀ c ∈ rest, c.utf8Size = 1) ∧ (tree = .null ∨ ∃ value, tree = .bool value)
  | .numeral n phase => phase.Fits n
  | .value | .firstItem | .afterItem _ | .firstMember | .nextKey _ | .colon _ _ | .afterMember _
  | .text _ _ | .key _ _ _ | .complete _ => True

def State.Fits : State → Prop
  | .reading _ mode => mode.Fits
  | .over _ => True

theorem fits_plug (frames : List Frame) (tree : Tree) : (plug frames tree).Fits := by
  cases frames with
  | nil => trivial
  | cons frame frames => cases frame <;> trivial

theorem fits_begin (frames : List Frame) (c : Char) : (begin frames c).Fits := by
  have hnull : ∀ c ∈ ['u', 'l', 'l'], c.utf8Size = 1 := by simp [Char.utf8Size]
  have htrue : ∀ c ∈ ['r', 'u', 'e'], c.utf8Size = 1 := by simp [Char.utf8Size]
  have hfalse : ∀ c ∈ ['a', 'l', 's', 'e'], c.utf8Size = 1 := by simp [Char.utf8Size]
  unfold begin
  split
  · exact ⟨hnull, .inl rfl⟩
  split
  · exact ⟨htrue, .inr ⟨true, rfl⟩⟩
  split
  · exact ⟨hfalse, .inr ⟨false, rfl⟩⟩
  repeat' split
  all_goals first | rfl | trivial

theorem fits_separate {state : State} (h : state.Fits) (symbol : Symbol) :
    (state.separate symbol).Fits := by
  cases state with
  | «over» tree => trivial
  | reading frames mode =>
    cases symbol with
    | stray byte => trivial
    | char c =>
      show (separate frames mode c).Fits
      unfold separate
      repeat' split
      all_goals first | exact h | exact fits_begin _ c | exact fits_plug _ _ | trivial

/-- The ways in which a number goes on. -/
inductive Grown (n : Numeral) : Phase → Numeral → Phase → Prop where
  | zero : Grown n .minus n .zero
  | first (d : Nat) : Grown n .minus (n.wholeDigit d) .whole
  | whole (d : Nat) : Grown n .whole (n.wholeDigit d) .whole
  | parted {phase next : Phase} (whole : phase = .zero ∨ phase = .whole)
      (part : next = .point ∨ next = .mark) : Grown n phase n.parted next
  | fraction {phase : Phase} (d : Nat) (part : phase = .point ∨ phase = .fraction) :
      Grown n phase (n.fractionDigit d) .fraction
  | mark : Grown n .fraction n .mark
  | sign (negative : Bool) : Grown n .mark n (.sign negative)
  | exponent {phase : Phase} (negative : Bool) (d : Nat)
      (part : phase = .mark ∧ negative = false ∨ phase = .sign negative ∨
        phase = .exponent negative) :
      Grown n phase (n.exponentDigit negative d) (.exponent negative)

theorem grow_more {n m : Numeral} {phase next : Phase} {c : Char}
    (h : grow n phase c = .more m next) : Grown n phase m next := by
  simp only [grow] at h
  repeat' split at h
  all_goals cases h
  all_goals first
    | exact .zero | exact .first _ | exact .whole _ | exact .mark | exact .sign _
    | exact .parted (by simp) (by simp) | exact .fraction _ (by simp) | exact .exponent _ _ (by simp)

theorem not_tooLarge {n : Numeral} (h : n.exponent ≤ 0) : ¬n.tooLarge := by
  intro large
  have hlarge := (of_decide_eq_true large).2
  simp only [Numeral.exponentLimit] at hlarge
  omega

theorem Grown.fits {n m : Numeral} {phase next : Phase} (hg : Grown n phase m next)
    (h : phase.Fits n) : next.Fits m := by
  cases hg with
  | zero | first | whole | mark | sign => exact h
  | parted whole part =>
    have he : n.exponent = 0 := by
      rcases whole with rfl | rfl <;> exact h
    rcases part with rfl | rfl <;> exact ⟨he, rfl⟩
  | fraction d part => rcases part with rfl | rfl <;> exact h
  | exponent negative d part =>
    have hi : n.integral = false := by
      rcases part with ⟨rfl, rfl⟩ | rfl | rfl
      · exact h.2
      · exact h.2
      · cases negative with
        | false => exact h
        | true => exact h.2
    cases negative with
    | false => exact hi
    | true =>
      have he : n.exponent ≤ 0 := by
        rcases part with ⟨-, hf⟩ | rfl | rfl
        · cases hf
        · exact Int.le_of_eq h.1
        · exact h.1
      refine ⟨?_, hi⟩
      show 10*n.exponent-d ≤ 0
      omega

theorem Grown.tooLarge {n m : Numeral} {phase next : Phase} (hg : Grown n phase m next)
    (h : phase.Fits n) (large : n.tooLarge) : m.tooLarge := by
  have hpos : ¬n.exponent ≤ 0 := fun he => not_tooLarge he large
  cases hg with
  | zero | mark | sign => exact large
  | first | whole => exact absurd (Int.le_of_eq h) hpos
  | parted whole part => exact large
  | fraction d part => rcases part with rfl | rfl <;> exact absurd (Int.le_of_eq h.1) hpos
  | exponent negative d part =>
    rcases part with ⟨rfl, rfl⟩ | rfl | rfl
    · exact absurd (Int.le_of_eq h.1) hpos
    · exact absurd (Int.le_of_eq h.1) hpos
    · cases negative with
      | true => exact absurd h.1 hpos
      | false =>
        obtain ⟨hsignificand, hlarge⟩ := of_decide_eq_true large
        refine decide_eq_true ⟨hsignificand, ?_⟩
        show Numeral.exponentLimit < 10*n.exponent+d
        simp only [Numeral.exponentLimit] at hlarge ⊢
        omega

theorem read_tooLarge {n : Numeral} {phase : Phase} (h : phase.Fits n) (large : n.tooLarge) :
    n.read = .error .malformed := by
  have hpos : ¬n.exponent ≤ 0 := fun he => not_tooLarge he large
  have hi : n.integral = false := by
    cases phase with
    | minus | zero | whole => exact absurd (Int.le_of_eq h) hpos
    | point | fraction | mark | sign negative => exact h.2
    | exponent negative =>
      cases negative with
      | false => exact h
      | true => exact h.2
  simp [Numeral.read, Numeral.number?, hi, large]

theorem fits_step {state : State} (h : state.Fits) (symbol : Symbol) : (step state symbol).Fits := by
  cases state with
  | «over» tree => trivial
  | reading frames mode =>
    cases mode with
    | value | firstItem | afterItem _ | firstMember | nextKey _ | colon _ _ | afterMember _
    | complete _ => exact fits_separate h symbol
    | literal rest tree =>
      simp only [step]
      repeat' split
      all_goals first
        | exact fits_separate (fits_plug _ _) _ | exact fits_plug _ _ | trivial
        | exact ⟨fun c hc => h.1 c (List.mem_cons_of_mem _ hc), h.2⟩
    | numeral n phase =>
      simp only [step]
      repeat' split
      case h_1 hg => exact (grow_more hg).fits h
      all_goals first | exact fits_separate (fits_plug _ _) _ | trivial
    | text pieces escape | key members pieces escape =>
      simp only [step]
      split
      all_goals first | exact fits_plug _ _ | trivial

theorem lengthen_more {pieces longer : List Piece} {escape next : Escape} {symbol : Symbol}
    (h : lengthen pieces escape symbol = .more longer next) :
    ∃ added, longer = added ++ pieces := by
  cases escape with
  | none | backslash =>
    cases symbol with
    | char c | stray byte =>
      simp only [lengthen] at h
      repeat' split at h
      all_goals cases h
      all_goals first | exact ⟨[], rfl⟩ | exact ⟨[_], rfl⟩
  | unit bytes value =>
    simp only [lengthen] at h
    split at h
    · cases h
      exact ⟨[], rfl⟩
    · split at h
      · cases h
        exact ⟨[_], rfl⟩
      · cases h

/-- Modes in which a string is read: it goes on, is refused and is left behind in one way. -/
structure InString (mode : List Piece → Escape → Mode) : Prop where
  more : Stringy mode
  broken : ∀ {frames pieces escape symbol}, lengthen pieces escape symbol = .broken →
    step (.reading frames (mode pieces escape)) symbol = refuse frames (mode pieces escape)
  resumed : ∀ {frames pieces longer} {escape next : Escape},
    Quoted.Resumed ⟨pieces.reverse, some .interrupted⟩ ⟨longer.reverse, some .interrupted⟩ →
    Continued (stop .interrupted frames (mode pieces escape))
      (stop .interrupted frames (mode longer next))
  escape : ∀ {frames pieces} (escape next : Escape),
    refuse frames (mode pieces escape) = refuse frames (mode pieces next)

theorem inString_text : InString .text where
  more := stringy_text
  escape _ _ := rfl
  broken h := by simp only [step, h]
  resumed h := continued_close _ _ (.single (.string h))

theorem inString_key (members : List (Quoted × Tree)) : InString (.key members) where
  more := stringy_key members
  escape _ _ := rfl
  broken h := by simp only [step, h]
  resumed h := continued_close _ _ (continued_key _ h _)

theorem InString.continued {mode : List Piece → Escape → Mode} (hm : InString mode)
    {pieces longer : List Piece} {escape next : Escape} {symbol : Symbol}
    (h : lengthen pieces escape symbol = .more longer next) :
    Continued (stop .interrupted frames (mode pieces escape))
      (stop .interrupted frames (mode longer next)) := by
  obtain ⟨added, rfl⟩ := lengthen_more h
  refine hm.resumed ?_
  rw [List.reverse_append]
  exact Quoted.resumed_append _ _ _

/-- What is left after one more symbol continues what was left before it. -/
theorem continued_step {state : State} (h : state.Fits) (symbol : Symbol) :
    Continued state.interrupted (step state symbol).interrupted := by
  cases state with
  | «over» tree => exact .refl
  | reading frames mode =>
    have hplug {tree : Tree} (ht : Continued (stop .interrupted frames mode)
        (close .interrupted frames tree)) :
        Continued (stop .interrupted frames mode) (plug frames tree).interrupted := by
      rw [interrupted_plug]
      exact ht
    cases mode with
    | value | firstItem | afterItem _ | firstMember | nextKey _ | colon _ _ | afterMember _
    | complete _ => exact continued_separate _ symbol
    | literal rest tree =>
      have htree : Continued (close .interrupted frames (.brokenLiteral .interrupted))
          (close .interrupted frames tree) := by
        rcases h.2 with rfl | ⟨value, rfl⟩
        · exact continued_close _ _ (.single .null)
        · exact continued_close _ _ (.single (.bool value))
      simp only [step]
      repeat' split
      all_goals first
        | exact continued_refuse _ _ | exact hplug htree | exact .refl
        | exact (hplug htree).trans (continued_separate _ _)
    | numeral n phase =>
      have hnumeral : Continued (close .interrupted frames (.brokenNumeral n .interrupted))
          (close .interrupted frames (.numeral n)) :=
        continued_close _ _ (.single (.numeral fun large => read_tooLarge h large))
      simp only [step]
      repeat' split
      case h_1 hg =>
        exact continued_close _ _ (.single (.brokenNumeral _ fun large =>
          (grow_more hg).tooLarge h large))
      all_goals first
        | exact continued_refuse _ _ | exact (hplug hnumeral).trans (continued_separate _ _)
    | text pieces escape =>
      simp only [step]
      split
      case h_1 hl => exact inString_text.continued hl
      case h_2 => exact hplug (continued_close _ _ (.single (.string (resumed_quotedFault _ _))))
      case h_3 => exact continued_refuse _ _
    | key members pieces escape =>
      simp only [step]
      split
      case h_1 hl => exact (inString_key members).continued hl
      case h_2 => exact continued_close _ _ (continued_key _ (resumed_quotedFault _ _) _)
      case h_3 => exact continued_refuse _ _

def State.Over : State → Prop
  | .reading _ _ => False
  | .over _ => True

/-- A state after some input, beside one after more of it: what it leaves is continued, and a fault
is found if it was found before. -/
structure State.Continued (state more : State) : Prop where
  tree : Tree.Continued state.interrupted more.interrupted
  stays : state.Over → more.Over

namespace State.Continued

theorem refl (state : State) : Continued state state := ⟨.refl, id⟩

theorem trans {first second third : State} (h : Continued first second)
    (more : Continued second third) : Continued first third :=
  ⟨h.tree.trans more.tree, more.stays ∘ h.stays⟩

theorem step {state : State} (h : state.Fits) (symbol : Symbol) :
    Continued state (Scan.step state symbol) := by
  refine ⟨continued_step h symbol, fun hover => ?_⟩
  cases state with
  | «over» tree => exact hover
  | reading frames mode => exact absurd hover id

theorem run {state : State} (h : state.Fits) (symbols : List Symbol) :
    Continued state (Scan.run state symbols) := by
  induction symbols generalizing state with
  | nil => exact refl state
  | cons symbol symbols ih => exact (step h symbol).trans (ih (fits_step h symbol))

end State.Continued

theorem fits_run {state : State} (h : state.Fits) (symbols : List Symbol) :
    (run state symbols).Fits := by
  induction symbols generalizing state with
  | nil => exact h
  | cons symbol symbols ih => exact ih (fits_step h symbol)

end Scan
end EditScript
