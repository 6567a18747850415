import EditScript.Proofs.Json.Feed

namespace EditScript

namespace Scan

theorem digit?_of_isDigit {c : Char} (h : c.isDigit) : digit? c = some (c.toNat-48) := if_pos h

theorem ne_of_isDigit {c d : Char} (h : c.isDigit) (hd : d.isDigit = false) : c ≠ d := by
  rintro rfl
  simp [hd] at h

variable {frames : List Frame}

theorem feed_whole (n : Numeral) {digits : List Char} (h : ∀ c ∈ digits, c.isDigit) :
    feed (.reading frames (.numeral n .whole)) digits =
      .reading frames (.numeral
        { n with significand := Nat.ofDigitChars 10 digits n.significand } .whole) := by
  induction digits generalizing n with
  | nil => simp
  | cons c digits ih =>
    have hc := h c List.mem_cons_self
    have hs : step (.reading frames (.numeral n .whole)) (.char c) =
        .reading frames (.numeral (n.wholeDigit (c.toNat-48)) .whole) := by
      simp [step, grow, digit?_of_isDigit hc]
    rw [feed_cons, hs, ih _ fun d hd => h d (List.mem_cons_of_mem _ hd), Nat.ofDigitChars_cons]
    rfl

theorem feed_fraction (n : Numeral) {digits : List Char} (h : ∀ c ∈ digits, c.isDigit) :
    feed (.reading frames (.numeral n .fraction)) digits =
      .reading frames (.numeral
        { n with
          significand := Nat.ofDigitChars 10 digits n.significand
          places := n.places+digits.length } .fraction) := by
  induction digits generalizing n with
  | nil => simp
  | cons c digits ih =>
    have hc := h c List.mem_cons_self
    have hs : step (.reading frames (.numeral n .fraction)) (.char c) =
        .reading frames (.numeral (n.fractionDigit (c.toNat-48)) .fraction) := by
      simp [step, grow, digit?_of_isDigit hc]
    rw [feed_cons, hs, ih _ fun d hd => h d (List.mem_cons_of_mem _ hd), Nat.ofDigitChars_cons]
    simp only [Numeral.fractionDigit, List.length_cons, Nat.add_assoc, Nat.add_comm 1]
    rfl

/-- A magnitude with a sign. -/
def signed (negative : Bool) (n : Nat) : Int := if negative then -n else n

theorem exponentDigit_signed {n : Numeral} {negative : Bool} {e : Nat}
    (he : n.exponent = signed negative e) (d : Nat) :
    (n.exponentDigit negative d).exponent = signed negative (10*e+d) := by
  simp only [Numeral.exponentDigit, he, signed]
  split
  · push_cast
    omega
  · push_cast
    rfl

theorem feed_exponent (n : Numeral) (negative : Bool) {digits : List Char} {e : Nat}
    (he : n.exponent = signed negative e) (h : ∀ c ∈ digits, c.isDigit) :
    feed (.reading frames (.numeral n (.exponent negative))) digits =
      .reading frames (.numeral
        { n with exponent := signed negative (Nat.ofDigitChars 10 digits e) }
        (.exponent negative)) := by
  induction digits generalizing n e with
  | nil => simp [← he]
  | cons c digits ih =>
    have hc := h c List.mem_cons_self
    have hs : step (.reading frames (.numeral n (.exponent negative))) (.char c) =
        .reading frames (.numeral (n.exponentDigit negative (c.toNat-48))
          (.exponent negative)) := by
      simp [step, grow, digit?_of_isDigit hc]
    have hn := exponentDigit_signed he (c.toNat-48)
    rw [feed_cons, hs, ih _ hn fun d hd => h d (List.mem_cons_of_mem _ hd), Nat.ofDigitChars_cons]
    rfl

end Scan

/-- A number as it is written: a sign, the digits before and after the point, and an exponent. -/
structure Decimal where
  negative : Bool
  whole : List Char
  fraction : List Char
  exponent : Option (Bool × List Char)

namespace Decimal

def significandText (d : Decimal) : List Char :=
  (if d.negative then ['-'] else []) ++ d.whole ++
    if d.fraction.isEmpty then [] else '.' :: d.fraction

def text (d : Decimal) : List Char :=
  (if d.negative then ['-'] else []) ++ d.whole ++
    (if d.fraction.isEmpty then [] else '.' :: d.fraction) ++
    match d.exponent with
    | none => []
    | some (negative, digits) => 'e' :: (if negative then '-' else '+') :: digits

def numeral (d : Decimal) : Numeral where
  negative := d.negative
  significand := Nat.ofDigitChars 10 (d.whole ++ d.fraction) 0
  places := d.fraction.length
  exponent := d.exponent.elim 0 fun (negative, digits) =>
    Scan.signed negative (Nat.ofDigitChars 10 digits 0)
  integral := d.fraction.isEmpty && d.exponent.isNone

/-- Digits where digits must be, and no zero before another digit. -/
structure Valid (d : Decimal) : Prop where
  whole : ∀ c ∈ d.whole, c.isDigit
  whole_ne_nil : d.whole ≠ []
  leading : d.whole.head? = some '0' → d.whole.length = 1
  fraction : ∀ c ∈ d.fraction, c.isDigit
  exponent : ∀ e ∈ d.exponent, e.2 ≠ [] ∧ ∀ c ∈ e.2, c.isDigit

/-- The texts of an exponent: its mark may be a capital letter, and a plus sign may be left out. -/
inductive ExponentText : Option (Bool × List Char) → List Char → Prop where
  | absent : ExponentText none []
  | unsigned {mark : Char} (digits : List Char) (h : mark = 'e' ∨ mark = 'E') :
      ExponentText (some (false, digits)) (mark :: digits)
  | signed {mark : Char} (negative : Bool) (digits : List Char) (h : mark = 'e' ∨ mark = 'E') :
      ExponentText (some (negative, digits)) (mark :: (if negative then '-' else '+') :: digits)

/-- The text of a number is one way of writing it. -/
theorem text_spelled (d : Decimal) :
    ∃ exponent, ExponentText d.exponent exponent ∧
      d.text = d.significandText ++ exponent := by
  obtain ⟨negative, whole, fraction, exponent⟩ := d
  cases exponent with
  | none => exact ⟨[], .absent, rfl⟩
  | some part => exact ⟨_, .signed part.1 part.2 (.inl rfl), rfl⟩

end Decimal

inductive Numeral.Spelled : Numeral → List Char → Prop where
  | mk {d : Decimal} (valid : d.Valid) {exponent : List Char}
      (he : Decimal.ExponentText d.exponent exponent) :
      Spelled d.numeral (d.significandText ++ exponent)

namespace Scan
variable {frames : List Frame}

/-- The part of a number that may be followed by a point. -/
def Phase.Whole (phase : Phase) : Prop := phase = .zero ∨ phase = .whole

theorem Phase.Whole.final {phase : Phase} (h : phase.Whole) : phase.final = true := by
  rcases h with rfl | rfl <;> rfl

theorem toNat_of_isDigit {c : Char} (h : c.isDigit) (hz : c ≠ '0') : c.toNat-48 ≠ 0 := by
  intro h0
  simp only [Char.isDigit, Bool.and_eq_true, decide_eq_true_eq] at h
  have hl : 48 ≤ c.toNat := h.1
  have hc : c.toNat = 48 := by omega
  exact hz (Char.ext (UInt32.toNat_inj.mp hc))

theorem step_digit {c : Char} (h : c.isDigit) :
    step (.reading frames .value) (.char c) =
      .reading frames (.numeral ⟨false, c.toNat-48, 0, 0, true⟩
        (if c = '0' then .zero else .whole)) := by
  have ne {d : Char} (hd : d.isDigit = false) : c ≠ d := ne_of_isDigit h hd
  have hb : isBlank c = false := by
    simp [isBlank, ne (d := ' ') rfl, ne (d := '\t') rfl, ne (d := '\n') rfl, ne (d := '\r') rfl]
  simp only [step, State.separate, separate, hb, Bool.false_eq_true, if_false, begin,
    if_neg (ne (d := 'n') rfl), if_neg (ne (d := 't') rfl), if_neg (ne (d := 'f') rfl),
    if_neg (ne (d := '"') rfl), if_neg (ne (d := '[') rfl), if_neg (ne (d := '\x7b') rfl),
    if_neg (ne (d := '-') rfl), digit?_of_isDigit h]
  by_cases hz : c = '0'
  · subst hz
    rfl
  · have hpos := toNat_of_isDigit h hz
    rw [if_neg hz]
    split
    · rename_i hd
      exact absurd (Option.some.inj hd) hpos
    · rename_i d _ hd
      rw [Option.some.inj hd]
    · rename_i hd
      cases hd

theorem step_minus_digit {c : Char} (h : c.isDigit) :
    step (.reading frames (.numeral ⟨true, 0, 0, 0, true⟩ .minus)) (.char c) =
      .reading frames (.numeral ⟨true, c.toNat-48, 0, 0, true⟩
        (if c = '0' then .zero else .whole)) := by
  by_cases hz : c = '0'
  · subst hz
    rfl
  · have hpos := toNat_of_isDigit h hz
    have hg : grow ⟨true, 0, 0, 0, true⟩ .minus c =
        .more ⟨true, c.toNat-48, 0, 0, true⟩ .whole := by
      simp [grow, digit?_of_isDigit h, Numeral.wholeDigit]
    simp only [step, hg, if_neg hz]

theorem feed_first {state : State} {negative : Bool} {digits : List Char}
    (hs : ∀ c : Char, c.isDigit → step state (.char c) =
      .reading frames (.numeral ⟨negative, c.toNat-48, 0, 0, true⟩
        (if c = '0' then .zero else .whole)))
    (h : ∀ c ∈ digits, c.isDigit) (hne : digits ≠ [])
    (hz : digits.head? = some '0' → digits.length = 1) :
    ∃ phase : Phase, phase.Whole ∧ feed state digits =
      .reading frames (.numeral ⟨negative, Nat.ofDigitChars 10 digits 0, 0, 0, true⟩ phase) := by
  cases digits with
  | nil => exact absurd rfl hne
  | cons c digits =>
    have hd : ∀ d ∈ digits, d.isDigit := fun d hd => h d (List.mem_cons_of_mem _ hd)
    rw [feed_cons, hs c (h c List.mem_cons_self), Nat.ofDigitChars_cons]
    by_cases hc : c = '0'
    · subst hc
      have hnil : digits = [] := by simpa using hz rfl
      subst hnil
      exact ⟨.zero, .inl rfl, rfl⟩
    · rw [if_neg hc]
      refine ⟨.whole, .inr rfl, ?_⟩
      rw [feed_whole _ hd]
      simp

theorem feed_point (n : Numeral) {phase : Phase} (hp : phase.Whole) (places : n.places = 0)
    {digits : List Char} (h : ∀ c ∈ digits, c.isDigit) (hne : digits ≠ []) :
    feed (.reading frames (.numeral n phase)) ('.' :: digits) =
      .reading frames (.numeral
        { n with
          significand := Nat.ofDigitChars 10 digits n.significand
          places := digits.length
          integral := false } .fraction) := by
  have hs : step (.reading frames (.numeral n phase)) (.char '.') =
      .reading frames (.numeral n.parted .point) := by
    rcases hp with rfl | rfl <;> rfl
  have hpoint : feed (.reading frames (.numeral n.parted .point)) digits =
      feed (.reading frames (.numeral n.parted .fraction)) digits := by
    cases digits with
    | nil => exact absurd rfl hne
    | cons c digits => simp [step, grow, digit?_of_isDigit (h c List.mem_cons_self)]
  rw [feed_cons, hs, hpoint, feed_fraction _ h]
  simp [Numeral.parted, places]

theorem feed_mark (n : Numeral) {phase : Phase} (hp : phase.Whole ∨ phase = .fraction)
    (exponent : n.exponent = 0) (integral : phase = .fraction → n.integral = false)
    {negative : Bool} {digits : List Char} (h : ∀ c ∈ digits, c.isDigit) (hne : digits ≠ [])
    {text : List Char} (ht : Decimal.ExponentText (some (negative, digits)) text) :
    feed (.reading frames (.numeral n phase)) text =
      .reading frames (.numeral
        { n with
          exponent := signed negative (Nat.ofDigitChars 10 digits 0)
          integral := false } (.exponent negative)) := by
  have hm {mark : Char} (hmark : mark = 'e' ∨ mark = 'E') :
      step (.reading frames (.numeral n phase)) (.char mark) =
        .reading frames (.numeral n.parted .mark) := by
    rcases hp with (rfl | rfl) | rfl
    · rcases hmark with rfl | rfl <;> rfl
    · rcases hmark with rfl | rfl <;> rfl
    · have hn : n.parted = n := by simp [Numeral.parted, ← integral rfl]
      rw [hn]
      rcases hmark with rfl | rfl <;> rfl
  have he : n.parted.exponent = signed negative 0 := by
    cases negative <;> exact exponent
  have hdigits : feed (.reading frames (.numeral n.parted (.exponent negative))) digits =
      .reading frames (.numeral
        { n with
          exponent := signed negative (Nat.ofDigitChars 10 digits 0)
          integral := false } (.exponent negative)) := by
    rw [feed_exponent _ negative he h]
    rfl
  cases ht with
  | unsigned digits hmark =>
    have hfirst : feed (.reading frames (.numeral n.parted .mark)) digits =
        feed (.reading frames (.numeral n.parted (.exponent false))) digits := by
      cases digits with
      | nil => exact absurd rfl hne
      | cons c digits => simp [step, grow, digit?_of_isDigit (h c List.mem_cons_self)]
    rw [feed_cons, hm hmark, hfirst, hdigits]
  | signed negative digits hmark =>
    have hs : step (.reading frames (.numeral n.parted .mark))
        (.char (if negative then '-' else '+')) =
        .reading frames (.numeral n.parted (.sign negative)) := by
      cases negative <;> rfl
    have hfirst : feed (.reading frames (.numeral n.parted (.sign negative))) digits =
        feed (.reading frames (.numeral n.parted (.exponent negative))) digits := by
      cases digits with
      | nil => exact absurd rfl hne
      | cons c digits => simp [step, grow, digit?_of_isDigit (h c List.mem_cons_self)]
    rw [feed_cons, feed_cons, hm hmark, hs, hfirst, hdigits]

theorem feed_significand {d : Decimal} (h : d.Valid) :
    ∃ phase : Phase, (phase.Whole ∨ phase = .fraction) ∧
      (phase = .fraction → d.fraction.isEmpty = false) ∧
      feed (.reading frames .value) d.significandText =
        .reading frames (.numeral ⟨d.negative, Nat.ofDigitChars 10 (d.whole ++ d.fraction) 0,
          d.fraction.length, 0, d.fraction.isEmpty⟩ phase) := by
  have hwhole : ∃ phase : Phase, phase.Whole ∧
      feed (.reading frames .value) ((if d.negative then ['-'] else []) ++ d.whole) =
        .reading frames (.numeral
          ⟨d.negative, Nat.ofDigitChars 10 d.whole 0, 0, 0, true⟩ phase) := by
    cases hn : d.negative with
    | false => exact feed_first (fun c hc => step_digit hc) h.whole h.whole_ne_nil h.leading
    | true =>
      show ∃ phase : Phase, phase.Whole ∧ feed (step (.reading frames .value) (.char '-'))
        d.whole = _
      exact feed_first (fun c hc => step_minus_digit hc) h.whole h.whole_ne_nil h.leading
  obtain ⟨first, hw, hfeed⟩ := hwhole
  rw [Decimal.significandText]
  cases hf : d.fraction with
  | nil =>
    refine ⟨first, .inl hw, ?_, ?_⟩
    · rcases hw with rfl | rfl <;> exact fun h => nomatch h
    · simpa using hfeed
  | cons c digits =>
    refine ⟨.fraction, .inr rfl, fun _ => rfl, ?_⟩
    have hc := @feed_point frames ⟨d.negative, Nat.ofDigitChars 10 d.whole 0, 0, 0, true⟩ first hw
      rfl (c :: digits) (hf ▸ h.fraction) (List.cons_ne_nil c digits)
    rw [feed_append, hfeed, List.isEmpty_cons, if_neg Bool.false_ne_true, hc,
      Nat.ofDigitChars_append]

/-- A number is read as its numeral, and may end after its last character. -/
theorem feed_numeral {n : Numeral} {text : List Char} (h : n.Spelled text) :
    ∃ phase : Phase, phase.final = true ∧
      feed (.reading frames .value) text = .reading frames (.numeral n phase) := by
  obtain ⟨h, he⟩ := h
  rename_i d exponent
  obtain ⟨phase, hp, hi, hfeed⟩ := @feed_significand frames d h
  cases hd : d.exponent with
  | none =>
    rw [hd] at he
    cases he
    refine ⟨phase, ?_, ?_⟩
    · rcases hp with hp | rfl
      · exact hp.final
      · rfl
    · simp [Decimal.numeral, hd, hfeed]
  | some part =>
    rw [hd] at he
    obtain ⟨negative, digits⟩ := part
    obtain ⟨hne, hdigits⟩ := h.exponent (negative, digits) (by simp [hd])
    refine ⟨.exponent negative, rfl, ?_⟩
    rw [feed_append, hfeed, feed_mark _ hp rfl hi hdigits hne he]
    simp [Decimal.numeral, hd]

end Scan
end EditScript
