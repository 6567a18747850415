import EditScript.Proofs.Json.Grammar

namespace EditScript

namespace Scan

theorem isDigit_of_digit? {c : Char} {k : Nat} (h : digit? c = some k) :
    c.isDigit ∧ k = c.toNat-48 := by
  unfold digit? at h
  split at h
  · rename_i hc
    exact ⟨hc, (Option.some.inj h).symm⟩
  · cases h

theorem isDigit_append {digits : List Char} (h : ∀ c ∈ digits, c.isDigit) {c : Char}
    (hc : c.isDigit) : ∀ e ∈ digits ++ [c], e.isDigit := by
  intro e he
  rcases List.mem_append.mp he with he | he
  · exact h e he
  · rwa [List.mem_singleton.mp he]

end Scan

namespace Decimal

variable {d : Decimal} {c : Char}

theorem Valid.wholeDigit (h : d.Valid) (hz : d.whole ≠ ['0']) (hc : c.isDigit) :
    Valid { d with whole := d.whole ++ [c] } where
  whole := Scan.isDigit_append h.whole hc
  whole_ne_nil := by simp
  leading := by
    intro hhead
    obtain ⟨e, digits, hw⟩ := List.exists_cons_of_ne_nil h.whole_ne_nil
    have he : e = '0' := by simpa [hw] using hhead
    have hone : d.whole.length = 1 := h.leading (by simp [hw, he])
    have hnil : digits = [] := by simpa [hw] using hone
    exact absurd (by rw [hw, he, hnil]) hz
  fraction := h.fraction
  exponent := h.exponent

theorem Valid.wholeDigit_ne_zero (h : d.Valid) : d.whole ++ [c] ≠ ['0'] := by
  intro heq
  have hpos := List.length_pos_iff.mpr h.whole_ne_nil
  have hlength := congrArg List.length heq
  simp only [List.length_append, List.length_cons, List.length_nil] at hlength
  omega

theorem Valid.fractionDigit (h : d.Valid) (hc : c.isDigit) :
    Valid { d with fraction := d.fraction ++ [c] } where
  whole := h.whole
  whole_ne_nil := h.whole_ne_nil
  leading := h.leading
  fraction := Scan.isDigit_append h.fraction hc
  exponent := h.exponent

theorem Valid.withExponent (h : d.Valid) {negative : Bool} {digits : List Char} (hne : digits ≠ [])
    (hd : ∀ c ∈ digits, c.isDigit) : Valid { d with exponent := some (negative, digits) } where
  whole := h.whole
  whole_ne_nil := h.whole_ne_nil
  leading := h.leading
  fraction := h.fraction
  exponent := by
    rintro _ ⟨⟩
    exact ⟨hne, hd⟩

theorem ExponentText.digit {negative : Bool} {digits text : List Char}
    (h : ExponentText (some (negative, digits)) text) (c : Char) :
    ExponentText (some (negative, digits ++ [c])) (text ++ [c]) := by
  cases h with
  | unsigned digits hm => exact .unsigned (digits ++ [c]) hm
  | signed negative digits hm => exact .signed negative (digits ++ [c]) hm

theorem numeral_wholeDigit (hf : d.fraction = []) (c : Char) :
    numeral { d with whole := d.whole ++ [c] } = d.numeral.wholeDigit (c.toNat-48) := by
  simp [numeral, Numeral.wholeDigit, hf, Nat.ofDigitChars_append, Nat.ofDigitChars_cons]

theorem numeral_fractionDigit (d : Decimal) (c : Char) :
    numeral { d with fraction := d.fraction ++ [c] } =
      d.numeral.parted.fractionDigit (c.toNat-48) := by
  simp [numeral, Numeral.parted, Numeral.fractionDigit, ← List.append_assoc,
    Nat.ofDigitChars_append, Nat.ofDigitChars_cons]

theorem numeral_parted (hf : d.fraction ≠ []) : d.numeral.parted = d.numeral := by
  simp [numeral, Numeral.parted, hf]

/-- An exponent without digits counts for nothing. -/
theorem numeral_noDigits (he : d.exponent = none) (negative : Bool) :
    numeral { d with exponent := some (negative, []) } = d.numeral.parted := by
  cases negative <;> simp [numeral, Numeral.parted, he, Scan.signed]

theorem numeral_exponentDigit (d : Decimal) (negative : Bool) (digits : List Char) (c : Char) :
    numeral { d with exponent := some (negative, digits ++ [c]) } =
      (numeral { d with exponent := some (negative, digits) }).exponentDigit negative
        (c.toNat-48) := by
  have hs := @Scan.exponentDigit_signed (numeral { d with exponent := some (negative, digits) })
    negative _ rfl (c.toNat-48)
  have hd : Nat.ofDigitChars 10 (digits ++ [c]) 0 =
      10*Nat.ofDigitChars 10 digits 0+(c.toNat-48) := by
    simp [Nat.ofDigitChars_append, Nat.ofDigitChars_cons]
  have he : (numeral { d with exponent := some (negative, digits ++ [c]) }).exponent =
      Scan.signed negative (10*Nat.ofDigitChars 10 digits 0+(c.toNat-48)) := by
    simp [numeral, hd]
  simp only [Numeral.exponentDigit] at hs ⊢
  simp only [hs, ← he]
  simp [numeral]

end Decimal

open Scan (Phase digit? isDigit_of_digit? toNat_of_isDigit)

/-- The texts of a number up to the part that was read last. -/
inductive Numeral.Begun : Numeral → Phase → List Char → Prop where
  | minus : Begun ⟨true, 0, 0, 0, true⟩ .minus ['-']
  | whole {d : Decimal} (valid : d.Valid) (hf : d.fraction = []) (he : d.exponent = none)
      {phase : Phase} (hp : phase = if d.whole = ['0'] then .zero else .whole) :
      Begun d.numeral phase d.significandText
  | point {d : Decimal} (valid : d.Valid) (hf : d.fraction = []) (he : d.exponent = none) :
      Begun d.numeral.parted .point (d.significandText ++ ['.'])
  | fraction {d : Decimal} (valid : d.Valid) (hf : d.fraction ≠ []) (he : d.exponent = none) :
      Begun d.numeral .fraction d.significandText
  | mark {d : Decimal} (valid : d.Valid) (he : d.exponent = none) {mark : Char}
      (hm : mark = 'e' ∨ mark = 'E') : Begun d.numeral.parted .mark (d.significandText ++ [mark])
  | sign {d : Decimal} (valid : d.Valid) (he : d.exponent = none) {mark : Char}
      (hm : mark = 'e' ∨ mark = 'E') (negative : Bool) :
      Begun d.numeral.parted (.sign negative)
        (d.significandText ++ [mark, if negative then '-' else '+'])
  | exponent {d : Decimal} (valid : d.Valid) {negative : Bool} {digits text : List Char}
      (he : d.exponent = some (negative, digits)) (ht : Decimal.ExponentText d.exponent text) :
      Begun d.numeral (.exponent negative) (d.significandText ++ text)

namespace Numeral

variable {n m : Numeral} {phase next : Phase} {text : List Char} {c : Char}

theorem Begun.spelled (h : n.Begun phase text) (final : phase.final = true) : n.Spelled text := by
  have hnone {d : Decimal} (valid : d.Valid) (he : d.exponent = none) :
      d.numeral.Spelled d.significandText := by
    have habsent : Decimal.ExponentText d.exponent [] := by
      rw [he]
      exact .absent
    have hs := Spelled.mk valid habsent
    rwa [List.append_nil] at hs
  cases h with
  | minus | point | mark | sign => cases final
  | whole valid hf he | fraction valid hf he => exact hnone valid he
  | exponent valid he ht => exact .mk valid ht

theorem Begun.first (negative : Bool) (hc : c.isDigit) :
    Begun ⟨negative, c.toNat-48, 0, 0, true⟩ (if c = '0' then .zero else .whole)
      ((if negative then ['-'] else []) ++ [c]) := by
  have valid : Decimal.Valid ⟨negative, [c], [], none⟩ := by
    constructor <;> simp [hc]
  have hphase : (if c = '0' then Phase.zero else .whole) =
      if [c] = ['0'] then .zero else .whole := by simp
  have hb := Begun.whole valid rfl rfl hphase
  simpa [Decimal.numeral, Decimal.significandText, Nat.ofDigitChars_cons] using hb

theorem Begun.firstExponentDigit {d : Decimal} (valid : d.Valid) (he : d.exponent = none)
    (hc : c.isDigit) {negative : Bool}
    (ht : Decimal.ExponentText (some (negative, [c])) text) :
    Begun (d.numeral.parted.exponentDigit negative (c.toNat-48)) (.exponent negative)
      (d.significandText ++ text) := by
  have hdigit : ∀ e ∈ [c], e.isDigit := by
    intro e hmem
    rwa [List.mem_singleton.mp hmem]
  have hb := Begun.exponent (valid.withExponent (List.cons_ne_nil c []) hdigit) rfl ht
  have hn := Decimal.numeral_exponentDigit d negative [] c
  rw [List.nil_append, Decimal.numeral_noDigits he] at hn
  rwa [hn] at hb

theorem Begun.grow_minus (hg : Scan.grow ⟨true, 0, 0, 0, true⟩ .minus c = .more m next) :
    m.Begun next ['-', c] := by
  cases hd : digit? c with
  | none => simp [Scan.grow, hd] at hg
  | some k =>
    obtain ⟨hc, rfl⟩ := isDigit_of_digit? hd
    have hb := Begun.first true hc
    by_cases hz : c = '0'
    · subst hz
      cases hg
      exact hb
    · have hpos : c.toNat-48 ≠ 0 := toNat_of_isDigit hc hz
      rw [if_neg hz] at hb
      simp only [Scan.grow, hd] at hg
      cases hg
      simpa [wholeDigit] using hb

section
variable {d : Decimal}

theorem Begun.wholeDigit (valid : d.Valid) (hf : d.fraction = []) (he : d.exponent = none)
    (hz : d.whole ≠ ['0']) (hc : c.isDigit) :
    Begun (d.numeral.wholeDigit (c.toNat-48)) .whole (d.significandText ++ [c]) := by
  have hb := Begun.whole (valid.wholeDigit hz hc) hf he (if_neg valid.wholeDigit_ne_zero).symm
  rw [Decimal.numeral_wholeDigit hf] at hb
  simpa [Decimal.significandText, hf] using hb

/-- After a zero and after other whole digits the same characters follow, digits apart. -/
theorem grow_noDigit (hp : phase = if d.whole = ['0'] then .zero else .whole)
    (hd : digit? c = none) :
    Scan.grow n phase c =
      if c = '.' then .more n.parted .point
      else if c = 'e' ∨ c = 'E' then .more n.parted .mark
      else .done := by
  subst hp
  split <;> simp [Scan.grow, hd]

theorem Begun.grow_whole (valid : d.Valid) (hf : d.fraction = []) (he : d.exponent = none)
    (hp : phase = if d.whole = ['0'] then .zero else .whole)
    (hg : Scan.grow d.numeral phase c = .more m next) :
    m.Begun next (d.significandText ++ [c]) := by
  cases hd : digit? c with
  | none =>
    rw [grow_noDigit hp hd] at hg
    by_cases hpoint : c = '.'
    · rw [if_pos hpoint] at hg
      cases hg
      subst hpoint
      exact .point valid hf he
    · rw [if_neg hpoint] at hg
      split at hg
      · rename_i hm
        cases hg
        exact .mark valid he hm
      · cases hg
  | some k =>
    obtain ⟨hc, rfl⟩ := isDigit_of_digit? hd
    by_cases hz : d.whole = ['0']
    · simp [hp, hz, Scan.grow, hd] at hg
    · rw [if_neg hz] at hp
      subst hp
      simp only [Scan.grow, hd] at hg
      cases hg
      exact .wholeDigit valid hf he hz hc

theorem Begun.fractionDigit (valid : d.Valid) (he : d.exponent = none) (hc : c.isDigit) :
    Begun (d.numeral.parted.fractionDigit (c.toNat-48)) .fraction
      (Decimal.significandText { d with fraction := d.fraction ++ [c] }) := by
  have hb := Begun.fraction (valid.fractionDigit hc) (by simp) he
  rwa [Decimal.numeral_fractionDigit] at hb

theorem Begun.grow_point (valid : d.Valid) (hf : d.fraction = []) (he : d.exponent = none)
    (hg : Scan.grow d.numeral.parted .point c = .more m next) :
    m.Begun next (d.significandText ++ ['.'] ++ [c]) := by
  cases hd : digit? c with
  | none => simp [Scan.grow, hd] at hg
  | some k =>
    obtain ⟨hc, rfl⟩ := isDigit_of_digit? hd
    simp only [Scan.grow, hd] at hg
    cases hg
    simpa [Decimal.significandText, hf] using Begun.fractionDigit valid he hc

theorem Begun.grow_fraction (valid : d.Valid) (hf : d.fraction ≠ []) (he : d.exponent = none)
    (hg : Scan.grow d.numeral .fraction c = .more m next) :
    m.Begun next (d.significandText ++ [c]) := by
  cases hd : digit? c with
  | none =>
    simp only [Scan.grow, hd] at hg
    split at hg
    · rename_i hm
      cases hg
      have hb := Begun.mark valid he hm
      rwa [Decimal.numeral_parted hf] at hb
    · cases hg
  | some k =>
    obtain ⟨hc, rfl⟩ := isDigit_of_digit? hd
    simp only [Scan.grow, hd] at hg
    cases hg
    have hb := Begun.fractionDigit valid he hc
    rw [Decimal.numeral_parted hf] at hb
    simpa [Decimal.significandText, hf] using hb

theorem Begun.grow_mark (valid : d.Valid) (he : d.exponent = none) {mark : Char}
    (hm : mark = 'e' ∨ mark = 'E') (hg : Scan.grow d.numeral.parted .mark c = .more m next) :
    m.Begun next (d.significandText ++ [mark, c]) := by
  cases hd : digit? c with
  | none =>
    simp only [Scan.grow, hd] at hg
    split at hg
    · rename_i hplus
      cases hg
      subst hplus
      exact .sign valid he hm false
    · split at hg
      · rename_i hminus
        cases hg
        subst hminus
        exact .sign valid he hm true
      · cases hg
  | some k =>
    obtain ⟨hc, rfl⟩ := isDigit_of_digit? hd
    simp only [Scan.grow, hd] at hg
    cases hg
    exact .firstExponentDigit valid he hc (.unsigned [c] hm)

theorem Begun.grow_sign (valid : d.Valid) (he : d.exponent = none) {mark : Char}
    (hm : mark = 'e' ∨ mark = 'E') {negative : Bool}
    (hg : Scan.grow d.numeral.parted (.sign negative) c = .more m next) :
    m.Begun next (d.significandText ++ [mark, if negative then '-' else '+', c]) := by
  cases hd : digit? c with
  | none => simp [Scan.grow, hd] at hg
  | some k =>
    obtain ⟨hc, rfl⟩ := isDigit_of_digit? hd
    simp only [Scan.grow, hd] at hg
    cases hg
    exact .firstExponentDigit valid he hc (.signed negative [c] hm)

theorem Begun.grow_exponent (valid : d.Valid) {negative : Bool} {digits : List Char}
    (he : d.exponent = some (negative, digits)) (ht : Decimal.ExponentText d.exponent text)
    (hg : Scan.grow d.numeral (.exponent negative) c = .more m next) :
    m.Begun next (d.significandText ++ (text ++ [c])) := by
  cases hd : digit? c with
  | none => simp [Scan.grow, hd] at hg
  | some k =>
    obtain ⟨hc, rfl⟩ := isDigit_of_digit? hd
    simp only [Scan.grow, hd] at hg
    cases hg
    obtain ⟨-, hdigits⟩ := valid.exponent (negative, digits) (by simp [he])
    rw [he] at ht
    have hb := Begun.exponent
      (valid.withExponent (by simp) (Scan.isDigit_append hdigits hc)) rfl (ht.digit c)
    rwa [Decimal.numeral_exponentDigit, ← he] at hb

end

theorem Begun.grow (h : n.Begun phase text) (hg : Scan.grow n phase c = .more m next) :
    m.Begun next (text ++ [c]) := by
  cases h with
  | minus => exact .grow_minus hg
  | whole valid hf he hp => exact .grow_whole valid hf he hp hg
  | point valid hf he => exact .grow_point valid hf he hg
  | fraction valid hf he => exact .grow_fraction valid hf he hg
  | mark valid he hm =>
    rw [List.append_assoc]
    exact .grow_mark valid he hm hg
  | sign valid he hm negative =>
    rw [List.append_assoc]
    exact .grow_sign valid he hm hg
  | exponent valid he ht =>
    rw [List.append_assoc]
    exact .grow_exponent valid he ht hg

end Numeral

open Scan (Escape lengthen Blank)

/-- A number that is over may end where it does. -/
theorem Numeral.final_of_done {n : Numeral} {phase : Phase} {c : Char}
    (h : Scan.grow n phase c = .done) : phase.final = true := by
  cases phase with
  | zero | whole | fraction | exponent => rfl
  | minus | point | mark | sign =>
    simp only [Scan.grow] at h
    repeat' split at h
    all_goals contradiction

/-- The texts of a string after its first quote, with its finished pieces in reverse. -/
inductive Quoted.Begun : List Piece → Escape → List Char → Prop where
  | none {pieces : List Piece} {text : List Char} (h : Inside pieces.reverse text) :
      Begun pieces .none text
  | backslash {pieces : List Piece} {text : List Char} (h : Inside pieces.reverse text) :
      Begun pieces .backslash (text ++ ['\\'])
  | unit {pieces : List Piece} {text digits : List Char} {bytes : Nat} {value : Option Nat}
      (h : Inside pieces.reverse text)
      (hv : ∀ v, value = some v →
        bytes < 4 ∧ digits.length = bytes ∧ Scan.hexCode digits = some v) :
      Begun pieces (.unit bytes value) (text ++ '\\' :: 'u' :: digits)

namespace Quoted

variable {pieces longer : List Piece} {escape next : Escape} {text : List Char} {c : Char}

theorem Begun.nil : Begun [] .none [] := .none .nil

theorem Begun.piece (h : Inside pieces.reverse text) {piece : Piece} {more : List Char}
    (hp : piece.Spelled more) : Begun (piece :: pieces) .none (text ++ more) := by
  have hs := Inside.snoc h hp
  rw [← List.reverse_cons] at hs
  exact .none hs

theorem Begun.lengthen_none (h : Inside pieces.reverse text)
    (hl : Scan.lengthen pieces .none (.char c) = .more longer next) :
    Begun longer next (text ++ [c]) := by
  simp only [Scan.lengthen] at hl
  by_cases hquote : c = '"'
  · simp [hquote] at hl
  rw [if_neg hquote] at hl
  by_cases hbackslash : c = '\\'
  · rw [if_pos hbackslash] at hl
    cases hl
    rw [hbackslash]
    exact .backslash h
  rw [if_neg hbackslash] at hl
  split at hl
  · cases hl
  · rename_i hcontrol
    cases hl
    exact .piece h (.plain (Nat.not_lt.mp hcontrol) hquote hbackslash)

theorem Begun.lengthen_backslash (h : Inside pieces.reverse text)
    (hl : Scan.lengthen pieces .backslash (.char c) = .more longer next) :
    Begun longer next (text ++ ['\\', c]) := by
  simp only [Scan.lengthen] at hl
  split at hl
  · rename_i hu
    cases hl
    rw [hu]
    refine .unit h ?_
    rintro v ⟨⟩
    exact ⟨by decide, rfl, rfl⟩
  · split at hl
    · rename_i hc
      cases hl
      exact .piece h (.escaped hc)
    · cases hl

theorem Begun.lengthen_unit {digits : List Char} {bytes : Nat} {value : Option Nat}
    (h : Inside pieces.reverse text)
    (hv : ∀ v, value = some v →
      bytes < 4 ∧ digits.length = bytes ∧ Scan.hexCode digits = some v)
    (hl : Scan.lengthen pieces (.unit bytes value) (.char c) = .more longer next) :
    Begun longer next (text ++ '\\' :: 'u' :: (digits ++ [c])) := by
  have hmore : ∀ v, (value.bind fun v => (Scan.hexDigit? c).map (16*v+·)) = some v →
      bytes+(Symbol.char c).width = bytes+1 ∧ bytes < 4 ∧ (digits ++ [c]).length = bytes+1 ∧
        Scan.hexCode (digits ++ [c]) = some v := by
    intro v hvalue
    obtain ⟨w, hw, hd⟩ := Option.bind_eq_some_iff.mp hvalue
    obtain ⟨k, hk, -⟩ := Option.map_eq_some_iff.mp hd
    obtain ⟨hbytes, hlength, hcode⟩ := hv w hw
    refine ⟨by rw [Symbol.width, Scan.utf8Size_of_hexDigit? hk], hbytes, by simp [hlength], ?_⟩
    rw [Scan.hexCode, List.foldl_append]
    show Scan.hexStep (Scan.hexCode digits) c = some v
    rw [hcode, ← hw]
    exact hvalue
  simp only [Scan.lengthen] at hl
  generalize (value.bind fun v => (Scan.hexDigit? c).map (16*v+·)) = code at hl hmore
  by_cases hbytes : bytes+(Symbol.char c).width < 4
  · rw [if_pos hbytes] at hl
    cases hl
    refine .unit h fun v hvalue => ?_
    obtain ⟨hwidth, -, hlength, hcode⟩ := hmore v hvalue
    exact ⟨hbytes, hlength.trans hwidth.symm, hcode⟩
  · rw [if_neg hbytes] at hl
    cases code with
    | none => cases hl
    | some v =>
      cases hl
      obtain ⟨hwidth, hlt, hlength, hcode⟩ := hmore v rfl
      have hfour : (digits ++ [c]).length = 4 := by omega
      exact .piece h (.unit hfour hcode)

theorem Begun.lengthen (h : Begun pieces escape text)
    (hl : Scan.lengthen pieces escape (.char c) = .more longer next) :
    Begun longer next (text ++ [c]) := by
  cases h with
  | none h => exact .lengthen_none h hl
  | backslash h =>
    rw [List.append_assoc]
    exact .lengthen_backslash h hl
  | unit h hv =>
    rw [List.append_assoc]
    exact .lengthen_unit h hv hl

theorem Begun.closed (h : Begun pieces escape text)
    (hl : Scan.lengthen pieces escape (.char c) = .closed) :
    c = '"' ∧ Inside pieces.reverse text := by
  cases h with
  | none h =>
    simp only [Scan.lengthen] at hl
    split at hl
    · exact ⟨‹_›, h⟩
    · repeat' split at hl
      all_goals cases hl
  | backslash h =>
    simp only [Scan.lengthen] at hl
    repeat' split at hl
    all_goals cases hl
  | unit h hv =>
    simp only [Scan.lengthen] at hl
    repeat' split at hl
    all_goals cases hl

end Quoted
end EditScript
