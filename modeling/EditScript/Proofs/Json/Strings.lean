import EditScript.Json.Printer
import EditScript.Proofs.Json.Feed

namespace EditScript

namespace Quoted

theorem symbols_cons (fault : Option Fault) (c : Char) (pieces : List Piece) :
    symbols fault (.ofChar c :: pieces) = (.char c :: ·) <$> symbols fault pieces := by
  unfold Piece.ofChar
  split
  · rfl
  · split
    case isTrue h =>
      have ht : isTrailing c.toNat = false := by
        simp only [isTrailing, decide_eq_false_iff_not]
        omega
      have hl : isLeading c.toNat = false := by
        simp only [isLeading, decide_eq_false_iff_not]
        omega
      rw [symbols.eq_def]
      simp only [ht, hl, Bool.false_eq_true, if_false, Char.ofNat_toNat]
    case isFalse => rfl

theorem symbols_ofText (text : List Char) :
    symbols none (text.map .ofChar) = .ok (text.map .char) := by
  induction text with
  | nil => rfl
  | cons c text ih =>
    rw [List.map_cons, symbols_cons, ih]
    rfl

theorem chars?_char (text : List Char) : Symbol.chars? (text.map .char) = some text := by
  induction text with
  | nil => rfl
  | cons c text ih => simp [Symbol.chars?, ih]

@[simp] theorem text_ofText (text : String) : (ofText text).text = .ok text := by
  simp only [ofText, Quoted.text, symbols_ofText, chars?_char, bind, Except.bind,
    String.ofList_toList]

end Quoted

def Scan.hexStep (value : Option Nat) (c : Char) : Option Nat :=
  value.bind fun v => (hexDigit? c).map (16*v+·)

/-- The value of hexadecimal digits, if they are that. -/
def Scan.hexCode (digits : List Char) : Option Nat := digits.foldl hexStep (some 0)

inductive Piece.Spelled : Piece → List Char → Prop where
  | plain {c : Char} (control : 32 ≤ c.toNat) (quote : c ≠ '"') (backslash : c ≠ '\\') :
      Spelled (.symbol (.char c)) [c]
  | escaped {c d : Char} (h : Scan.escaped? c = some d) : Spelled (.escaped d) ['\\', c]
  | unit {digits : List Char} {code : Nat} (length : digits.length = 4)
      (h : Scan.hexCode digits = some code) : Spelled (.unit code) ('\\' :: 'u' :: digits)

/-- The texts between the quotes of a string. -/
inductive Quoted.Inside : List Piece → List Char → Prop where
  | nil : Inside [] []
  | snoc {pieces : List Piece} {text : List Char} (h : Inside pieces text) {piece : Piece}
      {more : List Char} (hp : piece.Spelled more) : Inside (pieces ++ [piece]) (text ++ more)

inductive Quoted.Spelled : Quoted → List Char → Prop where
  | mk {pieces : List Piece} {text : List Char} (h : Inside pieces text) :
      Spelled ⟨pieces, none⟩ ('"' :: (text ++ ['"']))

namespace Scan

theorem hexDigit?_digitChar : ∀ n < 16, hexDigit? (Nat.digitChar n) = some n := by decide

theorem toNat_of_wide {c : Char} (hc : 1 < c.utf8Size) : 127 < c.toNat := by
  have h : ¬c.val ≤ 127 := fun h => by
    have hsize := Char.utf8Size_eq_one_iff.mpr h
    omega
  simpa [UInt32.le_iff_toNat_le] using h

theorem not_isDigit_of_wide {c : Char} (hc : 1 < c.utf8Size) : ¬c.isDigit := by
  intro h
  have hle : c.val ≤ '9'.val := by
    simp only [Char.isDigit, Bool.and_eq_true, decide_eq_true_eq] at h
    exact h.2
  have hnat := UInt32.le_iff_toNat_le.mp hle
  have hwide : 127 < c.val.toNat := toNat_of_wide hc
  have hnine : '9'.val.toNat = 57 := rfl
  omega

theorem hexDigit?_of_wide {c : Char} (hc : 1 < c.utf8Size) : hexDigit? c = none := by
  have hwide : 127 < c.val.toNat := toNat_of_wide hc
  have hnot {d : Char} (hd : d.val.toNat ≤ 127) : ¬c ≤ d := by
    intro h
    have hnat : c.val.toNat ≤ d.val.toNat := UInt32.le_iff_toNat_le.mp h
    omega
  have hf : ¬c ≤ 'f' := hnot (by decide)
  have hF : ¬c ≤ 'F' := hnot (by decide)
  simp only [hexDigit?, not_isDigit_of_wide hc, hf, hF, and_false, if_false]
  rfl

theorem utf8Size_of_hexDigit? {c : Char} {n : Nat} (h : hexDigit? c = some n) : c.utf8Size = 1 := by
  have hpos := c.utf8Size_pos
  by_cases hc : 1 < c.utf8Size
  · rw [hexDigit?_of_wide hc] at h
    cases h
  · omega

theorem hexStep_none (digits : List Char) : digits.foldl hexStep none = none := by
  induction digits with
  | nil => rfl
  | cons c digits ih => exact ih

/-- Modes of the machine in which a string is read. -/
def Stringy (mode : List Piece → Escape → Mode) : Prop :=
  ∀ frames pieces escape symbol pieces' escape',
    lengthen pieces escape symbol = .more pieces' escape' →
    step (.reading frames (mode pieces escape)) symbol = .reading frames (mode pieces' escape')

theorem stringy_text : Stringy .text := by
  intro frames pieces escape symbol pieces' escape' h
  simp only [step, h]

theorem stringy_key (members : List (Quoted × Tree)) : Stringy (.key members) := by
  intro frames pieces escape symbol pieces' escape' h
  simp only [step, h]

variable {mode : List Piece → Escape → Mode} {frames : List Frame}

theorem Stringy.feed_pair (hm : Stringy mode) (pieces : List Piece) {c d : Char} (hu : c ≠ 'u')
    (hc : escaped? c = some d) :
    feed (.reading frames (mode pieces .none)) ['\\', c] =
      .reading frames (mode (.escaped d :: pieces) .none) := by
  have hd : lengthen pieces .backslash (.char c) = .more (.escaped d :: pieces) .none := by
    simp only [lengthen, if_neg hu, hc]
  rw [feed_cons, feed_cons, feed_nil, hm _ _ _ _ pieces .backslash rfl, hm _ _ _ _ _ _ hd]

theorem Stringy.feed_digits (hm : Stringy mode) (pieces : List Piece) {digits : List Char}
    (hne : digits ≠ []) {bytes value code : Nat} (length : bytes+digits.length = 4)
    (h : digits.foldl hexStep (some value) = some code) :
    feed (.reading frames (mode pieces (.unit bytes (some value)))) digits =
      .reading frames (mode (.unit code :: pieces) .none) := by
  induction digits generalizing bytes value with
  | nil => exact absurd rfl hne
  | cons c digits ih =>
    rw [List.foldl_cons] at h
    cases hd : hexDigit? c with
    | none =>
      have hstep : hexStep (some value) c = none := by simp [hexStep, hd]
      rw [hstep, hexStep_none] at h
      cases h
    | some d =>
      have hstep : hexStep (some value) c = some (16*value+d) := by simp [hexStep, hd]
      have hwidth : c.utf8Size = 1 := utf8Size_of_hexDigit? hd
      rw [hstep] at h
      rw [List.length_cons] at length
      by_cases hlast : digits = []
      · subst hlast
        have hcode : 16*value+d = code := Option.some.inj h
        have hbytes : bytes = 3 := by simpa using length
        have hl : lengthen pieces (.unit bytes (some value)) (.char c) =
            .more (.unit code :: pieces) .none := by
          simp [lengthen, Symbol.width, hwidth, hd, hcode, hbytes]
        exact hm _ _ _ _ _ _ hl
      · have hpos : digits.length ≠ 0 := fun h0 => hlast (List.length_eq_zero_iff.mp h0)
        have hl : lengthen pieces (.unit bytes (some value)) (.char c) =
            .more pieces (.unit (bytes+1) (some (16*value+d))) := by
          have hbytes : bytes+1 < 4 := by omega
          simp [lengthen, Symbol.width, hwidth, hd, hbytes]
        rw [feed_cons, hm _ _ _ _ _ _ hl]
        exact ih hlast (by omega) h

theorem Stringy.feed_piece (hm : Stringy mode) (pieces : List Piece) {piece : Piece}
    {text : List Char} (h : piece.Spelled text) :
    feed (.reading frames (mode pieces .none)) text =
      .reading frames (mode (piece :: pieces) .none) := by
  cases h with
  | @plain c control quote backslash =>
    have hcontrol : ¬c.toNat < 32 := Nat.not_lt.mpr control
    have hl : lengthen pieces .none (.char c) = .more (.symbol (.char c) :: pieces) .none := by
      simp only [lengthen, if_neg quote, if_neg backslash, if_neg hcontrol]
    exact hm _ _ _ _ _ _ hl
  | @escaped c d h =>
    have hu : c ≠ 'u' := by
      rintro rfl
      cases h
    exact hm.feed_pair pieces hu h
  | unit length h =>
    rename_i digits code
    have hne : digits ≠ [] := by
      rintro rfl
      cases length
    rw [feed_cons, feed_cons, hm _ _ _ _ pieces .backslash rfl,
      hm _ _ _ _ pieces (.unit 0 (some 0)) rfl]
    have hlength : 0+digits.length = 4 := by omega
    exact hm.feed_digits pieces hne hlength h

theorem Stringy.feed_inside (hm : Stringy mode) {pieces : List Piece} {text : List Char}
    (h : Quoted.Inside pieces text) :
    feed (.reading frames (mode [] .none)) text = .reading frames (mode pieces.reverse .none) := by
  induction h with
  | nil => rfl
  | snoc h hp ih => rw [feed_append, ih, hm.feed_piece _ hp, List.reverse_concat]

theorem feed_string {quoted : Quoted} {text : List Char} (h : quoted.Spelled text) :
    feed (.reading frames .value) text = plug frames (.string quoted) := by
  obtain ⟨h⟩ := h
  have hstart : step (.reading frames .value) (.char '"') = .reading frames (.text [] .none) := rfl
  rw [feed_cons, hstart, feed_append, stringy_text.feed_inside h]
  simp [step, lengthen]

theorem feed_key {quoted : Quoted} {text : List Char} (h : quoted.Spelled text)
    {state : State} {members : List (Quoted × Tree)}
    (hs : step state (.char '"') = .reading frames (.key members [] .none)) :
    feed state text = .reading frames (.colon members quoted) := by
  obtain ⟨h⟩ := h
  rw [feed_cons, hs, feed_append, (stringy_key members).feed_inside h]
  simp [step, lengthen]

end Scan

open Json (escape quote)

theorem Piece.spelled_escape (c : Char) : (ofChar c).Spelled (escape c) := by
  unfold escape ofChar
  by_cases hpair : c = '"' ∨ c = '\\' ∨ c = '\x08' ∨ c = '\x0c' ∨ c = '\n' ∨ c = '\r' ∨ c = '\t'
  · rw [if_pos hpair]
    rcases hpair with rfl | rfl | rfl | rfl | rfl | rfl | rfl
    all_goals exact .escaped rfl
  · rw [if_neg hpair]
    simp only [not_or] at hpair
    obtain ⟨hquote, hbackslash, hb, hf, hn, hr, ht⟩ := hpair
    rw [if_neg hquote, if_neg hbackslash, if_neg hb, if_neg hf, if_neg hn, if_neg hr, if_neg ht]
    by_cases h : c.toNat < 32
    · rw [if_pos h, if_pos h]
      have hhigh : Scan.hexDigit? (Nat.digitChar (c.toNat/16)) = some (c.toNat/16) :=
        Scan.hexDigit?_digitChar _ (by omega)
      have hlow : Scan.hexDigit? (Nat.digitChar (c.toNat%16)) = some (c.toNat%16) :=
        Scan.hexDigit?_digitChar _ (by omega)
      have hzero : Scan.hexDigit? '0' = some 0 := rfl
      refine .unit rfl ?_
      simp only [Scan.hexCode, Scan.hexStep, List.foldl, hzero, hhigh, hlow, Option.bind_some,
        Option.map_some]
      congr 1
      omega
    · rw [if_neg h, if_neg h]
      exact .plain (Nat.not_lt.mp h) hquote hbackslash

theorem Quoted.inside_escapes {pieces : List Piece} {before : List Char}
    (h : Inside pieces before) (text : List Char) :
    Inside (pieces ++ text.map .ofChar) (before ++ text.flatMap escape) := by
  induction text generalizing pieces before with
  | nil => simpa using h
  | cons c text ih =>
    have hc := ih (h.snoc (Piece.spelled_escape c))
    simpa using hc

/-- A text in quotes is a string that means it. -/
theorem Quoted.spelled_quote (text : String) : (ofText text).Spelled (quote text) :=
  .mk (inside_escapes .nil text.toList)

end EditScript
