import EditScript.Json.Printer
import EditScript.Proofs.Json.Nearest
import EditScript.Proofs.Json.Numerals

namespace EditScript

theorem isDigit_of_mem_digits {n : Nat} : ∀ c ∈ Nat.toDigits 10 n, c.isDigit := by
  intro c hc
  exact Nat.isDigit_of_mem_toDigits (by decide) (by decide) hc

theorem digitChar_ne_zero : ∀ n < 10, n ≠ 0 → Nat.digitChar n ≠ '0' := by decide

theorem head?_digits_append (n : Nat) (more : List Char) :
    (Nat.toDigits 10 n ++ more).head? = (Nat.toDigits 10 n).head? := by
  cases h : Nat.toDigits 10 n with
  | nil => exact absurd h Nat.toDigits_ne_nil
  | cons c digits => rfl

theorem head?_digits {n : Nat} (hn : n ≠ 0) : (Nat.toDigits 10 n).head? ≠ some '0' := by
  induction n using Nat.strongRecOn with
  | ind n ih =>
    rw [Nat.toDigits_eq_if (by decide)]
    by_cases h : n < 10
    · rw [if_pos h]
      intro hc
      exact digitChar_ne_zero n h hn (Option.some.inj hc)
    · have hd : n/10 ≠ 0 := by omega
      rw [if_neg h, head?_digits_append]
      exact ih (n/10) (by omega) hd

/-- Digits are written without a zero before another digit. -/
theorem length_digits_of_head? {n : Nat} (h : (Nat.toDigits 10 n).head? = some '0') :
    (Nat.toDigits 10 n).length = 1 := by
  by_cases hn : n = 0
  · subst hn
    rfl
  · exact absurd h (head?_digits hn)

theorem length_digits_pos (n : Nat) : 0 < (Nat.toDigits 10 n).length := Nat.length_toDigits_pos

namespace Number

theorem spell_integer (n : Int) (exact : Exact n) :
    ∃ d : Decimal, d.Valid ∧ d.text = (integer n exact).spell ∧
      d.numeral.number? = some (.integer n exact) := by
  refine ⟨⟨n < 0, Nat.toDigits 10 n.natAbs, [], none⟩, ?_, ?_, ?_⟩
  · exact ⟨isDigit_of_mem_digits, Nat.toDigits_ne_nil, length_digits_of_head?, by simp, by simp⟩
  · simp only [Decimal.text, Number.spell]
    split <;> simp_all
  · have hs : Nat.ofDigitChars 10 (Nat.toDigits 10 n.natAbs ++ []) 0 = n.natAbs := by
      rw [List.append_nil, Nat.ofDigitChars_ten_toDigits]
    have hw : (if n < 0 then -(n.natAbs : Int) else n.natAbs) = n := by
      split <;> omega
    have hz : ¬(n < 0 ∧ n.natAbs = 0) := by omega
    simp only [Numeral.number?, Decimal.numeral, hs, decide_eq_true_eq, hw]
    rw [dif_pos ⟨rfl, hz, exact⟩]

end Number

/-- The decimal has the value `digits*10^exponent`, whatever its layout: it may count trailing zeros
among its digits, down to the first place after the point. -/
structure Decimal.Means (d : Decimal) (digits : Nat) (exponent : Int) : Prop where
  valid : d.Valid
  integral : d.numeral.integral = false
  value : ∃ zeros : Nat, d.numeral.significand = digits*10^zeros ∧
    d.numeral.exponent-d.numeral.places = exponent-zeros ∧ (zeros = 0 ∨ exponent-zeros = -1)
  exponent : d.numeral.exponent ≤ max 0 ((Nat.toDigits 10 digits).length+exponent)

namespace Double

theorem layout_whole (negative : Bool) {n : Nat} (hn : n ≠ 0) (e : Nat) :
    (Decimal.mk negative (Nat.toDigits 10 n ++ List.replicate e '0') ['0'] none).Means n e := by
  refine ⟨⟨?_, ?_, ?_, ?_, ?_⟩, ?_, ?_, ?_⟩
  · intro c hc
    rcases List.mem_append.mp hc with hc | hc
    · exact isDigit_of_mem_digits c hc
    · rw [List.eq_of_mem_replicate hc]
      rfl
  · simp [Nat.toDigits_ne_nil]
  · intro h
    rw [head?_digits_append] at h
    exact absurd h (head?_digits hn)
  · simp
  · simp
  · rfl
  · refine ⟨e+1, ?_, ?_, ?_⟩
    · simp [Decimal.numeral, Nat.ofDigitChars_append, Nat.ofDigitChars_ten_toDigits,
        Nat.ofDigitChars_replicate_zero, Nat.ofDigitChars_cons, Nat.pow_succ, Nat.mul_comm,
        Nat.mul_left_comm]
    · simp only [Decimal.numeral, Option.elim_none, List.length_singleton]
      omega
    · omega
  · exact Int.le_max_left 0 _

theorem layout_point (negative : Bool) {n : Nat} (hn : n ≠ 0) {point : Nat} (hp : 0 < point)
    (hl : point < (Nat.toDigits 10 n).length) :
    (Decimal.mk negative ((Nat.toDigits 10 n).take point) ((Nat.toDigits 10 n).drop point)
      none).Means n (point-(Nat.toDigits 10 n).length) := by
  have hd : ((Nat.toDigits 10 n).drop point).isEmpty = false := by
    rw [List.isEmpty_eq_false_iff]
    intro h
    have := congrArg List.length h
    simp at this
    omega
  refine ⟨⟨?_, ?_, ?_, ?_, ?_⟩, ?_, ?_, ?_⟩
  · intro c hc
    exact isDigit_of_mem_digits c (List.mem_of_mem_take hc)
  · intro h
    have := congrArg List.length h
    simp at this
    omega
  · intro h
    rw [List.head?_take, if_neg (by omega)] at h
    exact absurd h (head?_digits hn)
  · intro c hc
    exact isDigit_of_mem_digits c (List.mem_of_mem_drop hc)
  · simp
  · simp [Decimal.numeral, hd]
  · refine ⟨0, ?_, ?_, .inl rfl⟩
    · simp [Decimal.numeral, Nat.ofDigitChars_ten_toDigits]
    · simp only [Decimal.numeral, Option.elim_none, List.length_drop]
      omega
  · exact Int.le_max_left 0 _

theorem layout_fraction (negative : Bool) (n zeros : Nat) :
    (Decimal.mk negative ['0'] (List.replicate zeros '0' ++ Nat.toDigits 10 n) none).Means n
      (-zeros-(Nat.toDigits 10 n).length) := by
  refine ⟨⟨?_, ?_, ?_, ?_, ?_⟩, ?_, ?_, ?_⟩
  · simp
  · simp
  · exact fun _ => rfl
  · intro c hc
    rcases List.mem_append.mp hc with hc | hc
    · rw [List.eq_of_mem_replicate hc]
      rfl
    · exact isDigit_of_mem_digits c hc
  · simp
  · simp [Decimal.numeral, Nat.toDigits_ne_nil]
  · refine ⟨0, ?_, ?_, .inl rfl⟩
    · simp [Decimal.numeral, Nat.ofDigitChars_append, Nat.ofDigitChars_cons,
        Nat.ofDigitChars_replicate_zero, Nat.ofDigitChars_ten_toDigits]
    · simp only [Decimal.numeral, Option.elim_none, List.length_append, List.length_replicate]
      omega
  · exact Int.le_max_left 0 _

theorem layout_exponent (negative : Bool) {n : Nat} {first : Char} {rest : List Char}
    (hd : Nat.toDigits 10 n = first :: rest) (point : Int) :
    (Decimal.mk negative [first] rest
      (some (point ≤ 0, Nat.toDigits 10 (point-1).natAbs))).Means n (point-(rest.length+1)) := by
  have hm : ∀ c ∈ first :: rest, c.isDigit := hd ▸ isDigit_of_mem_digits
  have he : (Scan.signed (decide (point ≤ 0)) (point-1).natAbs) = point-1 := by
    simp only [Scan.signed, decide_eq_true_eq]
    split <;> omega
  refine ⟨⟨?_, ?_, ?_, ?_, ?_⟩, ?_, ?_, ?_⟩
  · intro c hc
    rw [List.mem_singleton.mp hc]
    exact hm first List.mem_cons_self
  · simp
  · exact fun _ => rfl
  · intro c hc
    exact hm c (List.mem_cons_of_mem _ hc)
  · intro e he
    obtain rfl := Option.some.inj he
    exact ⟨Nat.toDigits_ne_nil, isDigit_of_mem_digits⟩
  · simp [Decimal.numeral]
  · refine ⟨0, ?_, ?_, .inl rfl⟩
    · simp only [Decimal.numeral, List.singleton_append, ← hd, Nat.ofDigitChars_ten_toDigits,
        Nat.pow_zero, Nat.mul_one]
    · simp only [Decimal.numeral, Option.elim, Nat.ofDigitChars_ten_toDigits, he]
      omega
  · simp only [Decimal.numeral, Option.elim, Nat.ofDigitChars_ten_toDigits, he, hd, List.length_cons]
    omega

/-- The layout of a decimal keeps its value, wherever the point comes to stand. -/
theorem layout_spec {negative : Bool} {sign : List Char} (hs : sign = if negative then ['-'] else [])
    {n : Nat} (hn : n ≠ 0) (exponent : Int) :
    ∃ d : Decimal, d.Means n exponent ∧ d.negative = negative ∧
      d.text = sign ++ layout (Nat.toDigits 10 n) exponent := by
  have hl := length_digits_pos n
  -- By where the point falls: behind all digits, among them, before them, or too far away.
  simp only [layout]
  split
  case isTrue h =>
    obtain ⟨e, rfl⟩ := Int.eq_ofNat_of_zero_le h.1
    refine ⟨_, layout_whole negative hn e, rfl, ?_⟩
    simp [Decimal.text, hs]
  case isFalse hwhole =>
    split
    case isTrue h =>
      obtain ⟨point, hp⟩ := Int.eq_ofNat_of_zero_le (Int.le_of_lt h.1)
      have he : exponent = point-(Nat.toDigits 10 n).length := by omega
      have hlt : point < (Nat.toDigits 10 n).length := by omega
      refine ⟨_, he ▸ layout_point negative hn (by omega) hlt, rfl, ?_⟩
      have hd : ((Nat.toDigits 10 n).drop point).isEmpty = false := by
        rw [List.isEmpty_eq_false_iff]
        intro hnil
        have := List.drop_eq_nil_iff.mp hnil
        omega
      simp [Decimal.text, hs, hp, hd]
    case isFalse hpoint =>
      split
      case isTrue h =>
        obtain ⟨zeros, hz⟩ := Int.eq_ofNat_of_zero_le (show
          0 ≤ -((Nat.toDigits 10 n).length+exponent) by omega)
        have he : exponent = -zeros-(Nat.toDigits 10 n).length := by omega
        refine ⟨_, he ▸ layout_fraction negative n zeros, rfl, ?_⟩
        simp [Decimal.text, hs, hz, Nat.toDigits_ne_nil]
      case isFalse hfraction =>
        cases hd : Nat.toDigits 10 n with
        | nil => exact absurd hd Nat.toDigits_ne_nil
        | cons first rest =>
          obtain ⟨point, hp⟩ : ∃ point, point = ((first :: rest).length : Int)+exponent := ⟨_, rfl⟩
          have he : exponent = point-(rest.length+1) := by
            rw [List.length_cons] at hp
            omega
          refine ⟨_, he ▸ layout_exponent negative hd point, rfl, ?_⟩
          rw [← hp]
          cases rest <;> simp [Decimal.text, hs]

end Double

/-- A numeral with a point or an exponent means the nearest double. -/
theorem Numeral.number?_eq_double {n : Numeral} {x : Double} (hi : n.integral = false)
    (hlarge : n.tooLarge = false)
    (h : Double.ofDecimal? n.negative n.significand (n.exponent-n.places) = some x) :
    n.number? = some (.double x) := by
  unfold number?
  simp only [hi, Bool.false_eq_true, false_and, dif_neg, not_false_eq_true, hlarge, if_false, h]
  rfl

theorem Decimal.Means.number? {d : Decimal} {n : Nat} {exponent : Int} {x : Double}
    (h : d.Means n exponent) (hx : x.Named n exponent) (ho : x.ordinal ≠ 0)
    (hneg : d.negative = x.negative) (hlt : n < 10^Double.decimals) :
    d.numeral.number? = some (.double x) := by
  obtain ⟨zeros, hs, he, hz⟩ := h.value
  have hf := Double.fineness_eq
  have hlower := hx.lower
  have hupper := hx.upper
  have hshift : x.Named (n*10^zeros) (exponent-zeros) := hx.shift (by omega)
  have hd := Double.decimals_eq
  have hlen : (Nat.toDigits 10 n).length ≤ Double.decimals :=
    (Nat.length_toDigits_le_iff (by decide) (by omega)).mpr hlt
  refine Numeral.number?_eq_double h.integral ?_ ?_
  · have hexponent := h.exponent
    have hlimit : d.numeral.exponent ≤ Numeral.exponentLimit := by
      unfold Numeral.exponentLimit
      omega
    simp only [Numeral.tooLarge, decide_eq_false_iff_not]
    omega
  · have hn : d.numeral.negative = x.negative := hneg
    rw [hs, he, hn]
    exact hshift.ofDecimal? ho

theorem Double.number?_numeral (x : Double) : x.numeral.number? = some (.double x) := by
  unfold numeral
  split
  case isTrue ho =>
    have hx : zero x.negative = x := Double.ext rfl ho.symm
    refine Numeral.number?_eq_double rfl rfl ?_
    simp [ofDecimal?.eq_def, hx]
  case isFalse ho =>
    have hs := (shortest_spec x).1
    have hupper := hs.upper
    refine Numeral.number?_eq_double rfl ?_ ?_
    · have hlimit : (shortest x.ordinal).2 ≤ Numeral.exponentLimit := by
        unfold Numeral.exponentLimit
        omega
      simp only [Numeral.tooLarge, decide_eq_false_iff_not]
      omega
    · simpa using hs.ofDecimal? ho

theorem Number.number?_numeral (x : Number) : x.numeral.number? = some x := by
  cases x with
  | double d => exact d.number?_numeral
  | integer n exact =>
    have hwhole : (if n < 0 then -(n.natAbs : Int) else n.natAbs) = n := by omega
    have hsign : ¬(decide (n < 0) = true ∧ n.natAbs = 0) := by simp only [decide_eq_true_eq]; omega
    have h : (numeral (.integer n exact)).integral ∧ ¬((numeral (.integer n exact)).negative ∧
        (numeral (.integer n exact)).significand = 0) ∧ Number.Exact n := ⟨rfl, hsign, exact⟩
    simp only [Numeral.number?, numeral, decide_eq_true_eq, hwhole]
    exact dif_pos (by simpa only [numeral, decide_eq_true_eq] using h)

theorem Double.spell_spec (x : Double) :
    ∃ d : Decimal, d.Valid ∧ d.text = x.spell ∧ d.numeral.number? = some (.double x) := by
  by_cases ho : x.ordinal = 0
  · refine ⟨⟨x.negative, ['0'], ['0'], none⟩, ?_, ?_, ?_⟩
    · exact ⟨by simp, by simp, fun _ => rfl, by simp, by simp⟩
    · simp only [Decimal.text, spell, ho, if_true]
      cases x.negative <;> rfl
    · have hx : x = zero x.negative := Double.ext rfl ho
      have hz : ofDecimal? x.negative 0 (-1) = some (zero x.negative) := by
        simp [ofDecimal?.eq_def]
      show ((ofDecimal? x.negative 0 (-1)).map Number.double) = some (.double x)
      rw [hz, ← hx]
      rfl
  · have hs := shortest_spec x
    have hn := hs.1.digits_ne_zero ho
    obtain ⟨d, hd, hneg, htext⟩ := @layout_spec x.negative _ rfl _ hn (shortest x.ordinal).2
    refine ⟨d, hd.valid, ?_, hd.number? hs.1 ho hneg hs.2⟩
    simp only [htext, spell, if_neg ho]
    cases x.negative <;> rfl

/-- A number is written as a decimal that is read as it. -/
theorem Number.spell_spec (x : Number) :
    ∃ d : Decimal, d.Valid ∧ d.text = x.spell ∧ d.numeral.number? = some x := by
  cases x with
  | integer n exact => exact spell_integer n exact
  | double x => exact x.spell_spec

end EditScript
