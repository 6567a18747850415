import EditScript.Json.Double
import Mathlib.Algebra.GroupWithZero.Nat

namespace EditScript.Double

theorem quanta_eq (ordinal : Nat) :
    quanta ordinal = if ordinal < 2^52 then ordinal
      else (ordinal%2^52+2^52)*2^(ordinal/2^52-1) := rfl

theorem nearest_eq (num den : Nat) :
    nearest num den = ((num*2^fineness/den).log2-52)*2^52+
      roundDiv (num*2^fineness) (den*2^((num*2^fineness/den).log2-52)) := rfl

theorem roundDiv_mul_right (num den : Nat) {c : Nat} (hc : 0 < c) :
    roundDiv (num*c) (den*c) = roundDiv num den := by
  have hlt (a b : Nat) : a*c < b*c ↔ a < b := Nat.mul_lt_mul_right hc
  simp only [roundDiv, Nat.mul_mod_mul_right, Nat.mul_div_mul_right _ _ hc, ← Nat.mul_assoc, hlt]

theorem nearest_mul_right (num den : Nat) {c : Nat} (hc : 0 < c) :
    nearest (num*c) (den*c) = nearest num den := by
  have hd : num*c*2^fineness/(den*c) = num*2^fineness/den := by
    rw [Nat.mul_right_comm, Nat.mul_div_mul_right _ _ hc]
  rw [nearest_eq, nearest_eq, hd, Nat.mul_right_comm num, Nat.mul_right_comm den,
    roundDiv_mul_right _ _ hc]

theorem roundDiv_mul_self (n : Nat) {den : Nat} (hd : 0 < den) : roundDiv (n*den) den = n := by
  simp [roundDiv, hd]

theorem log2_mul_two_pow {m : Nat} (hl : 2^52 ≤ m) (hm : m < 2^53) (k : Nat) :
    (m*2^k).log2 = 52+k := by
  rw [Nat.log2_eq_iff (Nat.mul_ne_zero (by omega) (Nat.ne_of_gt (Nat.two_pow_pos k)))]
  constructor
  · rw [Nat.pow_add]
    exact Nat.mul_le_mul_right _ hl
  · rw [Nat.add_right_comm, Nat.pow_add]
    exact Nat.mul_lt_mul_of_pos_right hm (Nat.two_pow_pos k)

/-- Every magnitude is a multiple of the spacing around it. -/
theorem quanta_spec (ordinal : Nat) :
    ∃ n spacing, quanta ordinal = n*2^spacing ∧ (quanta ordinal).log2-52 = spacing ∧
      spacing*2^52+n = ordinal := by
  by_cases h : ordinal < 2^52
  · refine ⟨ordinal, 0, ?_, ?_, ?_⟩
    · rw [quanta_eq, if_pos h, Nat.pow_zero, Nat.mul_one]
    · by_cases hz : ordinal = 0
      · subst hz
        rfl
      · have hl : ordinal.log2 < 52 := (Nat.log2_lt hz).mpr h
        rw [quanta_eq, if_pos h]
        omega
    · omega
  · have hm : ordinal%2^52+2^52 < 2^53 := by omega
    refine ⟨ordinal%2^52+2^52, ordinal/2^52-1, ?_, ?_, ?_⟩
    · rw [quanta_eq, if_neg h]
    · rw [quanta_eq, if_neg h, log2_mul_two_pow (by omega) hm]
      omega
    · omega

@[irreducible] def bits : Nat := 2098

/-- More digits than the decimal of any double has. -/
@[irreducible] def decimals : Nat := 2099

theorem bits_eq : bits = 2098 := by
  rw [bits]

theorem decimals_eq : decimals = 2099 := by
  rw [decimals]

theorem two_pow_le_bits {k : Nat} (h : k ≤ 2098) : 2^k ≤ 2^bits :=
  Nat.pow_le_pow_right (by decide) (bits_eq.symm ▸ h)

/-- The digits of the largest magnitude, counted in units of `10^-fineness`. -/
theorem two_pow_bits_mul_le : 2^bits*5^fineness+1 ≤ 10^decimals := by
  decide +kernel

theorem quanta_lt {ordinal : Nat} (h : ordinal < 2047*2^52) : quanta ordinal < 2^bits := by
  rw [quanta_eq]
  split
  case isTrue hlt => exact Nat.lt_of_lt_of_le hlt (two_pow_le_bits (by decide))
  case isFalse =>
    have hm : ordinal%2^52+2^52 < 2^53 := by omega
    have hs : 53+(ordinal/2^52-1) ≤ 2098 := by omega
    calc (ordinal%2^52+2^52)*2^(ordinal/2^52-1)
        < 2^53*2^(ordinal/2^52-1) := Nat.mul_lt_mul_of_pos_right hm (Nat.two_pow_pos _)
      _ = 2^(53+(ordinal/2^52-1)) := (Nat.pow_add 2 53 _).symm
      _ ≤ 2^bits := two_pow_le_bits hs

theorem fineness_eq : fineness = 1074 := by
  rw [fineness]

theorem ten_pow (k : Nat) : 10^k = 2^k*5^k := Nat.mul_pow 2 5 k

theorem ten_pow_pos (k : Nat) : 0 < 10^k := Nat.pow_pos (by decide)

theorem five_pow_pos (k : Nat) : 0 < 5^k := Nat.pow_pos (by decide)

theorem ten_pow_mul_le {a b c k : Nat} (h : a+b+c ≤ k) : 10^a*10^b*10^c ≤ 10^k := by
  rw [← Nat.pow_add, ← Nat.pow_add]
  exact Nat.pow_le_pow_right (by decide) h

/-- A magnitude rounds to its own ordinal. -/
theorem nearest_quanta (ordinal : Nat) :
    nearest (quanta ordinal*5^fineness) (10^fineness) = ordinal := by
  have hs := nearest_mul_right (quanta ordinal) (2^fineness) (five_pow_pos fineness)
  rw [ten_pow fineness, hs]
  obtain ⟨n, spacing, hq, hl, ho⟩ := quanta_spec ordinal
  rw [nearest_eq, Nat.mul_div_cancel _ (Nat.two_pow_pos fineness), hl, hq, Nat.mul_assoc n,
    Nat.mul_comm (2^fineness),
    roundDiv_mul_self n (Nat.mul_pos (Nat.two_pow_pos _) (Nat.two_pow_pos _))]
  exact ho

/-- What does not round to zero is at least half of the smallest positive double. -/
theorem le_of_nearest_ne_zero {num den : Nat} (h : nearest num den ≠ 0) :
    den ≤ 2*(num*2^fineness) := by
  refine Nat.not_lt.mp fun hlt => h ?_
  rw [nearest_eq]
  generalize num*2^fineness = scaled at hlt ⊢
  have hdiv : scaled/den = 0 := Nat.div_eq_of_lt (by omega)
  have hmod : scaled%den = scaled := Nat.mod_eq_of_lt (by omega)
  simp [hdiv, hmod, hlt, roundDiv]

/-- A multiple of a power of ten, in units of `10^-fineness`, rounds to an ordinal. -/
def ReadsBack (ordinal n place : Nat) : Prop := nearest (n*10^place) (10^fineness) = ordinal

theorem readsBack_of_decide {ordinal n place : Nat}
    (h : decide (nearest (n*10^place) (10^fineness) = ordinal) = true) :
    ReadsBack ordinal n place := by
  unfold ReadsBack
  exact of_decide_eq_true h

theorem readsBack_exact (ordinal : Nat) : ReadsBack ordinal (quanta ordinal*5^fineness) 0 := by
  rw [ReadsBack, Nat.pow_zero, Nat.mul_one]
  exact nearest_quanta ordinal

/-- The decimal `digits*10^exponent` rounds to the magnitude of the double. -/
structure Named (d : Double) (digits : Nat) (exponent : Int) : Prop where
  lower : -fineness ≤ exponent
  upper : exponent ≤ 400
  readsBack : ReadsBack d.ordinal digits (exponent+fineness).toNat

namespace Named
variable {d : Double} {digits : Nat} {exponent : Int}

/-- The decimal is not so small that it is read as zero at once. -/
theorem log2_lower (h : d.Named digits exponent) (ho : d.ordinal ≠ 0) :
    -400 ≤ exponent+(digits.log2+1 : Nat) := by
  refine Int.not_lt.mp fun hlow => ?_
  have hle := le_of_nearest_ne_zero (h.readsBack.symm ▸ ho)
  have hd : digits ≤ 10^(digits.log2+1) :=
    Nat.le_trans (Nat.le_of_lt Nat.lt_log2_self) (Nat.pow_le_pow_left (by decide) _)
  obtain ⟨k, hk, hp⟩ : ∃ k, k ≤ 400 ∧ 2*2^fineness ≤ 10^k := ⟨400, by decide, by decide +kernel⟩
  have hexp : digits.log2+1+(exponent+fineness).toNat+k ≤ fineness-1 := by
    have := h.lower
    have := fineness_eq
    omega
  have hlt : 2*(digits*10^(exponent+fineness).toNat*2^fineness) ≤ 10^(fineness-1) := calc
    2*(digits*10^(exponent+fineness).toNat*2^fineness)
        = digits*10^(exponent+fineness).toNat*(2*2^fineness) := Nat.mul_left_comm 2 _ (2^fineness)
    _ ≤ 10^(digits.log2+1)*10^(exponent+fineness).toNat*10^k :=
          Nat.mul_le_mul (Nat.mul_le_mul_right _ hd) hp
    _ ≤ 10^(fineness-1) := ten_pow_mul_le hexp
  have hten : 10^(fineness-1) < 10^fineness := Nat.pow_lt_pow_right (by decide) (by
    have := fineness_eq
    omega)
  exact absurd (Nat.le_trans hle hlt) (Nat.not_le.mpr hten)

theorem digits_ne_zero (h : d.Named digits exponent) (ho : d.ordinal ≠ 0) : digits ≠ 0 := by
  rintro rfl
  have hle := le_of_nearest_ne_zero (h.readsBack.symm ▸ ho)
  rw [Nat.zero_mul, Nat.zero_mul, Nat.mul_zero, Nat.le_zero] at hle
  exact absurd hle (Nat.ne_of_gt (ten_pow_pos fineness))

theorem ofDecimal? (h : d.Named digits exponent) (ho : d.ordinal ≠ 0) :
    Double.ofDecimal? d.negative digits exponent = some d := by
  have hlow := h.log2_lower ho
  have hup := h.upper
  have hz := h.digits_ne_zero ho
  have hd : ofOrdinal? d.negative d.ordinal = some d := dif_pos d.finite
  rw [Double.ofDecimal?.eq_def, if_neg (by omega), if_neg (by omega)]
  have hn := h.readsBack
  cases exponent with
  | ofNat e =>
    have he : (Int.ofNat e+fineness).toNat = e+fineness := rfl
    have hone := nearest_mul_right (digits*10^e) 1 (ten_pow_pos fineness)
    rw [Nat.one_mul, Nat.mul_assoc, ← Nat.pow_add, ← he, hn] at hone
    show ofOrdinal? d.negative (Double.nearest (digits*10^e) 1) = some d
    rw [← hone, hd]
  | negSucc e =>
    have hl := h.lower
    have he : fineness = e+1+(Int.negSucc e+fineness).toNat := by omega
    have hp := nearest_mul_right digits (10^(e+1)) (ten_pow_pos (Int.negSucc e+fineness).toNat)
    rw [← Nat.pow_add, ← he, hn] at hp
    show ofOrdinal? d.negative (Double.nearest digits (10^(e+1))) = some d
    rw [← hp, hd]

theorem shift (h : d.Named digits exponent) {k : Nat} (hk : -fineness ≤ exponent-k) :
    d.Named (digits*10^k) (exponent-k) := by
  refine ⟨hk, ?_, ?_⟩
  · have := h.upper
    omega
  · have he : (exponent+fineness).toNat = k+(exponent-k+fineness).toNat := by omega
    have hn := h.readsBack
    rw [ReadsBack, he, Nat.pow_add, ← Nat.mul_assoc] at hn
    exact hn

end Named

theorem neighbour?_spec {ordinal exact place n : Nat}
    (h : neighbour? ordinal exact place = some n) :
    ReadsBack ordinal n place ∧ n ≤ exact+1 := by
  unfold neighbour? at h
  extract_lets step below rest readsBack pick at h
  have hbelow : below ≤ exact := Nat.div_le_self exact step
  have hle : pick ≤ exact+1 := by
    have hpick : pick = below ∨ pick = below+1 := by
      unfold pick
      split
      · exact .inl rfl
      · exact .inr rfl
    omega
  split at h
  · rename_i hback
    obtain rfl : pick = n := Option.some.inj h
    exact ⟨readsBack_of_decide hback, hle⟩
  · have hback : readsBack n = true := List.find?_some h
    have hm := List.mem_of_find?_eq_some h
    simp only [List.mem_cons, List.not_mem_nil, or_false] at hm
    exact ⟨readsBack_of_decide hback, by omega⟩

/-- What holds of the finest grid and of whatever is found on a coarser one holds of the result. -/
theorem descend_spec {search : Nat → Option Nat} {exact : Nat} (good : Nat → Nat → Prop)
    (hexact : good exact 0) (hsearch : ∀ place n, search place = some n → good n place)
    (coarsest : Nat) :
    good (descend search exact coarsest).1 (descend search exact coarsest).2 ∧
      (descend search exact coarsest).2 ≤ coarsest := by
  induction coarsest with
  | zero => exact ⟨hexact, Nat.le_refl 0⟩
  | succ place ih =>
    rw [descend]
    cases h : search (place+1) with
    | some n => exact ⟨hsearch _ n h, Nat.le_refl _⟩
    | none => exact ⟨ih.1, Nat.le_succ_of_le ih.2⟩

/-- The shortest decimal of a double names it, and has no more digits than its magnitude. -/
theorem shortest_spec (d : Double) :
    d.Named (shortest d.ordinal).1 (shortest d.ordinal).2 ∧ (shortest d.ordinal).1 < 10^decimals := by
  have hsearch : ∀ place n, neighbour? d.ordinal (quanta d.ordinal*5^fineness) place = some n →
      ReadsBack d.ordinal n place ∧ n ≤ quanta d.ordinal*5^fineness+1 := by
    intro place n h
    exact neighbour?_spec h
  have hs := descend_spec
    (fun n place => ReadsBack d.ordinal n place ∧ n ≤ quanta d.ordinal*5^fineness+1)
    ⟨readsBack_exact d.ordinal, Nat.le_succ _⟩ hsearch
    (fineness+2+((quanta d.ordinal).log2+1-fineness)*31/100)
  have hl : (quanta d.ordinal).log2 < 2098 := by
    by_cases hz : quanta d.ordinal = 0
    · rw [hz]
      decide
    · exact Nat.lt_of_lt_of_eq ((Nat.log2_lt hz).mpr (quanta_lt d.finite)) bits_eq
  have hf := fineness_eq
  simp only [shortest]
  generalize descend _ _ _ = found at hs ⊢
  obtain ⟨⟨hback, hle⟩, hplace⟩ := hs
  refine ⟨⟨?_, ?_, ?_⟩, ?_⟩
  · omega
  · omega
  · rw [Int.sub_add_cancel, Int.toNat_natCast]
    exact hback
  · have hm := Nat.mul_lt_mul_of_pos_right (quanta_lt d.finite) (five_pow_pos fineness)
    exact Nat.lt_of_le_of_lt hle (Nat.lt_of_lt_of_le (Nat.succ_lt_succ hm) two_pow_bits_mul_le)

end EditScript.Double
