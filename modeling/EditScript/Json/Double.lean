namespace EditScript

/-- The number of doubles from one power of two up to the next. -/
def Double.binade : Nat := Nat.pow 2 52

/-- A finite double: a sign, and the place of its magnitude among all finite magnitudes in
increasing order. -/
@[ext] structure Double where
  negative : Bool
  ordinal : Nat
  finite : ordinal < 2047*Double.binade
  deriving DecidableEq

namespace Double

/-- The smallest positive double is `2^-fineness`. -/
@[irreducible] def fineness : Nat := 1074

/-- The magnitude at an ordinal, counted in the smallest positive double. -/
def quanta (ordinal : Nat) : Nat :=
  if ordinal < binade then ordinal
  else (ordinal%binade+binade)*Nat.pow 2 (ordinal/binade-1)

/-- A quotient rounded to the nearest whole number, a half going to the even one. -/
def roundDiv (num den : Nat) : Nat :=
  if 2*(num%den) < den then num/den
  else if den < 2*(num%den) then num/den+1
  else num/den+num/den%2

/-- The ordinal whose magnitude is nearest to `num/den`, ties going to the even one.
Magnitudes from 2^52 quanta on are spaced by the power of two that leaves 53 bits. -/
def nearest (num den : Nat) : Nat :=
  let scaled := num*Nat.pow 2 fineness
  let spacing := (scaled/den).log2-52
  spacing*binade+roundDiv scaled (den*Nat.pow 2 spacing)

def ofOrdinal? (negative : Bool) (ordinal : Nat) : Option Double :=
  if finite : ordinal < 2047*binade then some ⟨negative, ordinal, finite⟩ else none

def zero (negative : Bool) : Double := ⟨negative, 0, by decide⟩

def largest (negative : Bool) : Double := ⟨negative, 2047*binade-1, by decide⟩

/-- The double nearest to `digits*10^exponent`, unless that lies beyond the finite ones.
Exponents far outside the range of doubles are settled without computing the power. -/
def ofDecimal? (negative : Bool) (digits : Nat) (exponent : Int) : Option Double :=
  if digits = 0 ∨ exponent+(digits.log2+1 : Nat) < -400 then some (zero negative)
  else if 400 < exponent then none
  else match exponent with
    | .ofNat e => ofOrdinal? negative (nearest (digits*Nat.pow 10 e) 1)
    | .negSucc e => ofOrdinal? negative (nearest digits (Nat.pow 10 (e+1)))

/-- Of the two multiples of `10^place` around `exact`, one that reads back as `ordinal`:
the nearer if both do, the even one if they are equally near. All in units of `10^-fineness`. -/
def neighbour? (ordinal exact place : Nat) : Option Nat :=
  let step := Nat.pow 10 place
  let below := exact/step
  let rest := exact%step
  let readsBack (n : Nat) : Bool := nearest (n*step) (Nat.pow 10 fineness) = ordinal
  let pick := if 2*rest < step ∨ (2*rest = step ∧ below%2 = 0) then below else below+1
  if readsBack pick then some pick
  else [below, below+1].find? readsBack

/-- The first grid at or below `10^place` for which the search finds a multiple of its step, and
that multiple. The finest grid holds every magnitude, and needs no search. -/
def descend (search : Nat → Option Nat) (exact : Nat) : Nat → Nat × Nat
  | 0 => (exact, 0)
  | place+1 => match search (place+1) with
    | some n => (n, place+1)
    | none => descend search exact place

/-- The decimal with the fewest digits that reads back as `ordinal`, the nearest of them to its
magnitude: its digits, and the power of ten that they count. -/
def shortest (ordinal : Nat) : Nat × Int :=
  let coarsest := fineness+2+((quanta ordinal).log2+1-fineness)*31/100
  let exact := quanta ordinal*Nat.pow 5 fineness
  let found := descend (neighbour? ordinal exact) exact coarsest
  (found.1, (found.2 : Int)-fineness)

end Double
end EditScript
