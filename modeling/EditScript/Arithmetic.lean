namespace EditScript

/-- What ends a run early: an error of its own, or an index too large for a word. -/
inductive Halt (ε : Type) where
  | error (e : ε)
  | overflow
  deriving DecidableEq

namespace Halt
variable {ε δ α β : Type}

def map (f : ε → δ) : Halt ε → Halt δ
  | .error e => .error (f e)
  | .overflow => .overflow

@[simp] theorem map_error (f : ε → δ) (e : ε) : (Halt.error e).map f = .error (f e) := rfl

@[simp] theorem map_overflow (f : ε → δ) : (Halt.overflow : Halt ε).map f = .overflow := rfl

@[simp] theorem map_id (halt : Halt ε) : halt.map id = halt := by
  cases halt <;> rfl

def unlessOverflow : Option α → Except (Halt ε) α
  | some a => .ok a
  | none => .error .overflow

@[simp] theorem unlessOverflow_some (a : α) :
    (unlessOverflow (some a) : Except (Halt ε) α) = .ok a := rfl

@[simp] theorem unlessOverflow_none :
    (unlessOverflow none : Except (Halt ε) α) = .error .overflow := rfl

theorem unlessOverflow_eq_ok {x : Option α} {a : α} :
    (unlessOverflow x : Except (Halt ε) α) = .ok a ↔ x = some a := by
  cases x <;> simp

end Halt

/-- What a build does where a word overflows: it stops there, or goes on from zero. -/
inductive Overflow where
  | stops
  | wraps
  deriving DecidableEq

/-- How indices are moved on: as naturals, or as words of 64 bits. -/
inductive Arithmetic where
  | naturals
  | words (overflow : Overflow)
  deriving DecidableEq

namespace Arithmetic

def add : Arithmetic → Nat → Nat → Option Nat
  | .naturals, index, units => some (index+units)
  | .words .stops, index, units => if index+units < UInt64.size then some (index+units) else none
  | .words .wraps, index, units => some ((index+units)%UInt64.size)

@[simp] theorem add_naturals (index units : Nat) : naturals.add index units = some (index+units) :=
  rfl

/-- The indices of the arithmetic. -/
def Holds : Arithmetic → Nat → Prop
  | .naturals, _ => True
  | .words _, index => index < UInt64.size

theorem holds_naturals (index : Nat) : naturals.Holds index := trivial

theorem holds_toNat (arithmetic : Arithmetic) (word : UInt64) : arithmetic.Holds word.toNat := by
  cases arithmetic with
  | naturals => trivial
  | words overflow => exact word.toNat_lt

/-- Words that may overflow hold what naturals hold where they do not. -/
theorem add_of_lt {index units : Nat} (h : index+units < UInt64.size) (arithmetic : Arithmetic) :
    arithmetic.add index units = some (index+units) := by
  match arithmetic with
  | .naturals => rfl
  | .words .stops => exact if_pos h
  | .words .wraps => exact congrArg some (Nat.mod_eq_of_lt h)

variable {arithmetic : Arithmetic} {index units more stop : Nat}

theorem add_zero (h : arithmetic.Holds index) : arithmetic.add index 0 = some index := by
  match arithmetic with
  | .naturals => rfl
  | .words overflow => exact add_of_lt h (.words overflow)

theorem holds_add (h : arithmetic.add index units = some stop) : arithmetic.Holds stop := by
  match arithmetic with
  | .naturals => trivial
  | .words .stops =>
    simp only [add] at h
    split at h
    case isTrue hlt => exact Option.some.inj h ▸ hlt
    case isFalse => cases h
  | .words .wraps =>
    exact Option.some.inj h ▸ Nat.mod_lt _ (by decide)

theorem add_add {middle : Nat} (h : arithmetic.add index units = some middle)
    (hm : arithmetic.add middle more = some stop) :
    arithmetic.add index (units+more) = some stop := by
  match arithmetic with
  | .naturals =>
    obtain rfl := Option.some.inj h
    rw [← hm, add_naturals, add_naturals, Nat.add_assoc]
  | .words .stops =>
    simp only [add, Option.ite_none_right_eq_some, Option.some.injEq] at h hm ⊢
    omega
  | .words .wraps =>
    obtain rfl := Option.some.inj h
    rw [← hm]
    simp [add, Nat.add_assoc]

theorem add_injective (h : arithmetic.add index units = some stop)
    (hm : arithmetic.add index (units+more) = some stop)
    (hlt : arithmetic = .words .wraps → more < UInt64.size) : more = 0 := by
  match arithmetic with
  | .naturals =>
    have he := Option.some.inj (h.trans hm.symm)
    omega
  | .words .stops =>
    simp only [add, Option.ite_none_right_eq_some, Option.some.injEq] at h hm
    omega
  | .words .wraps =>
    have he := Option.some.inj (h.trans hm.symm)
    have hmod : (index+units)%UInt64.size = (index+units+more)%UInt64.size := by
      rw [Nat.add_assoc]
      exact he
    have hdvd := Nat.sub_mod_eq_zero_of_mod_eq hmod.symm
    rw [Nat.add_sub_cancel_left, Nat.mod_eq_of_lt (hlt rfl)] at hdvd
    exact hdvd

end Arithmetic
end EditScript
