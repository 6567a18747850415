import EditScript.Dict
import EditScript.Json.Double

namespace EditScript

/-- Whole numbers that are kept exactly: those of a signed or an unsigned 64-bit word. -/
def Number.Exact (n : Int) : Prop := -0x8000000000000000 ≤ n ∧ n < 0x10000000000000000

instance (n : Int) : Decidable (Number.Exact n) := inferInstanceAs (Decidable (_ ∧ _))

inductive Number where
  | integer (n : Int) (exact : Number.Exact n)
  | double (d : Double)
  deriving DecidableEq

namespace Number

/-- A count as a number: exact in range, otherwise the nearest double or the largest one. -/
def ofNat (n : Nat) : Number :=
  if exact : Exact n then .integer n exact
  else .double ((Double.ofDecimal? false n 0).getD (Double.largest false))

theorem exact_of_lt {n : Nat} (h : n < UInt64.size) : Exact n := by
  unfold UInt64.size at h
  unfold Exact
  omega

theorem ofNat_of_lt {n : Nat} (h : n < UInt64.size) : ofNat n = .integer n (exact_of_lt h) :=
  dif_pos (exact_of_lt h)

end Number

/-- A JSON value. The members of an object stand in the order in which they are written. -/
inductive Json where
  | null
  | bool (value : Bool)
  | number (value : Number)
  | string (value : String)
  | array (items : List Json)
  | object (members : List (String × Json))

namespace Json

instance : Inhabited Json := ⟨.null⟩

def ofNat (n : Nat) : Json := .number (.ofNat n)

def ofText? (text : Option String) : Json := text.elim .null .string

mutual

def decEq : (a b : Json) → Decidable (a = b)
  | .null, .null => .isTrue rfl
  | .bool a, .bool b => decidable_of_iff (a = b) (by simp)
  | .number a, .number b => decidable_of_iff (a = b) (by simp)
  | .string a, .string b => decidable_of_iff (a = b) (by simp)
  | .array a, .array b => @decidable_of_iff _ (a = b) (by simp) (decEqItems a b)
  | .object a, .object b => @decidable_of_iff _ (a = b) (by simp) (decEqMembers a b)
  | .null, .bool _ | .null, .number _ | .null, .string _
  | .null, .array _ | .null, .object _
  | .bool _, .null | .bool _, .number _ | .bool _, .string _
  | .bool _, .array _ | .bool _, .object _
  | .number _, .null | .number _, .bool _ | .number _, .string _
  | .number _, .array _ | .number _, .object _
  | .string _, .null | .string _, .bool _ | .string _, .number _
  | .string _, .array _ | .string _, .object _
  | .array _, .null | .array _, .bool _ | .array _, .number _
  | .array _, .string _ | .array _, .object _
  | .object _, .null | .object _, .bool _ | .object _, .number _
  | .object _, .string _ | .object _, .array _ =>
    .isFalse (by simp)

def decEqItems : (a b : List Json) → Decidable (a = b)
  | [], [] => .isTrue rfl
  | a :: as, b :: bs =>
    @decidable_of_iff _ (a = b ∧ as = bs) (by simp)
      (@instDecidableAnd _ _ (decEq a b) (decEqItems as bs))
  | [], _ :: _ | _ :: _, [] => .isFalse (by simp)

def decEqMembers : (a b : List (String × Json)) → Decidable (a = b)
  | [], [] => .isTrue rfl
  | (k, a) :: as, (l, b) :: bs =>
    @decidable_of_iff _ (k = l ∧ a = b ∧ as = bs) (by simp [and_assoc])
      (@instDecidableAnd _ _ _ (@instDecidableAnd _ _ (decEq a b) (decEqMembers as bs)))
  | [], _ :: _ | _ :: _, [] => .isFalse (by simp)

end

instance : DecidableEq Json := decEq

mutual

/-- Every object inside has its members in strictly increasing order of their keys. -/
def Sorted : Json → Prop
  | .null | .bool _ | .number _ | .string _ => True
  | .array items => SortedItems items
  | .object members => Entries.Sorted members ∧ SortedMembers members

def SortedItems : List Json → Prop
  | [] => True
  | item :: items => Sorted item ∧ SortedItems items

def SortedMembers : List (String × Json) → Prop
  | [] => True
  | (_, value) :: members => Sorted value ∧ SortedMembers members

end

mutual

/-- The value with the members of every object sorted by key, the last one of each key kept. -/
def canonical : Json → Json
  | .null => .null
  | .bool value => .bool value
  | .number value => .number value
  | .string value => .string value
  | .array items => .array (canonicalItems items)
  | .object members => .object (Entries.sort (canonicalMembers members))

def canonicalItems : List Json → List Json
  | [] => []
  | item :: items => canonical item :: canonicalItems items

def canonicalMembers : List (String × Json) → List (String × Json)
  | [] => []
  | (key, value) :: members => (key, canonical value) :: canonicalMembers members

end

theorem sortedMembers_iff {members : List (String × Json)} :
    SortedMembers members ↔ ∀ member ∈ members, Sorted member.2 := by
  induction members with
  | nil => simp [SortedMembers]
  | cons member members ih => simp [SortedMembers, ih]

theorem sortedMembers_put {key : String} {value : Json} {members : List (String × Json)}
    (hv : Sorted value) (hm : SortedMembers members) :
    SortedMembers (Entries.put key value members) := by
  rw [sortedMembers_iff] at hm ⊢
  intro member h
  rcases Entries.mem_put h with rfl | h
  · exact hv
  · exact hm member h

theorem sortedMembers_sort {members : List (String × Json)} (h : SortedMembers members) :
    SortedMembers (Entries.sort members) := by
  suffices hs : ∀ start, SortedMembers start → SortedMembers
      (members.foldl (fun sorted member => Entries.put member.1 member.2 sorted) start) from
    hs [] trivial
  induction members with
  | nil => exact fun _ hs => hs
  | cons member members ih =>
    exact fun start hs => ih h.2 _ (sortedMembers_put h.1 hs)

mutual

theorem sorted_canonical : (value : Json) → Sorted (canonical value)
  | .null | .bool _ | .number _ | .string _ => trivial
  | .array items => sortedItems_canonicalItems items
  | .object members =>
    ⟨Entries.sorted_sort _, sortedMembers_sort (sortedMembers_canonicalMembers members)⟩

theorem sortedItems_canonicalItems : (items : List Json) → SortedItems (canonicalItems items)
  | [] => trivial
  | item :: items => ⟨sorted_canonical item, sortedItems_canonicalItems items⟩

theorem sortedMembers_canonicalMembers : (members : List (String × Json)) →
    SortedMembers (canonicalMembers members)
  | [] => trivial
  | (_, value) :: members => ⟨sorted_canonical value, sortedMembers_canonicalMembers members⟩

end

end Json
end EditScript
