namespace EditScript

namespace Entries

/-- Keys strictly increase, in the order of their code points. -/
def Sorted {α : Type} (entries : List (String × α)) : Prop :=
  entries.Pairwise (fun a b => a.1 < b.1)

instance {α : Type} (entries : List (String × α)) : Decidable (Sorted entries) :=
  inferInstanceAs (Decidable (entries.Pairwise _))

/-- Sorted entries with `key` sent to `value`, whatever it was sent to before. -/
def put {α : Type} (key : String) (value : α) : List (String × α) → List (String × α)
  | [] => [(key, value)]
  | entry :: rest =>
      if key < entry.1 then (key, value) :: entry :: rest
      else if key = entry.1 then (key, value) :: rest
      else entry :: put key value rest

/-- The entries in order of their keys, each key keeping the last value given for it. -/
def sort {α : Type} (entries : List (String × α)) : List (String × α) :=
  entries.foldl (fun sorted entry => put entry.1 entry.2 sorted) []

def get? {α : Type} (key : String) (entries : List (String × α)) : Option α :=
  (entries.find? (fun entry => entry.1 = key)).map (·.2)

variable {α : Type}

theorem mem_put {key : String} {value : α} {entries : List (String × α)} {entry : String × α}
    (h : entry ∈ put key value entries) : entry = (key, value) ∨ entry ∈ entries := by
  induction entries with
  | nil => simpa [put] using h
  | cons first rest ih =>
    simp only [put] at h
    split at h
    · simpa using h
    · split at h
      · rcases List.mem_cons.mp h with h | h
        · exact .inl h
        · exact .inr (List.mem_cons_of_mem _ h)
      · rcases List.mem_cons.mp h with h | h
        · exact .inr (h ▸ List.mem_cons_self)
        · rcases ih h with h | h
          · exact .inl h
          · exact .inr (List.mem_cons_of_mem _ h)

theorem sorted_put {key : String} {value : α} {entries : List (String × α)} (h : Sorted entries) :
    Sorted (put key value entries) := by
  induction entries with
  | nil => simp [put, Sorted]
  | cons first rest ih =>
    have hf := List.pairwise_cons.mp h
    simp only [put]
    split
    case isTrue hlt =>
      refine List.pairwise_cons.mpr ⟨?_, h⟩
      intro entry hm
      rcases List.mem_cons.mp hm with hm | hm
      · exact hm ▸ hlt
      · exact String.lt_trans hlt (hf.1 entry hm)
    case isFalse hlt =>
      split
      case isTrue heq => exact List.pairwise_cons.mpr ⟨fun entry hm => heq ▸ hf.1 entry hm, hf.2⟩
      case isFalse heq =>
        refine List.pairwise_cons.mpr ⟨?_, ih hf.2⟩
        intro entry hm
        rcases mem_put hm with hm | hm
        · subst hm
          exact String.not_le.mp (fun hle => heq (String.le_antisymm hle (String.not_lt.mp hlt)))
        · exact hf.1 entry hm

theorem sorted_sort (entries : List (String × α)) : Sorted (sort entries) := by
  suffices h : ∀ start : List (String × α), Sorted start →
      Sorted (entries.foldl (fun sorted entry => put entry.1 entry.2 sorted) start) from
    h [] List.Pairwise.nil
  induction entries with
  | nil => exact fun _ h => h
  | cons entry rest ih => exact fun start h => ih _ (sorted_put h)

end Entries

@[ext] structure Dict (α : Type) where
  entries : List (String × α)
  sorted : Entries.Sorted entries
  deriving DecidableEq

namespace Dict
variable {α : Type}

def empty : Dict α := ⟨[], List.Pairwise.nil⟩

instance : Inhabited (Dict α) := ⟨empty⟩

def put (key : String) (value : α) (dict : Dict α) : Dict α :=
  ⟨Entries.put key value dict.entries, Entries.sorted_put dict.sorted⟩

/-- The map of these entries; of entries with one key the last counts. -/
def ofList (entries : List (String × α)) : Dict α :=
  ⟨Entries.sort entries, Entries.sorted_sort entries⟩

def get? (dict : Dict α) (key : String) : Option α := Entries.get? key dict.entries

def isEmpty (dict : Dict α) : Bool := dict.entries.isEmpty

end Dict
end EditScript
