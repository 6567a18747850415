import EditScript.Style

namespace EditScript

namespace Entries
variable {α : Type}

theorem put_append {key : String} (value : α) {entries : List (String × α)}
    (h : ∀ entry ∈ entries, entry.1 < key) :
    put key value entries = entries ++ [(key, value)] := by
  induction entries with
  | nil => rfl
  | cons first rest ih =>
    have hf := h first List.mem_cons_self
    have hlt : ¬key < first.1 := fun hk => String.lt_irrefl _ (String.lt_trans hf hk)
    have hne : key ≠ first.1 := fun hk => String.lt_irrefl _ (hk ▸ hf)
    rw [put, if_neg hlt, if_neg hne, ih fun entry he => h entry (List.mem_cons_of_mem _ he),
      List.cons_append]

theorem sort_of_sorted {entries : List (String × α)} (h : Sorted entries) :
    sort entries = entries := by
  suffices hs : ∀ start : List (String × α), Sorted (start ++ entries) →
      entries.foldl (fun sorted entry => put entry.1 entry.2 sorted) start = start ++ entries from
    hs [] h
  induction entries with
  | nil =>
    intro start _
    rw [List.foldl_nil, List.append_nil]
  | cons entry rest ih =>
    intro start hs
    have happ : start ++ entry :: rest = (start ++ [entry]) ++ rest := by simp
    have hlast : ∀ other ∈ start, other.1 < entry.1 := by
      intro other ho
      exact (List.pairwise_append.mp hs).2.2 other ho entry List.mem_cons_self
    rw [List.foldl_cons, put_append entry.2 hlast, happ]
    exact ih (List.pairwise_cons.mp h).2 _ (happ ▸ hs)

theorem mem_sort {entries : List (String × α)} {entry : String × α} :
    entry ∈ sort entries → entry ∈ entries := by
  suffices hs : ∀ start : List (String × α),
      entry ∈ entries.foldl (fun sorted entry => put entry.1 entry.2 sorted) start →
      entry ∈ start ∨ entry ∈ entries by
    intro h
    rcases hs [] h with h | h
    · exact absurd h List.not_mem_nil
    · exact h
  induction entries with
  | nil => exact fun start h => .inl h
  | cons first rest ih =>
    intro start hm
    rcases ih (put first.1 first.2 start) hm with h | h
    · rcases mem_put h with h | h
      · exact .inr (h ▸ List.mem_cons_self)
      · exact .inl h
    · exact .inr (List.mem_cons_of_mem _ h)

end Entries

theorem Dict.ofList_entries {α : Type} (dict : Dict α) : Dict.ofList dict.entries = dict :=
  Dict.ext (Entries.sort_of_sorted dict.sorted)

namespace Json

mutual

/-- The containers around the innermost part of a value. -/
def depth : Json → Nat
  | .null | .bool _ | .number _ | .string _ => 0
  | .array items => depthItems items+1
  | .object members => depthMembers members+1

def depthItems : List Json → Nat
  | [] => 0
  | item :: items => max (depth item) (depthItems items)

def depthMembers : List (String × Json) → Nat
  | [] => 0
  | (_, value) :: members => max (depth value) (depthMembers members)

end

theorem depthItems_le {items : List Json} {n : Nat} :
    depthItems items ≤ n ↔ ∀ item ∈ items, depth item ≤ n := by
  induction items with
  | nil => simp [depthItems]
  | cons item items ih => simp only [depthItems, Nat.max_le, ih, List.forall_mem_cons]

theorem depthMembers_le {members : List (String × Json)} {n : Nat} :
    depthMembers members ≤ n ↔ ∀ member ∈ members, depth member.2 ≤ n := by
  induction members with
  | nil => simp [depthMembers]
  | cons member members ih => simp only [depthMembers, Nat.max_le, ih, List.forall_mem_cons]

theorem depthMembers_sort (members : List (String × Json)) :
    depthMembers (Entries.sort members) ≤ depthMembers members := by
  rw [depthMembers_le]
  intro member hm
  exact depthMembers_le.mp (Nat.le_refl _) member (Entries.mem_sort hm)

mutual

theorem depth_canonical : (value : Json) → depth (canonical value) ≤ depth value
  | .null | .bool _ | .number _ | .string _ => Nat.le_refl 0
  | .array items => Nat.succ_le_succ (depthItems_canonical items)
  | .object members => Nat.succ_le_succ
      (Nat.le_trans (depthMembers_sort _) (depthMembers_canonical members))

theorem depthItems_canonical : (items : List Json) →
    depthItems (canonicalItems items) ≤ depthItems items
  | [] => Nat.le_refl 0
  | item :: items => by
    have hi := depth_canonical item
    have his := depthItems_canonical items
    simp only [canonicalItems, depthItems]
    omega

theorem depthMembers_canonical : (members : List (String × Json)) →
    depthMembers (canonicalMembers members) ≤ depthMembers members
  | [] => Nat.le_refl 0
  | (_, value) :: members => by
    have hv := depth_canonical value
    have hm := depthMembers_canonical members
    simp only [canonicalMembers, depthMembers]
    omega

end

mutual

theorem canonical_of_sorted : (value : Json) → Sorted value → canonical value = value
  | .null, _ | .bool _, _ | .number _, _ | .string _, _ => rfl
  | .array items, h => by rw [canonical, canonicalItems_of_sorted items h]
  | .object members, h => by
    rw [canonical, canonicalMembers_of_sorted members h.2, Entries.sort_of_sorted h.1]

theorem canonicalItems_of_sorted : (items : List Json) → SortedItems items →
    canonicalItems items = items
  | [], _ => rfl
  | item :: items, h => by
    rw [canonicalItems, canonical_of_sorted item h.1, canonicalItems_of_sorted items h.2]

theorem canonicalMembers_of_sorted : (members : List (String × Json)) → SortedMembers members →
    canonicalMembers members = members
  | [], _ => rfl
  | (key, value) :: members, h => by
    rw [canonicalMembers, canonical_of_sorted value h.1, canonicalMembers_of_sorted members h.2]

end

end Json

namespace Style

theorem ofAttributes_attributes (style : Style) : ofAttributes style.attributes = style := by
  apply Style.ext
  show Entries.sort (Json.canonicalMembers style.attributes) = style.attributes
  rw [Json.canonicalMembers_of_sorted _ style.sorted.2, Entries.sort_of_sorted style.sorted.1]

theorem depth_ofAttributes (attributes : List (String × Json)) :
    (ofAttributes attributes).toJson.depth ≤ (Json.object attributes).depth :=
  Json.depth_canonical (.object attributes)

end Style
end EditScript
