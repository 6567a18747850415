import EditScript.Json.Value

namespace EditScript

namespace Entries
variable {α β : Type}

theorem put_perm {key : String} (value : α) {entries : List (String × α)}
    (h : key ∉ entries.map (·.1)) : (put key value entries).Perm ((key, value) :: entries) := by
  induction entries with
  | nil => exact .refl _
  | cons first rest ih =>
    rw [List.map_cons, List.mem_cons, not_or] at h
    simp only [put, if_neg h.1]
    split
    · exact .refl _
    · exact ((ih h.2).cons first).trans (.swap _ _ _)

theorem sort_perm {entries : List (String × α)} (h : (entries.map (·.1)).Nodup) :
    (sort entries).Perm entries := by
  suffices hs : ∀ start : List (String × α), ((start ++ entries).map (·.1)).Nodup →
      (entries.foldl (fun sorted entry => put entry.1 entry.2 sorted) start).Perm
        (start ++ entries) from hs [] h
  clear h
  induction entries with
  | nil =>
    intro start _
    rw [List.append_nil]
    exact .refl _
  | cons entry rest ih =>
    intro start hs
    have hmiddle : (start ++ entry :: rest).Perm (entry :: start ++ rest) := List.perm_middle
    have hnodup := (hmiddle.map (·.1)).nodup_iff.mp hs
    rw [List.cons_append, List.map_cons, List.nodup_cons, List.map_append, List.mem_append,
      not_or] at hnodup
    have hput : (put entry.1 entry.2 start ++ rest).Perm (entry :: start ++ rest) :=
      (put_perm entry.2 hnodup.1.1).append_right rest
    refine (ih _ ?_).trans (hput.trans hmiddle.symm)
    exact ((hput.trans hmiddle.symm).map (·.1)).nodup_iff.mpr hs

/-- Entries with distinct keys are sorted alike, in whichever order they come. -/
theorem sort_congr {entries others : List (String × α)} (h : entries.Perm others)
    (hd : (entries.map (·.1)).Nodup) : sort entries = sort others := by
  have hperm : (sort entries).Perm (sort others) :=
    (sort_perm hd).trans (h.trans (sort_perm ((h.map (·.1)).nodup_iff.mp hd)).symm)
  refine hperm.eq_of_pairwise ?_ (sorted_sort entries) (sorted_sort others)
  intro a b _ _ hab hba
  exact absurd (String.lt_trans hab hba) (String.lt_irrefl _)

theorem put_map (f : α → β) (key : String) (value : α) (entries : List (String × α)) :
    put key (f value) (entries.map fun entry => (entry.1, f entry.2)) =
      (put key value entries).map fun entry => (entry.1, f entry.2) := by
  induction entries with
  | nil => rfl
  | cons first rest ih =>
    simp only [put, List.map_cons]
    split
    · rfl
    · split
      · rfl
      · rw [ih, List.map_cons]

theorem sort_map (f : α → β) (entries : List (String × α)) :
    sort (entries.map fun entry => (entry.1, f entry.2)) =
      (sort entries).map fun entry => (entry.1, f entry.2) := by
  suffices hs : ∀ start : List (String × α),
      (entries.map fun entry => (entry.1, f entry.2)).foldl
          (fun sorted entry => put entry.1 entry.2 sorted)
          (start.map fun entry => (entry.1, f entry.2)) =
        (entries.foldl (fun sorted entry => put entry.1 entry.2 sorted) start).map
          fun entry => (entry.1, f entry.2) from hs []
  induction entries with
  | nil => exact fun _ => rfl
  | cons entry rest ih =>
    intro start
    rw [List.map_cons, List.foldl_cons, List.foldl_cons, ← ih, ← put_map]

end Entries

namespace Json

/-- The members of one object in the value, with keys that are all distinct, stand in another
order. -/
inductive Reordered : Json → Json → Prop where
  | members {members others : List (String × Json)} (perm : members.Perm others)
      (distinct : (members.map (·.1)).Nodup) : Reordered (.object members) (.object others)
  | item (before : List Json) {item other : Json} (after : List Json)
      (reordered : Reordered item other) :
      Reordered (.array (before ++ item :: after)) (.array (before ++ other :: after))
  | member (before : List (String × Json)) (key : String) {value other : Json}
      (after : List (String × Json)) (reordered : Reordered value other) :
      Reordered (.object (before ++ (key, value) :: after))
        (.object (before ++ (key, other) :: after))

theorem canonicalItems_eq_map (items : List Json) : canonicalItems items = items.map canonical := by
  induction items with
  | nil => rfl
  | cons item items ih => rw [canonicalItems, ih, List.map_cons]

theorem canonicalMembers_eq_map (members : List (String × Json)) :
    canonicalMembers members = members.map fun member => (member.1, canonical member.2) := by
  induction members with
  | nil => rfl
  | cons member members ih => rw [canonicalMembers, ih, List.map_cons]

theorem Reordered.canonical_eq {value other : Json} (h : Reordered value other) :
    canonical value = canonical other := by
  induction h with
  | members perm distinct =>
    rw [canonical, canonical, canonicalMembers_eq_map, canonicalMembers_eq_map]
    refine congrArg object (Entries.sort_congr (perm.map _) ?_)
    rw [List.map_map]
    exact distinct
  | item before after reordered ih =>
    simp only [canonical, canonicalItems_eq_map, List.map_append, List.map_cons, ih]
  | member before key after reordered ih =>
    simp only [canonical, canonicalMembers_eq_map, List.map_append, List.map_cons, ih]

theorem keys_sort (members : List (String × Json)) :
    (Entries.sort members).map (·.1) = (Entries.sort (canonicalMembers members)).map (·.1) := by
  rw [canonicalMembers_eq_map, Entries.sort_map, List.map_map]
  rfl

end Json
end EditScript
