import EditScript.Json.Record
import EditScript.Proofs.Json.Depth
import EditScript.Proofs.Json.Printed
import EditScript.Proofs.Outcome
import EditScript.Style.Reader

namespace EditScript

@[simp] theorem Quoted.read_ofText (text : String) : (Quoted.ofText text).read = .ok text := by
  rw [read, text_ofText]
  rfl

theorem Json.object_ne_null (members : List (String × Json)) : Json.object members ≠ .null := by
  intro h
  cases h

namespace Reader
variable {α β : Type}

open Json (Stands StandsItems StandsMembers depth depthItems depthMembers)

/-- With this budget, the reader reads the value as it is written. -/
def Reads (read : Reader α) (budget : Nat) (value : Json) (a : α) : Prop :=
  ∀ tree, value.Stands tree → read budget tree = .ok a

variable {read : Reader α} {budget : Nat} {value : Json} {a : α}

theorem Reads.toTree (h : Reads read budget value a) : read budget value.toTree = .ok a :=
  h value.toTree value.stands_toTree

theorem Reads.map (f : α → β) (h : Reads read budget value a) :
    Reads (.map f read) budget value (f a) := by
  intro tree ht
  rw [Reader.map, h tree ht]
  rfl

theorem reads_string (budget : Nat) (text : String) : Reads .string budget (.string text) text := by
  intro tree ht
  rw [show tree = .string (.ofText text) from ht]
  exact Quoted.read_ofText text

theorem reads_word (budget : Nat) (n : UInt64) : Reads .word budget (.ofNat n.toNat) n := by
  intro tree ht
  rw [Json.ofNat, Number.ofNat_of_lt n.toNat_lt] at ht
  obtain ⟨numeral, rfl, hn⟩ := ht
  have hr : numeral.read = .ok (.integer n.toNat (Number.exact_of_lt n.toNat_lt)) := by
    rw [Numeral.read, hn]
  have hpos : ¬((n.toNat : Int) < 0) := by omega
  simp only [word, hr, Outcome.ok_bind, if_neg hpos, Int.toNat_natCast, UInt64.ofNat_toNat]

theorem reads_index (budget : Nat) {n : Nat} (h : n < UInt64.size) :
    Reads .index budget (.ofNat n) n := by
  have hn : (UInt64.ofNat n).toNat = n := UInt64.toNat_ofNat_of_lt' h
  have hr := (reads_word budget (.ofNat n)).map UInt64.toNat
  rw [hn] at hr
  exact hr

theorem Reads.optional (h : Reads read budget value a) (hv : value ≠ .null) :
    Reads (.optional read) budget value (some a) := by
  intro tree ht
  have hr := h tree ht
  cases tree with
  | null =>
    cases value with
    | null => exact absurd rfl hv
    | number value => exact absurd ht.choose_spec.1 nofun
    | array items => exact absurd ht.choose_spec.1 nofun
    | object members => exact absurd ht.choose_spec.1 nofun
    | bool value => exact absurd ht nofun
    | string value => exact absurd ht nofun
  | _ =>
    simp only [Reader.optional, hr]
    rfl

theorem reads_list {f : α → Json} {as : List α} (h : ∀ a ∈ as, Reads read budget (f a) a) :
    Reads (.list read) (budget+1) (.array (as.map f)) as := by
  intro tree hs
  obtain ⟨trees, rfl, ht⟩ := hs
  have hm : trees.mapM (read budget) = .ok as := by
    induction as generalizing trees with
    | nil =>
      rw [show trees = [] from ht]
      rfl
    | cons a as ih =>
      obtain ⟨first, more, rfl, hfirst, hmore⟩ := ht
      rw [List.mapM_cons, h a List.mem_cons_self first hfirst,
        ih (fun b hb => h b (List.mem_cons_of_mem _ hb)) more hmore]
      rfl
  simp only [list, enter, hm]
  rfl

def entry (read : Reader α) (budget : Nat) (member : Quoted × Tree) :
    Except ReadError (String × α) := do
  let name ← member.1.read
  return (name, ← read budget member.2)

theorem reads_dict {f : α → Json} (dict : Dict α)
    (h : ∀ entry ∈ dict.entries, Reads read budget (f entry.2) entry.2) :
    Reads (.dict read) (budget+1)
      (.object (dict.entries.map fun (key, a) => (key, f a))) dict := by
  intro tree hs
  obtain ⟨trees, rfl, ht⟩ := hs
  have hm : trees.mapM (entry read budget) = .ok dict.entries := by
    generalize dict.entries = entries at h ht
    induction entries generalizing trees with
    | nil =>
      rw [show trees = [] from ht]
      rfl
    | cons first rest ih =>
      obtain ⟨tree, more, rfl, htree, hmore⟩ := ht
      have hfirst : entry read budget (.ofText first.1, tree) = .ok first := by
        rw [entry, Quoted.read_ofText, Outcome.ok_bind, h first List.mem_cons_self tree htree]
        rfl
      rw [List.mapM_cons, hfirst,
        ih more (fun other ho => h other (List.mem_cons_of_mem _ ho)) hmore]
      rfl
  show (trees.mapM (entry read budget) >>= fun entries =>
    proceed none >>= fun _ => Except.ok (Dict.ofList entries)) = .ok dict
  rw [hm, Outcome.ok_bind, dict.ofList_entries]
  rfl

mutual

/-- A value is read as itself if it is no deeper than the brackets that are left. -/
theorem reads_value : (value : Json) → (budget : Nat) → depth value ≤ budget →
    Reads Reader.value budget value value
  | .null, _, _ => by
    intro tree hs
    obtain rfl := hs
    rw [Reader.value]
  | .bool b, _, _ => by
    intro tree hs
    obtain rfl := hs
    rw [Reader.value]
  | .number x, _, _ => by
    intro tree hs
    obtain ⟨n, rfl, hn⟩ := hs
    rw [Reader.value, Numeral.read, hn]
    rfl
  | .string text, _, _ => by
    intro tree hs
    obtain rfl := hs
    rw [Reader.value, Quoted.read_ofText]
    rfl
  | .array items, 0, h => absurd h (Nat.not_succ_le_zero _)
  | .array items, budget+1, h => by
    intro tree hs
    obtain ⟨trees, rfl, ht⟩ := hs
    rw [Reader.value, reads_valueItems items budget (Nat.le_of_succ_le_succ h) trees ht]
    rfl
  | .object members, 0, h => absurd h (Nat.not_succ_le_zero _)
  | .object members, budget+1, h => by
    intro tree hs
    obtain ⟨trees, rfl, ht⟩ := hs
    rw [Reader.value, reads_valueMembers members budget (Nat.le_of_succ_le_succ h) trees ht]
    rfl

theorem reads_valueItems : (items : List Json) → (budget : Nat) → depthItems items ≤ budget →
    ∀ trees, StandsItems items trees → valueItems budget trees = .ok items
  | [], _, _ => by
    intro tree hs
    obtain rfl := hs
    rw [valueItems]
  | item :: items, budget, h => by
    intro trees hs
    obtain ⟨tree, more, rfl, htree, hmore⟩ := hs
    have hd := Nat.max_le.mp h
    rw [valueItems, reads_value item budget hd.1 tree htree,
      reads_valueItems items budget hd.2 more hmore]
    rfl

theorem reads_valueMembers : (members : List (String × Json)) → (budget : Nat) →
    depthMembers members ≤ budget →
    ∀ trees, StandsMembers members trees → valueMembers budget trees = .ok members
  | [], _, _ => by
    intro tree hs
    obtain rfl := hs
    rw [valueMembers]
  | (key, value) :: members, budget, h => by
    intro trees hs
    obtain ⟨tree, more, rfl, htree, hmore⟩ := hs
    have hd := Nat.max_le.mp h
    rw [valueMembers, Quoted.read_ofText, Outcome.ok_bind, reads_value value budget hd.1 tree htree,
      reads_valueMembers members budget hd.2 more hmore]
    rfl

end

theorem reads_members {members : List (String × Json)} (h : depthMembers members ≤ budget) :
    Reads .members (budget+1) (.object members) members := by
  intro tree hs
  obtain ⟨trees, rfl, ht⟩ := hs
  simp only [Reader.members, enter, reads_valueMembers members budget h trees ht]
  rfl

theorem reads_choice {variant? : String → Option (Variant α)} {name : String}
    (hv : variant? name = some (.payload read)) (h : Reads read budget value a) :
    Reads (.choice variant?) (budget+1) (.object [(name, value)]) a := by
  intro tree hs
  obtain ⟨trees, rfl, tree, more, rfl, htree, rfl⟩ := hs
  simp only [choice, enter, Quoted.read_ofText, Outcome.ok_bind, hv, Variant.read, h tree htree]
  rfl

end Reader

/-- What a reader makes of a value as it is written, it makes of the whole text of that value. -/
theorem Scan.read_spell {α : Type} {read : Reader α} {value : Json} {a : α}
    (h : Reader.Reads read depthLimit value a) {spacing : Json.Spacing} (hs : spacing.Blank) :
    (ofText (.ofList (value.spell spacing 0))).read read = .ok a := by
  obtain ⟨tree, ht, hscan⟩ := ofText_spell hs value
  rw [hscan, Scan.read, h tree ht]
  rfl

theorem Style.reads (style : Style) {budget : Nat} (h : style.toJson.depth ≤ budget) :
    Reader.Reads Style.reader budget style.toJson style := by
  obtain ⟨b, rfl⟩ : ∃ b, budget = b+1 := ⟨budget-1, by
    have hpos : 0 < style.toJson.depth := Nat.succ_pos _
    omega⟩
  have hr := (Reader.reads_members (Nat.le_of_succ_le_succ h)).map Style.ofAttributes
  rw [style.ofAttributes_attributes] at hr
  exact hr

end EditScript
