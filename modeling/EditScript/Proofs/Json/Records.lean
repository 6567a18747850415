import EditScript.Proofs.Json.Reads

namespace EditScript

open Json (StandsMembers depthMembers)

namespace Fields

def names : {α : Type} → Fields α → List String
  | _, .nil => []
  | _, .cons field fields => field.name :: names fields

/-- The members that a writer gives for the values of a record, in the order of the fields. Where a
field has none, its value is the one that stands in for an absent field. -/
inductive Written (budget : Nat) :
    {α : Type} → Fields α → α → List (String × Json) → Prop
  | nil : Written budget .nil () []
  | given {α β : Type} (field : Field α) {fields : Fields β} {a : α} {rest : β} {value : Json}
      {members : List (String × Json)} (read : Reader.Reads field.read budget value a)
      (more : Written budget fields rest members) :
      Written budget (.cons field fields) (a, rest) ((field.name, value) :: members)
  | absent {α β : Type} (field : Field α) {fields : Fields β} {a : α} {rest : β}
      {members : List (String × Json)} (absent : field.absent = some a)
      (more : Written budget fields rest members) :
      Written budget (.cons field fields) (a, rest) members

def fillMember {α : Type} (fields : Fields α) (budget : Nat) (slots : Slots fields)
    (member : Quoted × Tree) : Except ReadError (Slots fields) := do
  let name ← member.1.read
  match fill? name fields slots with
  | some read => read budget member.2
  | none => .error .malformed

section
variable {α : Type} {fields : Fields α} {budget : Nat}

theorem Written.name_mem {a : α} {members : List (String × Json)}
    (h : Written budget fields a members) : ∀ member ∈ members, member.1 ∈ fields.names := by
  induction h with
  | nil => exact fun member hm => absurd hm List.not_mem_nil
  | given _ read more ih =>
    intro member hm
    rcases List.mem_cons.mp hm with rfl | hm
    · exact List.mem_cons_self
    · exact List.mem_cons_of_mem _ (ih member hm)
  | absent _ absent more ih =>
    intro member hm
    exact List.mem_cons_of_mem _ (ih member hm)

theorem skipMember_of_fill {slots filled : Slots fields} {member : Quoted × Tree}
    (h : fillMember fields budget slots member = .ok filled) :
    skipMember fields budget slots member = .ok filled := by
  obtain ⟨name, hn, h⟩ := Outcome.bind_eq_ok.mp h
  rw [skipMember, hn, Outcome.ok_bind]
  cases hf : fill? name fields slots with
  | some read =>
    rw [hf] at h
    exact h
  | none =>
    rw [hf] at h
    cases h

theorem keepMember_of_fill {slots filled : Slots fields} {member : Quoted × Tree}
    (h : fillMember fields budget slots member = .ok filled) (kept : List (String × Json)) :
    keepMember fields budget (slots, kept) member = .ok (filled, kept) := by
  obtain ⟨name, hn, h⟩ := Outcome.bind_eq_ok.mp h
  rw [keepMember, hn, Outcome.ok_bind]
  cases hf : fill? name fields slots with
  | some read =>
    rw [hf] at h
    simp only [show read budget member.2 = .ok filled from h, Outcome.ok_bind, Outcome.pure_eq]
  | none =>
    rw [hf] at h
    cases h

theorem skipMembers_of_fill {slots filled : Slots fields} {members : List (Quoted × Tree)}
    (h : members.foldlM (fillMember fields budget) slots = .ok filled) :
    members.foldlM (skipMember fields budget) slots = .ok filled := by
  induction members generalizing slots with
  | nil => exact h
  | cons member members ih =>
    rw [List.foldlM_cons] at h ⊢
    obtain ⟨next, hn, h⟩ := Outcome.bind_eq_ok.mp h
    rw [skipMember_of_fill hn]
    exact ih h

theorem keepMembers_of_fill {slots filled : Slots fields} {members : List (Quoted × Tree)}
    (h : members.foldlM (fillMember fields budget) slots = .ok filled)
    (kept : List (String × Json)) :
    members.foldlM (keepMember fields budget) (slots, kept) = .ok (filled, kept) := by
  induction members generalizing slots with
  | nil =>
    cases h
    rfl
  | cons member members ih =>
    rw [List.foldlM_cons] at h ⊢
    obtain ⟨next, hn, h⟩ := Outcome.bind_eq_ok.mp h
    rw [keepMember_of_fill hn]
    exact ih h

end

theorem fillMembers_cons {α β : Type} {field : Field α} {fields : Fields β} {budget : Nat}
    {members : List (String × Json)} (hm : ∀ member ∈ members, member.1 ≠ field.name)
    {trees : List (Quoted × Tree)} (ht : StandsMembers members trees) (slot : Option α)
    (slots : Slots fields) :
    trees.foldlM (fillMember (.cons field fields) budget) (slot, slots) =
      (trees.foldlM (fillMember fields budget) slots).map (slot, ·) := by
  induction members generalizing trees slots with
  | nil =>
    rw [show trees = [] from ht]
    rfl
  | cons member members ih =>
    obtain ⟨first, more, rfl, -, hmore⟩ := ht
    have hne := hm member List.mem_cons_self
    have hfirst : fillMember (.cons field fields) budget (slot, slots) (.ofText member.1, first) =
        (fillMember fields budget slots (.ofText member.1, first)).map (slot, ·) := by
      simp only [fillMember, Quoted.read_ofText, Outcome.ok_bind, fill?, if_neg hne]
      cases fill? member.1 fields slots <;> rfl
    show (fillMember (.cons field fields) budget (slot, slots) (.ofText member.1, first) >>=
      fun next => more.foldlM (fillMember (.cons field fields) budget) next) = _
    rw [List.foldlM_cons, hfirst]
    cases fillMember fields budget slots (.ofText member.1, first) with
    | error e => rfl
    | ok next => exact ih (fun member h => hm member (List.mem_cons_of_mem _ h)) hmore next

theorem Written.fill {α : Type} {fields : Fields α} {budget : Nat} {a : α}
    {members : List (String × Json)} (h : Written budget fields a members)
    (hn : fields.names.Nodup) {trees : List (Quoted × Tree)} (ht : StandsMembers members trees) :
    ∃ slots, trees.foldlM (fillMember fields budget) fields.blank = .ok slots ∧
      fields.finish slots = .ok a := by
  induction h generalizing trees with
  | nil =>
    rw [show trees = [] from ht]
    exact ⟨(), rfl, rfl⟩
  | @given _ _ field fields a rest value members read more ih =>
    obtain ⟨first, others, rfl, hfirst, hothers⟩ := ht
    have hnames := List.nodup_cons.mp hn
    obtain ⟨slots, hslots, hfinish⟩ := ih hnames.2 hothers
    have hm : ∀ member ∈ members, member.1 ≠ field.name := by
      intro member hm heq
      exact hnames.1 (heq ▸ more.name_mem member hm)
    have hstep : fillMember (.cons field fields) budget (blank (.cons field fields))
        (.ofText field.name, first) = .ok (some a, fields.blank) := by
      simp only [fillMember, Quoted.read_ofText, Outcome.ok_bind, fill?, if_true, blank,
        read first hfirst]
      rfl
    refine ⟨(some a, slots), ?_, ?_⟩
    · rw [List.foldlM_cons, hstep]
      show others.foldlM (fillMember (.cons field fields) budget) (some a, fields.blank) = _
      rw [fillMembers_cons hm hothers, hslots]
      rfl
    · simp only [finish, Option.some_or, hfinish, Outcome.map_ok]
  | @absent _ _ field fields a rest members habsent more ih =>
    have hnames := List.nodup_cons.mp hn
    obtain ⟨slots, hslots, hfinish⟩ := ih hnames.2 ht
    have hm : ∀ member ∈ members, member.1 ≠ field.name := by
      intro member hm heq
      exact hnames.1 (heq ▸ more.name_mem member hm)
    refine ⟨(none, slots), ?_, ?_⟩
    · show trees.foldlM (fillMember (.cons field fields) budget) (none, fields.blank) = _
      rw [fillMembers_cons hm ht, hslots]
      rfl
    · simp only [finish, Option.none_or, habsent, hfinish, Outcome.map_ok]

/-- A member is left aside exactly if no field has its name. -/
theorem fill?_eq_none {name : String} {α : Type} {fields : Fields α} {slots : Slots fields} :
    fill? name fields slots = none ↔ name ∉ fields.names := by
  induction fields with
  | nil => simp [fill?, names]
  | cons field fields ih =>
    rw [fill?, names, List.mem_cons, not_or]
    split
    case isTrue heq => simp [heq]
    case isFalse hne => simp [hne, ih]

theorem keepMembers_others {α : Type} {fields : Fields α} {budget : Nat}
    {others : List (String × Json)} (hn : ∀ member ∈ others, member.1 ∉ fields.names)
    (hd : depthMembers others ≤ budget) {trees : List (Quoted × Tree)}
    (ht : StandsMembers others trees) (slots : Slots fields) (kept : List (String × Json)) :
    trees.foldlM (keepMember fields budget) (slots, kept) = .ok (slots, others.reverse ++ kept) := by
  induction others generalizing trees kept with
  | nil =>
    rw [show trees = [] from ht]
    rfl
  | cons member others ih =>
    obtain ⟨first, more, rfl, hfirst, hmore⟩ := ht
    have hdepth := Nat.max_le.mp hd
    have hstep : keepMember fields budget (slots, kept) (.ofText member.1, first) =
        .ok (slots, member :: kept) := by
      simp only [keepMember, Quoted.read_ofText, Outcome.ok_bind,
        fill?_eq_none.mpr (hn member List.mem_cons_self),
        Reader.reads_value member.2 budget hdepth.1 first hfirst, Outcome.pure_eq]
    rw [List.foldlM_cons, hstep, Outcome.ok_bind,
      ih (fun member h => hn member (List.mem_cons_of_mem _ h)) hdepth.2 hmore]
    simp

end Fields

theorem Json.standsMembers_append {members others : List (String × Json)}
    {trees : List (Quoted × Tree)} (h : StandsMembers (members ++ others) trees) :
    ∃ first more, trees = first ++ more ∧ StandsMembers members first ∧
      StandsMembers others more := by
  induction members generalizing trees with
  | nil => exact ⟨[], trees, rfl, rfl, h⟩
  | cons member members ih =>
    obtain ⟨tree, rest, rfl, htree, hrest⟩ := h
    obtain ⟨first, more, rfl, hfirst, hmore⟩ := ih hrest
    exact ⟨(.ofText member.1, tree) :: first, more, rfl, ⟨tree, first, rfl, htree, hfirst⟩, hmore⟩

namespace Reader
variable {α : Type} {fields : Fields α} {budget : Nat} {a : α}
variable {members : List (String × Json)}

/-- A record is read as it is written. -/
theorem reads_record (h : Fields.Written budget fields a members) (hn : fields.names.Nodup) :
    Reads (.record fields) (budget+1) (.object members) a := by
  intro tree hs
  obtain ⟨trees, rfl, ht⟩ := hs
  obtain ⟨slots, hslots, hfinish⟩ := h.fill hn ht
  simp only [record, enter, Fields.skipMembers_of_fill hslots, Outcome.ok_bind, proceed, hfinish]

/-- A record with other members behind its own is read as it is written. -/
theorem reads_openRecord (h : Fields.Written budget fields a members) (hn : fields.names.Nodup)
    {others : List (String × Json)} (ho : ∀ member ∈ others, member.1 ∉ fields.names)
    (hd : depthMembers others ≤ budget) :
    Reads (.openRecord fields) (budget+1) (.object (members ++ others)) (a, others) := by
  intro tree hs
  obtain ⟨trees, rfl, ht⟩ := hs
  obtain ⟨first, more, rfl, hfirst, hmore⟩ := Json.standsMembers_append ht
  obtain ⟨slots, hslots, hfinish⟩ := h.fill hn hfirst
  simp only [openRecord, enter, List.foldlM_append, Fields.keepMembers_of_fill hslots,
    Outcome.ok_bind, Fields.keepMembers_others ho hd hmore, proceed, hfinish, List.append_nil,
    List.reverse_reverse, Outcome.pure_eq]

theorem reads_openRecord_alone (h : Fields.Written budget fields a members)
    (hn : fields.names.Nodup) :
    Reads (.openRecord fields) (budget+1) (.object members) (a, []) := by
  have hr := reads_openRecord h hn (fun _ hm => absurd hm List.not_mem_nil) (Nat.zero_le budget)
  rw [List.append_nil] at hr
  exact hr

end Reader

namespace Fields

/-- Each value was read by its field with this budget, or stands in for an absent one. -/
def Produced (budget : Nat) : {α : Type} → (fields : Fields α) → α → Prop
  | _, .nil, _ => True
  | _, .cons field fields, values =>
      ((∃ tree, field.read budget tree = .ok values.1) ∨ field.absent = some values.1) ∧
        Produced budget fields values.2

def Filled (budget : Nat) : {α : Type} → (fields : Fields α) → Slots fields → Prop
  | _, .nil, _ => True
  | _, .cons field fields, slots =>
      (∀ a ∈ slots.1, ∃ tree, field.read budget tree = .ok a) ∧ Filled budget fields slots.2

theorem filled_blank (budget : Nat) {α : Type} (fields : Fields α) :
    Filled budget fields fields.blank := by
  induction fields with
  | nil => trivial
  | cons field fields ih => exact ⟨nofun, ih⟩

/-- Reading one more member keeps every slot filled. -/
theorem filled_fill? {budget : Nat} {name : String} {α : Type} {fields : Fields α}
    {slots filled : Slots fields} (hs : Filled budget fields slots)
    {read : Reader (Slots fields)} (hr : fill? name fields slots = some read) {tree : Tree}
    (h : read budget tree = .ok filled) : Filled budget fields filled := by
  induction fields with
  | nil => cases hr
  | cons field fields ih =>
    rw [fill?] at hr
    split at hr
    · cases hr
      cases hslot : slots.1 with
      | some a => simp [hslot] at h
      | none =>
        simp only [hslot] at h
        obtain ⟨a, ha, rfl⟩ := Outcome.map_eq_ok.mp h
        refine ⟨?_, hs.2⟩
        intro b hb
        cases hb
        exact ⟨tree, ha⟩
    · obtain ⟨inner, hinner, rfl⟩ := Option.map_eq_some_iff.mp hr
      obtain ⟨rest, hrest, rfl⟩ := Outcome.map_eq_ok.mp h
      exact ⟨hs.1, ih hs.2 hinner hrest⟩

theorem produced_finish {budget : Nat} {α : Type} {fields : Fields α} {slots : Slots fields} {a : α}
    (hs : Filled budget fields slots) (h : fields.finish slots = .ok a) :
    Produced budget fields a := by
  induction fields with
  | nil => trivial
  | cons field fields ih =>
    simp only [finish] at h
    cases hslot : slots.1 with
    | some b =>
      simp only [hslot, Option.some_or] at h
      obtain ⟨rest, hrest, rfl⟩ := Outcome.map_eq_ok.mp h
      exact ⟨.inl (hs.1 b hslot), ih hs.2 hrest⟩
    | none =>
      simp only [hslot, Option.none_or] at h
      cases habsent : field.absent with
      | none => simp [habsent] at h
      | some b =>
        simp only [habsent] at h
        obtain ⟨rest, hrest, rfl⟩ := Outcome.map_eq_ok.mp h
        exact ⟨.inr habsent, ih hs.2 hrest⟩

theorem produced_ofItems {budget : Nat} {fault : Option Fault} {α : Type} {fields : Fields α}
    {items : List Tree} {a : α} (h : fields.ofItems budget fault items = .ok a) :
    Produced budget fields a := by
  induction fields generalizing items with
  | nil => trivial
  | cons field fields ih =>
    cases items with
    | nil =>
      rw [ofItems] at h
      obtain ⟨_, -, h⟩ := Outcome.bind_eq_ok.mp h
      cases habsent : field.absent with
      | none => simp [habsent] at h
      | some b =>
        simp only [habsent] at h
        obtain ⟨rest, hrest, rfl⟩ := Outcome.map_eq_ok.mp h
        exact ⟨.inr habsent, ih hrest⟩
    | cons item items =>
      rw [ofItems] at h
      obtain ⟨b, hb, h⟩ := Outcome.bind_eq_ok.mp h
      obtain ⟨rest, hrest, h⟩ := Outcome.bind_eq_ok.mp h
      cases h
      exact ⟨.inl ⟨item, hb⟩, ih hrest⟩

theorem filled_skipMember {budget : Nat} {α : Type} {fields : Fields α} {slots next : Slots fields}
    {member : Quoted × Tree} (hs : Filled budget fields slots)
    (h : skipMember fields budget slots member = .ok next) : Filled budget fields next := by
  obtain ⟨name, -, h⟩ := Outcome.bind_eq_ok.mp h
  cases hf : fill? name fields slots with
  | some read =>
    rw [hf] at h
    exact filled_fill? hs hf h
  | none =>
    rw [hf] at h
    obtain ⟨_, -, h⟩ := Outcome.bind_eq_ok.mp h
    cases h
    exact hs

theorem filled_keepMember {budget : Nat} {α : Type} {fields : Fields α}
    {state next : Slots fields × List (String × Json)} {member : Quoted × Tree}
    (hs : Filled budget fields state.1 ∧ ∀ other ∈ state.2, other.1 ∉ fields.names)
    (h : keepMember fields budget state member = .ok next) :
    Filled budget fields next.1 ∧ ∀ other ∈ next.2, other.1 ∉ fields.names := by
  obtain ⟨name, -, h⟩ := Outcome.bind_eq_ok.mp h
  cases hf : fill? name fields state.1 with
  | some read =>
    rw [hf] at h
    obtain ⟨filled, hr, h⟩ := Outcome.bind_eq_ok.mp h
    cases h
    exact ⟨filled_fill? hs.1 hf hr, hs.2⟩
  | none =>
    rw [hf] at h
    obtain ⟨value, -, h⟩ := Outcome.bind_eq_ok.mp h
    cases h
    refine ⟨hs.1, ?_⟩
    intro other ho
    rcases List.mem_cons.mp ho with rfl | ho
    · exact fill?_eq_none.mp hf
    · exact hs.2 other ho

end Fields

namespace Reader
variable {α β : Type} {fields : Fields α} {budget : Nat} {tree : Tree}

theorem enter_eq_ok {inside : Nat → Except ReadError α} {a : α}
    (h : enter inside budget = .ok a) : ∃ b, budget = b+1 ∧ inside b = .ok a := by
  cases budget with
  | zero => cases h
  | succ b => exact ⟨b, rfl, h⟩

theorem record_eq_ok {a : α} (h : record fields budget tree = .ok a) :
    ∃ b, budget = b+1 ∧ Fields.Produced b fields a := by
  cases tree with
  | object members fault =>
    obtain ⟨b, rfl, h⟩ := enter_eq_ok h
    obtain ⟨slots, hs, h⟩ := Outcome.bind_eq_ok.mp h
    obtain ⟨_, -, h⟩ := Outcome.bind_eq_ok.mp h
    have hf := Outcome.foldlM_invariant (Fields.Filled b fields)
      (fun _ _ _ hs => Fields.filled_skipMember hs) (Fields.filled_blank b fields) hs
    exact ⟨b, rfl, Fields.produced_finish hf h⟩
  | array items fault =>
    obtain ⟨b, rfl, h⟩ := enter_eq_ok h
    exact ⟨b, rfl, Fields.produced_ofItems h⟩
  | _ => cases h

theorem openRecord_eq_ok {a : α} {others : List (String × Json)}
    (h : openRecord fields budget tree = .ok (a, others)) :
    ∃ b, budget = b+1 ∧ Fields.Produced b fields a ∧
      ∀ other ∈ others, other.1 ∉ fields.names := by
  cases tree with
  | object members fault =>
    obtain ⟨b, rfl, h⟩ := enter_eq_ok h
    obtain ⟨state, hs, h⟩ := Outcome.bind_eq_ok.mp h
    obtain ⟨_, -, h⟩ := Outcome.bind_eq_ok.mp h
    obtain ⟨values, hvalues, h⟩ := Outcome.bind_eq_ok.mp h
    cases h
    have hf := Outcome.foldlM_invariant
      (fun state => Fields.Filled b fields state.1 ∧ ∀ other ∈ state.2, other.1 ∉ fields.names)
      (fun _ _ _ hs => Fields.filled_keepMember hs) ⟨Fields.filled_blank b fields, nofun⟩ hs
    refine ⟨b, rfl, Fields.produced_finish hf.1 hvalues, ?_⟩
    intro other ho
    exact hf.2 other (List.mem_reverse.mp ho)
  | _ => cases h

theorem list_eq_ok {read : Reader α} {as : List α} (h : list read budget tree = .ok as) :
    ∃ b, budget = b+1 ∧ ∀ a ∈ as, ∃ item, read b item = .ok a := by
  cases tree with
  | array items fault =>
    obtain ⟨b, rfl, h⟩ := enter_eq_ok h
    obtain ⟨values, hv, h⟩ := Outcome.bind_eq_ok.mp h
    obtain ⟨_, -, h⟩ := Outcome.bind_eq_ok.mp h
    cases h
    refine ⟨b, rfl, ?_⟩
    intro a ha
    obtain ⟨item, -, hi⟩ := Outcome.mapM_mem hv a ha
    exact ⟨item, hi⟩
  | _ => cases h

theorem mem_list_eq_ok {read : Reader α} {as : List α}
    (h : (∃ tree, list read budget tree = .ok as) ∨ some [] = some as) :
    ∀ a ∈ as, ∃ b item, budget = b+1 ∧ read b item = .ok a := by
  intro a ha
  rcases h with ⟨tree, h⟩ | h
  · obtain ⟨b, rfl, hb⟩ := list_eq_ok h
    obtain ⟨item, hi⟩ := hb a ha
    exact ⟨b, item, rfl, hi⟩
  · rw [← Option.some.inj h] at ha
    exact absurd ha List.not_mem_nil

theorem optional_eq_ok {read : Reader α} {a : α} (h : optional read budget tree = .ok (some a)) :
    read budget tree = .ok a := by
  cases tree with
  | null => cases h
  | _ =>
    obtain ⟨b, hb, hs⟩ := Outcome.map_eq_ok.mp h
    cases hs
    exact hb

/-- An object that stands for a choice has one member. -/
theorem choice_object_eq_ok {variant? : String → Option (Variant α)}
    {members : List (Quoted × Tree)} {fault : Option Fault} {a : α} :
    choice variant? budget (.object members fault) = .ok a ↔
      ∃ b key tree name variant, budget = b+1 ∧ members = [(key, tree)] ∧ fault = none ∧
        key.read = .ok name ∧ variant? name = some variant ∧ variant.read b tree = .ok a := by
  constructor
  · intro h
    obtain ⟨b, rfl, h⟩ := enter_eq_ok h
    match members with
    | [] => cases fault <;> cases h
    | (key, tree) :: more =>
      obtain ⟨name, hname, h⟩ := Outcome.bind_eq_ok.mp h
      cases hvariant : variant? name with
      | none =>
        rw [hvariant] at h
        cases h
      | some variant =>
        rw [hvariant] at h
        obtain ⟨a', ha, h⟩ := Outcome.bind_eq_ok.mp h
        match more with
        | [] =>
          obtain ⟨_, hfault, h⟩ := Outcome.bind_eq_ok.mp h
          cases h
          match fault with
          | none => exact ⟨b, key, tree, name, variant, rfl, rfl, rfl, hname, hvariant, ha⟩
          | some _ => cases hfault
        | _ :: _ => cases h
  · rintro ⟨b, key, tree, name, variant, rfl, rfl, rfl, hname, hvariant, h⟩
    simp only [choice, enter, hname, hvariant, h, Outcome.ok_bind, proceed, Outcome.pure_eq]

end Reader
end EditScript
