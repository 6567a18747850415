import EditScript.Proofs.Built
import EditScript.Proofs.Json.Records

namespace EditScript

namespace Outcome
variable {ε α β : Type} {f : β → α → Except ε β} {R : β → β → Prop}

theorem foldlM_congr (hstep : ∀ {b c a b'}, R b c → f b a = .ok b' → ∃ c', f c a = .ok c' ∧ R b' c')
    {as : List α} {b c b' : β} (hb : R b c) (h : as.foldlM f b = .ok b') :
    ∃ c', as.foldlM f c = .ok c' ∧ R b' c' := by
  induction as generalizing b c with
  | nil =>
    cases h
    exact ⟨c, rfl, hb⟩
  | cons a as ih =>
    rw [List.foldlM_cons] at h
    obtain ⟨next, hn, h⟩ := bind_eq_ok.mp h
    obtain ⟨other, ho, hr⟩ := hstep hb hn
    obtain ⟨c', hc, hr'⟩ := ih hr h
    refine ⟨c', ?_, hr'⟩
    rw [List.foldlM_cons, ho]
    exact hc

theorem foldlM_middle
    (hstep : ∀ {b c a b'}, R b c → f b a = .ok b' → ∃ c', f c a = .ok c' ∧ R b' c')
    {middle others : List α}
    (hm : ∀ {b b'}, middle.foldlM f b = .ok b' → ∃ c', others.foldlM f b = .ok c' ∧ R b' c')
    {before after : List α} {b b' : β} (h : (before ++ (middle ++ after)).foldlM f b = .ok b') :
    ∃ c', (before ++ (others ++ after)).foldlM f b = .ok c' ∧ R b' c' := by
  rw [List.foldlM_append] at h
  obtain ⟨first, hfirst, h⟩ := bind_eq_ok.mp h
  rw [List.foldlM_append] at h
  obtain ⟨next, hnext, h⟩ := bind_eq_ok.mp h
  obtain ⟨other, hother, hr⟩ := hm hnext
  obtain ⟨c', hc, hr'⟩ := foldlM_congr hstep hr h
  refine ⟨c', ?_, hr'⟩
  rw [List.foldlM_append, hfirst, ok_bind, List.foldlM_append, hother]
  exact hc

theorem step_of_eq {b c b' : β} {a : α} (hb : b = c) (h : f b a = .ok b') :
    ∃ c', f c a = .ok c' ∧ b' = c' :=
  ⟨b', hb ▸ h, rfl⟩

theorem foldlM_singleton (f : β → α → Except ε β) (b : β) (a : α) : [a].foldlM f b = f b a := by
  simp only [List.foldlM_cons, List.foldlM_nil, bind_pure]

theorem mapM_at {f : α → Except ε β} {before after : List α} {a : α} {bs : List β}
    (h : (before ++ a :: after).mapM f = .ok bs) :
    ∃ first b rest, bs = first ++ b :: rest ∧ f a = .ok b ∧
      ∀ {other c}, f other = .ok c →
        (before ++ other :: after).mapM f = .ok (first ++ c :: rest) := by
  induction before generalizing bs with
  | nil =>
    rw [List.nil_append, List.mapM_cons] at h
    obtain ⟨b, hb, h⟩ := bind_eq_ok.mp h
    obtain ⟨rest, hrest, h⟩ := bind_eq_ok.mp h
    cases h
    refine ⟨[], b, rest, rfl, hb, ?_⟩
    intro other c hc
    rw [List.nil_append, List.mapM_cons, hc, ok_bind, hrest]
    rfl
  | cons e before ih =>
    rw [List.cons_append, List.mapM_cons] at h
    obtain ⟨d, hd, h⟩ := bind_eq_ok.mp h
    obtain ⟨ds, hds, h⟩ := bind_eq_ok.mp h
    cases h
    obtain ⟨first, b, rest, rfl, hb, hother⟩ := ih hds
    refine ⟨d :: first, b, rest, rfl, hb, ?_⟩
    intro other c hc
    rw [List.cons_append, List.mapM_cons, hd, ok_bind, hother hc]
    rfl

end Outcome

namespace Reader
variable {α β : Type} {read : Reader α} {budget : Nat} {tree other : Tree}

/-- What is read from the tree is read from the other one. -/
def Kept (read : Reader α) (budget : Nat) (tree other : Tree) : Prop :=
  ∀ a, read budget tree = .ok a → read budget other = .ok a

theorem Kept.refl (read : Reader α) (budget : Nat) (tree : Tree) : Kept read budget tree tree :=
  fun _ h => h

theorem Kept.trans {third : Tree} (h : Kept read budget tree other)
    (more : Kept read budget other third) : Kept read budget tree third :=
  fun a ha => more a (h a ha)

theorem Kept.map (f : α → β) (h : Kept read budget tree other) :
    Kept (.map f read) budget tree other := by
  intro b hb
  obtain ⟨a, ha, rfl⟩ := Outcome.map_eq_ok.mp hb
  exact Outcome.map_eq_ok.mpr ⟨a, h a ha, rfl⟩

theorem optional_of_ne_null (h : tree ≠ .null) :
    optional read budget tree = (read budget tree).map some := by
  cases tree <;> first | exact absurd rfl h | rfl

/-- A change that neither makes a null nor unmakes one. -/
theorem Kept.optional (h : Kept read budget tree other) (hn : tree = .null ↔ other = .null) :
    Kept (.optional read) budget tree other := by
  by_cases ht : tree = .null
  · rw [hn.mp ht, ht]
    exact .refl _ _ _
  · intro a ha
    rw [optional_of_ne_null ht] at ha
    rw [optional_of_ne_null (mt hn.mpr ht)]
    obtain ⟨b, hb, rfl⟩ := Outcome.map_eq_ok.mp ha
    rw [h b hb]
    rfl

theorem enter_kept {inside more : Nat → Except ReadError α}
    (h : ∀ b, budget = b+1 → ∀ a, inside b = .ok a → more b = .ok a) {a : α}
    (ha : enter inside budget = .ok a) : enter more budget = .ok a := by
  obtain ⟨b, rfl, hb⟩ := enter_eq_ok ha
  exact h b rfl a hb

section
variable {fault : Option Fault}

theorem kept_list {before after : List Tree} (h : ∀ b, budget = b+1 → Kept read b tree other) :
    Kept (.list read) budget (.array (before ++ tree :: after) fault)
      (.array (before ++ other :: after) fault) := by
  intro as
  refine enter_kept fun b hb as has => ?_
  obtain ⟨values, hvalues, has⟩ := Outcome.bind_eq_ok.mp has
  obtain ⟨first, a, rest, rfl, ha, hother⟩ := Outcome.mapM_at hvalues
  rw [hother (h b hb a ha)]
  exact has

theorem kept_dict {before after : List (Quoted × Tree)} {key : Quoted}
    (h : ∀ b, budget = b+1 → Kept read b tree other) :
    Kept (.dict read) budget (.object (before ++ (key, tree) :: after) fault)
      (.object (before ++ (key, other) :: after) fault) := by
  intro entries
  refine enter_kept fun b hb entries hentries => ?_
  obtain ⟨values, hvalues, hentries⟩ := Outcome.bind_eq_ok.mp hentries
  have hmapM : (before ++ (key, tree) :: after).mapM (Reader.entry read b) = .ok values := hvalues
  obtain ⟨first, entry, rest, rfl, hentry, hother⟩ := Outcome.mapM_at hmapM
  obtain ⟨name, hname, hentry⟩ := Outcome.bind_eq_ok.mp hentry
  obtain ⟨a, ha, hentry⟩ := Outcome.bind_eq_ok.mp hentry
  have hmore : Reader.entry read b (key, other) = .ok entry := by
    rw [Reader.entry, hname, Outcome.ok_bind, h b hb a ha]
    exact hentry
  show (before ++ (key, other) :: after).mapM (Reader.entry read b) >>= _ = _
  rw [hother hmore]
  exact hentries

end

end Reader

namespace Fields
variable {α : Type} {budget : Nat} {tree other : Tree}

/-- The value of the field with this name is read, and was not given before. -/
def Fills (budget : Nat) (name : String) (tree : Tree) (fields : Fields α)
    (slots filled : Slots fields) : Prop :=
  ∃ read, fill? name fields slots = some read ∧ read budget tree = .ok filled

theorem fills_cons {β : Type} {name : String} {field : Field β} {fields : Fields α}
    {slots filled : Slots (.cons field fields)} :
    Fills budget name tree (.cons field fields) slots filled ↔
      (name = field.name ∧ slots.1 = none ∧
        ∃ a, field.read budget tree = .ok a ∧ filled = (some a, slots.2)) ∨
      (name ≠ field.name ∧ filled.1 = slots.1 ∧ Fills budget name tree fields slots.2 filled.2) := by
  constructor
  · rintro ⟨read, hread, h⟩
    rw [fill?] at hread
    by_cases hname : name = field.name
    · rw [if_pos hname] at hread
      cases hread
      cases hslot : slots.1 with
      | some a =>
        rw [hslot] at h
        cases h
      | none =>
        simp only [hslot] at h
        obtain ⟨a, ha, rfl⟩ := Outcome.map_eq_ok.mp h
        exact .inl ⟨hname, rfl, a, ha, rfl⟩
    · rw [if_neg hname] at hread
      obtain ⟨more, hmore, rfl⟩ := Option.map_eq_some_iff.mp hread
      obtain ⟨rest, hrest, rfl⟩ := Outcome.map_eq_ok.mp h
      exact .inr ⟨hname, rfl, more, hmore, hrest⟩
  · rintro (⟨hname, hslot, a, ha, rfl⟩ | ⟨hname, hslot, more, hmore, hrest⟩)
    · refine ⟨_, if_pos hname, ?_⟩
      simp only [hslot, ha]
      rfl
    · refine ⟨_, (if_neg hname).trans (Option.map_eq_some_iff.mpr ⟨more, hmore, rfl⟩), ?_⟩
      exact Outcome.map_eq_ok.mpr ⟨filled.2, hrest, Prod.ext hslot.symm rfl⟩

theorem fill?_eq_some {name : String} {fields : Fields α} {slots : Slots fields}
    {read : Reader (Slots fields)} (h : fill? name fields slots = some read) :
    name ∈ fields.names := by
  by_cases hmem : name ∈ fields.names
  · exact hmem
  · rw [fill?_eq_none.mpr hmem] at h
    cases h

/-- The field with a name reads its value as it is read alone. -/
theorem Fills.kept {name : String} {fields : Fields α} {slots filled : Slots fields}
    (h : Fills budget name tree fields slots filled)
    (hk : ∀ field ∈ fields.toList, field.2.name = name →
      Reader.Kept field.2.read budget tree other) :
    Fills budget name other fields slots filled := by
  induction fields with
  | nil =>
    obtain ⟨read, hread, -⟩ := h
    cases hread
  | cons field fields ih =>
    rcases fills_cons.mp h with ⟨hname, hslot, a, ha, hfilled⟩ | ⟨hname, hslot, hrest⟩
    · have ho := hk ⟨_, field⟩ List.mem_cons_self hname.symm a ha
      exact fills_cons.mpr (.inl ⟨hname, hslot, a, ho, hfilled⟩)
    · have ho := ih hrest fun field hfield => hk field (List.mem_cons_of_mem _ hfield)
      exact fills_cons.mpr (.inr ⟨hname, hslot, ho⟩)

theorem skipMember_eq_ok {fields : Fields α} {key : Quoted} {slots next : Slots fields} :
    skipMember fields budget slots (key, tree) = .ok next ↔
      ∃ name, key.read = .ok name ∧
        (Fills budget name tree fields slots next ∨
          name ∉ fields.names ∧ tree.fault? = none ∧ next = slots) := by
  rw [skipMember, Outcome.bind_eq_ok]
  refine exists_congr fun name => and_congr_right fun _ => ?_
  cases hf : fill? name fields slots with
  | some read =>
    have hmem : name ∈ fields.names := fill?_eq_some hf
    simp [Fills, hf, hmem]
  | none =>
    have hmem : name ∉ fields.names := fill?_eq_none.mp hf
    have hproceed (fault : Option Fault) :
        (Reader.proceed fault >>= fun _ => .ok slots) = .ok next ↔ fault = none ∧ next = slots := by
      cases fault with
      | none => simp [Reader.proceed, eq_comm]
      | some fault => simp [Reader.proceed]
    simpa [Fills, hf, hmem] using hproceed tree.fault?

theorem keepMember_eq_ok {fields : Fields α} {key : Quoted} {slots filled : Slots fields}
    {others kept : List (String × Json)} :
    keepMember fields budget (slots, others) (key, tree) = .ok (filled, kept) ↔
      ∃ name, key.read = .ok name ∧
        (Fills budget name tree fields slots filled ∧ kept = others ∨
          name ∉ fields.names ∧ filled = slots ∧
            ∃ value, Reader.value budget tree = .ok value ∧ kept = (name, value) :: others) := by
  rw [keepMember, Outcome.bind_eq_ok]
  refine exists_congr fun name => and_congr_right fun _ => ?_
  cases hf : fill? name fields slots with
  | some read =>
    have hmem : name ∈ fields.names := fill?_eq_some hf
    have hread : (read budget tree >>= fun next => .ok (next, others)) = .ok (filled, kept) ↔
        read budget tree = .ok filled ∧ kept = others := by
      rw [Outcome.bind_eq_ok]
      constructor
      · rintro ⟨next, hnext, ⟨⟩⟩
        exact ⟨hnext, rfl⟩
      · rintro ⟨hnext, rfl⟩
        exact ⟨filled, hnext, rfl⟩
    simpa [Fills, hf, hmem] using hread
  | none =>
    have hmem : name ∉ fields.names := fill?_eq_none.mp hf
    have hvalue : (Reader.value budget tree >>= fun value =>
          .ok (slots, (name, value) :: others)) = .ok (filled, kept) ↔
        filled = slots ∧
          ∃ value, Reader.value budget tree = .ok value ∧ kept = (name, value) :: others := by
      rw [Outcome.bind_eq_ok]
      constructor
      · rintro ⟨value, hv, ⟨⟩⟩
        exact ⟨rfl, value, hv, rfl⟩
      · rintro ⟨rfl, value, hv, rfl⟩
        exact ⟨value, hv, rfl⟩
    simpa [Fills, hf, hmem] using hvalue

/-- The same fields are filled, and the members kept are related. -/
def Alike {fields : Fields α} (R : List (String × Json) → List (String × Json) → Prop)
    (state other : Slots fields × List (String × Json)) : Prop :=
  state.1 = other.1 ∧ R state.2 other.2

theorem keepMember_congr {fields : Fields α}
    {R : List (String × Json) → List (String × Json) → Prop}
    (hcons : ∀ {entries more entry}, R entries more → R (entry :: entries) (entry :: more))
    {state more next : Slots fields × List (String × Json)} {member : Quoted × Tree}
    (hr : Alike R state more) (h : keepMember fields budget state member = .ok next) :
    ∃ last, keepMember fields budget more member = .ok last ∧ Alike R next last := by
  obtain ⟨slots, entries⟩ := state
  obtain ⟨_, others⟩ := more
  obtain ⟨filled, kept⟩ := next
  obtain ⟨rfl, hr⟩ := hr
  obtain ⟨name, hname, hm⟩ := keepMember_eq_ok.mp h
  rcases hm with ⟨hfill, rfl⟩ | ⟨hmem, rfl, value, hvalue, rfl⟩
  · exact ⟨(filled, others), keepMember_eq_ok.mpr ⟨name, hname, .inl ⟨hfill, rfl⟩⟩, rfl, hr⟩
  · refine ⟨(filled, (name, value) :: others), ?_, rfl, hcons hr⟩
    exact keepMember_eq_ok.mpr ⟨name, hname, .inr ⟨hmem, rfl, value, hvalue, rfl⟩⟩

theorem ofItems_kept {fault : Option Fault} {before after : List Tree} {fields : Fields α}
    (h : ∀ field ∈ fields.toList[before.length]?, Reader.Kept field.2.read budget tree other)
    {a : α} (ha : ofItems budget fault fields (before ++ tree :: after) = .ok a) :
    ofItems budget fault fields (before ++ other :: after) = .ok a := by
  induction fields generalizing before with
  | nil => cases before <;> cases ha
  | cons field fields ih =>
    cases before with
    | nil =>
      obtain ⟨first, hfirst, ha⟩ := Outcome.bind_eq_ok.mp ha
      have hk := h ⟨_, field⟩ (by simp [toList])
      rw [List.nil_append, ofItems, hk first hfirst]
      exact ha
    | cons item before =>
      obtain ⟨first, hfirst, ha⟩ := Outcome.bind_eq_ok.mp ha
      obtain ⟨rest, hrest, ha⟩ := Outcome.bind_eq_ok.mp ha
      rw [List.cons_append, ofItems, hfirst, Outcome.ok_bind,
        ih (fun field hfield => h field (by simpa [toList] using hfield)) hrest]
      exact ha

end Fields

namespace Reader
variable {α : Type} {fields : Fields α} {budget : Nat} {tree other : Tree} {fault : Option Fault}

/-- Other members in the middle of a record that fill the same fields. -/
theorem kept_record_middle {before middle others after : List (Quoted × Tree)}
    (h : ∀ b, budget = b+1 → ∀ slots next, middle.foldlM (fields.skipMember b) slots = .ok next →
      others.foldlM (fields.skipMember b) slots = .ok next) :
    Kept (.record fields) budget (.object (before ++ (middle ++ after)) fault)
      (.object (before ++ (others ++ after)) fault) := by
  intro a
  refine enter_kept fun b hb a ha => ?_
  obtain ⟨slots, hslots, ha⟩ := Outcome.bind_eq_ok.mp ha
  obtain ⟨_, hmore, rfl⟩ := Outcome.foldlM_middle Outcome.step_of_eq
    (fun hm => ⟨_, h b hb _ _ hm, rfl⟩) hslots
  rw [hmore]
  exact ha

theorem kept_record_member {before after : List (Quoted × Tree)} {key : Quoted}
    (hknown : ∀ b, budget = b+1 → ∀ name, key.read = .ok name →
      ∀ field ∈ fields.toList, field.2.name = name → Kept field.2.read b tree other)
    (hunknown : ∀ name, key.read = .ok name → name ∉ fields.names →
      tree.fault? = none → other.fault? = none) :
    Kept (.record fields) budget (.object (before ++ (key, tree) :: after) fault)
      (.object (before ++ (key, other) :: after) fault) := by
  refine @kept_record_middle _ _ _ _ before [(key, tree)] [(key, other)] after ?_
  intro b hb slots next h
  rw [Outcome.foldlM_singleton] at h ⊢
  obtain ⟨name, hname, h⟩ := Fields.skipMember_eq_ok.mp h
  refine Fields.skipMember_eq_ok.mpr ⟨name, hname, ?_⟩
  rcases h with h | ⟨hmem, hfault, hnext⟩
  · exact .inl (h.kept (hknown b hb name hname))
  · exact .inr ⟨hmem, hunknown name hname hmem hfault, hnext⟩

/-- Other members in the middle of an open record that fill the same fields. -/
theorem openRecord_middle {R : List (String × Json) → List (String × Json) → Prop}
    {before middle others after : List (Quoted × Tree)}
    (hstep : ∀ {entries more entry}, R entries more → R (entry :: entries) (entry :: more))
    (hmiddle : ∀ b, budget = b+1 → ∀ slots entries filled kept,
      middle.foldlM (fields.keepMember b) (slots, entries) = .ok (filled, kept) →
      ∃ more, others.foldlM (fields.keepMember b) (slots, entries) = .ok (filled, more) ∧
        R kept more)
    {a : α} {kept : List (String × Json)}
    (h : openRecord fields budget (.object (before ++ (middle ++ after)) fault) = .ok (a, kept)) :
    ∃ more, openRecord fields budget (.object (before ++ (others ++ after)) fault) =
        .ok (a, more) ∧ R kept.reverse more.reverse := by
  obtain ⟨b, rfl, h⟩ := enter_eq_ok h
  obtain ⟨⟨slots, entries⟩, hentries, h⟩ := Outcome.bind_eq_ok.mp h
  obtain ⟨_, hfault, h⟩ := Outcome.bind_eq_ok.mp h
  obtain ⟨a', hfinish, h⟩ := Outcome.bind_eq_ok.mp h
  cases h
  obtain ⟨⟨_, more⟩, hmore, rfl, hr⟩ := Outcome.foldlM_middle (Fields.keepMember_congr hstep)
    (fun {state next} hm => by
      obtain ⟨more, hmore, hr⟩ := hmiddle b rfl state.1 state.2 next.1 next.2 hm
      exact ⟨(next.1, more), hmore, rfl, hr⟩) hentries
  refine ⟨more.reverse, ?_, ?_⟩
  · simp only [openRecord, enter, hmore, hfault, hfinish, Outcome.ok_bind, Outcome.pure_eq]
  · rw [List.reverse_reverse, List.reverse_reverse]
    exact hr

theorem openRecord_member {R : List (String × Json) → List (String × Json) → Prop}
    {before after : List (Quoted × Tree)} {key : Quoted} (hrefl : ∀ entries, R entries entries)
    (hstep : ∀ {entries more entry}, R entries more → R (entry :: entries) (entry :: more))
    (hknown : ∀ b, budget = b+1 → ∀ name, key.read = .ok name →
      ∀ field ∈ fields.toList, field.2.name = name → Kept field.2.read b tree other)
    (hunknown : ∀ b, budget = b+1 → ∀ name, key.read = .ok name → name ∉ fields.names →
      ∀ v, value b tree = .ok v → ∃ w, value b other = .ok w ∧
        ∀ entries, R ((name, v) :: entries) ((name, w) :: entries))
    {a : α} {kept : List (String × Json)}
    (h : openRecord fields budget (.object (before ++ (key, tree) :: after) fault) =
      .ok (a, kept)) :
    ∃ more, openRecord fields budget (.object (before ++ (key, other) :: after) fault) =
        .ok (a, more) ∧ R kept.reverse more.reverse := by
  refine @openRecord_middle _ _ _ _ R before [(key, tree)] [(key, other)] after hstep ?_ a kept h
  intro b hb slots entries filled last hm
  rw [Outcome.foldlM_singleton] at hm ⊢
  obtain ⟨name, hname, hm⟩ := Fields.keepMember_eq_ok.mp hm
  rcases hm with ⟨hfill, rfl⟩ | ⟨hmem, hslots, v, hv, rfl⟩
  · have hother := hfill.kept (hknown b hb name hname)
    exact ⟨_, Fields.keepMember_eq_ok.mpr ⟨name, hname, .inl ⟨hother, rfl⟩⟩, hrefl _⟩
  · obtain ⟨w, hw, hr⟩ := hunknown b hb name hname hmem v hv
    exact ⟨_, Fields.keepMember_eq_ok.mpr ⟨name, hname, .inr ⟨hmem, hslots, w, hw, rfl⟩⟩, hr entries⟩

theorem kept_record_item {before after : List Tree}
    (h : ∀ b, budget = b+1 → ∀ field ∈ fields.toList[before.length]?,
      Kept field.2.read b tree other) :
    Kept (.record fields) budget (.array (before ++ tree :: after) fault)
      (.array (before ++ other :: after) fault) := by
  intro a
  refine enter_kept fun b hb a ha => ?_
  exact Fields.ofItems_kept (h b hb) ha

end Reader
end EditScript
