import EditScript.Proofs.Built
import EditScript.Proofs.Json.Interrupted
import EditScript.Proofs.Outcome

namespace EditScript

namespace Tree

/-- More of the text has the fault that was found before, unless that is the interruption. -/
theorem fault?_resumed {tree more : Tree} (h : tree.Resumed more) :
    tree.fault? = some .interrupted ∨ more.fault? = tree.fault? := by
  induction h with
  | absent | brokenLiteral | null | bool | brokenNumeral | numeral => exact .inl rfl
  | string resumed => exact .inl resumed.1
  | items items more fault =>
    rw [fault?, fault?, itemsFault?_append]
    cases itemsFault? items with
    | none => exact .inl rfl
    | some fault => exact .inr rfl
  | members members more fault =>
    rw [fault?, fault?, membersFault?_append]
    cases membersFault? members with
    | none => exact .inl rfl
    | some fault => exact .inr rfl
  | item items fault resumed ih =>
    simp only [fault?, itemsFault?_append, itemsFault?]
    rcases ih with ih | ih
    · cases itemsFault? items <;> simp [ih]
    · simp [ih]
  | member members key fault resumed ih =>
    simp only [fault?, membersFault?_append, membersFault?]
    rcases ih with ih | ih
    · cases membersFault? members <;> cases key.fault <;> simp [ih]
    · simp [ih]
  | key members value fault resumed =>
    simp only [fault?, membersFault?_append, membersFault?, resumed.1]
    cases membersFault? members <;> simp
  | first => exact .inr rfl

end Tree

namespace Reader
variable {α β γ σ : Type}

/-- A result from interrupted text is upheld by one from more of it: it is the failure of the
stream, or they are the same. -/
def Upheld (result more : Except ReadError α) : Prop :=
  result = .error (.fault .interrupted) ∨ more = result

namespace Upheld

theorem refl (result : Except ReadError α) : Upheld result result := .inr rfl

theorem trans {first second third : Except ReadError α} (h : Upheld first second)
    (more : Upheld second third) : Upheld first third := by
  rcases h with h | rfl
  · exact .inl h
  · exact more

theorem bind {result more : Except ReadError α} {f g : α → Except ReadError β}
    (h : Upheld result more) (hf : ∀ a, result = .ok a → Upheld (f a) (g a)) :
    Upheld (result >>= f) (more >>= g) := by
  rcases h with h | rfl
  · left
    rw [h]
    rfl
  · cases hr : more with
    | error e => exact .refl _
    | ok a => exact hf a hr

theorem map (f : α → β) {result more : Except ReadError α} (h : Upheld result more) :
    Upheld (result.map f) (more.map f) := by
  rcases h with h | rfl
  · left
    rw [h]
    rfl
  · exact .refl _

end Upheld

def SteadyAt (budget : Nat) (read : Reader α) : Prop :=
  ∀ tree more, tree.Resumed more → Upheld (read budget tree) (read budget more)

/-- Whatever the text that is left leads to is upheld by more of the text. -/
def Steady (read : Reader α) : Prop := ∀ budget, SteadyAt budget read

theorem upheld_read {quoted more : Quoted} (h : quoted.Resumed more) :
    Upheld quoted.read more.read := by
  rcases h.2 with h | h
  · left
    rw [Quoted.read, h]
    rfl
  · right
    rw [Quoted.read, Quoted.read, h]

/-- A number that may be over reads as the whole number does. -/
theorem upheld_numeral {n : Numeral} (large : n.tooLarge → n.read = .error .malformed) :
    Upheld (.error (Tree.brokenNumeral n .interrupted).wrongKind) n.read := by
  by_cases hn : n.tooLarge
  · right
    rw [large hn, Tree.wrongKind, if_pos hn]
  · left
    rw [Tree.wrongKind, if_neg hn]

theorem upheld_wrongKind (α : Type) {tree more : Tree} (h : tree.Resumed more) :
    Upheld (.error tree.wrongKind : Except ReadError α) (.error more.wrongKind) := by
  cases h with
  | absent | brokenLiteral | null | bool => exact .inl rfl
  | @brokenNumeral n m fault large =>
    by_cases hn : n.tooLarge
    · right
      simp [Tree.wrongKind, hn, large hn]
    · left
      simp [Tree.wrongKind, hn]
  | numeral large =>
    rcases upheld_numeral large with h | h
    · exact .inl (congrArg Except.error (Except.error.inj h))
    · right
      simp only [Tree.wrongKind, h]
  | @string quoted more resumed =>
    rcases upheld_read resumed with h | h
    · left
      simp only [Tree.wrongKind, h]
    · right
      simp only [Tree.wrongKind, h]
  | items | item | members | key | member | first => exact .refl _

theorem steady_string : Steady string := by
  intro budget tree more h
  have hkind := upheld_wrongKind String h
  cases h with
  | string resumed => exact upheld_read resumed
  | absent | brokenLiteral | null | bool => exact .inl rfl
  | brokenNumeral | numeral | items | item | members | key | member | first => exact hkind

theorem steady_bool : Steady bool := by
  intro budget tree more h
  have hkind := upheld_wrongKind Bool h
  cases h with
  | absent | brokenLiteral | null | bool => exact .inl rfl
  | brokenNumeral | numeral | string | items | item | members | key | member | first => exact hkind

theorem steady_word : Steady word := by
  intro budget tree more h
  have hkind := upheld_wrongKind UInt64 h
  cases h with
  | absent | brokenLiteral | null | bool => exact .inl rfl
  | numeral large => exact (upheld_numeral large).bind fun _ _ => .refl _
  | brokenNumeral | string | items | item | members | key | member | first => exact hkind

/-- Reads a list from the left: its result comes from the result of all but the last part. -/
def Sequential (consume : List σ → Except ReadError β)
    (next : β → σ → Except ReadError β) : Prop :=
  ∀ parts part, consume (parts ++ [part]) = consume parts >>= fun b => next b part

theorem sequential_foldlM (f : β → σ → Except ReadError β) (start : β) :
    Sequential (fun parts => parts.foldlM f start) f := by
  intro parts part
  simp only [List.foldlM_append, List.foldlM_cons, List.foldlM_nil, bind_pure]

theorem sequential_mapM (f : σ → Except ReadError γ) :
    Sequential (fun parts => parts.mapM f) (fun results part => do
      return results ++ [← f part]) := by
  intro parts part
  simp only [List.mapM_append, List.mapM_cons, List.mapM_nil, bind_assoc, pure_bind]

section
variable {consume : List σ → Except ReadError β} {next : β → σ → Except ReadError β}

theorem Sequential.error (h : Sequential consume next) {parts : List σ} {e : ReadError}
    (he : consume parts = .error e) (more : List σ) : consume (parts ++ more) = .error e := by
  induction more generalizing parts with
  | nil => rwa [List.append_nil]
  | cons part more ih =>
    have hpart : consume (parts ++ [part]) = .error e := by
      rw [h, he]
      rfl
    have hassoc : parts ++ part :: more = (parts ++ [part]) ++ more := by simp
    rw [hassoc]
    exact ih hpart

/-- A list cut short stops at its fault, or before. -/
theorem Sequential.upheld_more (h : Sequential consume next) (parts more : List σ)
    (fault : Option Fault) (f : β → Except ReadError γ) :
    Upheld
      (do
        let b ← consume parts
        proceed (some .interrupted)
        f b)
      (do
        let b ← consume (parts ++ more)
        proceed fault
        f b) := by
  cases hc : consume parts with
  | error e =>
    rw [h.error hc]
    exact .refl _
  | ok b => exact .inl rfl

theorem Sequential.upheld_last (h : Sequential consume next) (parts : List σ) {part more : σ}
    (hpart : ∀ b, Upheld (next b part) (next b more)) (f : β → Except ReadError γ) :
    Upheld (consume (parts ++ [part]) >>= f) (consume (parts ++ [more]) >>= f) := by
  rw [h, h]
  exact ((Upheld.refl _).bind fun b _ => hpart b).bind fun b _ => .refl _

end

theorem upheld_items {consume : List Tree → Except ReadError β}
    {next : β → Tree → Except ReadError β} (hseq : Sequential consume next)
    (hitem : ∀ b {item more : Tree}, item.Resumed more → Upheld (next b item) (next b more))
    (hfirst : ∀ b, next b (.absent .malformed) = .error .malformed)
    (f : β → Except ReadError γ) {items others : List Tree} {fault other : Option Fault}
    (h : Tree.Resumed (.array items fault) (.array others other)) :
    Upheld
      (do
        let b ← consume items
        proceed fault
        f b)
      (do
        let b ← consume others
        proceed other
        f b) := by
  cases h with
  | items items more => exact hseq.upheld_more items more _ f
  | item items _ resumed => exact hseq.upheld_last items (fun b => hitem b resumed) _
  | first =>
    right
    have hlast := hseq [] (.absent .malformed)
    rw [List.nil_append] at hlast
    rw [hlast]
    cases hc : consume [] with
    | error e => rfl
    | ok b =>
      simp only [Outcome.ok_bind, hfirst]
      rfl

theorem upheld_members {consume : List (Quoted × Tree) → Except ReadError β}
    {next : β → Quoted × Tree → Except ReadError β} (hseq : Sequential consume next)
    (hkey : ∀ b {key more : Quoted} (value : Tree), key.Resumed more →
      Upheld (next b (key, value)) (next b (more, value)))
    (hvalue : ∀ b (key : Quoted) {value more : Tree}, value.Resumed more →
      Upheld (next b (key, value)) (next b (key, more)))
    (f : β → Except ReadError γ) {members others : List (Quoted × Tree)}
    {fault other : Option Fault}
    (h : Tree.Resumed (.object members fault) (.object others other)) :
    Upheld
      (do
        let b ← consume members
        proceed fault
        f b)
      (do
        let b ← consume others
        proceed other
        f b) := by
  cases h with
  | members members more => exact hseq.upheld_more members more _ f
  | key members value _ resumed =>
    exact hseq.upheld_last members (fun b => hkey b value resumed) _
  | member members key _ resumed =>
    exact hseq.upheld_last members (fun b => hvalue b key resumed) _

theorem upheld_enter {inside more : Nat → Except ReadError α} {budget : Nat}
    (h : ∀ inner < budget, Upheld (inside inner) (more inner)) :
    Upheld (enter inside budget) (enter more budget) := by
  cases budget with
  | zero => exact .refl _
  | succ budget => exact h budget (Nat.lt_succ_self budget)

theorem SteadyAt.items {read : Reader α} {budget : Nat} (hread : SteadyAt budget read)
    (hfirst : read budget (.absent .malformed) = .error .malformed)
    (f : List α → Except ReadError β) {items others : List Tree} {fault other : Option Fault}
    (h : Tree.Resumed (.array items fault) (.array others other)) :
    Upheld
      (do
        let values ← items.mapM (read budget)
        proceed fault
        f values)
      (do
        let values ← others.mapM (read budget)
        proceed other
        f values) := by
  refine upheld_items (sequential_mapM (read budget)) (fun values _ _ hr => ?_) (fun values => ?_) f h
  · exact (hread _ _ hr).bind fun _ _ => .refl _
  · rw [hfirst]
    rfl

theorem upheld_entryKey (read : Reader α) (budget : Nat) {key more : Quoted} (value : Tree)
    (h : key.Resumed more) :
    Upheld (entry read budget (key, value)) (entry read budget (more, value)) :=
  (upheld_read h).bind fun _ _ => .refl _

theorem SteadyAt.entry {read : Reader α} {budget : Nat} (hread : SteadyAt budget read)
    (key : Quoted) {value more : Tree} (h : value.Resumed more) :
    Upheld (entry read budget (key, value)) (Reader.entry read budget (key, more)) :=
  (Upheld.refl _).bind fun _ _ => (hread _ _ h).bind fun _ _ => .refl _

theorem SteadyAt.entries {read : Reader α} {budget : Nat} (hread : SteadyAt budget read)
    (f : List (String × α) → Except ReadError β) {members others : List (Quoted × Tree)}
    {fault other : Option Fault}
    (h : Tree.Resumed (.object members fault) (.object others other)) :
    Upheld
      (do
        let entries ← members.mapM (Reader.entry read budget)
        proceed fault
        f entries)
      (do
        let entries ← others.mapM (Reader.entry read budget)
        proceed other
        f entries) := by
  refine upheld_members (sequential_mapM (Reader.entry read budget)) (fun _ _ _ value hr => ?_)
    (fun _ key _ _ hr => ?_) f h
  · exact (upheld_entryKey read budget value hr).bind fun _ _ => .refl _
  · exact (hread.entry key hr).bind fun _ _ => .refl _

theorem steady_list {read : Reader α} (hread : Steady read)
    (hfirst : ∀ budget, read budget (.absent .malformed) = .error .malformed) :
    Steady (list read) := by
  intro budget tree more h
  have hkind := upheld_wrongKind (List α) h
  have harray {items others : List Tree} {fault other : Option Fault}
      (hr : Tree.Resumed (.array items fault) (.array others other)) :
      Upheld (list read budget (.array items fault)) (list read budget (.array others other)) :=
    upheld_enter fun inner _ => (hread inner).items (hfirst inner) (fun values => .ok values) hr
  cases h with
  | absent | brokenLiteral | null | bool => exact .inl rfl
  | brokenNumeral | numeral | string | members | key | member => exact hkind
  | items items more fault => exact harray (.items items more fault)
  | item items fault resumed => exact harray (.item items fault resumed)
  | first => exact harray .first

theorem steady_dict {read : Reader α} (hread : Steady read) : Steady (dict read) := by
  intro budget tree more h
  have hkind := upheld_wrongKind (Dict α) h
  have hobject {members others : List (Quoted × Tree)} {fault other : Option Fault}
      (hr : Tree.Resumed (.object members fault) (.object others other)) :
      Upheld (dict read budget (.object members fault)) (dict read budget (.object others other)) :=
    upheld_enter fun inner _ => (hread inner).entries (fun entries => .ok (Dict.ofList entries)) hr
  cases h with
  | absent | brokenLiteral | null | bool => exact .inl rfl
  | brokenNumeral | numeral | string | items | item | first => exact hkind
  | members members more fault => exact hobject (.members members more fault)
  | key members value fault resumed => exact hobject (.key members value fault resumed)
  | member members key fault resumed => exact hobject (.member members key fault resumed)

theorem steady_value : Steady value := by
  intro budget
  induction budget using Nat.strongRecOn with
  | ind budget ih =>
    intro tree more h
    have hkind := upheld_wrongKind Json h
    have harray {items others : List Tree} {fault other : Option Fault}
        (hr : Tree.Resumed (.array items fault) (.array others other)) :
        Upheld (value budget (.array items fault)) (value budget (.array others other)) := by
      rw [value_array, value_array]
      exact upheld_enter fun inner hi =>
        (ih inner hi).items (by rw [value]; rfl) (fun values => .ok (Json.array values)) hr
    have hobject {members others : List (Quoted × Tree)} {fault other : Option Fault}
        (hr : Tree.Resumed (.object members fault) (.object others other)) :
        Upheld (value budget (.object members fault)) (value budget (.object others other)) := by
      rw [value_object, value_object]
      exact upheld_enter fun inner hi =>
        (ih inner hi).entries (fun entries => .ok (Json.object entries)) hr
    cases h with
    | absent | brokenLiteral | null | bool =>
      left
      rw [value]
    | brokenNumeral =>
      rw [value, value]
      exact hkind
    | numeral large =>
      rw [value, value]
      exact (upheld_numeral large).map _
    | string resumed =>
      rw [value, value]
      exact (upheld_read resumed).map _
    | items items more fault => exact harray (.items items more fault)
    | item items fault resumed => exact harray (.item items fault resumed)
    | first => exact harray .first
    | members members more fault => exact hobject (.members members more fault)
    | key members value fault resumed => exact hobject (.key members value fault resumed)
    | member members key fault resumed => exact hobject (.member members key fault resumed)

theorem steady_map (f : α → β) {read : Reader α} (hread : Steady read) : Steady (map f read) :=
  fun budget _ _ h => (hread budget _ _ h).map f

theorem steady_optional {read : Reader α} (hread : Steady read)
    (begun : ∀ budget fault, read budget (.absent fault) = .error (.fault fault) ∧
      read budget (.brokenLiteral fault) = .error (.fault fault)) : Steady (optional read) := by
  intro budget tree more h
  have hsome (ht : ∀ budget, optional read budget tree = (read budget tree).map some)
      (hm : ∀ budget, optional read budget more = (read budget more).map some) :
      Upheld (optional read budget tree) (optional read budget more) := by
    rw [ht, hm]
    exact (hread budget _ _ h).map some
  cases h with
  | absent =>
    left
    rw [optional, (begun budget _).1]
    · rfl
    · intro hnull
      cases hnull
  | brokenLiteral | null | bool =>
    left
    rw [optional, (begun budget _).2]
    · rfl
    · intro hnull
      cases hnull
  | brokenNumeral | numeral | string | items | item | members | key | member | first =>
    exact hsome (fun _ => rfl) (fun _ => rfl)

def SteadyFields (fields : Fields α) : Prop := ∀ field ∈ fields.toList, Steady field.2.read

theorem steady_fill? {name : String} {fields : Fields α} (hfields : SteadyFields fields)
    {slots : fields.Slots} {read : Reader fields.Slots}
    (h : Fields.fill? name fields slots = some read) : Steady read := by
  induction fields with
  | nil => cases h
  | cons field fields ih =>
    obtain ⟨hfield, hrest⟩ := List.forall_mem_cons.mp hfields
    rw [Fields.fill?] at h
    split at h
    · cases h
      intro budget tree more hr
      dsimp only
      split
      · exact .refl _
      · exact (hfield budget _ _ hr).map _
    · obtain ⟨inner, hinner, rfl⟩ := Option.map_eq_some_iff.mp h
      exact steady_map _ (ih hrest hinner)

theorem upheld_proceed {tree more : Tree} (h : tree.Resumed more) :
    Upheld (proceed tree.fault?) (proceed more.fault?) := by
  rcases Tree.fault?_resumed h with h | h
  · left
    rw [h]
    rfl
  · right
    rw [h]

theorem upheld_skipMember {fields : Fields α} (hfields : SteadyFields fields) (budget : Nat)
    (slots : fields.Slots) (key : Quoted) {value more : Tree} (h : value.Resumed more) :
    Upheld (fields.skipMember budget slots (key, value))
      (fields.skipMember budget slots (key, more)) := by
  refine (Upheld.refl _).bind fun name _ => ?_
  cases hf : fields.fill? name slots with
  | some read => exact steady_fill? hfields hf budget _ _ h
  | none => exact (upheld_proceed h).bind fun _ _ => .refl _

theorem upheld_keepMember {fields : Fields α} (hfields : SteadyFields fields) (budget : Nat)
    (state : fields.Slots × List (String × Json)) (key : Quoted) {value more : Tree}
    (h : value.Resumed more) :
    Upheld (fields.keepMember budget state (key, value))
      (fields.keepMember budget state (key, more)) := by
  refine (Upheld.refl _).bind fun name _ => ?_
  cases hf : fields.fill? name state.1 with
  | some read => exact (steady_fill? hfields hf budget _ _ h).bind fun _ _ => .refl _
  | none => exact (steady_value budget _ _ h).bind fun _ _ => .refl _

theorem upheld_ofItems_append (fields : Fields α) (budget : Nat) (items more : List Tree)
    (fault : Option Fault) :
    Upheld (fields.ofItems budget (some .interrupted) items)
      (fields.ofItems budget fault (items ++ more)) := by
  induction fields generalizing items with
  | nil =>
    cases items with
    | nil => exact .inl rfl
    | cons item items => exact .refl _
  | cons field fields ih =>
    cases items with
    | nil => exact .inl rfl
    | cons item items => exact (Upheld.refl _).bind fun _ _ => (ih items).bind fun _ _ => .refl _

theorem upheld_ofItems_last {fields : Fields α} (hfields : SteadyFields fields) (budget : Nat)
    (fault : Option Fault) (items : List Tree) {item more : Tree} (h : item.Resumed more) :
    Upheld (fields.ofItems budget fault (items ++ [item]))
      (fields.ofItems budget fault (items ++ [more])) := by
  induction fields generalizing items with
  | nil => cases items <;> exact .refl _
  | cons field fields ih =>
    obtain ⟨hfield, hrest⟩ := List.forall_mem_cons.mp hfields
    cases items with
    | nil => exact (hfield budget _ _ h).bind fun _ _ => .refl _
    | cons first items =>
      exact (Upheld.refl _).bind fun _ _ => (ih hrest items).bind fun _ _ => .refl _

theorem ofItems_first (fields : Fields α) (budget : Nat)
    (hfirst : ∀ field ∈ fields.toList, field.2.read budget (.absent .malformed) = .error .malformed) :
    fields.ofItems budget (some .malformed) [.absent .malformed] =
      fields.ofItems budget (some .malformed) [] := by
  cases fields with
  | nil => rfl
  | cons field fields =>
    have hfield : field.read budget (.absent .malformed) = .error .malformed :=
      hfirst ⟨_, field⟩ List.mem_cons_self
    simp only [Fields.ofItems, hfield]
    rfl

theorem steady_record {fields : Fields α} (hfields : SteadyFields fields)
    (hfirst : ∀ field ∈ fields.toList, ∀ budget,
      field.2.read budget (.absent .malformed) = .error .malformed) : Steady (record fields) := by
  intro budget tree more h
  have hkind := upheld_wrongKind α h
  have hobject {members others : List (Quoted × Tree)} {fault other : Option Fault}
      (hr : Tree.Resumed (.object members fault) (.object others other)) :
      Upheld (record fields budget (.object members fault))
        (record fields budget (.object others other)) :=
    upheld_enter fun inner _ => upheld_members (sequential_foldlM (fields.skipMember inner) _)
      (fun _ _ _ value hr => (upheld_read hr).bind fun _ _ => .refl _)
      (fun slots key _ _ hr => upheld_skipMember hfields inner slots key hr) fields.finish hr
  cases h with
  | absent | brokenLiteral | null | bool => exact .inl rfl
  | brokenNumeral | numeral | string => exact hkind
  | items items more fault =>
    exact upheld_enter fun inner _ => upheld_ofItems_append fields inner items more fault
  | item items fault resumed =>
    exact upheld_enter fun inner _ => upheld_ofItems_last hfields inner fault items resumed
  | first =>
    exact upheld_enter fun inner _ =>
      .inr (ofItems_first fields inner fun field hf => hfirst field hf inner)
  | members members more fault => exact hobject (.members members more fault)
  | key members value fault resumed => exact hobject (.key members value fault resumed)
  | member members key fault resumed => exact hobject (.member members key fault resumed)

theorem steady_openRecord {fields : Fields α} (hfields : SteadyFields fields) :
    Steady (openRecord fields) := by
  intro budget tree more h
  have hkind := upheld_wrongKind (α × List (String × Json)) h
  have hobject {members others : List (Quoted × Tree)} {fault other : Option Fault}
      (hr : Tree.Resumed (.object members fault) (.object others other)) :
      Upheld (openRecord fields budget (.object members fault))
        (openRecord fields budget (.object others other)) :=
    upheld_enter fun inner _ => upheld_members (sequential_foldlM (fields.keepMember inner) _)
      (fun _ _ _ value hr => (upheld_read hr).bind fun _ _ => .refl _)
      (fun state key _ _ hr => upheld_keepMember hfields inner state key hr) _ hr
  cases h with
  | absent | brokenLiteral | null | bool => exact .inl rfl
  | brokenNumeral | numeral | string | items | item | first => exact hkind
  | members members more fault => exact hobject (.members members more fault)
  | key members value fault resumed => exact hobject (.key members value fault resumed)
  | member members key fault resumed => exact hobject (.member members key fault resumed)

theorem steady_members : Steady members := by
  intro budget tree more h
  have hkind := upheld_wrongKind (List (String × Json)) h
  have hobject {members others : List (Quoted × Tree)} {fault other : Option Fault}
      (hr : Tree.Resumed (.object members fault) (.object others other)) :
      Upheld (Reader.members budget (.object members fault))
        (Reader.members budget (.object others other)) := by
    simp only [Reader.members, valueMembers_eq_mapM]
    exact upheld_enter fun inner _ => (steady_value inner).entries Except.ok hr
  cases h with
  | absent | brokenLiteral | null | bool => exact .inl rfl
  | brokenNumeral | numeral | string | items | item | first => exact hkind
  | members members more fault => exact hobject (.members members more fault)
  | key members value fault resumed => exact hobject (.key members value fault resumed)
  | member members key fault resumed => exact hobject (.member members key fault resumed)

theorem steady_variant {variant : Variant α} (h : ∀ read, variant = .payload read → Steady read) :
    Steady variant.read := by
  cases variant with
  | payload read => exact h read rfl
  | unit a =>
    intro budget tree more hr
    have hkind := upheld_wrongKind α hr
    cases hr with
    | absent | brokenLiteral | null | bool => exact .inl rfl
    | brokenNumeral | numeral | string | items | item | members | key | member | first =>
      exact hkind

theorem steady_choice {variant? : String → Option (Variant α)}
    (hread : ∀ name read, variant? name = some (.payload read) → Steady read) :
    Steady (choice variant?) := by
  intro budget tree more h
  cases h with
  | absent => exact .inl rfl
  | brokenLiteral | null | bool | brokenNumeral | numeral | items | item | first => exact .refl _
  | string resumed => exact (upheld_read resumed).bind fun _ _ => .refl _
  | members members more fault =>
    refine upheld_enter fun inner _ => ?_
    match members with
    | [] => exact .inl rfl
    | [(key, value)] =>
      refine (Upheld.refl _).bind fun name _ => ?_
      dsimp only
      split
      · exact .refl _
      · exact (Upheld.refl _).bind fun _ _ => .inl rfl
    | _ :: _ :: _ => exact .refl _
  | key members value fault resumed =>
    refine upheld_enter fun inner _ => ?_
    match members with
    | [] => exact (upheld_read resumed).bind fun _ _ => .refl _
    | [_] | _ :: _ :: _ => exact .refl _
  | member members key fault resumed =>
    refine upheld_enter fun inner _ => ?_
    match members with
    | [] =>
      refine (Upheld.refl _).bind fun name _ => ?_
      cases hv : variant? name with
      | none => exact .refl _
      | some variant =>
        have hvariant : Steady variant.read :=
          steady_variant fun read hp => hread name read (hp ▸ hv)
        exact (hvariant inner _ _ resumed).bind fun _ _ => .refl _
    | [_] | _ :: _ :: _ => exact .refl _

/-- Where no value begins, that is what a reader stops at. -/
theorem Built.absent {read : Reader α} (h : Built read) (budget : Nat) :
    read budget (.absent .malformed) = .error .malformed := by
  induction h generalizing budget with
  | string | bool | word | refused | list | dict | choice | record => rfl
  | map f built ih => rw [Reader.map, ih]; rfl
  | optional built begun ih =>
    have hsome := congrArg (Except.map some) (ih budget)
    exact hsome
  | openRecord | members => rfl
  | diagonal read built ih => exact ih budget budget

theorem Built.steady {read : Reader α} (h : Built read) : Steady read := by
  induction h with
  | string => exact steady_string
  | bool => exact steady_bool
  | word => exact steady_word
  | refused => exact fun _ _ _ _ => .refl _
  | map f built ih => exact steady_map f ih
  | optional built begun ih => exact steady_optional ih begun
  | list built ih => exact steady_list ih built.absent
  | dict built ih => exact steady_dict ih
  | choice built ih => exact steady_choice ih
  | record built ih => exact steady_record ih fun field hf => (built field hf).absent
  | openRecord f built unordered ih => exact steady_map f (steady_openRecord ih)
  | members f unordered => exact steady_map f steady_members
  | diagonal read built ih => exact fun budget => ih budget budget

theorem Steady.continued {read : Reader α} (hread : Steady read) (budget : Nat) {tree more : Tree}
    (h : tree.Continued more) : Upheld (read budget tree) (read budget more) := by
  induction h with
  | refl => exact .refl _
  | tail _ hr ih => exact ih.trans (hread budget _ _ hr)

/-- A whole text is read steadily too: what comes after its value was refused before, or is not
there yet. -/
theorem Steady.scan {read : Reader α} (hread : Steady read) {scan more : Scan}
    (h : scan.Continued more) : Upheld (scan.read read) (more.read read) := by
  refine (hread.continued Scan.depthLimit h.tree).bind fun a _ => ?_
  rcases h.rest with hrest | ⟨hrest, hmore⟩
  · left
    rw [hrest]
    rfl
  · right
    rw [hrest, hmore]

end Reader

namespace Document

theorem ofBytes_toUTF8 (text : String) :
    ofBytes text.toUTF8.data.toList .ended = ofText text := by
  rw [ofBytes, Scan.ofBytes, Symbol.ofBytes_toUTF8, ofText, Scan.ofText]

/-- A stream that fails gives no document. -/
theorem ofBytes_failed (bytes : List UInt8) (document : Document) :
    ofBytes bytes .failed ≠ .ok document := by
  intro h
  obtain ⟨read, -, h⟩ := Outcome.bind_eq_ok.mp (Outcome.mapError_eq_ok.mp h)
  rcases (Scan.ofBytes_continued bytes [] .failed).rest with hrest | ⟨hrest, -⟩ <;>
    rw [hrest] at h <;> cases h

/-- An error that is not the failure of the stream is the error of all its continuations. -/
theorem ofBytes_append {bytes : List UInt8} {error : ModelError}
    (h : ofBytes bytes .failed = .error error) (he : error ≠ .json (.fault .interrupted))
    (more : List UInt8) (ending : Ending) : ofBytes (bytes ++ more) ending = .error error := by
  have hupheld := reader_built.steady.scan (Scan.ofBytes_continued bytes more ending)
  rcases hupheld with hinterrupted | hsame
  · rw [ofBytes, ofScan, hinterrupted] at h
    exact absurd (Except.error.inj h).symm he
  · rw [ofBytes, ofScan, hsame]
    exact h

/-- Text and streams agree. The bytes of a text in UTF-8 read as the text does. A stream that fails
after some bytes gives no document, and an error other than its failure is what every stream that
begins with these bytes gives, however it goes on and however it ends. -/
theorem stream_verdict :
    (∀ text : String, ofBytes text.toUTF8.data.toList .ended = ofText text) ∧
      ∀ bytes : List UInt8, (∀ document, ofBytes bytes .failed ≠ .ok document) ∧
        ∀ error, ofBytes bytes .failed = .error error → error ≠ .json (.fault .interrupted) →
          ∀ more ending, ofBytes (bytes ++ more) ending = .error error :=
  ⟨ofBytes_toUTF8, fun bytes => ⟨ofBytes_failed bytes, fun _ h he => ofBytes_append h he⟩⟩

/-- The bytes of `\x7b"title":true`, which is wrong whatever follows. -/
def wrongTitle : List UInt8 := [123, 34, 116, 105, 116, 108, 101, 34, 58, 116, 114, 117, 101]

theorem stream_verdict_wrongTitle :
    ofBytes wrongTitle .failed = .error (.json .invalidType) ∧
      ModelError.json .invalidType ≠ .json (.fault .interrupted) ∧
      ∀ more ending, ofBytes (wrongTitle ++ more) ending = .error (.json .invalidType) := by
  have hread : ofBytes wrongTitle .failed = .error (.json .invalidType) := rfl
  have hne : ModelError.json .invalidType ≠ .json (.fault .interrupted) := by decide
  exact ⟨hread, hne, (stream_verdict.2 wrongTitle).2 _ hread hne⟩

end Document
end EditScript
