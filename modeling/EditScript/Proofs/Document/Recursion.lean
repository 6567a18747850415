import EditScript.Document.Reader
import EditScript.Proofs.Outcome

namespace EditScript

namespace Outcome
variable {ε α β γ : Type} {f : β → α → Except ε β} {g : γ → α → Except ε γ} {φ : β → γ}

/-- Steps that lead from corresponding states to corresponding ones. -/
theorem foldlM_correspond (h : ∀ b a, g (φ b) a = (f b a).map φ) (as : List α) (b : β) :
    as.foldlM g (φ b) = (as.foldlM f b).map φ := by
  induction as generalizing b with
  | nil => rfl
  | cons a as ih =>
    rw [List.foldlM_cons, List.foldlM_cons, h]
    cases f b a with
    | error e => rfl
    | ok next => exact ih next

end Outcome

namespace Fields
variable {α β : Type} {budget : Nat}

/-- Two descriptions of a record that read alike with these brackets left, with the slots of the one
as slots of the other. -/
structure Matching (budget : Nat) (fields others : Fields α) where
  slots : Slots fields → Slots others
  blank : slots fields.blank = others.blank
  finish : ∀ met, others.finish (slots met) = fields.finish met
  fill : ∀ name met,
    (fill? name fields met = none ∧ fill? name others (slots met) = none) ∨
    ∃ read other, fill? name fields met = some read ∧ fill? name others (slots met) = some other ∧
      ∀ tree, other budget tree = (read budget tree).map slots
  ofItems : ∀ fault items, others.ofItems budget fault items = fields.ofItems budget fault items

def Matching.nil : Matching budget .nil .nil where
  slots := id
  blank := rfl
  finish := fun _ => rfl
  fill := fun _ _ => .inl ⟨rfl, rfl⟩
  ofItems := fun _ items => by cases items <;> rfl

def Matching.cons {fields others : Fields β} {name : String} {read other : Reader α}
    {absent : Option α} (h : read budget = other budget) (rest : Matching budget fields others) :
    Matching budget (.cons ⟨name, read, absent⟩ fields) (.cons ⟨name, other, absent⟩ others) where
  slots := fun met => (met.1, rest.slots met.2)
  blank := congrArg (none, ·) rest.blank
  finish := by
    intro met
    simp only [Fields.finish, rest.finish]
  fill := by
    intro given met
    simp only [fill?]
    by_cases hname : given = name
    · refine .inr ⟨_, _, if_pos hname, if_pos hname, fun tree => ?_⟩
      rw [← h]
      cases met.1 with
      | some a => rfl
      | none => cases read budget tree <;> rfl
    · -- The member is for a field behind, or for none.
      rw [if_neg hname, if_neg hname]
      rcases rest.fill given met.2 with ⟨hnone, hother⟩ | ⟨inner, outer, hinner, houter, hread⟩
      · exact .inl ⟨by rw [hnone]; rfl, by rw [hother]; rfl⟩
      · refine .inr ⟨_, _, by rw [hinner]; rfl, by rw [houter]; rfl, fun tree => ?_⟩
        simp only [Reader.map, hread]
        cases inner budget tree <;> rfl
  ofItems := by
    intro fault items
    cases items with
    | nil => simp only [Fields.ofItems, rest.ofItems]
    | cons item items => simp only [Fields.ofItems, h, rest.ofItems]

variable {fields others : Fields α}

theorem Matching.skipMember (h : Matching budget fields others) (met : Slots fields)
    (member : Quoted × Tree) :
    others.skipMember budget (h.slots met) member =
      (fields.skipMember budget met member).map h.slots := by
  rw [Fields.skipMember, Fields.skipMember]
  cases member.1.read with
  | error e => rfl
  | ok name =>
    simp only [Outcome.ok_bind]
    rcases h.fill name met with ⟨hnone, hother⟩ | ⟨inner, outer, hinner, houter, hread⟩
    · rw [hnone, hother]
      cases member.2.fault? <;> rfl
    · simp only [hinner, houter, hread]

theorem Matching.keepMember (h : Matching budget fields others)
    (state : Slots fields × List (String × Json)) (member : Quoted × Tree) :
    others.keepMember budget (h.slots state.1, state.2) member =
      (fields.keepMember budget state member).map fun next => (h.slots next.1, next.2) := by
  rw [Fields.keepMember, Fields.keepMember]
  cases member.1.read with
  | error e => rfl
  | ok name =>
    simp only [Outcome.ok_bind]
    rcases h.fill name state.1 with ⟨hnone, hother⟩ | ⟨inner, outer, hinner, houter, hread⟩
    · rw [hnone, hother]
      cases Reader.value budget member.2 <;> rfl
    · simp only [hinner, houter, hread]
      cases inner budget member.2 <;> rfl

end Fields

namespace Reader
variable {α β : Type} {limit : Nat}

def AlikeBelow (limit : Nat) (read other : Reader α) : Prop :=
  ∀ budget, budget < limit → read budget = other budget

section
variable {read other : Reader α}

theorem AlikeBelow.map (f : α → β) (h : AlikeBelow limit read other) :
    AlikeBelow limit (.map f read) (.map f other) := by
  intro budget hb
  funext tree
  rw [Reader.map, Reader.map, h budget hb]

theorem AlikeBelow.optional (h : AlikeBelow limit read other) :
    AlikeBelow limit (.optional read) (.optional other) := by
  intro budget hb
  funext tree
  cases tree <;> simp only [Reader.optional, h budget hb]

/-- Inside a bracket there is one bracket less, and none may be opened with none left. -/
theorem AlikeBelow.list (h : AlikeBelow limit read other) :
    AlikeBelow (limit+1) (.list read) (.list other) := by
  intro budget hb
  funext tree
  cases budget with
  | zero => cases tree <;> rfl
  | succ budget =>
    have hinner := h budget (Nat.lt_of_succ_lt_succ hb)
    cases tree <;> simp only [Reader.list, enter, hinner]

end

section
variable {fields others : Fields α}

theorem alikeBelow_record
    (h : ∀ budget, budget < limit → Fields.Matching budget fields others) :
    AlikeBelow (limit+1) (.record fields) (.record others) := by
  intro budget hb
  funext tree
  cases budget with
  | zero => cases tree <;> rfl
  | succ budget =>
    have hm := h budget (Nat.lt_of_succ_lt_succ hb)
    cases tree with
    | object members fault =>
      have hmembers := Outcome.foldlM_correspond hm.skipMember members fields.blank
      rw [hm.blank] at hmembers
      simp only [record, enter, hmembers]
      cases members.foldlM (fields.skipMember budget) fields.blank with
      | error e => rfl
      | ok met => simp only [Outcome.map_ok, Outcome.ok_bind, hm.finish]
    | array items fault => exact (hm.ofItems fault items).symm
    | _ => rfl

theorem alikeBelow_openRecord
    (h : ∀ budget, budget < limit → Fields.Matching budget fields others) :
    AlikeBelow (limit+1) (.openRecord fields) (.openRecord others) := by
  intro budget hb
  funext tree
  cases budget with
  | zero => cases tree <;> rfl
  | succ budget =>
    have hm := h budget (Nat.lt_of_succ_lt_succ hb)
    cases tree with
    | object members fault =>
      have hmembers := Outcome.foldlM_correspond hm.keepMember members (fields.blank, [])
      rw [hm.blank] at hmembers
      simp only [openRecord, enter, hmembers]
      cases members.foldlM (fields.keepMember budget) (fields.blank, []) with
      | error e => rfl
      | ok next => simp only [Outcome.map_ok, Outcome.ok_bind, hm.finish]
    | _ => rfl

end

end Reader

open Reader

theorem Table.reader_alikeBelow {β : Type} {limit : Nat} {read other : Reader β}
    (h : AlikeBelow limit read other) :
    AlikeBelow (limit+6) (Table.reader read) (Table.reader other) := by
  have hcell : AlikeBelow (limit+2) (cellReader read) (cellReader other) :=
    .map _ (alikeBelow_record fun budget hb => .cons (h.list budget hb) .nil)
  have hrow : AlikeBelow (limit+4) (rowReader read) (rowReader other) :=
    .map _ (alikeBelow_record fun budget hb => .cons (hcell.list budget hb) .nil)
  exact .map _ (alikeBelow_record fun budget hb =>
    .cons rfl (.cons rfl (.cons (hrow.list budget hb) .nil)))

namespace Block

theorem readerOver_alikeBelow {limit : Nat} {read other : Reader Block}
    (h : AlikeBelow limit read other) :
    AlikeBelow (limit+7) (readerOver read) (readerOver other) :=
  .map _ (alikeBelow_openRecord fun budget hb =>
    .cons rfl (.cons ((Table.reader_alikeBelow h).optional budget hb) .nil))

/-- More tables than brackets make no difference. -/
theorem readerWithin_alike {depth more budget : Nat} (hd : budget < depth) (hm : budget < more) :
    readerWithin depth budget = readerWithin more budget := by
  -- A table takes brackets from the budget, so this runs out before either depth does.
  induction depth generalizing more budget with
  | zero => exact absurd hd (Nat.not_lt_zero budget)
  | succ depth ih =>
    cases more with
    | zero => exact absurd hm (Nat.not_lt_zero budget)
    | succ more =>
      have halike : AlikeBelow budget (readerWithin depth) (readerWithin more) :=
        fun fewer hf => ih (by omega) (by omega)
      exact readerOver_alikeBelow halike budget (by omega)

theorem reader_eq : reader = readerOver reader := by
  funext budget
  have halike : AlikeBelow budget (readerWithin budget) reader :=
    fun fewer hf => readerWithin_alike hf (Nat.lt_succ_self fewer)
  exact readerOver_alikeBelow halike budget (by omega)

end Block
end EditScript
