import EditScript.Document.Reader
import EditScript.Options
import EditScript.Proofs.Json.Reads
import EditScript.Proofs.Json.Reordering

namespace EditScript

def Fields.toList : {α : Type} → Fields α → List (Σ γ : Type, Field γ)
  | _, .nil => []
  | _, .cons field fields => ⟨_, field⟩ :: toList fields

namespace Reader

theorem valueItems_eq_mapM (budget : Nat) (items : List Tree) :
    valueItems budget items = items.mapM (value budget) := by
  induction items with
  | nil => rfl
  | cons item items ih =>
    rw [valueItems, List.mapM_cons, ih]

theorem valueMembers_eq_mapM (budget : Nat) (members : List (Quoted × Tree)) :
    valueMembers budget members = members.mapM (entry value budget) := by
  induction members with
  | nil => rfl
  | cons member members ih =>
    rw [valueMembers, List.mapM_cons, ih]
    simp only [entry, bind_assoc, pure_bind]

theorem value_array (budget : Nat) (items : List Tree) (fault : Option Fault) :
    value budget (.array items fault) =
      enter (fun budget => do
        let values ← items.mapM (value budget)
        proceed fault
        return .array values) budget := by
  cases budget with
  | zero => rfl
  | succ budget =>
    rw [value, valueItems_eq_mapM]
    rfl

theorem value_object (budget : Nat) (members : List (Quoted × Tree)) (fault : Option Fault) :
    value budget (.object members fault) =
      enter (fun budget => do
        let entries ← members.mapM (Reader.entry value budget)
        proceed fault
        return .object entries) budget := by
  cases budget with
  | zero => rfl
  | succ budget =>
    rw [value, valueMembers_eq_mapM]
    rfl

/-- Readers put together from those of scalars, by way of lists, maps, records and choices. -/
inductive Built : {α : Type} → Reader α → Prop where
  | string : Built Reader.string
  | bool : Built Reader.bool
  | word : Built Reader.word
  | refused {α : Type} : Built (fun _ _ => .error .malformed : Reader α)
  | map {α β : Type} (f : α → β) {read : Reader α} (built : Built read) : Built (.map f read)
  /-- A value that has hardly begun may be a null, so its fault comes before its kind. -/
  | optional {α : Type} {read : Reader α} (built : Built read)
      (begun : ∀ budget fault, read budget (.absent fault) = .error (.fault fault) ∧
        read budget (.brokenLiteral fault) = .error (.fault fault)) :
      Built (.optional read)
  | list {α : Type} {read : Reader α} (built : Built read) : Built (.list read)
  | dict {α : Type} {read : Reader α} (built : Built read) : Built (.dict read)
  | choice {α : Type} {variant? : String → Option (Variant α)}
      (built : ∀ name read, variant? name = some (.payload read) → Built read) :
      Built (.choice variant?)
  | record {α : Type} {fields : Fields α}
      (built : ∀ field ∈ fields.toList, Built field.2.read) :
      Built (.record fields)
  /-- What becomes of unknown members does not depend on the order of members. -/
  | openRecord {α β : Type} (f : α × List (String × Json) → β) {fields : Fields α}
      (built : ∀ field ∈ fields.toList, Built field.2.read)
      (unordered : ∀ a {members others : List (String × Json)},
        Json.Reordered (.object members) (.object others) → f (a, members) = f (a, others)) :
      Built (.map f (.openRecord fields))
  | members {β : Type} (f : List (String × Json) → β)
      (unordered : ∀ {members others : List (String × Json)},
        Json.Reordered (.object members) (.object others) → f members = f others) :
      Built (.map f .members)
  | diagonal {α : Type} (read : Nat → Reader α) (built : ∀ depth, Built (read depth)) :
      Built (fun budget => read budget budget)

theorem Built.index : Built Reader.index := .map _ .word

def BuiltFields {α : Type} (fields : Fields α) : Prop := ∀ field ∈ fields.toList, Built field.2.read

theorem BuiltFields.nil : BuiltFields .nil := fun _ h => absurd h List.not_mem_nil

theorem BuiltFields.cons {α β : Type} {field : Field α} {fields : Fields β}
    (h : Built field.read) (hs : BuiltFields fields) : BuiltFields (.cons field fields) :=
  List.forall_mem_cons.mpr ⟨h, hs⟩

end Reader

open Reader

theorem Style.reader_built : Built Style.reader := by
  refine .members _ fun h => Style.ext ?_
  have hcanonical := h.canonical_eq
  rw [Json.canonical, Json.canonical, Json.object.injEq] at hcanonical
  exact hcanonical

theorem TextRun.reader_built : Built TextRun.reader :=
  .map _ (.record (BuiltFields.cons .string (.cons Style.reader_built .nil)))

namespace Element

theorem kind_reordered {members others : List (String × Json)}
    (h : Json.Reordered (.object members) (.object others)) : kind members = kind others := by
  have hcanonical := h.canonical_eq
  rw [Json.canonical, Json.canonical, Json.object.injEq] at hcanonical
  rw [kind, kind, Json.keys_sort members, Json.keys_sort others, hcanonical]

theorem reader_built {α β γ : Type} {first second : String} {readFirst : Reader α}
    {readSecond : Reader β} (ofFirst : α → γ) (ofSecond : β → γ) (unknown : String → γ)
    (hf : Built (.optional readFirst)) (hs : Built (.optional readSecond)) :
    Built (reader first readFirst second readSecond ofFirst ofSecond unknown) := by
  refine .openRecord _ (BuiltFields.cons hf (.cons hs .nil)) ?_
  rintro ⟨a, b, ⟨⟩⟩ members others h
  cases a with
  | some a => rfl
  | none =>
    cases b with
    | some b => rfl
    | none => exact congrArg unknown (kind_reordered h)

end Element

theorem Inline.reader_built : Built Inline.reader :=
  Element.reader_built _ _ _ (.optional TextRun.reader_built fun _ _ => ⟨rfl, rfl⟩)
    (.optional (.map _ (.record (BuiltFields.cons .string .nil))) fun _ _ => ⟨rfl, rfl⟩)

theorem Paragraph.reader_built : Built Paragraph.reader :=
  .map _ (.record (BuiltFields.cons (.list Inline.reader_built) (.cons Style.reader_built .nil)))

theorem Table.reader_built {β : Type} {read : Reader β} (h : Built read) :
    Built (Table.reader read) := by
  have hcell : Built (cellReader read) := .map _ (.record (BuiltFields.cons (.list h) .nil))
  have hrow : Built (rowReader read) := .map _ (.record (BuiltFields.cons (.list hcell) .nil))
  exact .map _ (.record (BuiltFields.cons .word (.cons .word (.cons (.list hrow) .nil))))

namespace Block

theorem readerWithin_built : (depth : Nat) → Built (readerWithin depth)
  | 0 => .refused
  | depth+1 => Element.reader_built _ _ _ (.optional Paragraph.reader_built fun _ _ => ⟨rfl, rfl⟩)
      (.optional (Table.reader_built (readerWithin_built depth)) fun _ _ => ⟨rfl, rfl⟩)

theorem reader_built : Built Block.reader :=
  .diagonal (fun depth => readerWithin (depth+1)) fun depth => readerWithin_built (depth+1)

end Block

theorem InlineObject.reader_built : Built InlineObject.reader := by
  have himage : Built Image.reader :=
    .map _ (.record (BuiltFields.cons (.optional .string fun _ _ => ⟨rfl, rfl⟩)
      (.cons (.optional .string fun _ _ => ⟨rfl, rfl⟩) .nil)))
  have hembedded : Built Embedded.reader :=
    .map _ (.record (BuiltFields.cons (.optional .string fun _ _ => ⟨rfl, rfl⟩)
      (.cons (.optional .string fun _ _ => ⟨rfl, rfl⟩)
        (.cons (.optional himage fun _ _ => ⟨rfl, rfl⟩) .nil))))
  have hproperties : Built propertiesReader :=
    .map _ (.record (BuiltFields.cons hembedded .nil))
  exact .map _ (.record (BuiltFields.cons (.optional .string fun _ _ => ⟨rfl, rfl⟩)
    (.cons hproperties .nil)))

theorem Document.reader_built : Built Document.reader := by
  have hbody : Built bodyReader :=
    .map _ (.record (BuiltFields.cons (.list Block.reader_built) .nil))
  exact .map _ (.record (BuiltFields.cons (.optional .string fun _ _ => ⟨rfl, rfl⟩)
    (.cons (.optional .string fun _ _ => ⟨rfl, rfl⟩)
      (.cons hbody (.cons (.dict InlineObject.reader_built) .nil)))))

theorem Options.reader_built : Built Options.reader := by
  have hunit : Built LengthUnit.reader := by
    refine .choice fun name read h => ?_
    split at h
    · cases h
    · split at h
      · cases h
      · cases h
  exact .map _ (.record (BuiltFields.cons .word (.cons hunit (.cons .bool .nil))))

end EditScript
