import EditScript.Proofs.Json.Grammar
import EditScript.Proofs.Json.Numbers

namespace EditScript

namespace Json

mutual

/-- The tree of a value as it is written: its structure, each number as some numeral that means it. -/
def Stands : Json → Tree → Prop
  | .null, tree => tree = .null
  | .bool value, tree => tree = .bool value
  | .number value, tree => ∃ n : Numeral, tree = .numeral n ∧ n.number? = some value
  | .string value, tree => tree = .string (.ofText value)
  | .array items, tree => ∃ trees, tree = .array trees none ∧ StandsItems items trees
  | .object members, tree => ∃ trees, tree = .object trees none ∧ StandsMembers members trees

def StandsItems : List Json → List Tree → Prop
  | [], trees => trees = []
  | item :: items, trees => ∃ tree more, trees = tree :: more ∧ Stands item tree ∧
      StandsItems items more

def StandsMembers : List (String × Json) → List (Quoted × Tree) → Prop
  | [], trees => trees = []
  | (key, value) :: members, trees => ∃ tree more, trees = (.ofText key, tree) :: more ∧
      Stands value tree ∧ StandsMembers members more

end

mutual

theorem stands_toTree : (value : Json) → Stands value value.toTree
  | .null | .bool _ | .string _ => rfl
  | .number value => ⟨value.numeral, rfl, value.number?_numeral⟩
  | .array items => ⟨itemTrees items, rfl, stands_itemTrees items⟩
  | .object members => ⟨memberTrees members, rfl, stands_memberTrees members⟩

theorem stands_itemTrees : (items : List Json) → StandsItems items (itemTrees items)
  | [] => rfl
  | item :: items => ⟨item.toTree, itemTrees items, rfl, stands_toTree item, stands_itemTrees items⟩

theorem stands_memberTrees :
    (members : List (String × Json)) → StandsMembers members (memberTrees members)
  | [] => rfl
  | (_, value) :: members =>
    ⟨value.toTree, memberTrees members, rfl, stands_toTree value, stands_memberTrees members⟩

end

/-- Nothing but blanks between the tokens. -/
structure Spacing.Blank (spacing : Spacing) : Prop where
  gap : ∀ depth, Scan.Blank (spacing.gap depth)
  afterColon : Scan.Blank spacing.afterColon

theorem Spacing.blank_compact : Spacing.compact.Blank :=
  ⟨fun _ _ h => absurd h List.not_mem_nil, fun _ h => absurd h List.not_mem_nil⟩

theorem Spacing.blank_pretty : Spacing.pretty.Blank := by
  constructor
  · intro depth c hc
    rcases List.mem_cons.mp hc with rfl | hc
    · rfl
    · rw [List.eq_of_mem_replicate hc]
      rfl
  · intro c hc
    rw [List.mem_singleton.mp hc]
    rfl

end Json

namespace Grammar

open Json (Spacing spell spellItems spellMembers quote Stands StandsItems StandsMembers)
open Scan (Blank)

theorem derives_number (value : Number) :
    ∃ n : Numeral, n.number? = some value ∧ Derives (.value (.numeral n)) value.spell := by
  obtain ⟨d, hd, htext, hn⟩ := value.spell_spec
  obtain ⟨exponent, he, hspelled⟩ := d.text_spelled
  refine ⟨d.numeral, hn, ?_⟩
  rw [← htext, hspelled]
  exact .numeral (.mk hd he)

theorem derives_quote {blank : List Char} (hb : Blank blank) (key : String) :
    Derives (.key (.ofText key)) (blank ++ quote key) := by
  have h := Derives.key hb (Quoted.spelled_quote key) blank_nil
  rwa [List.append_nil] at h

variable {spacing : Spacing}

mutual

/-- A written value is grammatical, and its tree stands for it. -/
theorem derives_spell (hs : spacing.Blank) (depth : Nat) : (value : Json) →
    ∃ tree, Stands value tree ∧ Derives (.value tree) (spell spacing depth value)
  | .null => ⟨.null, rfl, .null⟩
  | .bool true => ⟨.bool true, rfl, .true⟩
  | .bool false => ⟨.bool false, rfl, .false⟩
  | .number value => by
    obtain ⟨n, hn, h⟩ := derives_number value
    exact ⟨.numeral n, ⟨n, rfl, hn⟩, h⟩
  | .string value => ⟨.string (.ofText value), rfl, .string (Quoted.spelled_quote value)⟩
  | .array [] => ⟨.array [] none, ⟨[], rfl, rfl⟩, .emptyArray blank_nil⟩
  | .array (item :: items) => by
    obtain ⟨tree, htree, hitem⟩ := derives_spell hs (depth+1) item
    obtain ⟨more, hmore, hitems⟩ := derives_spellItems hs (depth+1) items
    refine ⟨.array (tree :: more) none, ⟨_, rfl, tree, more, rfl, htree, hmore⟩, ?_⟩
    have hfirst := Derives.firstItem (hitem.after (hs.gap (depth+1)))
    rw [spell]
    exact .array ((hitems [tree] _ hfirst).items_blank (hs.gap depth))
  | .object [] => ⟨.object [] none, ⟨[], rfl, rfl⟩, .emptyObject blank_nil⟩
  | .object ((key, value) :: members) => by
    obtain ⟨tree, htree, hvalue⟩ := derives_spell hs (depth+1) value
    obtain ⟨more, hmore, hmembers⟩ := derives_spellMembers hs (depth+1) members
    refine ⟨.object ((.ofText key, tree) :: more) none, ⟨_, rfl, tree, more, rfl, htree, hmore⟩, ?_⟩
    have hfirst := Derives.firstMember (derives_quote (hs.gap (depth+1)) key)
      (hvalue.after hs.afterColon)
    have h := (hmembers [(.ofText key, tree)] _ hfirst).members_blank (hs.gap depth)
    rw [spell]
    simpa using Derives.object h

theorem derives_spellItems (hs : spacing.Blank) (depth : Nat) : (items : List Json) →
    ∃ trees, StandsItems items trees ∧ ∀ done text, Derives (.items done) text →
      Derives (.items (done ++ trees)) (text ++ spellItems spacing depth items)
  | [] => ⟨[], rfl, fun done text h => by simpa [spellItems] using h⟩
  | item :: items => by
    obtain ⟨first, hfirst, hitem⟩ := derives_spell hs depth item
    obtain ⟨more, hmore, hitems⟩ := derives_spellItems hs depth items
    refine ⟨first :: more, ⟨first, more, rfl, hfirst, hmore⟩, ?_⟩
    intro done text h
    have hnext := hitems _ _ (.nextItem h (hitem.after (hs.gap depth)))
    simpa [spellItems] using hnext

theorem derives_spellMembers (hs : spacing.Blank) (depth : Nat) :
    (members : List (String × Json)) →
    ∃ trees, StandsMembers members trees ∧ ∀ done text, Derives (.members done) text →
      Derives (.members (done ++ trees)) (text ++ spellMembers spacing depth members)
  | [] => ⟨[], rfl, fun done text h => by simpa [spellMembers] using h⟩
  | (key, value) :: members => by
    obtain ⟨first, hfirst, hvalue⟩ := derives_spell hs depth value
    obtain ⟨more, hmore, hmembers⟩ := derives_spellMembers hs depth members
    refine ⟨(.ofText key, first) :: more, ⟨first, more, rfl, hfirst, hmore⟩, ?_⟩
    intro done text h
    have hnext := hmembers _ _ (.nextMember h (derives_quote (hs.gap depth) key)
      (hvalue.after hs.afterColon))
    simpa [spellMembers] using hnext

end

end Grammar

namespace Scan

open Json (Spacing spell Stands)

variable {spacing : Spacing}

/-- A value in any spacing is a whole text, and its tree stands for the value. -/
theorem ofText_spell (hs : spacing.Blank) (value : Json) :
    ∃ tree, Stands value tree ∧ ofText (.ofList (spell spacing 0 value)) = ⟨tree, none⟩ := by
  obtain ⟨tree, htree, h⟩ := Grammar.derives_spell hs 0 value
  refine ⟨tree, htree, ofText_grammatical ?_⟩
  have he := h.after Grammar.blank_nil
  simpa [Grammar.Grammatical] using he

end Scan
end EditScript
