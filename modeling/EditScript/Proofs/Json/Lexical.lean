import EditScript.Proofs.Json.Depth
import EditScript.Proofs.Json.Printed
import Mathlib.Tactic.SplitIfs

namespace EditScript

namespace Lexical

/-- Where a character of a text stands: outside strings, in one, or after a backslash in one. -/
inductive Place where
  | outside
  | inside
  | escaped
  deriving DecidableEq

/-- Where the character after this one stands. -/
def Place.next : Place → Char → Place
  | .outside, c => if c = '"' then .inside else .outside
  | .inside, c => if c = '"' then .outside else if c = '\\' then .escaped else .inside
  | .escaped, _ => .inside

/-- The brackets that are open after a character. -/
def count (place : Place) (opened : Nat) (c : Char) : Nat :=
  if place = .outside ∧ (c = '[' ∨ c = '\x7b') then opened+1
  else if place = .outside ∧ (c = ']' ∨ c = '\x7d') then opened-1
  else opened

/-- The most brackets that are open at once, from a place with some of them open. -/
def deepest (place : Place) (opened : Nat) : List Char → Nat
  | [] => opened
  | c :: text => max opened (deepest (place.next c) (count place opened c) text)

/-- How deep the brackets of a text nest. -/
def nesting (text : String) : Nat := deepest .outside 0 text.toList

def squeeze (place : Place) : List Char → List Char
  | [] => []
  | c :: text =>
      if place = .outside ∧ Scan.isBlank c then squeeze place text
      else c :: squeeze (place.next c) text

def withoutBlanks (text : String) : String := .ofList (squeeze .outside text.toList)

theorem le_deepest (place : Place) (opened : Nat) (text : List Char) :
    opened ≤ deepest place opened text := by
  cases text with
  | nil => exact Nat.le_refl opened
  | cons c text => exact Nat.le_max_left _ _

/-- The text stays in one string, up to an end that is in it. -/
def Enclosed : Place → List Char → Prop
  | place, [] => place = .inside
  | place, c :: text => place ≠ .outside ∧ Enclosed (place.next c) text

theorem deepest_enclosed {place : Place} {text : List Char} (h : Enclosed place text)
    (opened : Nat) (rest : List Char) :
    deepest place opened (text ++ rest) = deepest .inside opened rest := by
  induction text generalizing place with
  | nil => rw [List.nil_append, show place = .inside from h]
  | cons c text ih =>
    have hc : count place opened c = opened := by
      simp only [count, h.1, false_and, if_false]
    rw [List.cons_append, deepest, hc, ih h.2]
    exact Nat.max_eq_right (le_deepest _ _ _)

theorem squeeze_enclosed {place : Place} {text : List Char} (h : Enclosed place text)
    (rest : List Char) :
    squeeze place (text ++ rest) = text ++ squeeze .inside rest := by
  induction text generalizing place with
  | nil => rw [List.nil_append, List.nil_append, show place = .inside from h]
  | cons c text ih =>
    have hc : ¬(place = .outside ∧ Scan.isBlank c) := fun hc => h.1 hc.1
    rw [List.cons_append, squeeze, if_neg hc, ih h.2, List.cons_append]

theorem Enclosed.append {place : Place} {text more : List Char} (h : Enclosed place text)
    (hm : Enclosed .inside more) : Enclosed place (text ++ more) := by
  induction text generalizing place with
  | nil =>
    rw [show place = .inside from h]
    exact hm
  | cons c text ih => exact ⟨h.1, ih h.2⟩

theorem digitChar_ne : ∀ n < 16, Nat.digitChar n ≠ '"' ∧ Nat.digitChar n ≠ '\\' := by decide

theorem enclosed_escape (c : Char) : Enclosed .inside (Json.escape c) := by
  unfold Json.escape
  by_cases h : c.toNat < 32
  · have hhigh := digitChar_ne (c.toNat/16) (by omega)
    have hlow := digitChar_ne (c.toNat%16) (by omega)
    split_ifs <;> simp [Enclosed, Place.next, hhigh, hlow]
  · split_ifs <;> simp_all [Enclosed, Place.next]

theorem enclosed_escapes (text : List Char) : Enclosed .inside (text.flatMap Json.escape) := by
  induction text with
  | nil => rfl
  | cons c text ih =>
    rw [List.flatMap_cons]
    exact (enclosed_escape c).append ih

theorem deepest_quote (text : String) (opened : Nat) (rest : List Char) :
    deepest .outside opened (Json.quote text ++ rest) = deepest .outside opened rest := by
  have hc (place : Place) : count place opened '"' = opened := by
    cases place <;> rfl
  have hstart : Place.next .outside '"' = .inside := rfl
  have hend : Place.next .inside '"' = .outside := rfl
  have hle := le_deepest .outside opened rest
  rw [Json.quote, List.cons_append, List.append_assoc, deepest, hc, hstart,
    deepest_enclosed (enclosed_escapes _), List.cons_append, deepest, hc, hend, List.nil_append]
  omega

theorem squeeze_quote (text : String) (rest : List Char) :
    squeeze .outside (Json.quote text ++ rest) = Json.quote text ++ squeeze .outside rest := by
  have hend : squeeze .inside ('"' :: rest) = '"' :: squeeze .outside rest := rfl
  rw [Json.quote, List.cons_append, List.append_assoc]
  show '"' :: squeeze .inside (_ ++ ('"' :: rest)) = _
  rw [squeeze_enclosed (enclosed_escapes _), hend]
  simp

def Plain (text : List Char) : Prop :=
  ∀ c ∈ text, c ≠ '"' ∧ c ≠ '[' ∧ c ≠ '\x7b' ∧ c ≠ ']' ∧ c ≠ '\x7d'

instance (text : List Char) : Decidable (Plain text) :=
  inferInstanceAs (Decidable (∀ c ∈ text, _))

theorem deepest_plain {text : List Char} (h : Plain text) (opened : Nat) (rest : List Char) :
    deepest .outside opened (text ++ rest) = deepest .outside opened rest := by
  induction text with
  | nil => rfl
  | cons c text ih =>
    obtain ⟨hquote, h1, h2, h3, h4⟩ := h c List.mem_cons_self
    have hc : count .outside opened c = opened := by
      simp only [count, h1, h2, h3, h4, or_self, and_false, if_false]
    have hn : Place.next .outside c = .outside := if_neg hquote
    rw [List.cons_append, deepest, hc, hn, ih fun d hd => h d (List.mem_cons_of_mem _ hd)]
    exact Nat.max_eq_right (le_deepest _ _ _)

theorem plain_blank {text : List Char} (h : Scan.Blank text) : Plain text := by
  intro c hc
  have hb := h c hc
  simp only [Scan.isBlank, decide_eq_true_eq] at hb
  rcases hb with rfl | rfl | rfl | rfl <;> decide

theorem squeeze_blank {text : List Char} (h : Scan.Blank text) (rest : List Char) :
    squeeze .outside (text ++ rest) = squeeze .outside rest := by
  induction text with
  | nil => rfl
  | cons c text ih =>
    rw [List.cons_append, squeeze, if_pos ⟨rfl, h c List.mem_cons_self⟩]
    exact ih fun d hd => h d (List.mem_cons_of_mem _ hd)

theorem squeeze_plain {text : List Char} (h : Plain text) (hb : ∀ c ∈ text, Scan.isBlank c = false)
    (rest : List Char) :
    squeeze .outside (text ++ rest) = text ++ squeeze .outside rest := by
  induction text with
  | nil => rfl
  | cons c text ih =>
    have hc : ¬(Place.outside = .outside ∧ Scan.isBlank c) := by
      simp [hb c List.mem_cons_self]
    have hn : Place.next .outside c = .outside := if_neg (h c List.mem_cons_self).1
    rw [List.cons_append, squeeze, if_neg hc, hn,
      ih (fun d hd => h d (List.mem_cons_of_mem _ hd))
        (fun d hd => hb d (List.mem_cons_of_mem _ hd)), List.cons_append]

end Lexical

theorem Decimal.Valid.mem_text {d : Decimal} (h : d.Valid) {c : Char} (hc : c ∈ d.text) :
    c.isDigit ∨ c ∈ ['-', '+', '.', 'e'] := by
  obtain ⟨negative, whole, fraction, exponent⟩ := d
  simp only [Decimal.text, List.mem_append] at hc
  rcases hc with ((hc | hc) | hc) | hc
  · cases negative <;> simp_all
  · exact .inl (h.whole c hc)
  · cases fraction with
    | nil => simp at hc
    | cons first fraction =>
      rcases List.mem_cons.mp hc with rfl | hc
      · exact .inr (by decide)
      · exact .inl (h.fraction c hc)
  · cases exponent with
    | none => simp at hc
    | some exponent =>
      obtain ⟨sign, digits⟩ := exponent
      simp only [List.mem_cons] at hc
      rcases hc with rfl | rfl | hc
      · exact .inr (by decide)
      · cases sign <;> exact .inr (by decide)
      · exact .inl ((h.exponent (sign, digits) rfl).2 c hc)

/-- A number has neither quotes nor brackets nor blanks. -/
theorem Number.spell_plain (value : Number) :
    Lexical.Plain value.spell ∧ ∀ c ∈ value.spell, Scan.isBlank c = false := by
  obtain ⟨d, hd, htext, -⟩ := value.spell_spec
  suffices h : ∀ c ∈ value.spell, (c ≠ '"' ∧ c ≠ '[' ∧ c ≠ '\x7b' ∧ c ≠ ']' ∧ c ≠ '\x7d') ∧
      Scan.isBlank c = false from
    ⟨fun c hc => (h c hc).1, fun c hc => (h c hc).2⟩
  intro c hc
  rcases hd.mem_text (htext ▸ hc) with h | h
  · have ne {e : Char} (he : e.isDigit = false) : c ≠ e := Scan.ne_of_isDigit h he
    refine ⟨⟨ne rfl, ne rfl, ne rfl, ne rfl, ne rfl⟩, ?_⟩
    simp only [Scan.isBlank, decide_eq_false_iff_not, not_or]
    exact ⟨ne rfl, ne rfl, ne rfl, ne rfl⟩
  · simp only [List.mem_cons, List.not_mem_nil, or_false] at h
    rcases h with rfl | rfl | rfl | rfl <;> decide

namespace Lexical

open Json (Spacing spell spellItems spellMembers quote depth depthItems depthMembers)

variable {spacing : Spacing}

theorem deepest_open {c : Char} (hc : c = '[' ∨ c = '\x7b') (opened : Nat) (text : List Char) :
    deepest .outside opened (c :: text) = deepest .outside (opened+1) text := by
  have hle := le_deepest .outside (opened+1) text
  have hd : deepest .outside opened (c :: text) = max opened (deepest .outside (opened+1) text) := by
    rcases hc with rfl | rfl <;> rfl
  omega

theorem deepest_close {c : Char} (hc : c = ']' ∨ c = '\x7d') (opened : Nat) (text : List Char) :
    deepest .outside (opened+1) (c :: text) = max (opened+1) (deepest .outside opened text) := by
  rcases hc with rfl | rfl <;> rfl

theorem deepest_mark {c : Char} (hc : c = ',' ∨ c = ':') (opened : Nat) (text : List Char) :
    deepest .outside opened (c :: text) = deepest .outside opened text := by
  have hle := le_deepest .outside opened text
  have hd : deepest .outside opened (c :: text) = max opened (deepest .outside opened text) := by
    rcases hc with rfl | rfl <;> rfl
  omega

theorem deepest_key (hs : spacing.Blank) (level : Nat) (key : String) (opened : Nat)
    (text : List Char) :
    deepest .outside opened
        (spacing.gap level ++ quote key ++ ':' :: (spacing.afterColon ++ text)) =
      deepest .outside opened text := by
  rw [List.append_assoc, deepest_plain (plain_blank (hs.gap level)), deepest_quote,
    deepest_mark (.inr rfl), deepest_plain (plain_blank hs.afterColon)]

theorem deepest_end (hs : spacing.Blank) (level : Nat) {c : Char} (hc : c = ']' ∨ c = '\x7d')
    (opened : Nat) (text : List Char) :
    deepest .outside (opened+1) (spacing.gap level ++ c :: text) =
      max (opened+1) (deepest .outside opened text) := by
  rw [deepest_plain (plain_blank (hs.gap level)), deepest_close hc]

mutual

/-- A written value takes the brackets to its depth and closes them again. -/
theorem deepest_spell (hs : spacing.Blank) (level opened : Nat) (rest : List Char) :
    (value : Json) → deepest .outside opened (spell spacing level value ++ rest) =
      max (opened+depth value) (deepest .outside opened rest)
  | .null | .bool true | .bool false => by
    have hle := le_deepest .outside opened rest
    rw [spell, deepest_plain (by simp [Plain]), depth]
    omega
  | .number value => by
    have hle := le_deepest .outside opened rest
    rw [spell, deepest_plain value.spell_plain.1, depth]
    omega
  | .string value => by
    have hle := le_deepest .outside opened rest
    rw [spell, deepest_quote, depth]
    omega
  | .array [] => by
    rw [spell, List.cons_append, deepest_open (.inl rfl), List.cons_append, deepest_close (.inl rfl),
      depth, depthItems]
    rfl
  | .array (item :: items) => by
    have hassoc (gap first more close : List Char) :
        '[' :: (gap ++ first ++ more ++ close ++ [']']) ++ rest =
          '[' :: (gap ++ (first ++ (more ++ (close ++ ']' :: rest)))) := by
      simp
    rw [spell, hassoc, deepest_open (.inl rfl), deepest_plain (plain_blank (hs.gap _)),
      deepest_spell hs (level+1) (opened+1) _ item, deepest_spellItems hs (level+1) (opened+1) _ items,
      deepest_end hs level (.inl rfl), depth, depthItems]
    omega
  | .object [] => by
    rw [spell, List.cons_append, deepest_open (.inr rfl), List.cons_append, deepest_close (.inr rfl),
      depth, depthMembers]
    rfl
  | .object ((key, value) :: members) => by
    have hassoc (gap colon first more close : List Char) :
        '\x7b' :: (gap ++ quote key ++ ':' :: colon ++ first ++ more ++ close ++ ['\x7d']) ++ rest =
          '\x7b' :: (gap ++ quote key ++
            ':' :: (colon ++ (first ++ (more ++ (close ++ '\x7d' :: rest))))) := by
      simp
    rw [spell, hassoc, deepest_open (.inr rfl), deepest_key hs,
      deepest_spell hs (level+1) (opened+1) _ value,
      deepest_spellMembers hs (level+1) (opened+1) _ members, deepest_end hs level (.inr rfl), depth,
      depthMembers]
    omega

theorem deepest_spellItems (hs : spacing.Blank) (level opened : Nat) (rest : List Char) :
    (items : List Json) → deepest .outside opened (spellItems spacing level items ++ rest) =
      max (opened+depthItems items) (deepest .outside opened rest)
  | [] => by
    have hle := le_deepest .outside opened rest
    rw [spellItems, List.nil_append, depthItems]
    omega
  | item :: items => by
    rw [spellItems, List.cons_append, List.append_assoc, List.append_assoc, deepest_mark (.inl rfl),
      deepest_plain (plain_blank (hs.gap _)), deepest_spell hs level opened _ item,
      deepest_spellItems hs level opened _ items, depthItems]
    omega

theorem deepest_spellMembers (hs : spacing.Blank) (level opened : Nat) (rest : List Char) :
    (members : List (String × Json)) →
      deepest .outside opened (spellMembers spacing level members ++ rest) =
        max (opened+depthMembers members) (deepest .outside opened rest)
  | [] => by
    have hle := le_deepest .outside opened rest
    rw [spellMembers, List.nil_append, depthMembers]
    omega
  | (key, value) :: members => by
    have hassoc (gap colon first more : List Char) :
        ',' :: (gap ++ quote key ++ ':' :: colon ++ first ++ more) ++ rest =
          ',' :: (gap ++ quote key ++ ':' :: (colon ++ (first ++ (more ++ rest)))) := by
      simp
    rw [spellMembers, hassoc, deepest_mark (.inl rfl), deepest_key hs,
      deepest_spell hs level opened _ value, deepest_spellMembers hs level opened _ members,
      depthMembers]
    omega

end

/-- A value in any spacing nests as deep as its containers. -/
theorem nesting_spell (hs : spacing.Blank) (value : Json) :
    nesting (.ofList (spell spacing 0 value)) = depth value := by
  have h := deepest_spell hs 0 0 [] value
  rw [List.append_nil, deepest] at h
  rw [nesting, String.toList_ofList, h]
  omega

theorem nesting_compact (value : Json) : nesting value.compact = depth value :=
  nesting_spell Json.Spacing.blank_compact value

theorem nesting_pretty (value : Json) : nesting value.pretty = depth value :=
  nesting_spell Json.Spacing.blank_pretty value

theorem squeeze_cons {c : Char} (hb : Scan.isBlank c = false) (hq : c ≠ '"') (text : List Char) :
    squeeze .outside (c :: text) = c :: squeeze .outside text := by
  have hn : Place.next .outside c = .outside := if_neg hq
  rw [squeeze, hn, hb]
  exact if_neg fun h => absurd h.2 Bool.false_ne_true

theorem squeeze_key (hs : spacing.Blank) (level : Nat) (key : String) (text : List Char) :
    squeeze .outside (spacing.gap level ++ quote key ++ ':' :: (spacing.afterColon ++ text)) =
      quote key ++ ':' :: squeeze .outside text := by
  rw [List.append_assoc, squeeze_blank (hs.gap level), squeeze_quote,
    squeeze_cons rfl (by decide), squeeze_blank hs.afterColon]

mutual

/-- Without its blanks, a written value is the one that is written without blanks. -/
theorem squeeze_spell (hs : spacing.Blank) (level : Nat) (rest : List Char) : (value : Json) →
    squeeze .outside (spell spacing level value ++ rest) =
      spell .compact level value ++ squeeze .outside rest
  | .null | .bool true | .bool false => by
    simp only [spell, List.cons_append, List.nil_append]
    rfl
  | .number value => by
    rw [spell, spell, squeeze_plain value.spell_plain.1 value.spell_plain.2]
  | .string value => by
    rw [spell, spell, squeeze_quote]
  | .array [] => by
    simp only [spell, List.cons_append, List.nil_append]
    rfl
  | .array (item :: items) => by
    have hassoc (gap first more close rest : List Char) :
        '[' :: (gap ++ first ++ more ++ close ++ [']']) ++ rest =
          '[' :: (gap ++ (first ++ (more ++ (close ++ ']' :: rest)))) := by
      simp
    rw [spell, spell, hassoc, hassoc, squeeze_cons rfl (by decide), squeeze_blank (hs.gap _),
      squeeze_spell hs (level+1) _ item, squeeze_spellItems hs (level+1) _ items,
      squeeze_blank (hs.gap _), squeeze_cons rfl (by decide)]
    rfl
  | .object [] => by
    simp only [spell, List.cons_append, List.nil_append]
    rfl
  | .object ((key, value) :: members) => by
    have hassoc (gap colon first more close rest : List Char) :
        '\x7b' :: (gap ++ quote key ++ ':' :: colon ++ first ++ more ++ close ++ ['\x7d']) ++ rest =
          '\x7b' :: (gap ++ quote key ++
            ':' :: (colon ++ (first ++ (more ++ (close ++ '\x7d' :: rest))))) := by
      simp
    rw [spell, spell, hassoc, hassoc, squeeze_cons rfl (by decide), squeeze_key hs,
      squeeze_spell hs (level+1) _ value, squeeze_spellMembers hs (level+1) _ members,
      squeeze_blank (hs.gap _), squeeze_cons rfl (by decide)]
    rfl

theorem squeeze_spellItems (hs : spacing.Blank) (level : Nat) (rest : List Char) :
    (items : List Json) → squeeze .outside (spellItems spacing level items ++ rest) =
      spellItems .compact level items ++ squeeze .outside rest
  | [] => rfl
  | item :: items => by
    have hassoc (gap first more rest : List Char) :
        ',' :: (gap ++ first ++ more) ++ rest = ',' :: (gap ++ (first ++ (more ++ rest))) := by
      simp
    rw [spellItems, spellItems, hassoc, hassoc, squeeze_cons rfl (by decide),
      squeeze_blank (hs.gap _), squeeze_spell hs level _ item, squeeze_spellItems hs level _ items]
    rfl

theorem squeeze_spellMembers (hs : spacing.Blank) (level : Nat) (rest : List Char) :
    (members : List (String × Json)) →
      squeeze .outside (spellMembers spacing level members ++ rest) =
        spellMembers .compact level members ++ squeeze .outside rest
  | [] => rfl
  | (key, value) :: members => by
    have hassoc (gap colon first more rest : List Char) :
        ',' :: (gap ++ quote key ++ ':' :: colon ++ first ++ more) ++ rest =
          ',' :: (gap ++ quote key ++ ':' :: (colon ++ (first ++ (more ++ rest)))) := by
      simp
    rw [spellMembers, spellMembers, hassoc, hassoc, squeeze_cons rfl (by decide), squeeze_key hs,
      squeeze_spell hs level _ value, squeeze_spellMembers hs level _ members]
    rfl

end

/-- The two written forms differ only in blanks. -/
theorem withoutBlanks_pretty (value : Json) : withoutBlanks value.pretty = value.compact := by
  have h := squeeze_spell Json.Spacing.blank_pretty 0 [] value
  rw [List.append_nil, squeeze, List.append_nil] at h
  rw [withoutBlanks, Json.pretty, String.toList_ofList, h, Json.compact]

end Lexical
end EditScript
