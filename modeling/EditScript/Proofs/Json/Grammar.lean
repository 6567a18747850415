import EditScript.Proofs.Json.Numerals
import EditScript.Proofs.Json.Strings

namespace EditScript

namespace Tree

theorem itemsFault?_append (items more : List Tree) :
    itemsFault? (items ++ more) = (itemsFault? items).or (itemsFault? more) := by
  induction items with
  | nil => rfl
  | cons item items ih => rw [List.cons_append, itemsFault?, itemsFault?, ih, Option.or_assoc]

theorem membersFault?_append (members more : List (Quoted × Tree)) :
    membersFault? (members ++ more) = (membersFault? members).or (membersFault? more) := by
  induction members with
  | nil => rfl
  | cons member members ih =>
    rw [List.cons_append, membersFault?, membersFault?, ih, Option.or_assoc, Option.or_assoc]

end Tree

namespace Grammar

open Scan (Blank)

/-- The phrases of the grammar: a value, a value or a key between blanks, and the items and members
of a container that has some. -/
inductive Phrase where
  | value (tree : Tree)
  | element (tree : Tree)
  | key (key : Quoted)
  | items (items : List Tree)
  | members (members : List (Quoted × Tree))

/-- The texts of a phrase. -/
inductive Derives : Phrase → List Char → Prop where
  | null : Derives (.value .null) ['n', 'u', 'l', 'l']
  | true : Derives (.value (.bool true)) ['t', 'r', 'u', 'e']
  | false : Derives (.value (.bool false)) ['f', 'a', 'l', 's', 'e']
  | numeral {n : Numeral} {text : List Char} (h : n.Spelled text) : Derives (.value (.numeral n)) text
  | string {quoted : Quoted} {text : List Char} (h : quoted.Spelled text) :
      Derives (.value (.string quoted)) text
  | emptyArray {blank : List Char} (hb : Blank blank) :
      Derives (.value (.array [] none)) ('[' :: (blank ++ [']']))
  | array {items : List Tree} {text : List Char} (h : Derives (.items items) text) :
      Derives (.value (.array items none)) ('[' :: (text ++ [']']))
  | emptyObject {blank : List Char} (hb : Blank blank) :
      Derives (.value (.object [] none)) ('\x7b' :: (blank ++ ['\x7d']))
  | object {members : List (Quoted × Tree)} {text : List Char} (h : Derives (.members members) text) :
      Derives (.value (.object members none)) ('\x7b' :: (text ++ ['\x7d']))
  | element {before text after : List Char} {tree : Tree} (hb : Blank before)
      (h : Derives (.value tree) text) (ha : Blank after) :
      Derives (.element tree) (before ++ text ++ after)
  | key {before text after : List Char} {key : Quoted} (hb : Blank before) (h : key.Spelled text)
      (ha : Blank after) : Derives (.key key) (before ++ text ++ after)
  | firstItem {tree : Tree} {text : List Char} (h : Derives (.element tree) text) :
      Derives (.items [tree]) text
  | nextItem {items : List Tree} {tree : Tree} {text more : List Char}
      (h : Derives (.items items) text) (next : Derives (.element tree) more) :
      Derives (.items (items ++ [tree])) (text ++ ',' :: more)
  | firstMember {key : Quoted} {tree : Tree} {name text : List Char} (hk : Derives (.key key) name)
      (h : Derives (.element tree) text) : Derives (.members [(key, tree)]) (name ++ ':' :: text)
  | nextMember {members : List (Quoted × Tree)} {key : Quoted} {tree : Tree}
      {text name more : List Char} (h : Derives (.members members) text)
      (hk : Derives (.key key) name) (next : Derives (.element tree) more) :
      Derives (.members (members ++ [(key, tree)])) (text ++ ',' :: (name ++ ':' :: more))

section
variable {text blank : List Char}

theorem blank_nil : Blank [] := fun _ h => absurd h List.not_mem_nil

theorem blank_append {first : List Char} (hf : Blank first) (hb : Blank blank) :
    Blank (first ++ blank) := by
  intro c hc
  rcases List.mem_append.mp hc with hc | hc
  · exact hf c hc
  · exact hb c hc

/-- Blanks after a phrase that may end with blanks belong to it. -/
theorem Derives.element_blank {tree : Tree} (h : Derives (.element tree) text) (hb : Blank blank) :
    Derives (.element tree) (text ++ blank) := by
  cases h with
  | element before h after =>
    rw [List.append_assoc]
    exact .element before h (blank_append after hb)

theorem Derives.key_blank {key : Quoted} (h : Derives (.key key) text) (hb : Blank blank) :
    Derives (.key key) (text ++ blank) := by
  cases h with
  | key before h after =>
    rw [List.append_assoc]
    exact .key before h (blank_append after hb)

theorem Derives.items_blank {items : List Tree} (h : Derives (.items items) text)
    (hb : Blank blank) : Derives (.items items) (text ++ blank) := by
  cases h with
  | firstItem h => exact .firstItem (h.element_blank hb)
  | nextItem h next =>
    rw [List.append_assoc, List.cons_append]
    exact .nextItem h (next.element_blank hb)

theorem Derives.members_blank {members : List (Quoted × Tree)}
    (h : Derives (.members members) text) (hb : Blank blank) :
    Derives (.members members) (text ++ blank) := by
  cases h with
  | firstMember hk h =>
    rw [List.append_assoc, List.cons_append]
    exact .firstMember hk (h.element_blank hb)
  | nextMember h hk next =>
    rw [List.append_assoc, List.cons_append, List.append_assoc, List.cons_append]
    exact .nextMember h hk (next.element_blank hb)

theorem Derives.after {tree : Tree} (h : Derives (.value tree) text) (hb : Blank blank) :
    Derives (.element tree) (blank ++ text) := by
  have he := Derives.element hb h blank_nil
  rwa [List.append_nil] at he

end

def Grammatical (text : String) (tree : Tree) : Prop := Derives (.element tree) text.toList

/-- No part of the phrase breaks off. -/
def Phrase.Whole : Phrase → Prop
  | .value tree | .element tree => tree.fault? = none
  | .key quoted => quoted.fault = none
  | .items trees => Tree.itemsFault? trees = none
  | .members trees => Tree.membersFault? trees = none

theorem Derives.whole {phrase : Phrase} {text : List Char} (h : Derives phrase text) :
    phrase.Whole := by
  induction h with
  | null | true | false | numeral => rfl
  | string h => cases h; rfl
  | emptyArray | emptyObject => rfl
  | array h ih | object h ih => simpa [Phrase.Whole, Tree.fault?] using ih
  | element hb h ha ih => exact ih
  | key hb h ha => cases h; rfl
  | firstItem h ih => simpa [Phrase.Whole, Tree.itemsFault?] using ih
  | nextItem h next ih ihnext =>
    simp only [Phrase.Whole] at ih ihnext ⊢
    simp [Tree.itemsFault?_append, Tree.itemsFault?, ih, ihnext]
  | firstMember hk h ihk ih =>
    simp only [Phrase.Whole] at ihk ih ⊢
    simp [Tree.membersFault?, ihk, ih]
  | nextMember h hk next ih ihk ihnext =>
    simp only [Phrase.Whole] at ih ihk ihnext ⊢
    simp [Tree.membersFault?_append, Tree.membersFault?, ih, ihk, ihnext]

end Grammar

namespace Scan

open Grammar

variable {frames : List Frame}

/-- A value begins with a character that is neither a blank nor a closing bracket. -/
theorem head_value {tree : Tree} {text : List Char} (h : Derives (.value tree) text) :
    ∃ c more, text = c :: more ∧ isBlank c = false ∧ c ≠ ']' := by
  cases h with
  | null | true | false | emptyArray | array | emptyObject | object =>
    exact ⟨_, _, rfl, rfl, by decide⟩
  | string h =>
    cases h
    exact ⟨_, _, rfl, rfl, by decide⟩
  | numeral h =>
    obtain ⟨valid, -⟩ := h
    rename_i d exponent
    rw [Decimal.significandText]
    cases d.negative with
    | true => exact ⟨_, _, rfl, rfl, by decide⟩
    | false =>
      cases hw : d.whole with
      | nil => exact absurd hw valid.whole_ne_nil
      | cons c digits =>
        have hc : c.isDigit := valid.whole c (hw ▸ List.mem_cons_self)
        refine ⟨c, _, rfl, ?_, ne_of_isDigit hc rfl⟩
        simp only [isBlank, decide_eq_false_iff_not]
        rintro (rfl | rfl | rfl | rfl) <;> exact absurd hc (by decide)

/-- The first item of an array is read like any value in it. -/
theorem feed_firstItem {tree : Tree} {text : List Char} (h : Derives (.element tree) text) :
    feed (.reading frames .firstItem) text = feed (.reading (.array [] :: frames) .value) text := by
  cases h with
  | element hb h ha =>
    obtain ⟨c, more, rfl, hblank, hclose⟩ := head_value h
    have hs : step (.reading frames .firstItem) (.char c) =
        step (.reading (.array [] :: frames) .value) (.char c) := by
      simp only [step, State.separate, separate, hblank, Bool.false_eq_true, if_false,
        if_neg hclose]
    rw [List.append_assoc, feed_blank_append .firstItem trivial hb,
      feed_blank_append .value trivial hb, List.cons_append, feed_cons, feed_cons, hs]

/-- What the machine makes of a phrase where one is expected: the state is the one after its last
value, or after its key. -/
def Found : Phrase → List Char → Prop
  | .value tree, text | .element tree, text =>
      ∀ frames, After frames tree (feed (.reading frames .value) text)
  | .key key, text => ∀ frames,
      feed (.reading frames .firstMember) text = .reading frames (.colon [] key) ∧
        ∀ members, feed (.reading frames (.nextKey members)) text =
          .reading frames (.colon members key)
  | .items items, text => ∀ frames, ∃ done last, items = done ++ [last] ∧
      After (.array done.reverse :: frames) last (feed (.reading frames .firstItem) text)
  | .members members, text => ∀ frames, ∃ done key last, members = done ++ [(key, last)] ∧
      After (.object done.reverse key :: frames) last (feed (.reading frames .firstMember) text)

namespace Found

variable {tree : Tree} {quoted : Quoted} {items : List Tree} {members : List (Quoted × Tree)}
  {blank before text name more after : List Char}

theorem numeral {n : Numeral} (h : n.Spelled text) : Found (.value (.numeral n)) text := by
  intro frames
  obtain ⟨phase, hphase, hfeed⟩ := @feed_numeral frames _ _ h
  rw [hfeed]
  exact .numeral _ phase hphase

theorem string (h : quoted.Spelled text) : Found (.value (.string quoted)) text := by
  intro frames
  rw [feed_string h]
  exact .plugged _

theorem emptyArray (hb : Blank blank) :
    Found (.value (.array [] none)) ('[' :: (blank ++ [']'])) := by
  intro frames
  have hstart : step (.reading frames .value) (.char '[') = .reading frames .firstItem := rfl
  rw [feed_cons, hstart, feed_blank_append .firstItem trivial hb]
  exact .plugged _

theorem array (h : Found (.items items) text) :
    Found (.value (.array items none)) ('[' :: (text ++ [']'])) := by
  intro frames
  obtain ⟨done, last, rfl, hafter⟩ := h frames
  have hstart : step (.reading frames .value) (.char '[') = .reading frames .firstItem := rfl
  rw [feed_cons, hstart, feed_append, hafter.feed rfl]
  show After frames _ (plug frames (.array (last :: done.reverse).reverse none))
  rw [List.reverse_cons, List.reverse_reverse]
  exact .plugged _

theorem emptyObject (hb : Blank blank) :
    Found (.value (.object [] none)) ('\x7b' :: (blank ++ ['\x7d'])) := by
  intro frames
  have hstart : step (.reading frames .value) (.char '\x7b') = .reading frames .firstMember := rfl
  rw [feed_cons, hstart, feed_blank_append .firstMember trivial hb]
  exact .plugged _

theorem object (h : Found (.members members) text) :
    Found (.value (.object members none)) ('\x7b' :: (text ++ ['\x7d'])) := by
  intro frames
  obtain ⟨done, key, last, rfl, hafter⟩ := h frames
  have hstart : step (.reading frames .value) (.char '\x7b') = .reading frames .firstMember := rfl
  rw [feed_cons, hstart, feed_append, hafter.feed rfl]
  show After frames _ (plug frames (.object ((key, last) :: done.reverse).reverse none))
  rw [List.reverse_cons, List.reverse_reverse]
  exact .plugged _

theorem element (hb : Blank before) (h : Found (.value tree) text) (ha : Blank after) :
    Found (.element tree) (before ++ text ++ after) := by
  intro frames
  rw [List.append_assoc, feed_blank_append .value trivial hb, feed_append]
  exact (h frames).blank ha

theorem key (hb : Blank before) (h : quoted.Spelled text) (ha : Blank after) :
    Found (.key quoted) (before ++ text ++ after) := by
  intro frames
  refine ⟨?_, fun members => ?_⟩
  · rw [List.append_assoc, feed_blank_append .firstMember trivial hb, feed_append,
      feed_key h rfl, @feed_blank frames (.colon [] _) trivial _ ha]
  · rw [List.append_assoc, feed_blank_append (.nextKey members) trivial hb, feed_append,
      feed_key h rfl, @feed_blank frames (.colon members _) trivial _ ha]

theorem firstItem (hd : Derives (.element tree) text) (h : Found (.element tree) text) :
    Found (.items [tree]) text := by
  intro frames
  refine ⟨[], tree, rfl, ?_⟩
  rw [feed_firstItem hd]
  exact h _

theorem nextItem (h : Found (.items items) text) (next : Found (.element tree) more) :
    Found (.items (items ++ [tree])) (text ++ ',' :: more) := by
  intro frames
  obtain ⟨done, last, rfl, hafter⟩ := h frames
  refine ⟨done ++ [last], tree, rfl, ?_⟩
  rw [feed_append, hafter.feed rfl, List.reverse_concat]
  exact next (.array (last :: done.reverse) :: frames)

theorem firstMember (hk : Found (.key quoted) name) (h : Found (.element tree) text) :
    Found (.members [(quoted, tree)]) (name ++ ':' :: text) := by
  intro frames
  refine ⟨[], quoted, tree, rfl, ?_⟩
  rw [feed_append, (hk frames).1]
  exact h (.object [] quoted :: frames)

theorem nextMember (h : Found (.members members) text) (hk : Found (.key quoted) name)
    (next : Found (.element tree) more) :
    Found (.members (members ++ [(quoted, tree)])) (text ++ ',' :: (name ++ ':' :: more)) := by
  intro frames
  obtain ⟨done, lastKey, last, rfl, hafter⟩ := h frames
  refine ⟨done ++ [(lastKey, last)], quoted, tree, rfl, ?_⟩
  have hname : feed (plug (.object done.reverse lastKey :: frames) last) (',' :: name) =
      .reading frames (.colon ((lastKey, last) :: done.reverse) quoted) :=
    (hk frames).2 _
  rw [feed_append, hafter.feed rfl, ← List.cons_append, feed_append, hname, List.reverse_concat]
  exact next (.object ((lastKey, last) :: done.reverse) quoted :: frames)

end Found

theorem feed_phrase {phrase : Phrase} {text : List Char} (h : Derives phrase text) :
    Found phrase text := by
  -- Along the derivation; an array needs it once more, since its first item stands behind the bracket.
  induction h with
  | null => exact fun frames => .plugged .null
  | true => exact fun frames => .plugged (.bool true)
  | false => exact fun frames => .plugged (.bool false)
  | numeral h => exact .numeral h
  | string h => exact .string h
  | emptyArray hb => exact .emptyArray hb
  | array h ih => exact .array ih
  | emptyObject hb => exact .emptyObject hb
  | object h ih => exact .object ih
  | element hb h ha ih => exact .element hb ih ha
  | key hb h ha => exact .key hb h ha
  | firstItem h ih => exact .firstItem h ih
  | nextItem h next ih ihnext => exact .nextItem ih ihnext
  | firstMember hk h ihk ih => exact .firstMember ihk ih
  | nextMember h hk next ih ihk ihnext => exact .nextMember ih ihk ihnext

theorem ofText_grammatical {text : String} {tree : Tree} (h : Grammatical text tree) :
    ofText text = ⟨tree, none⟩ := by
  have hafter : After [] tree (feed start text.toList) := feed_phrase h []
  exact hafter.finish

end Scan

/-- A text has one tree. -/
theorem Grammar.Grammatical.unique {text : String} {tree other : Tree} (h : Grammatical text tree)
    (ho : Grammatical text other) : tree = other := by
  have hs : (⟨tree, none⟩ : Scan) = ⟨other, none⟩ :=
    (Scan.ofText_grammatical h).symm.trans (Scan.ofText_grammatical ho)
  exact congrArg Scan.tree hs

end EditScript
