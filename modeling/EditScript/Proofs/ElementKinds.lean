import EditScript.Proofs.Document.Recursion
import EditScript.Proofs.OpenRecords
import EditScript.Proofs.UnknownMembers

namespace EditScript

namespace Element
variable {α β γ : Type} {object others : List (String × Tree)} {budget : Nat}

/-- The members of an object, whose keys are distinct, and whose values can be read with these
brackets left to open. -/
structure Readable (budget : Nat) (members : List (Quoted × Tree))
    (object : List (String × Tree)) : Prop where
  named : Named members object
  distinct : (object.map (·.1)).Nodup
  readable : ∀ entry ∈ object, ∃ json, Reader.value budget entry.2 = .ok json

def Gives (object : List (String × Tree)) (name : String) (tree : Tree) : Prop :=
  (name, tree) ∈ object ∧ tree ≠ .null

def Refuses (budget : Nat) (object : List (String × Tree)) (name : String) (read : Reader α) :
    Prop :=
  ∃ tree, Gives object name tree ∧ ∀ a, read budget tree ≠ .ok a

/-- The kind that is named by keys, of which some are reserved: the least other one, if there is
one. -/
inductive NamedBy (reserved keys : List String) : String → Prop where
  | least {key : String} (mem : key ∈ keys) (other : key ∉ reserved)
      (le : ∀ more ∈ keys, more ∉ reserved → key ≤ more) : NamedBy reserved keys key
  | nameless (none : ∀ key ∈ keys, key ∈ reserved) : NamedBy reserved keys "unknown"

/-- The two known kinds of an element, in the order in which they are tried, and what stands for an
element of each. -/
structure Kinds (α β γ : Type) where
  first : String
  readFirst : Reader α
  second : String
  readSecond : Reader β
  ofFirst : α → γ
  ofSecond : β → γ
  unknown : String → γ

namespace Kinds

def names (kinds : Kinds α β γ) : List String := [kinds.first, kinds.second]

def reader (kinds : Kinds α β γ) : Reader γ :=
  Element.reader kinds.first kinds.readFirst kinds.second kinds.readSecond kinds.ofFirst
    kinds.ofSecond kinds.unknown

def Apart (kinds : Kinds α β γ) : Prop := (kinds.names ++ positionKeys).Nodup

instance (kinds : Kinds α β γ) : Decidable kinds.Apart := inferInstanceAs (Decidable (List.Nodup _))

/-- What an object stands for. -/
inductive Is (kinds : Kinds α β γ) (budget : Nat) (object : List (String × Tree)) : γ → Prop where
  | first {tree : Tree} {a : α} (gives : Gives object kinds.first tree)
      (read : kinds.readFirst budget tree = .ok a) : Is kinds budget object (kinds.ofFirst a)
  | second {tree : Tree} {b : β} (none : ∀ tree, ¬Gives object kinds.first tree)
      (gives : Gives object kinds.second tree) (read : kinds.readSecond budget tree = .ok b) :
      Is kinds budget object (kinds.ofSecond b)
  | unknown {kind : String} (none : ∀ tree, ¬Gives object kinds.first tree)
      (neither : ∀ tree, ¬Gives object kinds.second tree)
      (named : NamedBy (kinds.names ++ positionKeys) (object.map (·.1)) kind) :
      Is kinds budget object (kinds.unknown kind)

/-- What is read from an object is told from what the object holds. Reading fails if a value of one
of the kinds is refused, whether or not it would be used. -/
structure Tells (kinds : Kinds α β γ) (budget : Nat) (object : List (String × Tree))
    (outcome : Except ReadError γ) : Prop where
  refused : (∃ e, outcome = .error e) ↔
    Refuses budget object kinds.first kinds.readFirst ∨
      Refuses budget object kinds.second kinds.readSecond
  element : ∀ c, outcome = .ok c → kinds.Is budget object c

end Kinds

theorem kind_namedBy {others : List (String × Json)} (hd : (others.map (·.1)).Nodup) :
    NamedBy positionKeys (others.map (·.1)) (kind others) := by
  have hkeys : ∀ key, key ∈ (Entries.sort others).map (·.1) ↔ key ∈ others.map (·.1) :=
    fun key => ((Entries.sort_perm hd).map (·.1)).mem_iff
  have hsorted : ((Entries.sort others).map (·.1)).Pairwise (· < ·) :=
    List.pairwise_map.mpr (Entries.sorted_sort others)
  rw [kind]
  cases hfind : ((Entries.sort others).map (·.1)).find? (· ∉ positionKeys) with
  | none =>
    refine .nameless fun key hk => ?_
    simpa using List.find?_eq_none.mp hfind key ((hkeys key).mpr hk)
  | some key =>
    obtain ⟨hother, before, after, heq, hbefore⟩ := List.find?_eq_some_iff_append.mp hfind
    refine .least ((hkeys key).mp (List.mem_of_find?_eq_some hfind)) (by simpa using hother) ?_
    intro more hmore hm
    rw [← hkeys, heq] at hmore
    rw [heq] at hsorted
    rcases List.mem_append.mp hmore with hmore | hmore
    · exact absurd hm (by simpa using hbefore more hmore)
    · rcases List.mem_cons.mp hmore with rfl | hmore
      · exact String.le_refl more
      · have hlt := (List.pairwise_cons.mp (List.pairwise_append.mp hsorted).2.1).1 more hmore
        exact String.not_lt.mp (String.lt_asymm hlt)

theorem NamedBy.unique {reserved keys : List String} {kind other : String}
    (h : NamedBy reserved keys kind) (ho : NamedBy reserved keys other) : kind = other := by
  cases h with
  | least mem hfree hle =>
    cases ho with
    | least mem' hfree' hle' => exact String.le_antisymm (hle _ mem' hfree') (hle' _ mem hfree)
    | nameless none => exact absurd (none _ mem) hfree
  | nameless none =>
    cases ho with
    | least mem' hfree' hle' => exact absurd (none _ mem') hfree'
    | nameless => rfl

/-- Only the keys that are not reserved count. -/
theorem NamedBy.congr {reserved more keys others : List String} {kind : String}
    (h : NamedBy reserved keys kind)
    (hk : ∀ key, (key ∈ keys ∧ key ∉ reserved) ↔ (key ∈ others ∧ key ∉ more)) :
    NamedBy more others kind := by
  cases h with
  | least mem other le =>
    obtain ⟨hmem, hother⟩ := (hk _).mp ⟨mem, other⟩
    refine .least hmem hother fun key hkey hfree => ?_
    obtain ⟨hkey, hfree⟩ := (hk key).mpr ⟨hkey, hfree⟩
    exact le key hkey hfree
  | nameless none =>
    refine .nameless fun key hkey => ?_
    by_contra hfree
    obtain ⟨hkey, hfree⟩ := (hk key).mpr ⟨hkey, hfree⟩
    exact hfree (none key hkey)

theorem gives_iff {name : String} {tree : Tree} :
    Gives object name tree ↔ tree ∈ valuesOf name object ∧ tree ≠ .null := by
  simp [Gives, valuesOf]

theorem Gives.unique (hd : (object.map (·.1)).Nodup) {name : String} {tree other : Tree}
    (h : Gives object name tree) (ho : Gives object name other) : tree = other := by
  have hmem := (gives_iff.mp h).1
  have hother := (gives_iff.mp ho).1
  rcases valuesOf_cases hd name with hnil | ⟨only, honly⟩
  · rw [hnil] at hmem
    exact absurd hmem List.not_mem_nil
  · rw [honly] at hmem hother
    rw [List.mem_singleton.mp hmem, List.mem_singleton.mp hother]

theorem readFrom_optional (hd : (object.map (·.1)).Nodup) {name : String} {read : Reader α}
    {a : Option α} :
    (Field.optional name read).ReadFrom budget (valuesOf name object) a ↔
      (a = none ∧ ∀ tree, ¬Gives object name tree) ∨
      ∃ tree b, Gives object name tree ∧ read budget tree = .ok b ∧ a = some b := by
  simp only [gives_iff]
  rcases valuesOf_cases hd name with hnil | ⟨tree, honly⟩
  · simp [hnil, Field.ReadFrom, Field.optional, eq_comm]
  · rw [honly]
    simp only [Field.ReadFrom, Field.optional, List.mem_singleton]
    by_cases hnull : tree = .null
    · subst hnull
      simp [Reader.optional, eq_comm]
    · rw [Reader.optional_of_ne_null hnull, Outcome.map_eq_ok]
      constructor
      · rintro ⟨b, hb, rfl⟩
        exact .inr ⟨tree, b, ⟨rfl, hnull⟩, hb, rfl⟩
      · rintro (⟨-, hnone⟩ | ⟨_, b, ⟨rfl, -⟩, hb, rfl⟩)
        · exact absurd ⟨rfl, hnull⟩ (hnone tree)
        · exact ⟨b, hb, rfl⟩

theorem exists_readFrom (hd : (object.map (·.1)).Nodup) {name : String} {read : Reader α} :
    (∃ a, (Field.optional name read).ReadFrom budget (valuesOf name object) a) ↔
      ¬Refuses budget object name read := by
  simp only [readFrom_optional hd]
  constructor
  · rintro ⟨a, ⟨-, hnone⟩ | ⟨tree, b, hgives, hb, -⟩⟩ ⟨other, hother, hrefused⟩
    · exact hnone other hother
    · rw [hgives.unique hd hother] at hb
      exact hrefused b hb
  · intro h
    by_cases hgiven : ∃ tree, Gives object name tree
    · obtain ⟨tree, hgives⟩ := hgiven
      cases hread : read budget tree with
      | ok b => exact ⟨some b, .inr ⟨tree, b, hgives, hread, rfl⟩⟩
      | error e =>
        refine absurd ⟨tree, hgives, fun b hb => ?_⟩ h
        rw [hread] at hb
        cases hb
    · exact ⟨none, .inl ⟨rfl, fun tree hgives => hgiven ⟨tree, hgives⟩⟩⟩

namespace Kinds
variable {kinds : Kinds α β γ} {members more : List (Quoted × Tree)}

section
variable (h : kinds.Apart)
include h

theorem Apart.nodup_names : (Reader.elementFields kinds.first kinds.readFirst kinds.second
    kinds.readSecond).names.Nodup := (List.nodup_append.mp h).1

theorem Apart.first_not_position : kinds.first ∉ positionKeys :=
  fun hp => (List.nodup_append.mp h).2.2 _ List.mem_cons_self _ hp rfl

theorem Apart.second_not_position : kinds.second ∉ positionKeys :=
  fun hp => (List.nodup_append.mp h).2.2 _ (List.mem_cons_of_mem _ List.mem_cons_self) _ hp rfl

/-- What is read is what the object stands for, and neither kind is refused. -/
theorem Apart.reader_is (ho : Readable budget members object) {c : γ}
    (hc : kinds.reader (budget+1) (.object members none) = .ok c) :
    kinds.Is budget object c ∧ ¬Refuses budget object kinds.first kinds.readFirst ∧
      ¬Refuses budget object kinds.second kinds.readSecond := by
  obtain ⟨⟨⟨a, b, ⟨⟩⟩, kept⟩, hread, rfl⟩ := Outcome.map_eq_ok.mp hc
  obtain ⟨⟨hfirst, hsecond, -⟩, hkept⟩ :=
    (Reader.openRecord_eq_ok_iff h.nodup_names ho.named).mp hread
  refine ⟨?_, (exists_readFrom ho.distinct).mp ⟨a, hfirst⟩,
    (exists_readFrom ho.distinct).mp ⟨b, hsecond⟩⟩
  rcases (readFrom_optional ho.distinct).mp hfirst with ⟨rfl, hnone⟩ | ⟨tree, x, hgives, hx, rfl⟩
  case inr => exact .first hgives hx
  rcases (readFrom_optional ho.distinct).mp hsecond with
    ⟨rfl, hneither⟩ | ⟨tree, y, hgives, hy, rfl⟩
  case inr => exact .second hnone hgives hy
  -- With neither kind given, the keys that are kept are those of other names.
  obtain ⟨others, hothers, hkeys⟩ := Fields.othersOf_ok (Reader.elementFields kinds.first
    kinds.readFirst kinds.second kinds.readSecond) ho.readable
  obtain rfl := Except.ok.inj (hkept.symm.trans hothers)
  have hdistinct : (kept.map (·.1)).Nodup := hkeys ▸ ho.distinct.filter _
  refine .unknown hnone hneither ((kind_namedBy hdistinct).congr fun key => ?_)
  rw [hkeys, List.mem_filter, List.mem_append, not_or, decide_eq_true_eq, and_assoc]
  rfl

theorem Apart.reader_ok (ho : Readable budget members object)
    (hfirst : ¬Refuses budget object kinds.first kinds.readFirst)
    (hsecond : ¬Refuses budget object kinds.second kinds.readSecond) :
    ∃ c, kinds.reader (budget+1) (.object members none) = .ok c := by
  obtain ⟨a, ha⟩ := (exists_readFrom ho.distinct).mpr hfirst
  obtain ⟨b, hb⟩ := (exists_readFrom ho.distinct).mpr hsecond
  obtain ⟨others, hothers, -⟩ := Fields.othersOf_ok (Reader.elementFields kinds.first
    kinds.readFirst kinds.second kinds.readSecond) ho.readable
  have hfields : (Reader.elementFields kinds.first kinds.readFirst kinds.second
      kinds.readSecond).ReadFrom budget object (a, b, ()) := ⟨ha, hb, trivial⟩
  have hread := (Reader.openRecord_eq_ok_iff h.nodup_names ho.named).mpr ⟨hfields, hothers⟩
  exact ⟨_, Outcome.map_eq_ok.mpr ⟨_, hread, rfl⟩⟩

theorem Apart.tells (ho : Readable budget members object) :
    kinds.Tells budget object (kinds.reader (budget+1) (.object members none)) where
  refused := by
    constructor
    · rintro ⟨e, he⟩
      by_contra hnone
      obtain ⟨hfirst, hsecond⟩ := not_or.mp hnone
      obtain ⟨c, hc⟩ := h.reader_ok ho hfirst hsecond
      rw [he] at hc
      cases hc
    · intro hrefused
      cases hread : kinds.reader (budget+1) (.object members none) with
      | error e => exact ⟨e, rfl⟩
      | ok c => exact absurd hrefused (not_or.mpr (h.reader_is ho hread).2)
  element := fun _ hc => (h.reader_is ho hc).1

end

theorem Is.unique (hd : (object.map (·.1)).Nodup) {c d : γ} (hc : kinds.Is budget object c)
    (h : kinds.Is budget object d) : c = d := by
  cases hc with
  | first gives read =>
    cases h with
    | first gives' read' =>
      rw [gives.unique hd gives', read', Except.ok.injEq] at read
      rw [read]
    | second none => exact absurd gives (none _)
    | unknown none => exact absurd gives (none _)
  | second none gives read =>
    cases h with
    | first gives' => exact absurd gives' (none _)
    | second none' gives' read' =>
      rw [gives.unique hd gives', read', Except.ok.injEq] at read
      rw [read]
    | unknown none' neither => exact absurd gives (neither _)
  | unknown none neither named =>
    cases h with
    | first gives' => exact absurd gives' (none _)
    | second none' gives' => exact absurd gives' (neither _)
    | unknown none' neither' named' => rw [named.unique named']

end Kinds

/-- The two objects hold the same members, apart from those that say where an element stands. -/
def AlikeApart (object others : List (String × Tree)) : Prop :=
  ∀ entry : String × Tree, entry.1 ∉ positionKeys → (entry ∈ object ↔ entry ∈ others)

namespace AlikeApart
variable {kinds : Kinds α β γ} {members more : List (Quoted × Tree)}

section
variable (h : AlikeApart object others)
include h

theorem symm : AlikeApart others object := fun entry he => (h entry he).symm

theorem gives {name : String} (hn : name ∉ positionKeys) {tree : Tree} :
    Gives object name tree ↔ Gives others name tree :=
  and_congr_left fun _ => h (name, tree) hn

theorem refuses {name : String} (hn : name ∉ positionKeys) {read : Reader α} :
    Refuses budget object name read ↔ Refuses budget others name read := by
  simp only [Refuses, h.gives hn]

theorem mem_keys {key : String} (hk : key ∉ positionKeys) :
    key ∈ object.map (·.1) ↔ key ∈ others.map (·.1) := by
  simp only [List.mem_map]
  exact exists_congr fun entry => and_congr_left fun heq => h entry (heq ▸ hk)

theorem is (hk : kinds.Apart) {c : γ} (hc : kinds.Is budget object c) :
    kinds.Is budget others c := by
  have hnone {name : String} (hn : name ∉ positionKeys) (hall : ∀ tree, ¬Gives object name tree) :
      ∀ tree, ¬Gives others name tree :=
    fun tree hgives => hall tree ((h.gives hn).mpr hgives)
  cases hc with
  | first gives read => exact .first ((h.gives hk.first_not_position).mp gives) read
  | second none gives read =>
    exact .second (hnone hk.first_not_position none) ((h.gives hk.second_not_position).mp gives) read
  | unknown none neither named =>
    refine .unknown (hnone hk.first_not_position none) (hnone hk.second_not_position neither)
      (named.congr fun key => ?_)
    exact and_congr_left fun hfree => h.mem_keys fun hp => hfree (List.mem_append_right _ hp)

theorem reader_ok (hk : kinds.Apart) (ho : Readable budget members object)
    (hm : Readable budget more others) {c : γ}
    (hc : kinds.reader (budget+1) (.object members none) = .ok c) :
    kinds.reader (budget+1) (.object more none) = .ok c := by
  obtain ⟨his, hfirst, hsecond⟩ := hk.reader_is ho hc
  rw [h.refuses hk.first_not_position] at hfirst
  rw [h.refuses hk.second_not_position] at hsecond
  obtain ⟨d, hd⟩ := hk.reader_ok hm hfirst hsecond
  rw [hd, (h.is hk his).unique hm.distinct (hk.reader_is hm hd).1]

end

theorem reader_iff (h : AlikeApart object others) (hk : kinds.Apart)
    (ho : Readable budget members object) (hm : Readable budget more others) (c : γ) :
    kinds.reader (budget+1) (.object members none) = .ok c ↔
      kinds.reader (budget+1) (.object more none) = .ok c :=
  ⟨h.reader_ok hk ho hm, h.symm.reader_ok hk hm ho⟩

end AlikeApart

end Element

open Element Grammar

def Block.kinds : Kinds Paragraph (Table Block) Block :=
  ⟨"paragraph", Paragraph.reader, "table", Table.reader Block.reader, .paragraph, .table,
    .unsupported⟩

def Inline.kinds : Kinds TextRun String Inline :=
  ⟨"textRun", TextRun.reader, "inlineObjectElement", objectReader, .text, .object, .unsupported⟩

theorem Block.reader_kinds : Block.reader = Block.kinds.reader := Block.reader_eq

theorem Inline.reader_kinds : Inline.reader = Inline.kinds.reader := rfl

/-- Elements are classified by what their objects hold and by nothing else. A block is a paragraph,
else a table, else of the unknown kind that the least of its other keys names; an element of a
paragraph likewise. Where they stand makes no difference. -/
theorem elements_by_content {budget : Nat} {members : List (Quoted × Tree)}
    {object : List (String × Tree)} (ho : Readable budget members object) :
    Block.kinds.Tells budget object (Block.reader (budget+1) (.object members none)) ∧
    Inline.kinds.Tells budget object (Inline.reader (budget+1) (.object members none)) ∧
    ∀ more others, Readable budget more others → AlikeApart object others →
      (∀ block, Block.reader (budget+1) (.object members none) = .ok block ↔
        Block.reader (budget+1) (.object more none) = .ok block) ∧
      ∀ element, Inline.reader (budget+1) (.object members none) = .ok element ↔
        Inline.reader (budget+1) (.object more none) = .ok element := by
  have hblock : Block.kinds.Apart := by decide
  have hinline : Inline.kinds.Apart := by decide
  rw [Block.reader_kinds, Inline.reader_kinds]
  refine ⟨hblock.tells ho, hinline.tells ho, ?_⟩
  intro more others hm h
  exact ⟨h.reader_iff hblock ho hm, h.reader_iff hinline ho hm⟩

theorem elements_by_content_zone :
    let held : List (String × Tree) := [("table", .null), ("note", .object [] none),
      ("Zone", .bool true)]
    let object := ("endIndex", .numeral ⟨false, 2, 0, 0, true⟩) :: held
    let others := held ++ [("startIndex", .array [] none)]
    Readable 126 (membersOf object) object ∧ Readable 126 (membersOf others) others ∧
      AlikeApart object others ∧
      (Scan.ofText "\x7b\"endIndex\":2,\"table\":null,\"note\":\x7b\x7d,\"Zone\":true\x7d").read
        Block.reader = .ok (.unsupported "Zone") ∧
      (Scan.ofText "\x7b\"table\":null,\"note\":\x7b\x7d,\"Zone\":true,\"startIndex\":[]\x7d").read
        Block.reader = .ok (.unsupported "Zone") := by
  intro held object others
  have ho : Readable 126 (membersOf object) object := by
    refine ⟨named_membersOf object, by decide, ?_⟩
    simp only [object, held, List.forall_mem_cons]
    exact ⟨⟨_, rfl⟩, ⟨_, rfl⟩, ⟨_, rfl⟩, ⟨_, rfl⟩, List.forall_mem_nil _⟩
  have hm : Readable 126 (membersOf others) others := by
    refine ⟨named_membersOf others, by decide, ?_⟩
    simp only [others, held, List.cons_append, List.nil_append, List.forall_mem_cons]
    exact ⟨⟨_, rfl⟩, ⟨_, rfl⟩, ⟨_, rfl⟩, ⟨_, rfl⟩, List.forall_mem_nil _⟩
  have halike : AlikeApart object others := by
    intro entry he
    have hend : entry ≠ ("endIndex", .numeral ⟨false, 2, 0, 0, true⟩) := by
      rintro rfl
      exact he (by decide)
    have hstart : entry ≠ ("startIndex", .array [] none) := by
      rintro rfl
      exact he (by decide)
    simp [object, others, hend, hstart]
  have htext : Grammatical
      "\x7b\"endIndex\":2,\"table\":null,\"note\":\x7b\x7d,\"Zone\":true\x7d"
      (.object (membersOf object) none) := Scan.ofText_eq_iff.mp rfl
  have hmore : Grammatical
      "\x7b\"table\":null,\"note\":\x7b\x7d,\"Zone\":true,\"startIndex\":[]\x7d"
      (.object (membersOf others) none) := Scan.ofText_eq_iff.mp rfl
  have hread : Block.reader 127 (.object (membersOf object) none) = .ok (.unsupported "Zone") := rfl
  obtain ⟨-, -, hpositions⟩ := elements_by_content ho
  rw [Scan.read_grammatical htext, Scan.read_grammatical hmore]
  exact ⟨ho, hm, halike, hread, ((hpositions _ others hm halike).1 _).mp hread⟩

end EditScript
