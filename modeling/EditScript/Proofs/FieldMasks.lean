import EditScript.Proofs.ParagraphStyles
import EditScript.Proofs.ReadValues
import EditScript.Style.Reader
import Mathlib.Data.List.Induction
import Mathlib.Data.List.Sort

namespace EditScript

namespace Entries
variable {α β : Type} {name : String}

theorem get?_cons_self (value : α) (entries : List (String × α)) :
    get? name ((name, value) :: entries) = some value := by
  simp [get?]

theorem get?_cons_ne {key : String} (h : key ≠ name) (value : α) (entries : List (String × α)) :
    get? name ((key, value) :: entries) = get? name entries := by
  simp [get?, h]

theorem get?_put_self (value : α) (entries : List (String × α)) :
    get? name (put name value entries) = some value := by
  induction entries with
  | nil => exact get?_cons_self value []
  | cons entry entries ih =>
    simp only [put]
    split
    · exact get?_cons_self value _
    · split
      case isTrue => exact get?_cons_self value _
      case isFalse hne =>
        have hentry : entry.1 ≠ name := Ne.symm hne
        rw [get?_cons_ne hentry, ih]

theorem get?_put_ne {key : String} (h : key ≠ name) (value : α) (entries : List (String × α)) :
    get? name (put key value entries) = get? name entries := by
  induction entries with
  | nil => exact get?_cons_ne h value []
  | cons entry entries ih =>
    obtain ⟨other, held⟩ := entry
    -- What is put stands before this entry, in its place or further on.
    simp only [put]
    split
    · exact get?_cons_ne h value _
    · split
      case isTrue heq => rw [get?_cons_ne h, get?_cons_ne (heq ▸ h)]
      case isFalse =>
        by_cases hother : other = name
        · subst hother
          rw [get?_cons_self, get?_cons_self]
        · rw [get?_cons_ne hother, get?_cons_ne hother, ih]

theorem get?_map (f : α → β) (entries : List (String × α)) :
    get? name (entries.map fun entry => (entry.1, f entry.2)) = (get? name entries).map f := by
  induction entries with
  | nil => rfl
  | cons entry entries ih =>
    obtain ⟨key, value⟩ := entry
    rw [List.map_cons]
    by_cases hkey : key = name
    · subst hkey
      rw [get?_cons_self, get?_cons_self, Option.map_some]
    · rw [get?_cons_ne hkey, get?_cons_ne hkey, ih]

theorem isSome_get? (entries : List (String × α)) :
    (get? name entries).isSome ↔ name ∈ entries.map (·.1) := by
  simp [get?]

def last? (name : String) (entries : List (String × α)) : Option α :=
  ((entries.filter (·.1 = name)).map (·.2)).getLast?

theorem last?_concat_self (value : α) (entries : List (String × α)) :
    last? name (entries ++ [(name, value)]) = some value := by
  simp [last?]

theorem last?_concat_ne {key : String} (h : key ≠ name) (value : α)
    (entries : List (String × α)) :
    last? name (entries ++ [(key, value)]) = last? name entries := by
  simp [last?, h]

theorem get?_sort (entries : List (String × α)) :
    get? name (sort entries) = last? name entries := by
  induction entries using List.reverseRecOn with
  | nil => rfl
  | append_singleton entries entry ih =>
    obtain ⟨key, value⟩ := entry
    have hsort : sort (entries ++ [(key, value)]) = put key value (sort entries) := by
      simp [sort]
    rw [hsort]
    by_cases hkey : key = name
    · subst hkey
      rw [get?_put_self, last?_concat_self]
    · rw [get?_put_ne hkey, last?_concat_ne hkey, ih]

theorem isSome_last? (entries : List (String × α)) :
    (last? name entries).isSome ↔ name ∈ entries.map (·.1) := by
  simp [last?]

end Entries

/-- What an object gives: its values as they are read, each under its name, in the order of the
text. -/
inductive Tree.Gives : Nat → Tree → List (String × Json) → Prop where
  | object {budget : Nat} {members : List (Quoted × Tree)} {object : List (String × Tree)}
      {given : List (String × Json)} (named : Named members object)
      (values : ValuesRead budget object given) : Gives (budget+1) (.object members none) given

theorem Reader.members_eq_ok {budget : Nat} {tree : Tree} {given : List (String × Json)} :
    members budget tree = .ok given ↔ tree.Gives budget given := by
  constructor
  · intro h
    cases tree with
    | object entries fault =>
      obtain ⟨b, rfl, h⟩ := enter_eq_ok h
      obtain ⟨values, hvalues, h⟩ := Outcome.bind_eq_ok.mp h
      obtain ⟨_, hfault, h⟩ := Outcome.bind_eq_ok.mp h
      obtain rfl := proceed_eq_ok.mp hfault
      obtain rfl := Except.ok.inj h
      rw [valueMembers_eq_mapM] at hvalues
      obtain ⟨object, hm, hv⟩ := mapM_entry_eq_ok.mp hvalues
      exact .object hm hv
    | _ => cases h
  · intro h
    cases h with
    | object hm hv =>
      simp only [members, enter, valueMembers_eq_mapM, mapM_entry_eq_ok.mpr ⟨_, hm, hv⟩, proceed,
        Outcome.ok_bind, Outcome.pure_eq]

namespace Style

def names (style : Style) : List String := style.attributes.map (·.1)

/-- The names that a mask lists: what stands between its commas. -/
def maskNames (mask : String) : List String := (mask.split ',').toList.map (·.copy)

/-- The style holds what was given for it: the names in strictly increasing order, each with its
last value. -/
structure Holds (style : Style) (given : List (String × Json)) : Prop where
  increasing : style.names.Pairwise (· < ·)
  name : ∀ name, name ∈ style.names ↔ name ∈ given.map (·.1)
  value : ∀ name, style.get? name = (Entries.last? name given).map Json.canonical

/-- How a style comes by its attributes: it is read from an object, whose keys may repeat, or they
are set one after another. -/
inductive Given : Style → List (String × Json) → Prop where
  | empty : Given .empty []
  | read {budget : Nat} {tree : Tree} {style : Style} {given : List (String × Json)}
      (gives : tree.Gives budget given) (read : Style.reader budget tree = .ok style) :
      Given style given
  | set {style : Style} {given : List (String × Json)} (h : Given style given) (name : String)
      (value : Json) : Given (style.set name value) (given ++ [(name, value)])

/-- The style has something to list, and none of its names is cut by a comma. -/
structure Listable (style : Style) : Prop where
  nonempty : style.isEmpty = false
  uncut : ∀ name ∈ style.names, ',' ∉ name.toList

variable {style other : Style} {given : List (String × Json)}

theorem reader_eq_ok {budget : Nat} {tree : Tree} :
    reader budget tree = .ok style ↔
      ∃ given, tree.Gives budget given ∧ ofAttributes given = style := by
  rw [reader, Reader.map, Outcome.map_eq_ok]
  simp only [Reader.members_eq_ok]

theorem ofAttributes_concat (given : List (String × Json)) (name : String) (value : Json) :
    ofAttributes (given ++ [(name, value)]) = (ofAttributes given).set name value := by
  apply Style.ext
  simp [ofAttributes, set, Json.canonicalMembers_eq_map, Entries.sort]

theorem Given.eq_ofAttributes (h : style.Given given) : style = ofAttributes given := by
  induction h with
  | empty => rfl
  | read gives read =>
    rw [← Reader.members_eq_ok] at gives
    rw [reader, Reader.map, gives, Outcome.map_ok] at read
    exact (Except.ok.inj read).symm
  | set h name value ih => rw [ofAttributes_concat, ih]

theorem isSome_get? (style : Style) (name : String) :
    (style.get? name).isSome ↔ name ∈ style.names := Entries.isSome_get? style.attributes

theorem names_pairwise (style : Style) : style.names.Pairwise (· < ·) :=
  List.pairwise_map.mpr style.sorted.1

theorem names_ne_nil (h : style.isEmpty = false) : style.names ≠ [] := by
  intro hnil
  have hempty : style.isEmpty = true := List.isEmpty_iff.mpr (List.map_eq_nil_iff.mp hnil)
  rw [h] at hempty
  cases hempty

theorem names_eq_iff :
    style.names = other.names ↔ ∀ name, name ∈ style.names ↔ name ∈ other.names := by
  constructor
  · intro h name
    rw [h]
  · exact style.names_pairwise.eq_of_mem_iff other.names_pairwise

theorem holds_ofAttributes (given : List (String × Json)) : (ofAttributes given).Holds given := by
  have hvalue (name : String) :
      (ofAttributes given).get? name = (Entries.last? name given).map Json.canonical := by
    show Entries.get? name (Entries.sort (Json.canonicalMembers given)) = _
    rw [Json.canonicalMembers_eq_map, Entries.sort_map, Entries.get?_map, Entries.get?_sort]
  refine ⟨names_pairwise _, ?_, hvalue⟩
  intro name
  rw [← isSome_get?, hvalue, Option.isSome_map, Entries.isSome_last?]

theorem Listable.maskNames_fieldMask (h : style.Listable) :
    maskNames style.fieldMask = style.names := by
  have hsplit := String.toList_split_intercalate h.uncut
  rw [if_neg (names_ne_nil h.nonempty)] at hsplit
  exact hsplit

theorem Listable.fieldMask_eq_iff (h : style.Listable) (ho : other.Listable) :
    style.fieldMask = other.fieldMask ↔ ∀ name, name ∈ style.names ↔ name ∈ other.names := by
  rw [← names_eq_iff]
  constructor
  · intro hmask
    rw [← h.maskNames_fieldMask, hmask, ho.maskNames_fieldMask]
  · intro hnames
    show ",".intercalate style.names = ",".intercalate other.names
    rw [hnames]

end Style

/-- Where the request sets attributes of a paragraph, there are some and its mask is theirs. -/
def Request.Masked : Request → Prop
  | .updateParagraphStyle _ style mask => mask = style.fieldMask ∧ style.isEmpty = false
  | .insertText _ _ | .updateTextStyle _ _ _ | .insertInlineImage _ _ | .insertTable _ _ _ => True

theorem Request.masked_of_stylesParagraph {request : Request}
    (h : request.stylesParagraph = false) : request.Masked := by
  cases request with
  | updateParagraphStyle span style mask => cases h
  | _ => trivial

namespace Compiler
open Emitter

variable {arithmetic : Arithmetic} {compiler : Compiler arithmetic} {index : Nat}
  {cell : Option CellAddress} {done : Compilation}

theorem masked_inline {element : Inline} (h : compiler.inline ⟨index, cell⟩ element = .ok done) :
    ∀ request ∈ done.requests, request.Masked :=
  fun request hr => Request.masked_of_stylesParagraph (stylesParagraph_inline h request hr)

theorem masked_paragraph {paragraph : Paragraph}
    (h : compiler.paragraph ⟨index, cell⟩ paragraph = .ok done) :
    ∀ request ∈ done.requests, request.Masked := by
  obtain ⟨inner, hin, rfl⟩ := paragraph_ok h
  refine List.forall_mem_append.mpr ⟨?_, ?_⟩
  · exact each_forall (fun element _ index done hd => masked_inline hd) hin
  · rw [styling]
    split
    case isTrue hs =>
      have hne : paragraph.style.isEmpty = false := Bool.eq_false_of_not_eq_true hs.2.1
      exact List.forall_mem_singleton.mpr ⟨rfl, hne⟩
    case isFalse => exact List.forall_mem_nil _

theorem account_masked (compiler : Compiler arithmetic) :
    compiler.Account fun _ requests _ => ∀ request ∈ requests, request.Masked where
  nil := List.forall_mem_nil _
  append ha hb := List.forall_mem_append.mpr ⟨ha, hb⟩
  paragraph h := masked_paragraph h
  table _ _ := List.forall_mem_singleton.mpr trivial
  unsupported _ := List.forall_mem_nil _

/-- Compilation sets attributes of a paragraph only where its style has some, and masks them all. -/
theorem masked_compile {content : List Block} {start : Nat}
    (h : compiler.compile content cell start = .ok done) :
    ∀ request ∈ done.requests, request.Masked :=
  (account_masked compiler).compile h

end Compiler

/-- A style is read from any object whose values can be read, in whatever order its keys stand and
however often. Wherever it comes from, its names are in strictly increasing order and each has the
value that was given last. If there are any and none holds a comma, the mask lists just these names:
styles have equal masks if and only if they have the same names, and a request that sets attributes
of a paragraph names all and only those that it carries. -/
theorem Style.masks_name_attributes :
    (∀ {budget tree}, (∃ style, Style.reader budget tree = .ok style) ↔
      ∃ given, tree.Gives budget given) ∧
    (∀ {style given}, Style.Given style given → style.Holds given) ∧
    (∀ {style}, Style.Listable style → maskNames style.fieldMask = style.names) ∧
    (∀ {style other}, Style.Listable style → Style.Listable other →
      (style.fieldMask = other.fieldMask ↔ ∀ name, name ∈ style.names ↔ name ∈ other.names)) ∧
    (∀ {style} span, Style.Listable style →
      ∃ mask, Request.styleParagraph span style = .updateParagraphStyle span style mask ∧
        ∀ name, name ∈ maskNames mask ↔ (style.get? name).isSome) ∧
    ∀ {arithmetic} {compiler : Compiler arithmetic} {content cell start done},
      compiler.compile content cell start = .ok done →
      ∀ span style mask, .updateParagraphStyle span style mask ∈ done.requests →
        (∀ name ∈ style.names, ',' ∉ name.toList) →
        ∀ name, name ∈ maskNames mask ↔ (style.get? name).isSome := by
  have hmask {style : Style} (h : style.Listable) (name : String) :
      name ∈ maskNames style.fieldMask ↔ (style.get? name).isSome := by
    rw [h.maskNames_fieldMask, isSome_get?]
  refine ⟨?_, ?_, Listable.maskNames_fieldMask, Listable.fieldMask_eq_iff, ?_, ?_⟩
  · intro budget tree
    simp [reader_eq_ok]
  · rintro style given h
    obtain rfl := h.eq_ofAttributes
    exact holds_ofAttributes given
  · intro style span h
    exact ⟨_, rfl, hmask h⟩
  · intro arithmetic compiler content cell start done h span style mask hr huncut
    -- Compilation itself leaves styles without attributes out; commas it does not look for.
    obtain ⟨rfl, hne⟩ := Compiler.masked_compile h _ hr
    exact hmask ⟨hne, huncut⟩

/-- A style that is read from an object with a repeated key and given one more attribute, another
with the same names set in another order, and a paragraph in the first. -/
theorem Style.masks_name_attributes_repeated :
    let members := [("b", Tree.null), ("a", .bool true), ("b", .bool false)]
    let read := [("b", Json.null), ("a", .bool true), ("b", .bool false)]
    let given := read ++ [("", .null)]
    let style := (ofAttributes read).set "" .null
    let other := ((empty.set "a" .null).set "" .null).set "b" .null
    let compiler := Document.sideBySide.compiler (.words .wraps) ⟨3, .utf16, true⟩
    let content := [Block.paragraph ⟨[.text ⟨"x", .empty⟩], style⟩]
    let span : Span := ⟨1, 2, none⟩
    let done : Compilation :=
      ⟨[.insertText ⟨1, none⟩ "x", .styleParagraph span style], 2, .oneTextRun⟩
    (∃ read, Style.reader 127 (.object (membersOf members) none) = .ok read) ∧
    (Style.Given style given ∧ style.Holds given) ∧
    (style.Listable ∧ style.fieldMask = ",a,b" ∧ maskNames ",a,b" = ["", "a", "b"]) ∧
    (other.Listable ∧ style.fieldMask = other.fieldMask) ∧
    (∃ mask, Request.styleParagraph span style = .updateParagraphStyle span style mask ∧
      ∀ name, name ∈ maskNames mask ↔ (style.get? name).isSome) ∧
    compiler.compile content none 1 = .ok done ∧
    ∀ name, name ∈ maskNames ",a,b" ↔ (style.get? name).isSome := by
  intro members read given style other compiler content span done
  obtain ⟨hread, hholds, hmask, hequal, hrequest, hcompile⟩ := Style.masks_name_attributes
  have hgives : Tree.Gives 127 (.object (membersOf members) none) read := by
    refine .object (named_membersOf members) ?_
    exact .cons ⟨rfl, rfl⟩ (.cons ⟨rfl, rfl⟩ (.cons ⟨rfl, rfl⟩ .nil))
  have hgiven : Style.Given style given :=
    (Given.read hgives (reader_eq_ok.mpr ⟨read, hgives, rfl⟩)).set "" .null
  have hnames : style.names = ["", "a", "b"] := by rfl
  have hothers : other.names = ["", "a", "b"] := by rfl
  have hfields : style.fieldMask = ",a,b" := by rfl
  have hstyle : style.Listable := ⟨rfl, by rw [hnames]; decide⟩
  have hother : other.Listable := ⟨rfl, by rw [hothers]; decide⟩
  have hdone : compiler.compile content none 1 = .ok done := by
    simp only [compiler, content, style, done, span]
    rfl
  have hmem : .updateParagraphStyle span style style.fieldMask ∈ done.requests :=
    List.mem_cons_of_mem _ List.mem_cons_self
  refine ⟨hread.mpr ⟨read, hgives⟩, ⟨hgiven, hholds hgiven⟩, ⟨hstyle, hfields, ?_⟩, ⟨hother, ?_⟩,
    hrequest span hstyle, hdone, ?_⟩
  · rw [← hfields, hmask hstyle, hnames]
  · exact (hequal hstyle hother).mpr (names_eq_iff.mp (hnames.trans hothers.symm))
  · rw [← hfields]
    exact hcompile hdone span style style.fieldMask hmem hstyle.uncut

end EditScript
