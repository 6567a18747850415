import EditScript.Proofs.Json.Derivation
import EditScript.Proofs.Kept
import EditScript.Request.Reader
import Mathlib.Logic.Relation

namespace EditScript

def Quoted.Apart (key other : Quoted) : Prop := ∀ name, key.read = .ok name → other.read ≠ .ok name

theorem Quoted.Apart.symm {key other : Quoted} (h : key.Apart other) : other.Apart key :=
  fun name ho hk => h name hk ho

namespace Tree

/-- No key of an object is repeated. -/
def Distinct (members : List (Quoted × Tree)) : Prop :=
  members.Pairwise fun a b => a.1.Apart b.1

/-- The members of one object in the tree, none with a repeated key, stand in another order. -/
inductive Reordered : Tree → Tree → Prop where
  | members {members others : List (Quoted × Tree)} (fault : Option Fault)
      (perm : members.Perm others) (distinct : Distinct members) :
      Reordered (.object members fault) (.object others fault)
  | item (before : List Tree) {item other : Tree} (after : List Tree) (fault : Option Fault)
      (reordered : Reordered item other) :
      Reordered (.array (before ++ item :: after) fault) (.array (before ++ other :: after) fault)
  | member (before : List (Quoted × Tree)) (key : Quoted) {value other : Tree}
      (after : List (Quoted × Tree)) (fault : Option Fault) (reordered : Reordered value other) :
      Reordered (.object (before ++ (key, value) :: after) fault)
        (.object (before ++ (key, other) :: after) fault)

theorem Distinct.perm {members others : List (Quoted × Tree)} (h : Distinct members)
    (perm : members.Perm others) : Distinct others :=
  (perm.pairwise_iff fun h => h.symm).mp h

theorem Reordered.symm {tree other : Tree} (h : tree.Reordered other) : other.Reordered tree := by
  induction h with
  | members fault perm distinct => exact .members fault perm.symm (distinct.perm perm)
  | item before after fault reordered ih => exact .item before after fault ih
  | member before key after fault reordered ih => exact .member before key after fault ih

theorem Reordered.ne_null {tree other : Tree} (h : tree.Reordered other) : tree ≠ .null := by
  rintro rfl
  cases h

theorem Reordered.fault? {tree other : Tree} (h : tree.Reordered other) (hf : tree.fault? = none) :
    other.fault? = none := by
  induction h with
  | members fault perm distinct =>
    simp only [Tree.fault?, Option.or_eq_none_iff, membersFault?_eq_none] at hf ⊢
    exact ⟨fun member hm => hf.1 member (perm.mem_iff.mpr hm), hf.2⟩
  | item before after fault reordered ih =>
    simp only [Tree.fault?, Option.or_eq_none_iff, itemsFault?_append, itemsFault?] at hf ⊢
    exact ⟨⟨hf.1.1, ih hf.1.2.1, hf.1.2.2⟩, hf.2⟩
  | member before key after fault reordered ih =>
    simp only [Tree.fault?, Option.or_eq_none_iff, membersFault?_append, membersFault?] at hf ⊢
    exact ⟨⟨hf.1.1, hf.1.2.1, ih hf.1.2.2.1, hf.1.2.2.2⟩, hf.2⟩

end Tree

namespace Outcome
variable {ε α β : Type}

theorem mapM_perm {f : α → Except ε β} {as bs : List α} (h : as.Perm bs) {xs : List β}
    (hx : as.mapM f = .ok xs) : ∃ ys, bs.mapM f = .ok ys ∧ xs.Perm ys := by
  induction h generalizing xs with
  | nil => exact ⟨xs, hx, .refl _⟩
  | cons a h ih =>
    rw [List.mapM_cons] at hx
    obtain ⟨b, hb, hx⟩ := bind_eq_ok.mp hx
    obtain ⟨rest, hrest, hx⟩ := bind_eq_ok.mp hx
    cases hx
    obtain ⟨ys, hys, hperm⟩ := ih hrest
    refine ⟨b :: ys, ?_, hperm.cons b⟩
    rw [List.mapM_cons, hb, ok_bind, hys]
    rfl
  | swap a e as =>
    rw [List.mapM_cons, List.mapM_cons] at hx
    obtain ⟨b, hb, hx⟩ := bind_eq_ok.mp hx
    obtain ⟨more, hmore, hx⟩ := bind_eq_ok.mp hx
    obtain ⟨c, hc, hmore⟩ := bind_eq_ok.mp hmore
    obtain ⟨rest, hrest, hmore⟩ := bind_eq_ok.mp hmore
    cases hmore
    cases hx
    refine ⟨c :: b :: rest, ?_, .swap _ _ _⟩
    rw [List.mapM_cons, List.mapM_cons, hc, ok_bind, hb, ok_bind, hrest]
    rfl
  | trans h more ih ihmore =>
    obtain ⟨ys, hys, hperm⟩ := ih hx
    obtain ⟨zs, hzs, hmore⟩ := ihmore hys
    exact ⟨zs, hzs, hperm.trans hmore⟩

/-- Steps that may be exchanged, two at a time, may be taken in any order. -/
theorem foldlM_perm {f : β → α → Except ε β} {R : β → β → Prop} {P : α → α → Prop}
    {as bs : List α} (h : as.Perm bs) (hp : as.Pairwise P) {b c : β}
    (hf : as.foldlM f b = .ok c) (hsymm : ∀ {a e}, P a e → P e a)
    (hrefl : ∀ b, R b b) (htrans : ∀ {b c d}, R b c → R c d → R b d)
    (hstep : ∀ {b c a b'}, R b c → f b a = .ok b' → ∃ c', f c a = .ok c' ∧ R b' c')
    (hcomm : ∀ {a e b c d}, P a e → f b a = .ok c → f c e = .ok d →
      ∃ c' d', f b e = .ok c' ∧ f c' a = .ok d' ∧ R d d') :
    ∃ c', bs.foldlM f b = .ok c' ∧ R c c' := by
  -- After an exchange the states are only related, so the steps behind it are taken again from there.
  induction h generalizing b c with
  | nil => exact ⟨c, hf, hrefl c⟩
  | cons a h ih =>
    rw [List.foldlM_cons] at hf
    obtain ⟨next, hnext, hf⟩ := bind_eq_ok.mp hf
    obtain ⟨c', hc, hr⟩ := ih (List.pairwise_cons.mp hp).2 hf
    refine ⟨c', ?_, hr⟩
    rw [List.foldlM_cons, hnext]
    exact hc
  | swap a e as =>
    rw [List.foldlM_cons] at hf
    obtain ⟨next, hnext, hf⟩ := bind_eq_ok.mp hf
    rw [List.foldlM_cons] at hf
    obtain ⟨second, hsecond, hf⟩ := bind_eq_ok.mp hf
    have hea : P e a := (List.pairwise_cons.mp hp).1 a List.mem_cons_self
    obtain ⟨next', second', hn, hs, hr⟩ := hcomm hea hnext hsecond
    obtain ⟨c', hc, hr'⟩ := foldlM_congr hstep hr hf
    refine ⟨c', ?_, hr'⟩
    rw [List.foldlM_cons, hn, ok_bind, List.foldlM_cons, hs]
    exact hc
  | trans h more ih ihmore =>
    obtain ⟨d, hd, hr⟩ := ih hp hf
    obtain ⟨c', hc, hr'⟩ := ihmore ((h.pairwise_iff hsymm).mp hp) hd
    exact ⟨c', hc, htrans hr hr'⟩

end Outcome

namespace Fields
variable {α : Type} {fields : Fields α} {budget : Nat}

/-- Values of different fields may be read in either order. -/
theorem Fills.comm {name other : String} (hne : name ≠ other) {tree more : Tree}
    {slots filled next : Slots fields} (h : Fills budget name tree fields slots filled)
    (ho : Fills budget other more fields filled next) :
    ∃ mid, Fills budget other more fields slots mid ∧ Fills budget name tree fields mid next := by
  induction fields with
  | nil =>
    obtain ⟨read, hread, -⟩ := h
    cases hread
  | cons field fields ih =>
    obtain ⟨slot, slots⟩ := slots
    obtain ⟨last, next⟩ := next
    rcases fills_cons.mp h with ⟨hname, hslot, a, ha, rfl⟩ | ⟨hname, hslot, hrest⟩
    · rcases fills_cons.mp ho with ⟨hother, -⟩ | ⟨hother, hlast, hmore⟩
      · exact absurd (hname.trans hother.symm) hne
      · refine ⟨(slot, next), fills_cons.mpr (.inr ⟨hother, rfl, hmore⟩), ?_⟩
        exact fills_cons.mpr (.inl ⟨hname, hslot, a, ha, Prod.ext hlast rfl⟩)
    · rcases fills_cons.mp ho with ⟨hother, hempty, b, hb, hnext⟩ | ⟨hother, hlast, hmore⟩
      · cases hnext
        refine ⟨(some b, slots), fills_cons.mpr (.inl ⟨hother, ?_, b, hb, rfl⟩), ?_⟩
        · exact hslot.symm.trans hempty
        · exact fills_cons.mpr (.inr ⟨hname, rfl, hrest⟩)
      · obtain ⟨mid, hmid, hlater⟩ := ih hrest hmore
        refine ⟨(slot, mid), fills_cons.mpr (.inr ⟨hother, rfl, hmid⟩), ?_⟩
        exact fills_cons.mpr (.inr ⟨hname, hlast.trans hslot, hlater⟩)

theorem skipMember_comm {first second : Quoted × Tree} {slots filled next : Slots fields}
    (ha : first.1.Apart second.1) (h : skipMember fields budget slots first = .ok filled)
    (ho : skipMember fields budget filled second = .ok next) :
    ∃ mid last, skipMember fields budget slots second = .ok mid ∧
      skipMember fields budget mid first = .ok last ∧ next = last := by
  obtain ⟨name, hname, h⟩ := skipMember_eq_ok.mp h
  obtain ⟨other, hother, ho⟩ := skipMember_eq_ok.mp ho
  have hne : name ≠ other := by
    rintro rfl
    exact ha name hname hother
  rcases h with h | ⟨hmem, hfault, rfl⟩
  · rcases ho with ho | ⟨hmem, hfault, rfl⟩
    · obtain ⟨mid, hmid, hnext⟩ := h.comm hne ho
      exact ⟨mid, next, skipMember_eq_ok.mpr ⟨other, hother, .inl hmid⟩,
        skipMember_eq_ok.mpr ⟨name, hname, .inl hnext⟩, rfl⟩
    · exact ⟨slots, next, skipMember_eq_ok.mpr ⟨other, hother, .inr ⟨hmem, hfault, rfl⟩⟩,
        skipMember_eq_ok.mpr ⟨name, hname, .inl h⟩, rfl⟩
  · exact ⟨next, next, skipMember_eq_ok.mpr ⟨other, hother, ho⟩,
      skipMember_eq_ok.mpr ⟨name, hname, .inr ⟨hmem, hfault, rfl⟩⟩, rfl⟩

theorem keepMember_comm {first second : Quoted × Tree}
    {state filled next : Slots fields × List (String × Json)} (ha : first.1.Apart second.1)
    (h : keepMember fields budget state first = .ok filled)
    (ho : keepMember fields budget filled second = .ok next) :
    ∃ mid last, keepMember fields budget state second = .ok mid ∧
      keepMember fields budget mid first = .ok last ∧ Alike List.Perm next last := by
  obtain ⟨slots, others⟩ := state
  obtain ⟨part, more⟩ := filled
  obtain ⟨last, kept⟩ := next
  obtain ⟨name, hname, hfirst⟩ := keepMember_eq_ok.mp h
  obtain ⟨other, hother, hlater⟩ := keepMember_eq_ok.mp ho
  have hne : name ≠ other := by
    rintro rfl
    exact ha name hname hother
  rcases hfirst with ⟨hfill, rfl⟩ | ⟨hmem, rfl, value, hvalue, rfl⟩
  · rcases hlater with ⟨hnext, rfl⟩ | ⟨hmem, rfl, value, hvalue, rfl⟩
    · obtain ⟨mid, hmid, hlast⟩ := hfill.comm hne hnext
      refine ⟨(mid, kept), (last, kept), ?_, ?_, rfl, .refl _⟩
      · exact keepMember_eq_ok.mpr ⟨other, hother, .inl ⟨hmid, rfl⟩⟩
      · exact keepMember_eq_ok.mpr ⟨name, hname, .inl ⟨hlast, rfl⟩⟩
    · refine ⟨(slots, (other, value) :: more), (_, (other, value) :: more), ?_, ?_, rfl, .refl _⟩
      · exact keepMember_eq_ok.mpr ⟨other, hother, .inr ⟨hmem, rfl, value, hvalue, rfl⟩⟩
      · exact keepMember_eq_ok.mpr ⟨name, hname, .inl ⟨hfill, rfl⟩⟩
  · rcases hlater with ⟨hnext, rfl⟩ | ⟨hmore, rfl, later, hvalue', rfl⟩
    · refine ⟨(last, others), (last, (name, value) :: others), ?_, ?_, rfl, .refl _⟩
      · exact keepMember_eq_ok.mpr ⟨other, hother, .inl ⟨hnext, rfl⟩⟩
      · exact keepMember_eq_ok.mpr ⟨name, hname, .inr ⟨hmem, rfl, value, hvalue, rfl⟩⟩
    · refine ⟨(last, (other, later) :: others), (last, (name, value) :: (other, later) :: others),
        ?_, ?_, rfl, .swap _ _ _⟩
      · exact keepMember_eq_ok.mpr ⟨other, hother, .inr ⟨hmore, rfl, later, hvalue', rfl⟩⟩
      · exact keepMember_eq_ok.mpr ⟨name, hname, .inr ⟨hmem, rfl, value, hvalue, rfl⟩⟩

/-- The members that are kept have the keys of members, each one once. -/
theorem keepMembers_nodup {members : List (Quoted × Tree)} (hd : Tree.Distinct members)
    {state last : Slots fields × List (String × Json)}
    (h : members.foldlM (keepMember fields budget) state = .ok last) :
    ∃ kept, last.2 = kept ++ state.2 ∧ (kept.map (·.1)).Nodup ∧
      ∀ entry ∈ kept, ∃ member ∈ members, member.1.read = .ok entry.1 := by
  induction members generalizing state with
  | nil =>
    cases h
    exact ⟨[], rfl, List.nodup_nil, fun _ h => absurd h List.not_mem_nil⟩
  | cons member members ih =>
    rw [List.foldlM_cons] at h
    obtain ⟨next, hnext, h⟩ := Outcome.bind_eq_ok.mp h
    obtain ⟨hapart, hd⟩ := List.pairwise_cons.mp hd
    obtain ⟨kept, hkept, hnodup, hmem⟩ := ih hd h
    have hrest : ∀ entry ∈ kept, ∃ other ∈ member :: members, other.1.read = .ok entry.1 := by
      intro entry he
      obtain ⟨other, ho, hread⟩ := hmem entry he
      exact ⟨other, List.mem_cons_of_mem _ ho, hread⟩
    obtain ⟨slots, others⟩ := state
    obtain ⟨_, _⟩ := next
    obtain ⟨name, hname, hm⟩ := keepMember_eq_ok.mp hnext
    rcases hm with ⟨-, hothers⟩ | ⟨-, -, value, -, hothers⟩
    · exact ⟨kept, by rw [hkept, hothers], hnodup, hrest⟩
    · refine ⟨kept ++ [(name, value)], by simp [hkept, hothers], ?_, ?_⟩
      -- A member that is kept later has another key, and so another name.
      · have hfresh : name ∉ kept.map (·.1) := by
          intro hin
          obtain ⟨entry, he, rfl⟩ := List.mem_map.mp hin
          obtain ⟨other, ho, hread⟩ := hmem entry he
          exact hapart other ho _ hname hread
        rw [List.map_append, List.nodup_append]
        refine ⟨hnodup, by simp, ?_⟩
        rintro first hfirst second hsecond rfl
        have heq : first = name := by simpa using hsecond
        exact hfresh (heq ▸ hfirst)
      · intro entry he
        rcases List.mem_append.mp he with he | he
        · exact hrest entry he
        · rw [List.mem_singleton.mp he]
          exact ⟨member, List.mem_cons_self, hname⟩

/-- The same entries but for one value, in which objects are reordered. -/
inductive Touched : List (String × Json) → List (String × Json) → Prop where
  | same (entries : List (String × Json)) : Touched entries entries
  | value (before : List (String × Json)) (name : String) {value other : Json}
      (after : List (String × Json)) (reordered : Json.Reordered value other) :
      Touched (before ++ (name, value) :: after) (before ++ (name, other) :: after)

theorem Touched.cons {entries others : List (String × Json)} {entry : String × Json}
    (h : Touched entries others) : Touched (entry :: entries) (entry :: others) := by
  cases h with
  | same => exact .same _
  | value before name after reordered => exact .value (entry :: before) name after reordered

theorem Touched.reverse {entries others : List (String × Json)} (h : Touched entries others) :
    Touched entries.reverse others.reverse := by
  cases h with
  | same => exact .same _
  | value before name after reordered =>
    simp only [List.reverse_append, List.reverse_cons, List.append_assoc, List.singleton_append]
    exact .value after.reverse name before.reverse reordered

theorem Touched.eq_or_reordered {entries others : List (String × Json)}
    (h : Touched entries others) :
    entries = others ∨ Json.Reordered (.object entries) (.object others) := by
  cases h with
  | same => exact .inl rfl
  | value before name after reordered => exact .inr (.member before name after reordered)

end Fields

namespace Reader
variable {α : Type} {read : Reader α} {budget : Nat} {fault : Option Fault}

theorem entries_nodup {members : List (Quoted × Tree)} (hd : Tree.Distinct members)
    {entries : List (String × α)} (h : members.mapM (Reader.entry read budget) = .ok entries) :
    (entries.map (·.1)).Nodup := by
  induction members generalizing entries with
  | nil =>
    cases h
    exact List.nodup_nil
  | cons member members ih =>
    rw [List.mapM_cons] at h
    obtain ⟨entry, hentry, h⟩ := Outcome.bind_eq_ok.mp h
    obtain ⟨rest, hrest, h⟩ := Outcome.bind_eq_ok.mp h
    cases h
    obtain ⟨hapart, hd⟩ := List.pairwise_cons.mp hd
    refine List.nodup_cons.mpr ⟨?_, ih hd hrest⟩
    intro hin
    obtain ⟨other, ho, heq⟩ := List.mem_map.mp hin
    obtain ⟨second, hsecond, hread⟩ := Outcome.mapM_mem hrest other ho
    obtain ⟨name, hname, he⟩ := Outcome.bind_eq_ok.mp hentry
    obtain ⟨_, -, he⟩ := Outcome.bind_eq_ok.mp he
    cases he
    obtain ⟨name', hname', he⟩ := Outcome.bind_eq_ok.mp hread
    obtain ⟨_, -, he⟩ := Outcome.bind_eq_ok.mp he
    cases he
    have hsame : name' = name := heq
    exact hapart second hsecond name hname (hsame ▸ hname')

theorem entries_perm {members others : List (Quoted × Tree)} (perm : members.Perm others)
    (distinct : Tree.Distinct members) {entries : List (String × α)}
    (h : members.mapM (Reader.entry read budget) = .ok entries) :
    ∃ more, others.mapM (Reader.entry read budget) = .ok more ∧ entries.Perm more ∧
      (entries.map (·.1)).Nodup := by
  obtain ⟨more, hmore, hperm⟩ := Outcome.mapM_perm perm h
  exact ⟨more, hmore, hperm, entries_nodup distinct h⟩

theorem entry_eq_ok {key : Quoted} {tree : Tree} {entry : String × α} :
    Reader.entry read budget (key, tree) = .ok entry ↔
      key.read = .ok entry.1 ∧ read budget tree = .ok entry.2 := by
  constructor
  · intro h
    obtain ⟨name, hname, h⟩ := Outcome.bind_eq_ok.mp h
    obtain ⟨a, ha, h⟩ := Outcome.bind_eq_ok.mp h
    cases h
    exact ⟨hname, ha⟩
  · rintro ⟨hname, ha⟩
    simp only [Reader.entry, hname, ha, Outcome.ok_bind, Outcome.pure_eq]

/-- Any value is read from any order of members, with its own members in that order. -/
theorem value_reordered {tree other : Tree} (h : tree.Reordered other) {v : Json}
    (hv : value budget tree = .ok v) :
    ∃ w, value budget other = .ok w ∧ Json.Reordered v w := by
  induction h generalizing budget v with
  | members fault perm distinct =>
    rw [value_object] at hv ⊢
    obtain ⟨b, rfl, hv⟩ := enter_eq_ok hv
    obtain ⟨entries, hentries, hv⟩ := Outcome.bind_eq_ok.mp hv
    obtain ⟨_, hfault, hv⟩ := Outcome.bind_eq_ok.mp hv
    cases hv
    obtain ⟨more, hmore, hperm, hnodup⟩ := entries_perm perm distinct hentries
    refine ⟨.object more, ?_, .members hperm hnodup⟩
    simp only [enter, hmore, hfault, Outcome.ok_bind, Outcome.pure_eq]
  | item before after fault reordered ih =>
    rw [value_array] at hv ⊢
    obtain ⟨b, rfl, hv⟩ := enter_eq_ok hv
    obtain ⟨values, hvalues, hv⟩ := Outcome.bind_eq_ok.mp hv
    obtain ⟨_, hfault, hv⟩ := Outcome.bind_eq_ok.mp hv
    cases hv
    obtain ⟨first, v, rest, rfl, hitem, hother⟩ := Outcome.mapM_at hvalues
    obtain ⟨w, hw, hr⟩ := ih hitem
    refine ⟨.array (first ++ w :: rest), ?_, .item first rest hr⟩
    simp only [enter, hother hw, hfault, Outcome.ok_bind, Outcome.pure_eq]
  | member before key after fault reordered ih =>
    rw [value_object] at hv ⊢
    obtain ⟨b, rfl, hv⟩ := enter_eq_ok hv
    obtain ⟨entries, hentries, hv⟩ := Outcome.bind_eq_ok.mp hv
    obtain ⟨_, hfault, hv⟩ := Outcome.bind_eq_ok.mp hv
    cases hv
    obtain ⟨first, ⟨name, v⟩, rest, rfl, hentry, hother⟩ := Outcome.mapM_at hentries
    obtain ⟨hname, hvalue⟩ := entry_eq_ok.mp hentry
    obtain ⟨w, hw, hr⟩ := ih hvalue
    have hmore : Reader.entry value b (key, _) = .ok (name, w) := entry_eq_ok.mpr ⟨hname, hw⟩
    refine ⟨.object (first ++ (name, w) :: rest), ?_, .member first name rest hr⟩
    simp only [enter, hother hmore, hfault, Outcome.ok_bind, Outcome.pure_eq]

theorem value_eq_members (budget : Nat) (members : List (Quoted × Tree)) (fault : Option Fault) :
    value budget (.object members fault) =
      (Reader.members budget (.object members fault)).map .object := by
  cases budget with
  | zero => rfl
  | succ budget =>
    rw [value, Reader.members, enter]
    cases valueMembers budget members with
    | error e => rfl
    | ok entries => cases fault <;> rfl

theorem members_reordered {tree other : Tree} (h : tree.Reordered other)
    {kept : List (String × Json)} (hk : Reader.members budget tree = .ok kept) :
    ∃ more, Reader.members budget other = .ok more ∧
      Json.Reordered (.object kept) (.object more) := by
  have hobject {members others : List (Quoted × Tree)} {fault : Option Fault}
      (h : Tree.Reordered (.object members fault) (.object others fault))
      (hk : Reader.members budget (.object members fault) = .ok kept) :
      ∃ more, Reader.members budget (.object others fault) = .ok more ∧
        Json.Reordered (.object kept) (.object more) := by
    have hvalue : value budget (.object members fault) = .ok (.object kept) := by
      rw [value_eq_members, hk]
      rfl
    obtain ⟨w, hw, hr⟩ := value_reordered h hvalue
    rw [value_eq_members] at hw
    obtain ⟨more, hmore, rfl⟩ := Outcome.map_eq_ok.mp hw
    exact ⟨more, hmore, hr⟩
  cases h with
  | item => cases hk
  | members fault perm distinct => exact hobject (.members fault perm distinct) hk
  | member before key after fault reordered =>
    exact hobject (.member before key after fault reordered) hk

section
variable {fields : Fields α} {members others : List (Quoted × Tree)}

theorem kept_record_members (perm : members.Perm others) (distinct : Tree.Distinct members) :
    Kept (.record fields) budget (.object members fault) (.object others fault) := by
  intro a
  refine enter_kept fun b hb a ha => ?_
  obtain ⟨slots, hslots, ha⟩ := Outcome.bind_eq_ok.mp ha
  obtain ⟨_, hmore, rfl⟩ := Outcome.foldlM_perm perm distinct hslots Quoted.Apart.symm
    (fun _ => rfl) Eq.trans Outcome.step_of_eq Fields.skipMember_comm
  rw [hmore]
  exact ha

theorem openRecord_members (perm : members.Perm others) (distinct : Tree.Distinct members)
    {a : α} {kept : List (String × Json)}
    (h : openRecord fields budget (.object members fault) = .ok (a, kept)) :
    ∃ more, openRecord fields budget (.object others fault) = .ok (a, more) ∧
      Json.Reordered (.object kept) (.object more) := by
  obtain ⟨b, rfl, h⟩ := enter_eq_ok h
  obtain ⟨⟨slots, entries⟩, hentries, h⟩ := Outcome.bind_eq_ok.mp h
  obtain ⟨_, hfault, h⟩ := Outcome.bind_eq_ok.mp h
  obtain ⟨a', hfinish, h⟩ := Outcome.bind_eq_ok.mp h
  cases h
  have hshuffled : ∃ last, others.foldlM (fields.keepMember b) (fields.blank, []) = .ok last ∧
      Fields.Alike List.Perm (slots, entries) last :=
    Outcome.foldlM_perm perm distinct hentries Quoted.Apart.symm (fun _ => ⟨rfl, .refl _⟩)
      (fun h more => ⟨h.1.trans more.1, h.2.trans more.2⟩)
      (Fields.keepMember_congr fun h => h.cons _) Fields.keepMember_comm
  obtain ⟨⟨_, more⟩, hmore, rfl, hperm⟩ := hshuffled
  obtain ⟨kept, hkept, hnodup, -⟩ := Fields.keepMembers_nodup distinct hentries
  rw [List.append_nil] at hkept
  refine ⟨more.reverse, ?_, .members ?_ ?_⟩
  · simp only [openRecord, enter, hmore, hfault, hfinish, Outcome.ok_bind, Outcome.pure_eq]
  · exact (List.reverse_perm entries).trans (hperm.trans (List.reverse_perm more).symm)
  · have hkeys : ((entries.reverse).map (·.1)).Perm (kept.map (·.1)) := by
      rw [show entries = kept from hkept]
      exact (List.reverse_perm kept).map _
    exact hkeys.nodup_iff.mpr hnodup

theorem openRecord_reordered {before after : List (Quoted × Tree)} {key : Quoted}
    {tree other : Tree} (hknown : ∀ b field, field ∈ fields.toList → Kept field.2.read b tree other)
    (hunknown : tree.Reordered other) {a : α} {kept : List (String × Json)}
    (h : openRecord fields budget (.object (before ++ (key, tree) :: after) fault) =
      .ok (a, kept)) :
    ∃ more, openRecord fields budget (.object (before ++ (key, other) :: after) fault) =
        .ok (a, more) ∧
      (kept = more ∨ Json.Reordered (.object kept) (.object more)) := by
  obtain ⟨more, hmore, hr⟩ := openRecord_member Fields.Touched.same Fields.Touched.cons
    (fun b _ _ _ field hfield _ => hknown b field hfield)
    (fun b _ name _ _ v hv => by
      obtain ⟨w, hw, hr⟩ := value_reordered hunknown hv
      exact ⟨w, hw, fun entries => .value [] name entries hr⟩) h
  have htouched := hr.reverse
  rw [List.reverse_reverse, List.reverse_reverse] at htouched
  exact ⟨more, hmore, htouched.eq_or_reordered⟩

end

theorem kept_dict_members {members others : List (Quoted × Tree)} (perm : members.Perm others)
    (distinct : Tree.Distinct members) :
    Kept (.dict read) budget (.object members fault) (.object others fault) := by
  intro dict
  refine enter_kept fun b hb dict hdict => ?_
  obtain ⟨entries, hentries, hdict⟩ := Outcome.bind_eq_ok.mp hdict
  obtain ⟨_, hfault, hdict⟩ := Outcome.bind_eq_ok.mp hdict
  cases hdict
  obtain ⟨more, hmore, hperm, hnodup⟩ := @entries_perm _ read b _ _ perm distinct _ hentries
  have hsort : Dict.ofList more = Dict.ofList entries :=
    Dict.ext (Entries.sort_congr hperm hnodup).symm
  have hread : others.mapM (Reader.entry read b) >>= (fun entries => do
      proceed fault
      return .ofList entries) = .ok (Dict.ofList entries) := by
    rw [hmore, Outcome.ok_bind, hfault, ← hsort]
    rfl
  exact hread

/-- The value that goes with a variant's name is kept if it is no null before and after. -/
theorem kept_variant {variant : Variant α} {tree other : Tree}
    (hpayload : ∀ read, variant = .payload read → Kept read budget tree other)
    (hn : tree ≠ .null) : Kept variant.read budget tree other := by
  intro a ha
  cases variant with
  | unit b => cases tree <;> first | exact absurd rfl hn | cases ha
  | payload read => exact hpayload read rfl a ha

/-- The reader does not notice the order of members. -/
def Unordered (read : Reader α) : Prop :=
  ∀ {budget tree other}, Tree.Reordered tree other → Kept read budget tree other

namespace Unordered
variable {β : Type} {fields : Fields α}

theorem map (f : α → β) (h : Unordered read) : Unordered (.map f read) :=
  fun hr => (h hr).map f

theorem optional (h : Unordered read) : Unordered (.optional read) :=
  fun hr => (h hr).optional
    ⟨fun ht => absurd ht hr.ne_null, fun ho => absurd ho hr.symm.ne_null⟩

theorem list (h : Unordered read) : Unordered (.list read) := by
  intro budget tree other hr
  cases hr with
  | item before after fault reordered => exact kept_list fun b _ => h reordered
  | members | member => exact fun a ha => nomatch ha

theorem dict (h : Unordered read) : Unordered (.dict read) := by
  intro budget tree other hr
  cases hr with
  | item => exact fun a ha => nomatch ha
  | members fault perm distinct => exact kept_dict_members perm distinct
  | member before key after fault reordered => exact kept_dict fun b _ => h reordered

/-- The object of a choice has a single member, so that only its value may be reordered. -/
theorem choice {variant? : String → Option (Variant α)}
    (h : ∀ name read, variant? name = some (.payload read) → Unordered read) :
    Unordered (.choice variant?) := by
  intro budget tree other hr a ha
  cases hr with
  | item => cases ha
  | members fault perm distinct =>
    obtain ⟨b, key, tree, name, variant, rfl, rfl, -⟩ := choice_object_eq_ok.mp ha
    rw [List.perm_singleton.mp perm.symm]
    exact ha
  | member before key after fault reordered =>
    obtain ⟨b, only, tree, name, variant, rfl, hone, rfl, hname, hvariant, hread⟩ :=
      choice_object_eq_ok.mp ha
    obtain ⟨rfl, hone⟩ | ⟨hnil, hone⟩ := List.append_eq_singleton_iff.mp hone
    · cases hone
      refine choice_object_eq_ok.mpr ⟨b, key, _, name, variant, rfl, rfl, rfl, hname, hvariant, ?_⟩
      refine kept_variant ?_ reordered.ne_null a hread
      rintro read rfl
      exact h name read hvariant reordered
    · cases hone

theorem record (h : ∀ field ∈ fields.toList, Unordered field.2.read) :
    Unordered (.record fields) := by
  intro budget tree other hr
  cases hr with
  | members fault perm distinct => exact kept_record_members perm distinct
  | item before after fault reordered =>
    refine kept_record_item fun b _ field hfield => ?_
    exact h field (List.mem_of_getElem? hfield) reordered
  | member before key after fault reordered =>
    refine kept_record_member (fun b _ name _ field hfield _ => h field hfield reordered) ?_
    exact fun name _ _ hfault => reordered.fault? hfault

theorem openRecord {f : α × List (String × Json) → β}
    (h : ∀ field ∈ fields.toList, Unordered field.2.read)
    (hf : ∀ a {members others : List (String × Json)},
      Json.Reordered (.object members) (.object others) → f (a, members) = f (a, others)) :
    Unordered (.map f (.openRecord fields)) := by
  intro budget tree other hr c hc
  obtain ⟨⟨a, kept⟩, ha, rfl⟩ := Outcome.map_eq_ok.mp hc
  refine Outcome.map_eq_ok.mpr ?_
  cases hr with
  | item => cases ha
  | members fault perm distinct =>
    obtain ⟨more, hmore, hmembers⟩ := openRecord_members perm distinct ha
    exact ⟨(a, more), hmore, (hf a hmembers).symm⟩
  | member before key after fault reordered =>
    obtain ⟨more, hmore, rfl | hmembers⟩ :=
      openRecord_reordered (fun b field hfield => h field hfield reordered) reordered ha
    · exact ⟨_, hmore, rfl⟩
    · exact ⟨(a, more), hmore, (hf a hmembers).symm⟩

theorem members {f : List (String × Json) → β}
    (hf : ∀ {members others : List (String × Json)},
      Json.Reordered (.object members) (.object others) → f members = f others) :
    Unordered (.map f .members) := by
  intro budget tree other hr c hc
  obtain ⟨kept, hkept, rfl⟩ := Outcome.map_eq_ok.mp hc
  obtain ⟨more, hmore, hmembers⟩ := members_reordered hr hkept
  exact Outcome.map_eq_ok.mpr ⟨more, hmore, (hf hmembers).symm⟩

end Unordered

theorem Built.unordered (hb : Built read) : Unordered read := by
  induction hb with
  | string | bool | word =>
    intro budget tree other hr a ha
    cases hr <;> cases ha
  | refused => exact fun _ _ ha => nomatch ha
  | map f built ih => exact ih.map f
  | optional built begun ih => exact ih.optional
  | list built ih => exact ih.list
  | dict built ih => exact ih.dict
  | choice built ih => exact Unordered.choice ih
  | record built ih => exact Unordered.record ih
  | openRecord f built unordered ih => exact Unordered.openRecord ih unordered
  | members f unordered => exact Unordered.members unordered
  | diagonal read built ih => exact fun hr => ih _ hr

/-- No reader that is built notices the order of members. -/
theorem Built.reordered_iff (hb : Built read) {tree other : Tree}
    (h : Relation.ReflTransGen Tree.Reordered tree other) (a : α) :
    read budget tree = .ok a ↔ read budget other = .ok a := by
  induction h with
  | refl => rfl
  | tail _ h ih => exact ih.trans ⟨hb.unordered h a, hb.unordered h.symm a⟩

end Reader

open Reader (BuiltFields)

theorem Quoted.apart_ofText {text other : String} (h : text ≠ other) :
    (ofText text).Apart (ofText other) := by
  intro name hname hother
  rw [read_ofText, Except.ok.injEq] at hname hother
  exact h (hname.trans hother.symm)

theorem Json.Reordered.toTree {value other : Json} (h : Json.Reordered value other) :
    value.toTree.Reordered other.toTree := by
  induction h with
  | members perm distinct =>
    rw [Json.toTree, Json.toTree, Json.memberTrees_eq_map, Json.memberTrees_eq_map]
    refine .members none (perm.map _) ?_
    rw [Tree.Distinct, List.pairwise_map]
    exact (List.pairwise_map.mp distinct).imp Quoted.apart_ofText
  | item before after reordered ih =>
    simp only [Json.toTree, Json.itemTrees_eq_map, List.map_append, List.map_cons]
    exact .item _ _ none ih
  | member before key after reordered ih =>
    simp only [Json.toTree, Json.memberTrees_eq_map, List.map_append, List.map_cons]
    exact .member _ _ _ none ih

theorem CellAddress.reader_built : Reader.Built CellAddress.reader := by
  have hstart : Reader.Built tableStartReader :=
    .map _ (.record (BuiltFields.cons .index .nil))
  exact .map _ (.record (BuiltFields.cons hstart (.cons .index (.cons .index .nil))))

theorem CellAddress.ofMembers?_reordered {members others : List (String × Json)}
    (h : Json.Reordered (.object members) (.object others)) :
    ofMembers? members = ofMembers? others := by
  apply Option.ext
  intro address
  rw [ofMembers?_eq_some, ofMembers?_eq_some]
  exact reader_built.reordered_iff (.single h.toTree) address

theorem Location.reader_built : Reader.Built Location.reader := by
  refine .openRecord _ (BuiltFields.cons .index .nil) ?_
  rintro ⟨index, ⟨⟩⟩ members others h
  exact congrArg (Location.mk index) (CellAddress.ofMembers?_reordered h)

theorem Span.reader_built : Reader.Built Span.reader := by
  refine .openRecord _ (BuiltFields.cons .index (.cons .index .nil)) ?_
  rintro ⟨start, stop, ⟨⟩⟩ members others h
  exact congrArg (Span.mk start stop) (CellAddress.ofMembers?_reordered h)

namespace Request

theorem reader_built : Reader.Built reader := by
  have hinsertText : Reader.Built insertTextReader :=
    .map _ (.record (BuiltFields.cons Location.reader_built (.cons .string .nil)))
  have hupdateTextStyle : Reader.Built updateTextStyleReader :=
    .map _ (.record (BuiltFields.cons Span.reader_built
      (.cons Style.reader_built (.cons .string .nil))))
  have hinsertInlineImage : Reader.Built insertInlineImageReader :=
    .map _ (.record (BuiltFields.cons Location.reader_built (.cons .string .nil)))
  have hinsertTable : Reader.Built insertTableReader :=
    .map _ (.record (BuiltFields.cons .index (.cons .index (.cons Location.reader_built .nil))))
  have hupdateParagraphStyle : Reader.Built updateParagraphStyleReader :=
    .map _ (.record (BuiltFields.cons Span.reader_built
      (.cons Style.reader_built (.cons .string .nil))))
  refine .choice fun name read h => ?_
  unfold variant? at h
  repeat' split at h
  all_goals cases h
  all_goals assumption

end Request

theorem Batch.reader_built : Reader.Built Batch.reader :=
  .map _ (.record (BuiltFields.cons (.list Request.reader_built) .nil))

open Grammar Relation

/-- Members of objects in another order, at any depth and in any number of objects, make no
difference to what any text reads as. -/
theorem read_reordered {text other : String} {tree shuffled : Tree} (ht : Grammatical text tree)
    (ho : Grammatical other shuffled) (h : ReflTransGen Tree.Reordered tree shuffled) :
    (∀ document, Document.ofText text = .ok document ↔ Document.ofText other = .ok document) ∧
      (∀ options, Options.ofText text = .ok options ↔ Options.ofText other = .ok options) ∧
      (∀ request, Request.ofText text = .ok request ↔ Request.ofText other = .ok request) ∧
      ∀ batch, Batch.ofText text = .ok batch ↔ Batch.ofText other = .ok batch := by
  have hread {α : Type} {read : Reader α} (hb : Reader.Built read) (a : α) :
      (Scan.ofText text).read read = .ok a ↔ (Scan.ofText other).read read = .ok a := by
    rw [Scan.read_grammatical ht, Scan.read_grammatical ho]
    exact hb.reordered_iff h a
  refine ⟨fun document => ?_, fun options => ?_, hread Request.reader_built,
    hread Batch.reader_built⟩
  · simp only [Document.ofText, Document.ofScan, Outcome.mapError_eq_ok]
    exact hread Document.reader_built document
  · simp only [Options.ofText, Outcome.mapError_eq_ok]
    exact hread Options.reader_built options

/-- A document with its title before the body, and with the title after it. -/
theorem read_reordered_title :
    Document.ofText "\x7b\"title\":\"Plan\",\"body\":\x7b\x7d\x7d" =
        .ok ⟨none, some "Plan", [], .empty⟩ ∧
      Document.ofText "\x7b\"body\":\x7b\x7d, \"title\":\"Plan\"\x7d" =
        .ok ⟨none, some "Plan", [], .empty⟩ := by
  let title : Quoted × Tree := (.ofText "title", .string (.ofText "Plan"))
  let body : Quoted × Tree := (.ofText "body", .object [] none)
  have ht : Grammatical "\x7b\"title\":\"Plan\",\"body\":\x7b\x7d\x7d"
      (.object [title, body] none) := Scan.ofText_eq_iff.mp rfl
  have ho : Grammatical "\x7b\"body\":\x7b\x7d, \"title\":\"Plan\"\x7d"
      (.object [body, title] none) := Scan.ofText_eq_iff.mp rfl
  have hapart : title.1.Apart body.1 := by
    intro name h hbody
    simp only [title, body, Quoted.read_ofText, Except.ok.injEq] at h hbody
    subst h
    exact absurd hbody (by decide)
  have h : Tree.Reordered (.object [title, body] none) (.object [body, title] none) :=
    .members none (.swap _ _ _) (by simp [Tree.Distinct, hapart])
  have hread : Document.ofText "\x7b\"title\":\"Plan\",\"body\":\x7b\x7d\x7d" =
      .ok ⟨none, some "Plan", [], .empty⟩ := rfl
  exact ⟨hread, ((read_reordered ht ho (.single h)).1 _).mp hread⟩

end EditScript
