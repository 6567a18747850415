import EditScript.Json.Reader
import EditScript.Proofs.Json.Tokens
import EditScript.Proofs.Outcome

namespace EditScript.Scan

open Grammar

variable {frames : List Frame} {mode : Mode} {tree : Tree} {key : Quoted}
  {members : List (Quoted × Tree)} {text blank name before more : List Char} {c : Char}

/-- The text of the finished members before a key, with the comma after them. -/
inductive Opened : List (Quoted × Tree) → List Char → Prop where
  | first : Opened [] []
  | next {members : List (Quoted × Tree)} {text : List Char}
      (h : Derives (.members members.reverse) text) : Opened members (text ++ [','])

theorem Opened.member (h : Opened members before) (hk : Derives (.key key) name)
    (hv : Derives (.element tree) text) :
    Derives (.members ((key, tree) :: members).reverse) (before ++ (name ++ ':' :: text)) := by
  rw [List.reverse_cons]
  cases h with
  | first => exact .firstMember hk hv
  | next h =>
    rw [List.append_assoc]
    exact .nextMember h hk hv

/-- The texts after which a value is expected in these containers. -/
inductive Expects : List Frame → List Char → Prop where
  | top {blank : List Char} (hb : Blank blank) : Expects [] blank
  | firstItem {frames : List Frame} {text blank : List Char} (h : Expects frames text)
      (hb : Blank blank) : Expects (.array [] :: frames) (text ++ '[' :: blank)
  | nextItem {frames : List Frame} {items : List Tree} {text done blank : List Char}
      (h : Expects frames text) (hi : Derives (.items items.reverse) done) (hb : Blank blank) :
      Expects (.array items :: frames) (text ++ '[' :: (done ++ ',' :: blank))
  | member {frames : List Frame} {members : List (Quoted × Tree)} {key : Quoted}
      {text before name blank : List Char} (h : Expects frames text) (ho : Opened members before)
      (hk : Derives (.key key) name) (hb : Blank blank) :
      Expects (.object members key :: frames) (text ++ '\x7b' :: (before ++ (name ++ ':' :: blank)))

inductive Reached : List Frame → Mode → List Char → Prop where
  | value {frames : List Frame} {text : List Char} (h : Expects frames text) :
      Reached frames .value text
  | complete {tree : Tree} {text : List Char} (h : Derives (.element tree) text) :
      Reached [] (.complete tree) text
  | firstItem {frames : List Frame} {text blank : List Char} (h : Expects frames text)
      (hb : Blank blank) : Reached frames .firstItem (text ++ '[' :: blank)
  | afterItem {frames : List Frame} {items : List Tree} {text done : List Char}
      (h : Expects frames text) (hi : Derives (.items items.reverse) done) :
      Reached frames (.afterItem items) (text ++ '[' :: done)
  | firstMember {frames : List Frame} {text blank : List Char} (h : Expects frames text)
      (hb : Blank blank) : Reached frames .firstMember (text ++ '\x7b' :: blank)
  | nextKey {frames : List Frame} {members : List (Quoted × Tree)} {text before blank : List Char}
      (h : Expects frames text) (ho : Opened members before) (hb : Blank blank) :
      Reached frames (.nextKey members) (text ++ '\x7b' :: (before ++ blank))
  | key {frames : List Frame} {members : List (Quoted × Tree)} {pieces : List Piece}
      {escape : Escape} {text before blank quoted : List Char} (h : Expects frames text)
      (ho : Opened members before) (hb : Blank blank) (hq : Quoted.Begun pieces escape quoted) :
      Reached frames (.key members pieces escape)
        (text ++ '\x7b' :: (before ++ (blank ++ '"' :: quoted)))
  | colon {frames : List Frame} {members : List (Quoted × Tree)} {key : Quoted}
      {text before name : List Char} (h : Expects frames text) (ho : Opened members before)
      (hk : Derives (.key key) name) :
      Reached frames (.colon members key) (text ++ '\x7b' :: (before ++ name))
  | afterMember {frames : List Frame} {members : List (Quoted × Tree)} {text done : List Char}
      (h : Expects frames text) (hm : Derives (.members members.reverse) done) :
      Reached frames (.afterMember members) (text ++ '\x7b' :: done)
  | literal {frames : List Frame} {tree : Tree} {text done rest : List Char}
      (h : Expects frames text) (hl : Derives (.value tree) (done ++ rest)) :
      Reached frames (.literal rest tree) (text ++ done)
  | numeral {frames : List Frame} {n : Numeral} {phase : Phase} {text digits : List Char}
      (h : Expects frames text) (hn : n.Begun phase digits) :
      Reached frames (.numeral n phase) (text ++ digits)
  | text {frames : List Frame} {pieces : List Piece} {escape : Escape} {text quoted : List Char}
      (h : Expects frames text) (hq : Quoted.Begun pieces escape quoted) :
      Reached frames (.text pieces escape) (text ++ '"' :: quoted)

/-- The texts after which the machine is in this state. After a fault nothing is said of them. -/
def State.Reached : State → List Char → Prop
  | .reading frames mode, text => Scan.Reached frames mode text
  | .over _, _ => True

theorem blank_concat (hb : Blank blank) (hc : isBlank c) : Blank (blank ++ [c]) :=
  blank_append hb fun d hd => by rwa [List.mem_singleton.mp hd]

theorem Expects.concat (h : Expects frames text) (hc : isBlank c) :
    Expects frames (text ++ [c]) := by
  cases h with
  | top hb => exact .top (blank_concat hb hc)
  | firstItem h hb =>
    rw [List.append_assoc]
    exact .firstItem h (blank_concat hb hc)
  | nextItem h hi hb =>
    have hmore := Expects.nextItem h hi (blank_concat hb hc)
    simpa using hmore
  | member h ho hk hb =>
    have hmore := Expects.member h ho hk (blank_concat hb hc)
    simpa using hmore

theorem Expects.plug (h : Expects frames text) (hv : Derives (.value tree) more) :
    (plug frames tree).Reached (text ++ more) := by
  cases h with
  | top hb => exact .complete (hv.after hb)
  | firstItem h hb =>
    rw [List.append_assoc]
    exact .afterItem h (.firstItem (hv.after hb))
  | @nextItem frames items text done blank h hi hb =>
    have hnext := Derives.nextItem hi (hv.after hb)
    rw [← List.reverse_cons] at hnext
    have hr := Reached.afterItem h hnext
    simpa [State.Reached, Scan.plug] using hr
  | member h ho hk hb =>
    have hr := Reached.afterMember h (ho.member hk (hv.after hb))
    simpa [State.Reached, Scan.plug] using hr

theorem Expects.begin (h : Expects frames text) (c : Char) :
    (begin frames c).Reached (text ++ [c]) := by
  unfold Scan.begin
  by_cases hn : c = 'n'
  · subst hn
    exact .literal h .null
  rw [if_neg hn]
  by_cases ht : c = 't'
  · subst ht
    exact .literal h .true
  rw [if_neg ht]
  by_cases hf : c = 'f'
  · subst hf
    exact .literal h .false
  rw [if_neg hf]
  by_cases hquote : c = '"'
  · subst hquote
    exact .text h .nil
  rw [if_neg hquote]
  by_cases harray : c = '['
  · subst harray
    exact .firstItem h blank_nil
  rw [if_neg harray]
  by_cases hobject : c = '\x7b'
  · subst hobject
    exact .firstMember h blank_nil
  rw [if_neg hobject]
  by_cases hminus : c = '-'
  · subst hminus
    exact .numeral h .minus
  rw [if_neg hminus]
  cases hd : digit? c with
  | none => trivial
  | some k =>
    obtain ⟨hc, rfl⟩ := isDigit_of_digit? hd
    have hb := Numeral.Begun.first false hc
    by_cases hz : c = '0'
    · subst hz
      exact .numeral h hb
    · have hpos : c.toNat-48 ≠ 0 := toNat_of_isDigit hc hz
      rw [if_neg hz] at hb
      split
      · rename_i hzero
        exact absurd (Option.some.inj hzero) hpos
      · rename_i d _ hsome
        rw [← Option.some.inj hsome]
        exact .numeral h hb
      · rename_i hnone
        cases hnone

theorem Reached.concat (h : Scan.Reached frames mode text) (hmode : mode.Between)
    (hc : isBlank c) : Scan.Reached frames mode (text ++ [c]) := by
  have hone : Blank [c] := blank_concat blank_nil hc
  cases h with
  | value h => exact .value (h.concat hc)
  | complete h => exact .complete (h.element_blank hone)
  | firstItem h hb =>
    rw [List.append_assoc]
    exact .firstItem h (blank_concat hb hc)
  | afterItem h hi =>
    rw [List.append_assoc]
    exact .afterItem h (hi.items_blank hone)
  | firstMember h hb =>
    rw [List.append_assoc]
    exact .firstMember h (blank_concat hb hc)
  | nextKey h ho hb =>
    have hr := Reached.nextKey h ho (blank_concat hb hc)
    simpa using hr
  | colon h ho hk =>
    have hr := Reached.colon h ho (hk.key_blank hone)
    simpa using hr
  | afterMember h hm =>
    rw [List.append_assoc]
    exact .afterMember h (hm.members_blank hone)
  | literal | numeral | text | key => exact absurd hmode id

section
variable {items : List Tree} {done : List Char}

theorem Expects.separate_firstItem (h : Expects frames text) (hb : Blank blank)
    (hc : ¬isBlank c = true) :
    (separate frames .firstItem c).Reached (text ++ '[' :: blank ++ [c]) := by
  rw [Scan.separate, if_neg hc]
  split
  · rename_i hclose
    rw [hclose, List.append_assoc]
    exact h.plug (.emptyArray hb)
  · exact (Expects.firstItem h hb).begin c

theorem Expects.separate_afterItem (h : Expects frames text)
    (hi : Derives (.items items.reverse) done) (hc : ¬isBlank c = true) :
    (separate frames (.afterItem items) c).Reached (text ++ '[' :: done ++ [c]) := by
  rw [Scan.separate, if_neg hc]
  split
  · rename_i hcomma
    have hr := Reached.value (.nextItem h hi blank_nil)
    simpa [hcomma, State.Reached] using hr
  · split
    · rename_i hclose
      rw [hclose, List.append_assoc]
      exact h.plug (.array hi)
    · trivial

theorem Expects.separate_firstMember (h : Expects frames text) (hb : Blank blank)
    (hc : ¬isBlank c = true) :
    (separate frames .firstMember c).Reached (text ++ '\x7b' :: blank ++ [c]) := by
  rw [Scan.separate, if_neg hc]
  split
  · rename_i hclose
    rw [hclose, List.append_assoc]
    exact h.plug (.emptyObject hb)
  · split
    · rename_i hquote
      rw [hquote, List.append_assoc]
      exact .key h .first hb .nil
    · trivial

theorem Expects.separate_afterMember (h : Expects frames text)
    (hm : Derives (.members members.reverse) done) (hc : ¬isBlank c = true) :
    (separate frames (.afterMember members) c).Reached (text ++ '\x7b' :: done ++ [c]) := by
  rw [Scan.separate, if_neg hc]
  split
  · rename_i hcomma
    have hr := Reached.nextKey h (.next hm) blank_nil
    simpa [hcomma, State.Reached] using hr
  · split
    · rename_i hclose
      rw [hclose, List.append_assoc]
      exact h.plug (.object hm)
    · trivial

end

theorem Reached.separate (h : Scan.Reached frames mode text) (hmode : mode.Between) (c : Char) :
    (separate frames mode c).Reached (text ++ [c]) := by
  by_cases hc : isBlank c
  · unfold Scan.separate
    rw [if_pos hc]
    exact h.concat hmode hc
  cases h with
  | value h =>
    rw [Scan.separate, if_neg hc]
    exact h.begin c
  | complete h =>
    unfold Scan.separate
    rw [if_neg hc]
    trivial
  | firstItem h hb => exact h.separate_firstItem hb hc
  | afterItem h hi => exact h.separate_afterItem hi hc
  | firstMember h hb => exact h.separate_firstMember hb hc
  | afterMember h hm => exact h.separate_afterMember hm hc
  | nextKey h ho hb =>
    rw [Scan.separate, if_neg hc]
    split
    · rename_i hquote
      have hr := Reached.key h ho hb .nil
      simpa [hquote, State.Reached] using hr
    · trivial
  | colon h ho hk =>
    rw [Scan.separate, if_neg hc]
    split
    · rename_i hcolon
      have hr := Reached.value (.member h ho hk blank_nil)
      simpa [hcolon, State.Reached] using hr
    · trivial
  | literal | numeral | text | key => exact absurd hmode id

theorem reached_separate_plug (h : (plug frames tree).Reached text) (c : Char) :
    ((plug frames tree).separate (.char c)).Reached (text ++ [c]) := by
  obtain ⟨outer, mode, hmode, hplug⟩ := between_plug frames tree
  rw [hplug] at h ⊢
  exact Reached.separate h hmode c

theorem Expects.step_literal {done rest : List Char} (h : Expects frames text)
    (hl : Derives (.value tree) (done ++ rest)) (c : Char) :
    (step (.reading frames (.literal rest tree)) (.char c)).Reached (text ++ done ++ [c]) := by
  cases rest with
  | nil =>
    rw [List.append_nil] at hl
    exact reached_separate_plug (h.plug hl) c
  | cons next rest =>
    have hstep : Scan.step (.reading frames (.literal (next :: rest) tree)) (.char c) =
        if c = next then
          if rest = [] then Scan.plug frames tree else .reading frames (.literal rest tree)
        else refuse frames (.literal (next :: rest) tree) := by
      cases rest <;> simp [Scan.step]
    rw [hstep, List.append_assoc]
    by_cases hc : c = next
    · subst hc
      rw [if_pos rfl]
      by_cases hrest : rest = []
      · subst hrest
        exact h.plug hl
      · rw [if_neg hrest]
        exact .literal h (by simpa using hl)
    · rw [if_neg hc]
      trivial

theorem Expects.step_numeral {n : Numeral} {phase : Phase} {digits : List Char}
    (h : Expects frames text) (hn : n.Begun phase digits) (c : Char) :
    (step (.reading frames (.numeral n phase)) (.char c)).Reached (text ++ digits ++ [c]) := by
  simp only [Scan.step]
  split
  · rename_i hg
    rw [List.append_assoc]
    exact .numeral h (hn.grow hg)
  · rename_i hg
    exact reached_separate_plug (h.plug (.numeral (hn.spelled (Numeral.final_of_done hg)))) c
  · trivial

theorem Reached.step (h : Scan.Reached frames mode text) (c : Char) :
    (step (.reading frames mode) (.char c)).Reached (text ++ [c]) := by
  cases mode with
  | value | firstItem | afterItem | firstMember | nextKey | colon | afterMember | complete =>
    exact h.separate trivial c
  | literal rest tree =>
    cases h with
    | literal h hl => exact h.step_literal hl c
  | numeral n phase =>
    cases h with
    | numeral h hn => exact h.step_numeral hn c
  | text pieces escape =>
    cases h with
    | text h hq =>
      simp only [Scan.step]
      rw [List.append_assoc]
      split
      · rename_i hl
        exact .text h (hq.lengthen hl)
      · rename_i hl
        obtain ⟨rfl, hi⟩ := hq.closed hl
        exact h.plug (.string (.mk hi))
      · trivial
  | key members pieces escape =>
    cases h with
    | key h ho hb hq =>
      simp only [Scan.step]
      split
      · rename_i hl
        have hr := Reached.key h ho hb (hq.lengthen hl)
        simpa [State.Reached] using hr
      · rename_i hl
        obtain ⟨rfl, hi⟩ := hq.closed hl
        have hr := Reached.colon h ho (.key hb (.mk hi) blank_nil)
        simpa [State.Reached] using hr
      · trivial

theorem State.Reached.feed {state : State} (h : state.Reached text) (more : List Char) :
    (Scan.feed state more).Reached (text ++ more) := by
  induction more generalizing state text with
  | nil => simpa using h
  | cons c more ih =>
    have hs : (Scan.step state (.char c)).Reached (text ++ [c]) := by
      cases state with
      | «over» tree => trivial
      | reading frames mode => exact Scan.Reached.step h c
    have hr := ih hs
    simpa using hr

theorem State.Reached.settle {state : State} (h : state.Reached text) :
    (settle .ended state).Reached text := by
  cases state with
  | «over» tree => trivial
  | reading frames mode =>
    cases mode with
    | numeral n phase =>
      by_cases hfinal : phase.final = true
      · simp only [Scan.settle, hfinal, and_self, if_true]
        cases h with
        | numeral h hn => exact h.plug (.numeral (hn.spelled hfinal))
      · simp only [Scan.settle, hfinal]
        exact h
    | value | firstItem | afterItem | firstMember | nextKey | colon | afterMember | literal | text
    | key | complete => exact h

/-- A text is read as a tree without a fault exactly if the grammar gives it that tree. -/
theorem ofText_eq_iff {text : String} {tree : Tree} :
    ofText text = ⟨tree, none⟩ ↔ Grammatical text tree := by
  refine ⟨fun h => ?_, ofText_grammatical⟩
  have hstart : start.Reached [] := Scan.Reached.value (.top blank_nil)
  have hr := (hstart.feed text.toList).settle
  have hf : finish .ended (feed start text.toList) = ⟨tree, none⟩ := h
  unfold finish at hf
  rw [List.nil_append] at hr
  cases hs : settle .ended (feed start text.toList) with
  | «over» tree =>
    rw [hs] at hf
    cases hf
  | reading frames mode =>
    rw [hs] at hf hr
    cases mode with
    | complete tree =>
      cases hr with
      | complete hr =>
        cases hf
        exact hr
    | value | firstItem | afterItem | firstMember | nextKey | colon | afterMember | literal
    | numeral | text | key => cases hf

section
variable {α : Type} {read : Reader α} {text : String}

theorem read_grammatical (h : Grammatical text tree) :
    (ofText text).read read = read depthLimit tree := by
  rw [ofText_grammatical h]
  cases hr : read depthLimit tree <;> simp [Scan.read, Reader.proceed, hr]

/-- Only grammatical text is read. -/
theorem read_ofText_eq_ok {a : α} :
    (ofText text).read read = .ok a ↔
      ∃ tree, Grammatical text tree ∧ read depthLimit tree = .ok a := by
  constructor
  · intro h
    obtain ⟨b, hb, hrest⟩ := Outcome.bind_eq_ok.mp h
    obtain ⟨_, hrest, ⟨⟩⟩ := Outcome.bind_eq_ok.mp hrest
    cases hs : ofText text with
    | mk tree rest =>
      rw [hs] at hb hrest
      cases rest with
      | some fault => cases hrest
      | none => exact ⟨tree, ofText_eq_iff.mp hs, hb⟩
  · rintro ⟨tree, ht, h⟩
    rw [read_grammatical ht, h]

end

end EditScript.Scan
