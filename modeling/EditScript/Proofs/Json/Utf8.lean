import EditScript.Json.Symbol

namespace EditScript.Symbol

theorem leading?_eq_some {bytes : List UInt8} {c : Char} :
    leading? bytes = some c ↔ String.utf8EncodeChar c <+: bytes := by
  constructor
  · intro h
    obtain ⟨rest, hrest⟩ := ByteArray.exists_of_utf8DecodeChar?_eq_some h
    have hlist : bytes.take 4 = String.utf8EncodeChar c ++ rest.data.toList := by
      simpa using congrArg (fun array => array.data.toList) hrest
    exact (hlist ▸ List.prefix_append _ _).trans (List.take_prefix 4 bytes)
  · rintro ⟨rest, rfl⟩
    have hsize : (String.utf8EncodeChar c).length ≤ 4 := by
      rw [String.length_utf8EncodeChar]
      exact c.utf8Size_le_four
    rw [leading?, List.take_append, List.take_of_length_le hsize, List.toByteArray_append]
    exact ByteArray.utf8DecodeChar?_utf8EncodeChar_append

theorem ofBytesAfter_append (taken bytes : List UInt8) :
    ofBytesAfter taken.length (taken ++ bytes) = ofBytes bytes := by
  induction taken with
  | nil => rfl
  | cons byte taken ih =>
    rw [List.cons_append, ofBytesAfter, if_pos (by simp)]
    exact ih

theorem ofBytes_char (c : Char) (bytes : List UInt8) :
    ofBytes (String.utf8EncodeChar c ++ bytes) = .char c :: ofBytes bytes := by
  have hsize := String.length_utf8EncodeChar c
  have hlead := leading?_eq_some.mpr (List.prefix_append (String.utf8EncodeChar c) bytes)
  cases h : String.utf8EncodeChar c with
  | nil =>
    have hpos := c.utf8Size_pos
    rw [← hsize, h] at hpos
    exact absurd hpos (Nat.lt_irrefl 0)
  | cons byte taken =>
    rw [h, List.cons_append] at hlead
    rw [h, List.length_cons] at hsize
    have htaken : c.utf8Size-1 = taken.length := by omega
    rw [List.cons_append, ofBytes, ofBytesAfter, if_neg (Nat.lt_irrefl 0), hlead]
    simp only [htaken, ofBytesAfter_append]

theorem ofBytes_stray {byte : UInt8} {bytes : List UInt8} (h : leading? (byte :: bytes) = none) :
    ofBytes (byte :: bytes) = .stray byte :: ofBytes bytes := by
  rw [ofBytes, ofBytesAfter, if_neg (Nat.lt_irrefl 0), h]
  rfl

theorem ofBytes_utf8Encode (chars : List Char) :
    ofBytes (chars.flatMap String.utf8EncodeChar) = chars.map .char := by
  induction chars with
  | nil => rfl
  | cons c chars ih => rw [List.flatMap_cons, ofBytes_char, ih, List.map_cons]

theorem ofBytes_toUTF8 (text : String) : ofBytes text.toUTF8.data.toList = ofText text := by
  have hbytes : text.toUTF8.data.toList = text.toList.flatMap String.utf8EncodeChar := by
    rw [String.toUTF8_eq_toByteArray, ← String.utf8Encode_toList, List.utf8Encode,
      List.toList_data_toByteArray]
  rw [hbytes, ofBytes_utf8Encode, ofText]

/-- The symbols of bytes that are cut short, beside those of the same bytes with more behind them. -/
inductive Cut : List Symbol → List Symbol → Prop where
  | after (more : List Symbol) : Cut [] more
  | inside (strays : List UInt8) (c : Char) (more : List Symbol) (short : strays.length < c.utf8Size) :
      Cut (strays.map .stray) (.char c :: more)
  | cons (symbol : Symbol) {symbols more : List Symbol} (cut : Cut symbols more) :
      Cut (symbol :: symbols) (symbol :: more)

/-- No character begins within the encoding of another. -/
theorem leading?_continuation {c : Char} {byte : UInt8} {before bytes : List UInt8}
    (h : before ++ byte :: bytes <+: String.utf8EncodeChar c) (hb : before ≠ []) :
    leading? (byte :: bytes) = none := by
  refine Option.eq_none_iff_forall_ne_some.mpr fun d hd => ?_
  obtain ⟨rest, hrest⟩ := leading?_eq_some.mp hd
  have hpos : 0 < (String.utf8EncodeChar d).length := by
    rw [String.length_utf8EncodeChar]
    exact d.utf8Size_pos
  have hbyte : (String.utf8EncodeChar d)[0] = byte := by
    have hhead : (String.utf8EncodeChar d ++ rest)[0]? = some byte := by
      rw [hrest]
      rfl
    rw [List.getElem?_append_left hpos] at hhead
    exact (List.getElem?_eq_some_iff.mp hhead).2
  have hfirst : byte.IsUTF8FirstByte := by
    rw [← hbyte]
    exact UInt8.isUTF8FirstByte_getElem_utf8EncodeChar.mpr rfl
  obtain ⟨tail, htail⟩ := h
  have hlt : before.length < (String.utf8EncodeChar c).length := by
    rw [← htail]
    simp
  have hat : (String.utf8EncodeChar c)[before.length] = byte := by
    simp [← htail]
  rw [← hat] at hfirst
  exact hb (List.length_eq_zero_iff.mp (UInt8.isUTF8FirstByte_getElem_utf8EncodeChar.mp hfirst))

/-- What is left of a character without its first bytes is strays only. -/
theorem ofBytes_continuation {c : Char} {before bytes : List UInt8}
    (h : before ++ bytes <+: String.utf8EncodeChar c) (hb : before ≠ []) :
    ofBytes bytes = bytes.map .stray := by
  induction bytes generalizing before with
  | nil => rfl
  | cons byte bytes ih =>
    have hnext : before ++ [byte] ++ bytes <+: String.utf8EncodeChar c := by simpa using h
    rw [ofBytes_stray (leading?_continuation h hb), ih hnext (by simp), List.map_cons]

theorem cut_ofBytes (bytes more : List UInt8) : Cut (ofBytes bytes) (ofBytes (bytes ++ more)) := by
  -- On the length: a character takes several bytes at once, a stray only one.
  induction h : bytes.length using Nat.strongRecOn generalizing bytes with
  | ind n ih =>
    cases bytes with
    | nil => exact .after _
    | cons byte bytes =>
      cases hlead : leading? (byte :: bytes) with
      | some c =>
        obtain ⟨rest, hrest⟩ := leading?_eq_some.mp hlead
        have hsize := congrArg List.length hrest
        rw [List.length_append, String.length_utf8EncodeChar, h] at hsize
        have hpos := c.utf8Size_pos
        rw [← hrest, List.append_assoc, ofBytes_char, ofBytes_char]
        exact .cons _ (ih rest.length (by omega) rest rfl)
      | none =>
        cases hwhole : leading? (byte :: bytes ++ more) with
        | none =>
          rw [ofBytes_stray hlead]
          rw [List.cons_append] at hwhole ⊢
          rw [ofBytes_stray hwhole]
          exact .cons _ (ih bytes.length (by simp [← h]) bytes rfl)
        | some c =>
          -- the encoding of `c` does not fit into the bytes, so they are a part of it
          obtain ⟨rest, hrest⟩ := leading?_eq_some.mp hwhole
          have hshort : ¬String.utf8EncodeChar c <+: byte :: bytes := by
            intro hprefix
            rw [leading?_eq_some.mpr hprefix] at hlead
            cases hlead
          have hpart : byte :: bytes <+: String.utf8EncodeChar c :=
            (List.prefix_or_prefix_of_prefix (List.prefix_append (byte :: bytes) more)
              ⟨rest, hrest⟩).resolve_right hshort
          have hlt : (byte :: bytes).length < c.utf8Size := by
            rw [← String.length_utf8EncodeChar]
            refine Nat.lt_of_le_of_ne hpart.length_le fun heq => hshort ?_
            exact (hpart.eq_of_length heq).symm ▸ List.prefix_refl _
          have htail : ofBytes bytes = bytes.map .stray :=
            ofBytes_continuation (List.singleton_append ▸ hpart) (List.cons_ne_nil byte [])
          have hstrays : ofBytes (byte :: bytes) = (byte :: bytes).map .stray := by
            rw [ofBytes_stray hlead, htail, List.map_cons]
          rw [hstrays, ← hrest, ofBytes_char]
          exact .inside _ _ _ hlt

end EditScript.Symbol
