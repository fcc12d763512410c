import Tally.Queue.Unmarshal

/-!
# The records of the producer

`KafkaProducer.Enqueue` marshals an event into a record, and `Run` unmarshals it. What is written is
read back: the characters from their bytes, a string from its literal, the syntax of a value from
its text, and the value from its syntax. So an event passes through the topic unchanged, if its
properties are values that JSON decoding can produce.

## Main definitions

* `Event.record`: the value of the record of an event
* `Json.text`: the syntax of a value
* `Json.Decoded`, `Event.Decoded`: values that JSON decoding can produce

## Main results

* `runes_encode`, `unquote_escaped`, `toAny_text`: characters, strings and values are read back
* `unmarshal_record`: an event is decoded from its record
-/

namespace Tally

open Foundation

/-- The properties as they are marshalled: a nil map is `null`. -/
def Event.propertiesJson (e : Event) : Json :=
  match e.properties with
  | none => .null
  | some fs => .obj fs

/-- The fields of an event as `json.Marshal` writes them. -/
def Event.fields (e : Event) (ts : String) : List (String × Json) :=
  [("event_id", .str e.eventId), ("name", .str e.name), ("distinct_id", .str e.distinctId),
    ("properties", e.propertiesJson), ("ts", .str ts)]

/-- The value of the record that `KafkaProducer.Enqueue` produces, if `json.Marshal` succeeds. -/
def Event.record (conv : Conversions) (e : Event) : Option (List UInt8) :=
  (conv.formatTime e.ts).map fun ts =>
    (marshal (.obj (e.fields ts))).flatMap String.utf8EncodeChar

/-! ## Characters and strings -/

/-- A character is read back from its bytes, whatever follows them. -/
theorem decodeRune_encode (c : Char) (rest : List UInt8) :
    ∃ b bs, String.utf8EncodeChar c = b :: bs ∧ decodeRune b (bs ++ rest) = (c, bs.length) := by
  have hlen : (String.utf8EncodeChar c).length = c.utf8Size := String.length_utf8EncodeChar c
  have hpos := c.utf8Size_pos
  cases hbytes : String.utf8EncodeChar c with
  | nil =>
    rw [hbytes, List.length_nil] at hlen
    omega
  | cons b bs =>
    have hdecode : (b :: (bs ++ rest)).toByteArray.utf8DecodeChar? 0 = some c := by
      rw [← List.cons_append, ← hbytes, List.toByteArray_append]
      exact ByteArray.utf8DecodeChar?_utf8EncodeChar_append
    refine ⟨b, bs, rfl, ?_⟩
    rw [hbytes, List.length_cons] at hlen
    have hwidth : c.utf8Size - 1 = bs.length := by omega
    simp only [decodeRune, hdecode, hwidth]

/-- **Characters are read back from their bytes.** -/
theorem runes_encode (cs : List Char) : runes (cs.flatMap String.utf8EncodeChar) = cs :=
  readAll_flatMap decodeRune_encode cs

theorem hexDigit_read (k : ℕ) :
    isHexDigit (hexDigit (k % 16)) = true ∧ hexValue (hexDigit (k % 16)) = k % 16 := by
  have hall : ∀ i : Fin 16, isHexDigit (hexDigit i) = true ∧ hexValue (hexDigit i) = i := by
    decide +kernel
  exact hall ⟨k % 16, Nat.mod_lt k (by decide)⟩

theorem codeUnit_hexDigit {n : ℕ} (hn : n < 65536) :
    codeUnit (hexDigit (n / 4096 % 16)) (hexDigit (n / 256 % 16)) (hexDigit (n / 16 % 16))
      (hexDigit (n % 16)) = n := by
  simp only [codeUnit, (hexDigit_read _).2]
  omega

/-- The characters written as `\uXXXX` are no surrogates. -/
theorem unquoteChar_unicodeEscape {n : ℕ} (hn : n < 0xD800) (rest : List Char) :
    ∃ a as, unicodeEscape n = a :: as ∧ unquoteChar a (as ++ rest) = (Char.ofNat n, as.length) := by
  have hunit := codeUnit_hexDigit (show n < 65536 by omega)
  have hsurrogate : ¬ (0xD800 ≤ n ∧ n < 0xE000) := by omega
  exact ⟨_, _, rfl, by simp [unquoteChar, hunit, hsurrogate]⟩

/-- The two-character escapes are read as strings, and back. -/
theorem shortEscapes_read : ∀ x ∈ shortEscapes,
    x.2 ≠ 'u' ∧ StrState.escape.step x.2 = some .plain ∧ unescape x.2 = x.1 := by decide

/-- **A string is read back from its literal.** -/
theorem unquote_escaped (s : String) : unquoteString (escaped s) = s := by
  have hread : ∀ (c : Char) (rest : List Char),
      ∃ a as, escape c = a :: as ∧ unquoteChar a (as ++ rest) = (c, as.length) := by
    intro c rest
    rcases escape_cases c with ⟨d, hd, hesc⟩ | ⟨hesc, hlt⟩ | ⟨hesc, -, hne, -⟩
    · obtain ⟨hu, -, hback⟩ := shortEscapes_read _ hd
      exact ⟨'\\', [d], hesc, by simpa [unquoteChar, hu] using hback⟩
    · obtain ⟨a, as, hu, hread⟩ := unquoteChar_unicodeEscape hlt rest
      rw [Char.ofNat_toNat] at hread
      exact ⟨a, as, hesc.trans hu, hread⟩
    · exact ⟨c, [], hesc, by simp [unquoteChar, hne]⟩
  rw [unquoteString, unquote, escaped, readAll_flatMap hread, String.ofList_toList]

theorem foldlM_unicodeEscape (n : ℕ) :
    (unicodeEscape n).foldlM StrState.step .plain = some .plain := by
  have hhex : ∀ left k, StrState.step (.hex (left + 1)) (hexDigit (k % 16)) = some (.hex left) := by
    intro left k
    rw [StrState.step, if_pos (hexDigit_read k).1]
  have hlast : ∀ k, StrState.step (.hex 0) (hexDigit (k % 16)) = some .plain := by
    intro k
    rw [StrState.step, if_pos (hexDigit_read k).1]
  have hopen : StrState.step .plain '\\' = some .escape := rfl
  have hu : StrState.step .escape 'u' = some (.hex 3) := rfl
  simp [unicodeEscape, hopen, hu, hhex, hlast]

/-- What is written for a string is a string. -/
theorem isString_escaped (s : String) : isString (escaped s) = true := by
  have hescape : ∀ c, (escape c).foldlM StrState.step .plain = some .plain := by
    intro c
    rcases escape_cases c with ⟨d, hd, hesc⟩ | ⟨hesc, -⟩ | ⟨hesc, hquote, hne, hge⟩
    · have hopen : StrState.step .plain '\\' = some .escape := rfl
      simp [hesc, hopen, (shortEscapes_read _ hd).2.1]
    · rw [hesc, foldlM_unicodeEscape]
    · have hlt : ¬ c.toNat < 32 := by omega
      simp [hesc, StrState.step, hquote, hne, hlt]
  have hall : ∀ cs : List Char,
      (cs.flatMap escape).foldlM StrState.step .plain = some .plain := by
    intro cs
    induction cs with
    | nil => rfl
    | cons c cs ih => simpa [hescape c] using ih
  exact decide_eq_true (hall s.toList)

/-! ## The text of a value -/

mutual

/-- The syntax of a value. -/
def Json.text : Json → JsonText
  | .null => .null
  | .bool b => .bool b
  | .num n => .num n.text
  | .str s => .str (escaped s)
  | .arr xs => .arr (textElems xs)
  | .obj fs => .obj (textFields fs)

def textElems : List Json → List JsonText
  | [] => []
  | x :: xs => x.text :: textElems xs

def textFields : List (String × Json) → List (List Char × JsonText)
  | [] => []
  | (k, v) :: fs => (escaped k, v.text) :: textFields fs

end

theorem quote_eq (s : String) : quote s = '"' :: escaped s ++ ['"'] := rfl

mutual

/-- **`json.Marshal` writes the text of the syntax.** -/
theorem marshal_eq_render : ∀ j : Json, marshal j = j.text.render
  | .null => by simp [marshal, Json.text, JsonText.render]
  | .bool true => by simp [marshal, Json.text, JsonText.render]
  | .bool false => by simp [marshal, Json.text, JsonText.render]
  | .num n => by rw [marshal, Json.text, JsonText.render]
  | .str s => by rw [marshal, Json.text, JsonText.render, quote_eq]
  | .arr [] => by rw [marshal, Json.text, textElems, JsonText.render]
  | .arr (x :: xs) => by
    rw [marshal, Json.text, textElems, JsonText.render, marshal_eq_render x,
      marshalElems_eq_render xs]
  | .obj [] => by rw [marshal, Json.text, textFields, JsonText.render]
  | .obj ((k, v) :: fs) => by
    rw [marshal, Json.text, textFields, JsonText.render, marshal_eq_render v,
      marshalFields_eq_render fs, quote_eq]
    simp only [List.cons_append, List.nil_append, List.append_assoc]

theorem marshalElems_eq_render : ∀ xs : List Json,
    marshalElems xs = JsonText.renderElems (textElems xs)
  | [] => rfl
  | x :: xs => by
    rw [marshalElems, textElems, JsonText.renderElems, marshal_eq_render x,
      marshalElems_eq_render xs]

theorem marshalFields_eq_render : ∀ fs : List (String × Json),
    marshalFields fs = JsonText.renderMembers (textFields fs)
  | [] => rfl
  | (k, v) :: fs => by
    rw [marshalFields, textFields, JsonText.renderMembers, marshal_eq_render v,
      marshalFields_eq_render fs, quote_eq]
    simp only [List.cons_append, List.nil_append, List.append_assoc]

end

/-! ## Values that JSON decoding can produce -/

section

variable (conv : Conversions)

mutual

/-- The numbers are results of a conversion, the keys of every object are in order, and at most `n`
arrays and objects are nested. -/
def Json.Decoded : ℕ → Json → Prop
  | _, .null | _, .bool _ | _, .str _ => True
  | _, .num m => ∃ lit, conv.number lit = some m
  | 0, .arr _ | 0, .obj _ => False
  | n + 1, .arr xs => DecodedElems n xs
  | n + 1, .obj fs => fs.Pairwise (fun f g => f.1 < g.1) ∧ DecodedFields n fs

def DecodedElems : ℕ → List Json → Prop
  | _, [] => True
  | n, x :: xs => x.Decoded n ∧ DecodedElems n xs

def DecodedFields : ℕ → List (String × Json) → Prop
  | _, [] => True
  | n, (_, v) :: fs => v.Decoded n ∧ DecodedFields n fs

end

/-- The properties are nil, or values that decoding a record can produce: the record and they are
nested at most 10000 deep. -/
def Event.Decoded (e : Event) : Prop := e.propertiesJson.Decoded conv 9999

end

variable {conv : Conversions}

mutual

theorem fits_text : ∀ (j : Json) (n : ℕ), j.Decoded conv n → j.text.Fits n
  | .null, _, _ => trivial
  | .bool _, _, _ => trivial
  | .str s, _, _ => isString_escaped s
  | .num m, _, h => by
    rw [Json.Decoded] at h
    obtain ⟨lit, hlit⟩ := h
    exact conv.isNumber_text hlit
  | .arr xs, n + 1, h => by
    rw [Json.Decoded] at h
    rw [Json.text, JsonText.Fits]
    exact fits_textElems xs n h
  | .obj fs, n + 1, h => by
    rw [Json.Decoded] at h
    rw [Json.text, JsonText.Fits]
    exact fits_textFields fs n h.2

theorem fits_textElems : ∀ (xs : List Json) (n : ℕ), DecodedElems conv n xs →
    JsonText.FitsElems n (textElems xs)
  | [], _, _ => trivial
  | x :: xs, n, h => by
    rw [DecodedElems] at h
    exact ⟨fits_text x n h.1, fits_textElems xs n h.2⟩

theorem fits_textFields : ∀ (fs : List (String × Json)) (n : ℕ), DecodedFields conv n fs →
    JsonText.FitsMembers n (textFields fs)
  | [], _, _ => trivial
  | (k, v) :: fs, n, h => by
    rw [DecodedFields] at h
    exact ⟨isString_escaped k, fits_text v n h.1, fits_textFields fs n h.2⟩

end

/-- A key above all others goes to the end of a map. -/
theorem insertField_of_lt {k : String} {v : Json} {fs : List (String × Json)}
    (h : ∀ f ∈ fs, f.1 < k) : insertField k v fs = fs ++ [(k, v)] := by
  induction fs with
  | nil => rfl
  | cons f fs ih =>
    have hlt := h f List.mem_cons_self
    rw [insertField, if_neg (lt_asymm hlt), if_neg hlt.ne', List.cons_append,
      ih fun g hg => h g (List.mem_cons_of_mem f hg)]

mutual

/-- **A value is read back from its syntax.** -/
theorem toAny_text : ∀ (j : Json) (n : ℕ), j.Decoded conv n → toAny conv j.text = some j
  | .null, _, _ => rfl
  | .bool _, _, _ => rfl
  | .str s, _, _ => by rw [Json.text, toAny, unquote_escaped]
  | .num m, _, h => by
    rw [Json.Decoded] at h
    obtain ⟨lit, hlit⟩ := h
    rw [Json.text, toAny, conv.number_text hlit, Option.map_some]
  | .arr xs, n + 1, h => by
    rw [Json.Decoded] at h
    rw [Json.text, toAny, anyElems_text xs n h, Option.map_some]
  | .obj fs, n + 1, h => by
    rw [Json.Decoded] at h
    rw [Json.text, toAny, anyMembers_text fs n [] h.1 h.2 (by simp), Option.map_some,
      List.nil_append]

theorem anyElems_text : ∀ (xs : List Json) (n : ℕ), DecodedElems conv n xs →
    anyElems conv (textElems xs) = some xs
  | [], _, _ => rfl
  | x :: xs, n, h => by
    rw [DecodedElems] at h
    rw [textElems, anyElems, toAny_text x n h.1, Option.bind_some, anyElems_text xs n h.2,
      Option.map_some]

/-- Fields in order, all above those that are there, are added one after the other. -/
theorem anyMembers_text : ∀ (fs : List (String × Json)) (n : ℕ) (before : List (String × Json)),
    fs.Pairwise (fun f g => f.1 < g.1) → DecodedFields conv n fs →
    (∀ b ∈ before, ∀ f ∈ fs, b.1 < f.1) →
    anyMembers conv before (textFields fs) = some (before ++ fs)
  | [], _, before, _, _, _ => by rw [textFields, anyMembers, List.append_nil]
  | (k, v) :: fs, n, before, hsorted, h, hbefore => by
    rw [DecodedFields] at h
    obtain ⟨hhead, htail⟩ := List.pairwise_cons.mp hsorted
    have hnext : ∀ b ∈ before ++ [(k, v)], ∀ f ∈ fs, b.1 < f.1 := by
      intro b hb f hf
      rcases List.mem_append.mp hb with hb | hb
      · exact hbefore b hb f (List.mem_cons_of_mem _ hf)
      · rw [List.mem_singleton.mp hb]
        exact hhead f hf
    rw [textFields, anyMembers, toAny_text v n h.1, Option.bind_some, unquote_escaped,
      insertField_of_lt fun b hb => hbefore b hb (k, v) List.mem_cons_self,
      anyMembers_text fs n (before ++ [(k, v)]) htail h.2 hnext, List.append_assoc,
      List.singleton_append]

end

/-! ## Records -/

variable {e : Event}

/-- The members of the record of an event. -/
theorem recordMembers_record {value : List UInt8} (hdec : e.Decoded conv)
    (h : e.record conv = some value) :
    ∃ ts, conv.formatTime e.ts = some ts ∧
      recordMembers value = some (textFields (e.fields ts)) := by
  obtain ⟨ts, hts, rfl⟩ := Option.map_eq_some_iff.mp h
  refine ⟨ts, hts, ?_⟩
  have hstr : ∀ s, (JsonText.str (escaped s)).Fits 9999 := isString_escaped
  have hfits : (Json.obj (e.fields ts)).text.Fits 10000 :=
    ⟨isString_escaped _, hstr _, isString_escaped _, hstr _, isString_escaped _, hstr _,
      isString_escaped _, fits_text _ _ hdec, isString_escaped _, hstr _, trivial⟩
  rw [recordMembers, runes_encode, marshal_eq_render, parseJson_render hfits]
  rfl

theorem EventField.find_tag (field : EventField) : EventField.find field.tag = some field := by
  cases field <;> decide +kernel

/-- The properties are decoded from their text. -/
theorem decodeProperties_text (hdec : e.Decoded conv) :
    decodeProperties conv none e.propertiesJson.text = some e.properties := by
  unfold Event.Decoded at hdec
  unfold Event.propertiesJson at hdec ⊢
  cases hprops : e.properties with
  | none => rfl
  | some fs =>
    rw [hprops] at hdec
    obtain ⟨hsorted, hfields⟩ := hdec
    rw [Json.text, decodeProperties, Option.getD_none,
      anyMembers_text fs 9998 [] hsorted hfields (by simp), Option.map_some, List.nil_append]

/-- **An event is decoded from its record.** -/
theorem unmarshal_record {value : List UInt8} (hdec : e.Decoded conv)
    (h : e.record conv = some value) : unmarshal conv value = some e := by
  obtain ⟨ts, hts, hmembers⟩ := recordMembers_record hdec h
  have hid : EventField.find "event_id" = some .eventId := EventField.find_tag .eventId
  have hname : EventField.find "name" = some .name := EventField.find_tag .name
  have hdistinct : EventField.find "distinct_id" = some .distinctId :=
    EventField.find_tag .distinctId
  have hprops : EventField.find "properties" = some .properties := EventField.find_tag .properties
  have htime : EventField.find "ts" = some .ts := EventField.find_tag .ts
  rw [unmarshal, hmembers, Option.bind_some]
  simp only [Event.fields, textFields, Json.text, List.foldlM_cons, List.foldlM_nil, decodeMember,
    unquote_escaped, hid, hname, hdistinct, hprops, htime, decodeString, Event.zero,
    Option.map_some, Option.bind_eq_bind, Option.bind_some, decodeProperties_text hdec, decodeTime,
    conv.time_formatTime hts, Option.pure_def]

end Tally
