import Tally.Foundation.JsonText
import Tally.Store.Event

/-!
# Decoding records

What `json.Unmarshal` makes of the value of a record as a `store.Event`. The value is any bytes. It
is an error unless it is one JSON text, `null` or an object, whose members for the fields of an
event have the right types; but a field without a member keeps its zero value, and so does a string
or a timestamp whose member is `null`. So an empty object decodes, to an event without an id and a
name. How a number and a timestamp are converted is a parameter.

## Main definitions

* `Conversions`: the conversions of numbers and timestamps
* `runes`: the characters of some bytes, where every invalid byte is U+FFFD
* `unquote`: the characters of a string literal
* `EventField.find`: the field of a key
* `unmarshal`: `json.Unmarshal` into a `store.Event`
* `lastString`: the last string an object has under the key of a field

## Main results

* `strings_of_unmarshal`: the id and the name are the last strings under their keys
-/

namespace Tally

open Foundation

/-- The characters of a string as a literal. -/
def escaped (s : String) : List Char := s.toList.flatMap escape

/-- The conversions of numbers and timestamps between a literal and its value: `strconv.ParseFloat`,
which refuses a number out of range, with the text `encoding/json` writes for the result, and
`UnmarshalJSON` and `MarshalJSON` of a `time.Time`, of which the second refuses a year that has not
four digits. -/
structure Conversions where
  number : List Char → Option Numeral
  time : List Char → Option ℤ
  formatTime : ℤ → Option String
  isNumber_text {lit : List Char} {n : Numeral} : number lit = some n → isNumber n.text = true
  number_text {lit : List Char} {n : Numeral} : number lit = some n → number n.text = some n
  time_formatTime {t : ℤ} {s : String} : formatTime t = some s → time (escaped s) = some t

/-- Conversions that refuse every number and timestamp. -/
def Conversions.refusing : Conversions where
  number _ := none
  time _ := none
  formatTime _ := none
  isNumber_text h := by cases h
  number_text h := by cases h
  time_formatTime h := by cases h

/-! ## Characters and strings -/

section

variable {α β : Type*}

/-- Reads a list from its element number `skip` on, by a function that reads one value from an
element and those after it, and tells how many of these it took. -/
def readAll (read : α → List α → β × ℕ) : ℕ → List α → List β
  | _, [] => []
  | skip + 1, _ :: as => readAll read skip as
  | 0, a :: as => (read a as).1 :: readAll read (read a as).2 as

theorem readAll_length_append (read : α → List α → β × ℕ) (as rest : List α) :
    readAll read as.length (as ++ rest) = readAll read 0 rest := by
  induction as with
  | nil => rfl
  | cons a as ih => rw [List.length_cons, List.cons_append, readAll, ih]

/-- **Values are read back from what they are written as.** -/
theorem readAll_flatMap {read : α → List α → β × ℕ} {write : β → List α}
    (hread : ∀ b rest, ∃ a as, write b = a :: as ∧ read a (as ++ rest) = (b, as.length))
    (bs : List β) : readAll read 0 (bs.flatMap write) = bs := by
  induction bs with
  | nil => rfl
  | cons b bs ih =>
    obtain ⟨a, as, hwrite, hb⟩ := hread b (bs.flatMap write)
    rw [List.flatMap_cons, hwrite, List.cons_append, readAll, hb, readAll_length_append, ih]

end

/-- What an invalid byte or surrogate becomes. -/
def replacement : Char := Char.ofNat 0xFFFD

/-- `utf8.DecodeRune`: the character that begins with a byte, and how many bytes of it follow. A
byte that begins no valid encoding is a character of its own. -/
def decodeRune (b : UInt8) (bs : List UInt8) : Char × ℕ :=
  match (b :: bs).toByteArray.utf8DecodeChar? 0 with
  | some c => (c, c.utf8Size - 1)
  | none => (replacement, 0)

/-- The characters of some bytes. -/
def runes (bs : List UInt8) : List Char := readAll decodeRune 0 bs

/-- The value of a hexadecimal digit. -/
def hexValue (c : Char) : ℕ :=
  if c.isDigit then c.toNat - '0'.toNat
  else if c.toNat < 'a'.toNat then c.toNat - 'A'.toNat + 10
  else c.toNat - 'a'.toNat + 10

/-- The code unit of four hexadecimal digits. -/
def codeUnit (a b c d : Char) : ℕ :=
  ((hexValue a * 16 + hexValue b) * 16 + hexValue c) * 16 + hexValue d

/-- The code unit of an escape `\uXXXX` that follows. -/
def getu4 : List Char → Option ℕ
  | '\\' :: 'u' :: a :: b :: c :: d :: _ => some (codeUnit a b c d)
  | _ => none

/-- `utf16.DecodeRune`: the character of a surrogate pair, if the code units are one. -/
def surrogatePair (hi lo : ℕ) : Option Char :=
  if 0xD800 ≤ hi ∧ hi < 0xDC00 ∧ 0xDC00 ≤ lo ∧ lo < 0xE000 then
    some (Char.ofNat ((hi - 0xD800) * 1024 + (lo - 0xDC00) + 0x10000))
  else none

/-- The character of an escape of two characters. -/
def unescape (c : Char) : Char :=
  if c = 'b' then Char.ofNat 8
  else if c = 'f' then Char.ofNat 12
  else if c = 'n' then '\n'
  else if c = 'r' then '\r'
  else if c = 't' then '\t'
  else c

/-- The character that begins with one of a string literal, and how many of the literal follow. -/
def unquoteChar (c : Char) (rest : List Char) : Char × ℕ :=
  if c ≠ '\\' then (c, 0)
  else
    match rest with
    | 'u' :: a :: b :: c :: d :: rest =>
      let r := codeUnit a b c d
      if 0xD800 ≤ r ∧ r < 0xE000 then
        match (getu4 rest).bind (surrogatePair r) with
        | some ch => (ch, 11)
        | none => (replacement, 5)
      else (Char.ofNat r, 5)
    | d :: _ => (unescape d, 1)
    | [] => (replacement, 0)

/-- The characters of a string literal. -/
def unquote (lit : List Char) : List Char := readAll unquoteChar 0 lit

/-- The string of a literal. -/
def unquoteString (lit : List Char) : String := String.ofList (unquote lit)

example : unquote "\\ud83d\\ude00 \\ud83d\\n".toList = "😀 �\n".toList := by decide +kernel

example : runes [0x61, 0xC3, 0xA9, 0xFF, 0xE2, 0x82] = "aé���".toList := by decide +kernel

/-! ## Values of any type -/

/-- A map with one more entry, in the order of the keys; an entry of the key is replaced. -/
def insertField (k : String) (v : Json) : List (String × Json) → List (String × Json)
  | [] => [(k, v)]
  | (k', v') :: fs =>
    if k < k' then (k, v) :: (k', v') :: fs
    else if k = k' then (k, v) :: fs
    else (k', v') :: insertField k v fs

section

variable (conv : Conversions)

mutual

/-- A value decoded into an `any`. -/
def toAny : JsonText → Option Json
  | .null => some .null
  | .bool b => some (.bool b)
  | .num lit => (conv.number lit).map .num
  | .str lit => some (.str (unquoteString lit))
  | .arr xs => (anyElems xs).map .arr
  | .obj ms => (anyMembers [] ms).map .obj

def anyElems : List JsonText → Option (List Json)
  | [] => some []
  | x :: xs => (toAny x).bind fun y => (anyElems xs).map (y :: ·)

/-- The members of an object decoded into a map that has some entries. -/
def anyMembers : List (String × Json) → List (List Char × JsonText) → Option (List (String × Json))
  | fs, [] => some fs
  | fs, (k, v) :: ms => (toAny v).bind fun j => anyMembers (insertField (unquoteString k) j fs) ms

end

end

/-! ## Events -/

/-- The fields of `store.Event`. -/
inductive EventField where
  | eventId
  | name
  | distinctId
  | properties
  | ts
  deriving DecidableEq

namespace EventField

/-- The key of a field in JSON. -/
def tag : EventField → String
  | .eventId => "event_id"
  | .name => "name"
  | .distinctId => "distinct_id"
  | .properties => "properties"
  | .ts => "ts"

def all : List EventField := [.eventId, .name, .distinctId, .properties, .ts]

/-- The smallest character that differs from this one in case only, for a character that equals one
of a tag so: besides the letters these are the long s and the Kelvin sign. -/
def foldRune (c : Char) : Char :=
  if c = Char.ofNat 0x17F then 'S' else if c = Char.ofNat 0x212A then 'K' else c.toUpper

def foldName (s : String) : List Char := s.toList.map foldRune

/-- The field of a key: that with the key as its tag, or else one with that tag up to case. -/
def find (key : String) : Option EventField :=
  (all.find? fun field => field.tag = key).or
    (all.find? fun field => foldName field.tag = foldName key)

end EventField

/-- The zero value of `store.Event`. Its timestamp is the beginning of the year 1. -/
def Event.zero : Event := ⟨"", "", "", none, -62135596800000000000⟩

/-- A value decoded into a string: `null` leaves it as it is. -/
def decodeString (old : String) : JsonText → Option String
  | .null => some old
  | .str lit => some (unquoteString lit)
  | _ => none

/-- A value decoded into the properties: `null` makes them nil, and an object adds its members. -/
def decodeProperties (conv : Conversions) (old : Option (List (String × Json))) :
    JsonText → Option (Option (List (String × Json)))
  | .null => some none
  | .obj ms => (anyMembers conv (old.getD []) ms).map some
  | _ => none

/-- A value decoded into the timestamp: `null` leaves it as it is. -/
def decodeTime (conv : Conversions) (old : ℤ) : JsonText → Option ℤ
  | .null => some old
  | .str lit => conv.time lit
  | _ => none

/-- A member decoded into an event; one of no field is skipped. -/
def decodeMember (conv : Conversions) (e : Event) (member : List Char × JsonText) : Option Event :=
  match EventField.find (unquoteString member.1) with
  | none => some e
  | some .eventId => (decodeString e.eventId member.2).map fun id => { e with eventId := id }
  | some .name => (decodeString e.name member.2).map fun name => { e with name := name }
  | some .distinctId =>
    (decodeString e.distinctId member.2).map fun id => { e with distinctId := id }
  | some .properties =>
    (decodeProperties conv e.properties member.2).map fun fs => { e with properties := fs }
  | some .ts => (decodeTime conv e.ts member.2).map fun ts => { e with ts := ts }

/-- The members of the object a record holds; `null` holds none. -/
def recordMembers (value : List UInt8) : Option (List (List Char × JsonText)) :=
  -- `encoding/json` reads at most 10000 nested arrays and objects
  match parseJson 10000 (runes value) with
  | some .null => some []
  | some (.obj ms) => some ms
  | _ => none

/-- `json.Unmarshal` of a record into a `store.Event`. -/
def unmarshal (conv : Conversions) (value : List UInt8) : Option Event :=
  (recordMembers value).bind fun ms => ms.foldlM (decodeMember conv) .zero

/-! ## The strings of a record -/

/-- The string a value is. -/
def asString : JsonText → Option String
  | .str lit => some (unquoteString lit)
  | _ => none

/-- The string a member has for a field. -/
def stringOf (field : EventField) (member : List Char × JsonText) : Option String :=
  if EventField.find (unquoteString member.1) = some field then asString member.2 else none

/-- The last string the members have for a field, or the one given if there is none. -/
def lastString (field : EventField) (old : String) (ms : List (List Char × JsonText)) : String :=
  (ms.filterMap (stringOf field)).getLastD old

variable {conv : Conversions} {e e' : Event}

theorem lastString_cons (field : EventField) (old : String) (member : List Char × JsonText)
    (ms : List (List Char × JsonText)) :
    lastString field old (member :: ms) =
      lastString field ((stringOf field member).getD old) ms := by
  unfold lastString
  cases hstr : stringOf field member with
  | none => rw [List.filterMap_cons_none hstr, Option.getD_none]
  | some s => rw [List.filterMap_cons_some hstr, List.getLastD_cons, Option.getD_some]

/-- A string field takes the string of its member, and keeps its own for a `null`. -/
theorem getD_of_decodeString {old new : String} {t : JsonText}
    (h : decodeString old t = some new) : new = (asString t).getD old := by
  cases t with
  | null => exact (Option.some.inj h).symm
  | str lit => exact (Option.some.inj h).symm
  | _ => cases h

/-- A member changes the id and the name only where it has a string for them. -/
theorem strings_of_decodeMember {member : List Char × JsonText}
    (h : decodeMember conv e member = some e') :
    e'.eventId = (stringOf .eventId member).getD e.eventId ∧
      e'.name = (stringOf .name member).getD e.name := by
  unfold decodeMember at h
  unfold stringOf
  cases hfield : EventField.find (unquoteString member.1) with
  | none =>
    rw [hfield] at h
    obtain rfl := Option.some.inj h
    exact ⟨rfl, rfl⟩
  | some field =>
    rw [hfield] at h
    cases field with
    | eventId =>
      obtain ⟨id, hid, rfl⟩ := Option.map_eq_some_iff.mp h
      exact ⟨getD_of_decodeString hid, rfl⟩
    | name =>
      obtain ⟨name, hname, rfl⟩ := Option.map_eq_some_iff.mp h
      exact ⟨rfl, getD_of_decodeString hname⟩
    | distinctId =>
      obtain ⟨id, -, rfl⟩ := Option.map_eq_some_iff.mp h
      exact ⟨rfl, rfl⟩
    | properties =>
      obtain ⟨fs, -, rfl⟩ := Option.map_eq_some_iff.mp h
      exact ⟨rfl, rfl⟩
    | ts =>
      obtain ⟨ts, -, rfl⟩ := Option.map_eq_some_iff.mp h
      exact ⟨rfl, rfl⟩

theorem strings_of_foldlM {ms : List (List Char × JsonText)}
    (h : ms.foldlM (decodeMember conv) e = some e') :
    e'.eventId = lastString .eventId e.eventId ms ∧ e'.name = lastString .name e.name ms := by
  induction ms generalizing e with
  | nil =>
    obtain rfl := Option.some.inj h
    exact ⟨rfl, rfl⟩
  | cons member ms ih =>
    obtain ⟨e₁, hmember, hrest⟩ := Option.bind_eq_some_iff.mp (List.foldlM_cons.symm.trans h)
    obtain ⟨hid, hname⟩ := strings_of_decodeMember hmember
    rw [lastString_cons, lastString_cons, ← hid, ← hname]
    exact ih hrest

/-- **The id and the name of a decoded event are the last strings under their keys**, and empty if
there are none. -/
theorem strings_of_unmarshal {value : List UInt8} (h : unmarshal conv value = some e) :
    ∃ ms, recordMembers value = some ms ∧ e.eventId = lastString .eventId "" ms ∧
      e.name = lastString .name "" ms := by
  obtain ⟨ms, hms, hfold⟩ := Option.bind_eq_some_iff.mp h
  exact ⟨ms, hms, strings_of_foldlM hfold⟩

end Tally
