import Mathlib.Data.List.Basic
import Mathlib.Tactic.Tauto

/-!
# Event properties and their jsonb text

The properties of an event are a Go `map[string]any` filled by `encoding/json`, so they are JSON
values. `InsertBatch` marshals them to text and hands the text to Postgres as `jsonb`. Postgres
refuses a document that contains the escape `\u0000`; the marshalled text contains it exactly when
some string of the value, a key included, contains the character U+0000.

## Main definitions

* `Json`: the values of `any` that JSON decoding produces
* `marshal`: `json.Marshal`
* `nulEscape`: the jsonb lexer's search for the escape `\u0000`
* `Json.hasNul`: some string of the value contains U+0000

## Main results

* `nulEscape_marshal`: the text is refused exactly on the values with a U+0000
-/

namespace Tally

/-- The text `encoding/json` writes for a finite `float64`. -/
structure Numeral where
  text : List Char
  plain : ∀ c ∈ text, c ≠ '"'

/-- What JSON decoding puts into an `any`. An object lists its fields in the order of its keys,
as `json.Marshal` writes a map. -/
inductive Json where
  | null
  | bool (b : Bool)
  | num (n : Numeral)
  | str (s : String)
  | arr (elems : List Json)
  | obj (fields : List (String × Json))

/-- The character U+0000. -/
def nul : Char := Char.ofNat 0

/-- The text contains the character U+0000. -/
def containsNul (s : String) : Bool := s.toList.contains nul

/-! ## Marshalling -/

/-- A lower-case hexadecimal digit. -/
def hexDigit (k : ℕ) : Char := "0123456789abcdef".toList.getD k '0'

/-- The escape `\uXXXX` of a code unit. -/
def unicodeEscape (n : ℕ) : List Char :=
  ['\\', 'u', hexDigit (n / 4096 % 16), hexDigit (n / 256 % 16), hexDigit (n / 16 % 16),
    hexDigit (n % 16)]

/-- One character of a string, as `encoding/json` writes it with HTML escaping on. -/
def escape (c : Char) : List Char :=
  if c = '"' then ['\\', '"']
  else if c = '\\' then ['\\', '\\']
  else if c = Char.ofNat 8 then ['\\', 'b']
  else if c = Char.ofNat 12 then ['\\', 'f']
  else if c = '\n' then ['\\', 'n']
  else if c = '\r' then ['\\', 'r']
  else if c = '\t' then ['\\', 't']
  else if c.toNat < 32 ∨ c = '<' ∨ c = '>' ∨ c = '&' ∨ c.toNat = 0x2028 ∨ c.toNat = 0x2029 then
    unicodeEscape c.toNat
  else [c]

/-- A string in quotes. -/
def quote (s : String) : List Char := '"' :: s.toList.flatMap escape ++ ['"']

mutual

/-- `json.Marshal` of a value. -/
def marshal : Json → List Char
  | .null => "null".toList
  | .bool true => "true".toList
  | .bool false => "false".toList
  | .num n => n.text
  | .str s => quote s
  | .arr [] => ['[', ']']
  | .arr (x :: xs) => '[' :: marshal x ++ marshalElems xs
  | .obj [] => ['\x7b', '\x7d']
  | .obj ((k, v) :: fs) => '\x7b' :: quote k ++ ':' :: marshal v ++ marshalFields fs

/-- The elements of an array after its first. -/
def marshalElems : List Json → List Char
  | [] => [']']
  | x :: xs => ',' :: marshal x ++ marshalElems xs

/-- The fields of an object after its first. -/
def marshalFields : List (String × Json) → List Char
  | [] => ['\x7d']
  | (k, v) :: fs => ',' :: quote k ++ ':' :: marshal v ++ marshalFields fs

end

mutual

/-- Some string of the value contains U+0000. -/
def Json.hasNul : Json → Bool
  | .str s => containsNul s
  | .arr xs => hasNulElems xs
  | .obj fs => hasNulFields fs
  | _ => false

def hasNulElems : List Json → Bool
  | [] => false
  | x :: xs => x.hasNul || hasNulElems xs

def hasNulFields : List (String × Json) → Bool
  | [] => false
  | (k, v) :: fs => containsNul k || v.hasNul || hasNulFields fs

end

/-! ## The jsonb lexer -/

/-- The search for the escape `\u0000`, outside (`false`) or inside (`true`) a string. -/
def nulEscape : Bool → List Char → Bool
  | _, [] => false
  | false, c :: cs => nulEscape (c == '"') cs
  | true, c :: cs =>
    if c = '"' then nulEscape false cs
    else if c = '\\' then
      match cs with
      | [] => false
      | d :: ds => (d == 'u' && ds.take 4 == ['0', '0', '0', '0']) || nulEscape true ds
    else nulEscape true cs

theorem nulEscape_false_cons {c : Char} (h : c ≠ '"') (rest : List Char) :
    nulEscape false (c :: rest) = nulEscape false rest := by
  rw [nulEscape, beq_eq_false_iff_ne.mpr h]

theorem nulEscape_true_cons {c : Char} (hq : c ≠ '"') (hb : c ≠ '\\') (rest : List Char) :
    nulEscape true (c :: rest) = nulEscape true rest := by
  cases rest <;> simp [nulEscape, hq, hb]

theorem nulEscape_true_backslash (d : Char) (rest : List Char) :
    nulEscape true ('\\' :: d :: rest) =
      (d == 'u' && rest.take 4 == ['0', '0', '0', '0'] || nulEscape true rest) := by
  simp [nulEscape]

/-- Text without quotes outside strings is passed over. -/
theorem nulEscape_false_append {cs : List Char} (h : ∀ c ∈ cs, c ≠ '"') (rest : List Char) :
    nulEscape false (cs ++ rest) = nulEscape false rest := by
  induction cs with
  | nil => rfl
  | cons c cs ih =>
    rw [List.cons_append, nulEscape_false_cons (h c List.mem_cons_self),
      ih fun d hd => h d (List.mem_cons_of_mem c hd)]

/-! ## The text of a string -/

/-- A hexadecimal digit closes no string, opens no escape, and is `0` for zero only. -/
theorem hexDigit_spec (k : ℕ) :
    hexDigit (k % 16) ≠ '"' ∧ hexDigit (k % 16) ≠ '\\' ∧
      (hexDigit (k % 16) = '0' ↔ k % 16 = 0) := by
  have hall : ∀ i : Fin 16,
      hexDigit i ≠ '"' ∧ hexDigit i ≠ '\\' ∧ (hexDigit i = '0' ↔ i.val = 0) := by
    decide +kernel
  exact hall ⟨k % 16, Nat.mod_lt k (by decide)⟩

theorem nulEscape_unicodeEscape {n : ℕ} (hn : n < 65536) (rest : List Char) :
    nulEscape true (unicodeEscape n ++ rest) = (n == 0 || nulEscape true rest) := by
  have h1 := hexDigit_spec (n / 4096)
  have h2 := hexDigit_spec (n / 256)
  have h3 := hexDigit_spec (n / 16)
  have h4 := hexDigit_spec n
  simp only [unicodeEscape, List.cons_append, List.nil_append]
  rw [nulEscape_true_backslash, nulEscape_true_cons h1.1 h1.2.1, nulEscape_true_cons h2.1 h2.2.1,
    nulEscape_true_cons h3.1 h3.2.1, nulEscape_true_cons h4.1 h4.2.1]
  congr 1
  rw [Bool.eq_iff_iff]
  simp only [List.take_succ_cons, List.take_zero, beq_self_eq_true, Bool.true_and, beq_iff_eq,
    List.cons.injEq, and_true, h1.2.2, h2.2.2, h3.2.2, h4.2.2]
  omega

/-- The two-character escapes: none of them is of the form `\uXXXX`, none is of U+0000. -/
theorem nulEscape_shortEscape {c d : Char} (hc : c ≠ nul) (hd : d ≠ 'u') (rest : List Char) :
    nulEscape true (['\\', d] ++ rest) = (c == nul || nulEscape true rest) := by
  rw [List.cons_append, List.singleton_append, nulEscape_true_backslash,
    beq_eq_false_iff_ne.mpr hc, beq_eq_false_iff_ne.mpr hd, Bool.false_and]

/-- The characters that are escaped by two characters, with the second of the two. -/
def shortEscapes : List (Char × Char) :=
  [('"', '"'), ('\\', '\\'), (Char.ofNat 8, 'b'), (Char.ofNat 12, 'f'), ('\n', 'n'), ('\r', 'r'),
    ('\t', 't')]

/-- The kinds of escapes: two characters, `\uXXXX`, or the character itself. -/
theorem escape_cases (c : Char) :
    (∃ d, (c, d) ∈ shortEscapes ∧ escape c = ['\\', d]) ∨
      (escape c = unicodeEscape c.toNat ∧ c.toNat < 0xD800) ∨
      (escape c = [c] ∧ c ≠ '"' ∧ c ≠ '\\' ∧ 32 ≤ c.toNat) := by
  have hshort : ∀ x ∈ shortEscapes, escape x.1 = ['\\', x.2] := by decide
  by_cases hc : ∃ x ∈ shortEscapes, x.1 = c
  · obtain ⟨⟨c, d⟩, hx, rfl⟩ := hc
    exact .inl ⟨d, hx, hshort _ hx⟩
  have hne : ∀ x ∈ shortEscapes, c ≠ x.1 := fun x hx h => hc ⟨x, hx, h.symm⟩
  simp only [shortEscapes, List.forall_mem_cons] at hne
  obtain ⟨h1, h2, h3, h4, h5, h6, h7, -⟩ := hne
  rw [escape, if_neg h1, if_neg h2, if_neg h3, if_neg h4, if_neg h5, if_neg h6, if_neg h7]
  split_ifs with h8
  · refine .inr (.inl ⟨rfl, ?_⟩)
    rcases h8 with h | rfl | rfl | rfl | h | h
    exacts [by omega, by decide, by decide, by decide, by omega, by omega]
  · exact .inr (.inr ⟨rfl, h1, h2, Nat.le_of_not_lt fun h => h8 (.inl h)⟩)

/-- An escaped character is the escape `\u0000` exactly when it is U+0000. -/
theorem nulEscape_escape (c : Char) (rest : List Char) :
    nulEscape true (escape c ++ rest) = (c == nul || nulEscape true rest) := by
  rcases escape_cases c with ⟨d, hd, hesc⟩ | ⟨hesc, hlt⟩ | ⟨hesc, hq, hb, hge⟩
  · have hshort : ∀ x ∈ shortEscapes, x.1 ≠ nul ∧ x.2 ≠ 'u' := by decide
    rw [hesc]
    exact nulEscape_shortEscape (hshort _ hd).1 (hshort _ hd).2 rest
  · rw [hesc, nulEscape_unicodeEscape (by omega)]
    congr 1
    rw [Bool.eq_iff_iff, beq_iff_eq, beq_iff_eq]
    constructor
    · intro h
      rw [← Char.ofNat_toNat c, h, nul]
    · rintro rfl
      rfl
  · have hne : c ≠ nul := by
      rintro rfl
      exact absurd hge (by decide)
    rw [hesc, beq_eq_false_iff_ne.mpr hne, List.singleton_append, nulEscape_true_cons hq hb,
      Bool.false_or]

theorem nulEscape_flatMap_escape (cs rest : List Char) :
    nulEscape true (cs.flatMap escape ++ rest) = (cs.contains nul || nulEscape true rest) := by
  induction cs with
  | nil => rfl
  | cons c cs ih =>
    rw [List.flatMap_cons, List.append_assoc, nulEscape_escape, ih, List.contains_cons,
      Bool.or_assoc, Bool.beq_comm]

theorem nulEscape_quote (s : String) (rest : List Char) :
    nulEscape false (quote s ++ rest) = (containsNul s || nulEscape false rest) := by
  have hopen : ∀ cs, nulEscape false ('"' :: cs) = nulEscape true cs := fun cs => by
    simp [nulEscape]
  have hclose : ∀ cs, nulEscape true ('"' :: cs) = nulEscape false cs := fun cs => by
    cases cs <;> simp [nulEscape]
  rw [quote, List.cons_append, List.cons_append, hopen, List.append_assoc,
    nulEscape_flatMap_escape, List.singleton_append, hclose, containsNul]

/-! ## The text of a value -/

mutual

/-- **The marshalled text is refused exactly when a string of the value contains U+0000.** -/
theorem nulEscape_marshal : ∀ (j : Json) (rest : List Char),
    nulEscape false (marshal j ++ rest) = (j.hasNul || nulEscape false rest)
  | .null, rest => by
    rw [marshal, nulEscape_false_append (by simp), Json.hasNul, Bool.false_or]
    all_goals simp
  | .bool true, rest => by
    rw [marshal, nulEscape_false_append (by simp), Json.hasNul, Bool.false_or]
    all_goals simp
  | .bool false, rest => by
    rw [marshal, nulEscape_false_append (by simp), Json.hasNul, Bool.false_or]
    all_goals simp
  | .num n, rest => by
    rw [marshal, nulEscape_false_append n.plain, Json.hasNul, Bool.false_or]
    all_goals simp
  | .str s, rest => by rw [marshal, nulEscape_quote, Json.hasNul]
  | .arr [], rest => by
    rw [marshal, nulEscape_false_append (by simp), Json.hasNul, hasNulElems, Bool.false_or]
  | .arr (x :: xs), rest => by
    rw [marshal, List.cons_append, List.cons_append, nulEscape_false_cons (by decide),
      List.append_assoc, nulEscape_marshal x, nulEscape_marshalElems xs, Json.hasNul, hasNulElems,
      Bool.or_assoc]
  | .obj [], rest => by
    rw [marshal, nulEscape_false_append (by simp), Json.hasNul, hasNulFields, Bool.false_or]
  | .obj ((k, v) :: fs), rest => by
    rw [marshal, List.append_assoc, List.append_assoc, List.cons_append,
      nulEscape_false_cons (by decide), nulEscape_quote, List.cons_append,
      nulEscape_false_cons (by decide), nulEscape_marshal v, nulEscape_marshalFields fs,
      Json.hasNul, hasNulFields, Bool.or_assoc, Bool.or_assoc]

theorem nulEscape_marshalElems : ∀ (xs : List Json) (rest : List Char),
    nulEscape false (marshalElems xs ++ rest) = (hasNulElems xs || nulEscape false rest)
  | [], rest => by
    rw [marshalElems, nulEscape_false_append (by simp), hasNulElems, Bool.false_or]
  | x :: xs, rest => by
    rw [marshalElems, List.cons_append, List.cons_append, nulEscape_false_cons (by decide),
      List.append_assoc, nulEscape_marshal x, nulEscape_marshalElems xs, hasNulElems, Bool.or_assoc]

theorem nulEscape_marshalFields : ∀ (fs : List (String × Json)) (rest : List Char),
    nulEscape false (marshalFields fs ++ rest) = (hasNulFields fs || nulEscape false rest)
  | [], rest => by
    rw [marshalFields, nulEscape_false_append (by simp), hasNulFields, Bool.false_or]
  | (k, v) :: fs, rest => by
    rw [marshalFields, List.append_assoc, List.append_assoc, List.cons_append,
      nulEscape_false_cons (by decide), nulEscape_quote, List.cons_append,
      nulEscape_false_cons (by decide), nulEscape_marshal v, nulEscape_marshalFields fs,
      hasNulFields, Bool.or_assoc, Bool.or_assoc]

end

/-- A backslash followed by `u0000` in a string is not the escape: the backslash is escaped. -/
example : nulEscape false (marshal (.str "\\u0000")) = false := by decide +kernel

end Tally
