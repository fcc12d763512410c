import Mathlib.Data.List.Basic

/-!
# Reading markup

A reader of markup as a browser has one, for tags with double-quoted attributes and for character
references. It is a machine over the characters, so that a text made of pieces is read piece by
piece. Text whose special characters are replaced by references is read as itself, whatever it is,
and opens no tag.

## Main definitions

* `Token`: a character of text, or a tag with what it contains
* `Markup.State`, `Markup.step`, `Markup.tokenize`: the machine
* `Markup.Escapes`: references that are read as the characters they stand for

## Main results

* `Markup.tokenize_append`: a text is read piece by piece
* `Markup.Escapes.tokenize_flatMap`: an escaped text is read as itself
* `Markup.tokenize_literal`: without references it does not matter which there are
* `Markup.tokenize_plain`: so is text without special characters
* `Markup.tokenize_tag`: a tag whose quotes are closed is read as one tag
-/

namespace Foundation

/-- What a reader finds: a character of text, or a tag with what it contains. -/
inductive Token where
  | char (c : Char)
  | tag (content : List Char)
  deriving DecidableEq

namespace Markup

/-- Where the reader is: in text, in a character reference, or in a tag, in quotes or not. -/
inductive State where
  | text
  | reference (name : List Char)
  | tag (content : List Char) (quoted : Bool)
  deriving DecidableEq

/-- The characters of text. -/
def chars (cs : List Char) : List Token := cs.map Token.char

/-- One character. A reference that `refs` does not know, or that has no end, is text. -/
def step (refs : List Char → Option Char) : State → Char → List Token × State
  | .text, '<' => ([], .tag [] false)
  | .text, '&' => ([], .reference [])
  | .text, c => ([.char c], .text)
  | .reference name, ';' =>
    match refs name with
    | some c => ([.char c], .text)
    | none => (chars ('&' :: name ++ [';']), .text)
  | .reference name, '<' => (chars ('&' :: name), .tag [] false)
  | .reference name, '&' => (chars ('&' :: name), .reference [])
  | .reference name, c =>
    if c.isAlphanum || c == '#' then ([], .reference (name ++ [c]))
    else (chars ('&' :: name ++ [c]), .text)
  | .tag content false, '>' => ([.tag content], .text)
  | .tag content quoted, '"' => ([], .tag (content ++ ['"']) !quoted)
  | .tag content quoted, c => ([], .tag (content ++ [c]) quoted)

/-- What is found in a text, and where the reader is after it. -/
def tokenize (refs : List Char → Option Char) : State → List Char → List Token × State
  | s, [] => ([], s)
  | s, c :: cs =>
    let next := step refs s c
    let rest := tokenize refs next.2 cs
    (next.1 ++ rest.1, rest.2)

variable {refs : List Char → Option Char}

/-- **A text is read piece by piece.** -/
theorem tokenize_append (refs : List Char → Option Char) (s : State) (cs ds : List Char) :
    tokenize refs s (cs ++ ds) =
      ((tokenize refs s cs).1 ++ (tokenize refs (tokenize refs s cs).2 ds).1,
        (tokenize refs (tokenize refs s cs).2 ds).2) := by
  induction cs generalizing s with
  | nil => rfl
  | cons c cs ih =>
    simp only [List.cons_append, tokenize, ih, List.append_assoc]

theorem tokenize_append_of_eq {s s₁ s₂ : State} {cs ds : List Char} {out out' : List Token}
    (h : tokenize refs s cs = (out, s₁)) (h' : tokenize refs s₁ ds = (out', s₂)) :
    tokenize refs s (cs ++ ds) = (out ++ out', s₂) := by
  rw [tokenize_append, h, h']

/-- The pieces are markup each, and so is the whole. -/
theorem tokenize_flatMap {α : Type*} {f : α → List Char} {g : α → List Token} {l : List α}
    (h : ∀ a ∈ l, tokenize refs .text (f a) = (g a, .text)) :
    tokenize refs .text (l.flatMap f) = (l.flatMap g, .text) := by
  induction l with
  | nil => rfl
  | cons a l ih =>
    rw [List.flatMap_cons, List.flatMap_cons]
    exact tokenize_append_of_eq (h a List.mem_cons_self)
      (ih fun b hb => h b (List.mem_cons_of_mem a hb))

/-- Text without special characters is read as itself. -/
theorem tokenize_plain {cs : List Char} (h : ∀ c ∈ cs, c ≠ '<' ∧ c ≠ '&') :
    tokenize refs .text cs = (chars cs, .text) := by
  induction cs with
  | nil => rfl
  | cons c cs ih =>
    obtain ⟨hlt, hamp⟩ := h c List.mem_cons_self
    have hstep : step refs .text c = ([.char c], .text) := by
      unfold step
      split <;> simp_all
    simp only [tokenize, hstep, ih fun d hd => h d (List.mem_cons_of_mem c hd)]
    rfl

/-- Text without `>` belongs to the tag it is in. -/
theorem tokenize_content {cs : List Char} (h : '>' ∉ cs) (content : List Char) (quoted : Bool) :
    tokenize refs (.tag content quoted) cs =
      ([], .tag (content ++ cs) (quoted ^^ decide (cs.count '"' % 2 = 1))) := by
  induction cs generalizing content quoted with
  | nil => simp [tokenize]
  | cons c cs ih =>
    have hne : c ≠ '>' := fun heq => h (heq ▸ List.mem_cons_self)
    have hrest : '>' ∉ cs := fun hmem => h (List.mem_cons_of_mem c hmem)
    have hstep : step refs (.tag content quoted) c =
        ([], .tag (content ++ [c]) (quoted ^^ decide (c = '"'))) := by
      unfold step
      split <;> simp_all
    simp only [tokenize, hstep, ih hrest]
    by_cases hquote : c = '"'
    · have hodd : decide ((cs.count '"' + 1) % 2 = 1) = !decide (cs.count '"' % 2 = 1) := by
        rw [← decide_not]
        exact decide_eq_decide.mpr (by omega)
      simp [hquote, hodd]
    · simp [hquote]

/-- **A tag whose quotes are closed is read as one tag.** -/
theorem tokenize_tag {cs : List Char} (h : '>' ∉ cs) (hquotes : cs.count '"' % 2 = 0) :
    tokenize refs .text ('<' :: cs ++ ['>']) = ([.tag cs], .text) := by
  have hcontent : tokenize refs .text ('<' :: cs) = ([], .tag cs false) := by
    simp [tokenize, step, tokenize_content h, hquotes]
  exact tokenize_append_of_eq hcontent rfl

/-- Outside of references a character other than `&` does not start one. -/
theorem step_of_ne (refs refs' : List Char → Option Char) {s : State} {c : Char} (hc : c ≠ '&')
    (hs : ∀ name, s ≠ .reference name) :
    step refs s c = step refs' s c ∧ ∀ name, (step refs s c).2 ≠ .reference name := by
  cases s with
  | text =>
    unfold step
    split <;> simp_all
  | reference name => exact absurd rfl (hs name)
  | tag content quoted =>
    unfold step
    split <;> simp_all

/-- Without `&` the references do not matter. -/
theorem tokenize_of_not_mem (refs refs' : List Char → Option Char) {s : State} {cs : List Char}
    (h : '&' ∉ cs) (hs : ∀ name, s ≠ .reference name) :
    tokenize refs s cs = tokenize refs' s cs := by
  induction cs generalizing s with
  | nil => rfl
  | cons c cs ih =>
    have hc : c ≠ '&' := fun heq => h (heq ▸ List.mem_cons_self)
    obtain ⟨hstep, hnext⟩ := step_of_ne refs refs' hc hs
    have hrest := ih (fun hmem => h (List.mem_cons_of_mem c hmem)) hnext
    simp only [tokenize, ← hstep, hrest]

/-- What is read of a text without references, with any. -/
theorem tokenize_literal {s : State} {cs : List Char} {out : List Token} (h : '&' ∉ cs)
    (hout : tokenize (fun _ => none) .text cs = (out, s)) : tokenize refs .text cs = (out, s) := by
  rw [← hout]
  exact tokenize_of_not_mem _ _ h fun _ heq => nomatch heq

/-- References that are read as the characters they stand for. -/
def Escapes (refs : List Char → Option Char) (esc : Char → List Char) : Prop :=
  ∀ c, tokenize refs .text (esc c) = ([.char c], .text)

/-- **An escaped text is read as itself**, and opens no tag. -/
theorem Escapes.tokenize_flatMap {esc : Char → List Char} (h : Escapes refs esc) (cs : List Char) :
    tokenize refs .text (cs.flatMap esc) = (chars cs, .text) := by
  rw [Markup.tokenize_flatMap (g := fun c => [.char c]) fun c _ => h c, chars, List.map_eq_flatMap]

end Markup

end Foundation
