import Mathlib.Data.List.Basic
import Mathlib.Tactic.Tauto

/-!
# JSON texts

The syntax of JSON, with numbers and strings as they are written. A text is read by a pushdown
scanner, one character at a time: the mode says what may come next, and the stack holds the arrays
and objects that are open, which bounds the nesting. A number has no closing character, so its value
is only known to have ended with the character after it.

## Main definitions

* `JsonText`, `JsonText.render`: the trees, and their text without spaces
* `isNumber`, `isString`: the literals
* `Scanner`, `Scanner.step`, `parseJson`: the scanner, and a whole text
* `JsonText.Fits`: the literals are well formed, and the nesting is bounded

## Main results

* `Scanner.run_render`: the scanner reads the text of a tree as its value
* `parseJson_render`: a tree is read back from its text
-/

namespace Foundation

/-- A JSON value as it is written: the characters of a number, and those of a string or a key
between its quotes. -/
inductive JsonText where
  | null
  | bool (b : Bool)
  | num (lit : List Char)
  | str (lit : List Char)
  | arr (elems : List JsonText)
  | obj (members : List (List Char × JsonText))

namespace JsonText

mutual

/-- The text of a value, without spaces. -/
def render : JsonText → List Char
  | .null => ['n', 'u', 'l', 'l']
  | .bool true => ['t', 'r', 'u', 'e']
  | .bool false => ['f', 'a', 'l', 's', 'e']
  | .num lit => lit
  | .str lit => '"' :: lit ++ ['"']
  | .arr [] => ['[', ']']
  | .arr (x :: xs) => '[' :: render x ++ renderElems xs
  | .obj [] => ['\x7b', '\x7d']
  | .obj ((k, v) :: ms) => '\x7b' :: '"' :: k ++ '"' :: ':' :: render v ++ renderMembers ms

/-- The elements of an array after its first. -/
def renderElems : List JsonText → List Char
  | [] => [']']
  | x :: xs => ',' :: render x ++ renderElems xs

/-- The members of an object after its first. -/
def renderMembers : List (List Char × JsonText) → List Char
  | [] => ['\x7d']
  | (k, v) :: ms => ',' :: '"' :: k ++ '"' :: ':' :: render v ++ renderMembers ms

end

end JsonText

/-! ## Literals -/

/-- How far a number has come. -/
inductive NumState where
  | start
  | sign
  | zero
  | int
  | dot
  | frac
  | exp
  | expSign
  | expDigits

namespace NumState

/-- The state after an `e`. -/
def mark (c : Char) : Option NumState := if c = 'e' ∨ c = 'E' then some .exp else none

/-- The state after a point or an `e`. -/
def point (c : Char) : Option NumState := if c = '.' then some .dot else mark c

/-- The next character of a number, if it goes on. -/
def step : NumState → Char → Option NumState
  | .start, c => if c = '-' then some .sign else leading c
  | .sign, c => leading c
  | .zero, c => point c
  | .int, c => if c.isDigit then some .int else point c
  | .dot, c => if c.isDigit then some .frac else none
  | .frac, c => if c.isDigit then some .frac else mark c
  | .exp, c =>
    if c = '+' ∨ c = '-' then some .expSign else if c.isDigit then some .expDigits else none
  | .expSign, c | .expDigits, c => if c.isDigit then some .expDigits else none
where
  /-- The first digit: nothing but a point or an `e` follows a leading zero. -/
  leading (c : Char) : Option NumState :=
    if c = '0' then some .zero else if c.isDigit then some .int else none

/-- The number may end here. -/
def complete : NumState → Bool
  | .zero | .int | .frac | .expDigits => true
  | _ => false

end NumState

/-- How far a string has come: `left` hexadecimal digits follow the next one. -/
inductive StrState where
  | plain
  | escape
  | hex (left : ℕ)
  deriving DecidableEq

def isHexDigit (c : Char) : Bool :=
  c.isDigit || ('a' ≤ c && c ≤ 'f') || ('A' ≤ c && c ≤ 'F')

/-- The next character of a string, if it goes on. -/
def StrState.step : StrState → Char → Option StrState
  | .plain, c =>
    if c = '"' ∨ c.toNat < 32 then none else if c = '\\' then some .escape else some .plain
  | .escape, c =>
    if c = 'u' then some (.hex 3)
    else if c ∈ ['"', '\\', '/', 'b', 'f', 'n', 'r', 't'] then some .plain
    else none
  | .hex 0, c => if isHexDigit c then some .plain else none
  | .hex (left + 1), c => if isHexDigit c then some (.hex left) else none

/-- The characters are those of a number. -/
def isNumber (lit : List Char) : Bool := (lit.foldlM NumState.step .start).any NumState.complete

/-- The characters are those of a string. -/
def isString (lit : List Char) : Bool := lit.foldlM StrState.step .plain = some .plain

/-! ## The scanner -/

/-- An array or an object that is open: the elements or members before, and the key of the member
whose value comes. -/
inductive Frame where
  | elems (before : List JsonText)
  | members (before : List (List Char × JsonText))
  | member (before : List (List Char × JsonText)) (key : List Char)

/-- What comes next: a value; a value or the end of an array; a key; a key or the end of an object;
the colon after a key; the rest of a number, of a string or of a word; or what follows a value. -/
inductive Mode where
  | value
  | valueOrEnd
  | key
  | keyOrEnd
  | colon (key : List Char)
  | number (lit : List Char) (st : NumState)
  | string (isKey : Bool) (lit : List Char) (st : StrState)
  | word (rest : List Char) (t : JsonText)
  | ended (t : JsonText)

structure Scanner where
  mode : Mode
  stack : List Frame

namespace Scanner

def isSpace (c : Char) : Bool := c = ' ' ∨ c = '\t' ∨ c = '\r' ∨ c = '\n'

/-- An array or an object opens, unless too many are open. -/
def push (depth : ℕ) (mode : Mode) (frame : Frame) (stack : List Frame) : Option Scanner :=
  if stack.length < depth then some ⟨mode, frame :: stack⟩ else none

/-- The first character of a value. -/
def beginValue (depth : ℕ) (stack : List Frame) (c : Char) : Option Scanner :=
  if c = '\x7b' then push depth .keyOrEnd (.members []) stack
  else if c = '[' then push depth .valueOrEnd (.elems []) stack
  else if c = '"' then some ⟨.string false [] .plain, stack⟩
  else if c = 't' then some ⟨.word ['r', 'u', 'e'] (.bool true), stack⟩
  else if c = 'f' then some ⟨.word ['a', 'l', 's', 'e'] (.bool false), stack⟩
  else if c = 'n' then some ⟨.word ['u', 'l', 'l'] .null, stack⟩
  else (NumState.start.step c).map fun st => ⟨.number [c] st, stack⟩

/-- The first character of a key. -/
def beginKey (stack : List Frame) (c : Char) : Option Scanner :=
  if c = '"' then some ⟨.string true [] .plain, stack⟩ else none

/-- The character after a value that is not a space. -/
def endValue (t : JsonText) (stack : List Frame) (c : Char) : Option Scanner :=
  match stack with
  | .elems ts :: stack =>
    if c = ',' then some ⟨.value, .elems (ts ++ [t]) :: stack⟩
    else if c = ']' then some ⟨.ended (.arr (ts ++ [t])), stack⟩
    else none
  | .member ms k :: stack =>
    if c = ',' then some ⟨.key, .members (ms ++ [(k, t)]) :: stack⟩
    else if c = '\x7d' then some ⟨.ended (.obj (ms ++ [(k, t)])), stack⟩
    else none
  | _ => none

/-- One character. -/
def step (depth : ℕ) : Scanner → Char → Option Scanner
  | ⟨.value, stack⟩, c => if isSpace c then some ⟨.value, stack⟩ else beginValue depth stack c
  | ⟨.valueOrEnd, stack⟩, c =>
    if isSpace c then some ⟨.valueOrEnd, stack⟩
    else if c = ']' then some ⟨.ended (.arr []), stack.tail⟩
    else beginValue depth stack c
  | ⟨.key, stack⟩, c => if isSpace c then some ⟨.key, stack⟩ else beginKey stack c
  | ⟨.keyOrEnd, stack⟩, c =>
    if isSpace c then some ⟨.keyOrEnd, stack⟩
    else if c = '\x7d' then some ⟨.ended (.obj []), stack.tail⟩
    else beginKey stack c
  | ⟨.colon key, stack⟩, c =>
    if isSpace c then some ⟨.colon key, stack⟩
    else
      match stack with
      | .members ms :: stack => if c = ':' then some ⟨.value, .member ms key :: stack⟩ else none
      | _ => none
  | ⟨.number lit st, stack⟩, c =>
    match st.step c with
    | some st => some ⟨.number (lit ++ [c]) st, stack⟩
    | none =>
      if st.complete then
        if isSpace c then some ⟨.ended (.num lit), stack⟩ else endValue (.num lit) stack c
      else none
  | ⟨.string isKey lit st, stack⟩, c =>
    match st.step c with
    | some st => some ⟨.string isKey (lit ++ [c]) st, stack⟩
    | none =>
      if st = .plain ∧ c = '"' then
        some ⟨if isKey then .colon lit else .ended (.str lit), stack⟩
      else none
  | ⟨.word [] _, _⟩, _ => none
  | ⟨.word [d] t, stack⟩, c => if c = d then some ⟨.ended t, stack⟩ else none
  | ⟨.word (d :: rest) t, stack⟩, c => if c = d then some ⟨.word rest t, stack⟩ else none
  | ⟨.ended t, stack⟩, c => if isSpace c then some ⟨.ended t, stack⟩ else endValue t stack c

/-- The value, when the text ends and nothing is open. -/
def finish : Scanner → Option JsonText
  | ⟨.ended t, []⟩ => some t
  | ⟨.number lit st, []⟩ => if st.complete then some (.num lit) else none
  | _ => none

/-- Some characters. -/
def run (depth : ℕ) (s : Scanner) (cs : List Char) : Option Scanner := cs.foldlM (step depth) s

end Scanner

/-- The value of a whole text, with at most `depth` arrays and objects open at once. -/
def parseJson (depth : ℕ) (cs : List Char) : Option JsonText :=
  (Scanner.run depth ⟨.value, []⟩ cs).bind Scanner.finish

example : parseJson 2 "\x7b \"a\" : [1, -0.5e3] \x7d".toList =
    some (.obj [(['a'], .arr [.num ['1'], .num "-0.5e3".toList])]) := by rfl

/-! ## Reading a text back -/

namespace JsonText

mutual

/-- The literals are well formed, and at most `n` arrays and objects are nested. -/
def Fits : ℕ → JsonText → Prop
  | _, .null | _, .bool _ => True
  | _, .num lit => isNumber lit = true
  | _, .str lit => isString lit = true
  | 0, .arr _ | 0, .obj _ => False
  | n + 1, .arr xs => FitsElems n xs
  | n + 1, .obj ms => FitsMembers n ms

def FitsElems : ℕ → List JsonText → Prop
  | _, [] => True
  | n, x :: xs => x.Fits n ∧ FitsElems n xs

def FitsMembers : ℕ → List (List Char × JsonText) → Prop
  | _, [] => True
  | n, (k, v) :: ms => isString k = true ∧ v.Fits n ∧ FitsMembers n ms

end

end JsonText

namespace Scanner

open JsonText

variable {depth : ℕ} {s : Scanner} {t : JsonText} {stack : List Frame}

theorem run_cons (s : Scanner) (c : Char) (cs : List Char) :
    run depth s (c :: cs) = (step depth s c).bind fun s => run depth s cs := List.foldlM_cons

theorem run_append (s : Scanner) (cs cs' : List Char) :
    run depth s (cs ++ cs') = (run depth s cs).bind fun s => run depth s cs' :=
  List.foldlM_append

/-- The characters of a literal are collected, as long as its own states go on. -/
theorem run_collect {σ : Type*} {next : σ → Char → Option σ} (mode : List Char → σ → Mode)
    (hmode : ∀ lit st c st', next st c = some st' →
      step depth ⟨mode lit st, stack⟩ c = some ⟨mode (lit ++ [c]) st', stack⟩)
    {lit acc : List Char} {st st' : σ} (h : lit.foldlM next st = some st') :
    run depth ⟨mode acc st, stack⟩ lit = some ⟨mode (acc ++ lit) st', stack⟩ := by
  induction lit generalizing acc st with
  | nil =>
    obtain rfl : st = st' := by simpa using h
    rw [List.append_nil]
    rfl
  | cons c lit ih =>
    obtain ⟨st₁, hst, hrest⟩ := Option.bind_eq_some_iff.mp (List.foldlM_cons.symm.trans h)
    rw [run_cons, hmode acc st c st₁ hst, Option.bind_some, ih hrest, List.append_assoc,
      List.singleton_append]

/-- A string, from after its opening quote to its closing one. -/
theorem run_string {isKey : Bool} {lit : List Char} (h : isString lit = true) :
    run depth ⟨.string isKey [] .plain, stack⟩ (lit ++ ['"']) =
      some ⟨if isKey then .colon lit else .ended (.str lit), stack⟩ := by
  have hmode : ∀ lit st c st', StrState.step st c = some st' →
      step depth ⟨.string isKey lit st, stack⟩ c =
        some ⟨.string isKey (lit ++ [c]) st', stack⟩ := by
    intro lit st c st' hst
    simp only [step, hst]
  rw [run_append, run_collect (.string isKey) hmode (of_decide_eq_true h), Option.bind_some]
  rfl

/-- A number. Its first character begins no other value. -/
theorem run_number {lit : List Char} (h : isNumber lit = true) :
    ∃ c cs st, lit = c :: cs ∧ isSpace c = false ∧ c ≠ ']' ∧ NumState.complete st = true ∧
      run depth ⟨.value, stack⟩ lit = some ⟨.number lit st, stack⟩ := by
  unfold isNumber at h
  rcases hrun : lit.foldlM NumState.step .start with _ | st
  · rw [hrun] at h
    cases h
  rw [hrun] at h
  cases lit with
  | nil =>
    obtain rfl := Option.some.inj hrun
    cases h
  | cons c cs =>
    obtain ⟨st₁, hst, hrest⟩ := Option.bind_eq_some_iff.mp (List.foldlM_cons.symm.trans hrun)
    have hne : ∀ d, NumState.start.step d = none → c ≠ d := by
      rintro d hd rfl
      rw [hd] at hst
      cases hst
    have hspace : isSpace c = false := by
      simp [isSpace, hne ' ' rfl, hne '\t' rfl, hne '\r' rfl, hne '\n' rfl]
    have hbegin : step depth ⟨.value, stack⟩ c = some ⟨.number [c] st₁, stack⟩ := by
      simp [step, hspace, beginValue, hst, hne '\x7b' rfl, hne '[' rfl, hne '"' rfl, hne 't' rfl,
        hne 'f' rfl, hne 'n' rfl]
    have hmode : ∀ lit st c st', NumState.step st c = some st' →
        step depth ⟨.number lit st, stack⟩ c = some ⟨.number (lit ++ [c]) st', stack⟩ := by
      intro lit st c st' hst
      simp only [step, hst]
    refine ⟨c, cs, st, rfl, hspace, hne ']' rfl, h, ?_⟩
    rw [run_cons, hbegin, Option.bind_some, run_collect .number hmode hrest, List.singleton_append]

/-- The state is that after the value `t`, where a number may not have ended yet. -/
def Ends (s : Scanner) (t : JsonText) (stack : List Frame) : Prop :=
  s = ⟨.ended t, stack⟩ ∨
    ∃ lit st, t = .num lit ∧ NumState.complete st = true ∧ s = ⟨.number lit st, stack⟩

/-- No number goes on with a comma or a closing bracket. -/
theorem step_num_delimiter {c : Char} (hc : c = ',' ∨ c = ']' ∨ c = '\x7d') (st : NumState) :
    st.step c = none := by
  rcases hc with rfl | rfl | rfl <;> cases st <;> rfl

theorem Ends.step (h : Ends s t stack) {c : Char} (hc : c = ',' ∨ c = ']' ∨ c = '\x7d') :
    step depth s c = endValue t stack c := by
  have hspace : isSpace c = false := by
    rcases hc with rfl | rfl | rfl <;> rfl
  rcases h with rfl | ⟨lit, st, rfl, hcomplete, rfl⟩
  · simp [Scanner.step, hspace]
  · simp [Scanner.step, step_num_delimiter hc st, hcomplete, hspace]

theorem Ends.finish (h : Ends s t []) : s.finish = some t := by
  rcases h with rfl | ⟨lit, st, rfl, hcomplete, rfl⟩
  · rfl
  · simp [Scanner.finish, hcomplete]

/-- No value begins with a space or the end of an array. -/
theorem head_render {n : ℕ} (h : t.Fits n) :
    ∃ c cs, t.render = c :: cs ∧ isSpace c = false ∧ c ≠ ']' := by
  cases t with
  | null => exact ⟨'n', ['u', 'l', 'l'], rfl, rfl, by decide⟩
  | bool b =>
    cases b with
    | true => exact ⟨'t', ['r', 'u', 'e'], rfl, rfl, by decide⟩
    | false => exact ⟨'f', ['a', 'l', 's', 'e'], rfl, rfl, by decide⟩
  | num lit =>
    obtain ⟨c, cs, -, hlit, hspace, hend, -⟩ := @run_number 0 [] lit h
    exact ⟨c, cs, hlit, hspace, hend⟩
  | str lit => exact ⟨'"', lit ++ ['"'], rfl, rfl, by decide⟩
  | arr xs =>
    cases xs with
    | nil => exact ⟨'[', [']'], rfl, rfl, by decide⟩
    | cons x xs => exact ⟨'[', _, rfl, rfl, by decide⟩
  | obj ms =>
    rcases ms with _ | ⟨⟨k, v⟩, ms⟩
    · exact ⟨'\x7b', ['\x7d'], rfl, rfl, by decide⟩
    · exact ⟨'\x7b', _, rfl, rfl, by decide⟩

/-- At the beginning of an array, a value is read as anywhere else. -/
theorem run_valueOrEnd {n : ℕ} (h : t.Fits n) :
    run depth ⟨.valueOrEnd, stack⟩ t.render = run depth ⟨.value, stack⟩ t.render := by
  obtain ⟨c, cs, hrender, hspace, hend⟩ := head_render h
  have hstep : step depth ⟨.valueOrEnd, stack⟩ c = step depth ⟨.value, stack⟩ c := by
    simp [step, hspace, hend]
  rw [hrender, run_cons, run_cons, hstep]

/-- A key and its colon. -/
theorem run_key {k : List Char} (hk : isString k = true) {before : List (List Char × JsonText)}
    (rest : List Char) :
    run depth ⟨.string true [] .plain, .members before :: stack⟩ (k ++ '"' :: ':' :: rest) =
      run depth ⟨.value, .member before k :: stack⟩ rest := by
  have hsplit : k ++ '"' :: ':' :: rest = (k ++ ['"']) ++ ':' :: rest := by simp
  rw [hsplit, run_append, run_string hk, Option.bind_some, run_cons]
  rfl

mutual

/-- **The text of a tree is read as its value**, wherever a value may stand. -/
theorem run_render : ∀ (t : JsonText) (n : ℕ) (stack : List Frame), t.Fits n →
    stack.length + n ≤ depth →
    ∃ s, run depth ⟨.value, stack⟩ t.render = some s ∧ Ends s t stack
  | .null, _, _, _, _ => ⟨_, rfl, .inl rfl⟩
  | .bool true, _, _, _, _ => ⟨_, rfl, .inl rfl⟩
  | .bool false, _, _, _, _ => ⟨_, rfl, .inl rfl⟩
  | .num lit, _, stack, h, _ => by
    obtain ⟨-, -, st, -, -, -, hcomplete, hrun⟩ := run_number h
    exact ⟨_, hrun, .inr ⟨lit, st, rfl, hcomplete, rfl⟩⟩
  | .str lit, _, stack, h, _ => by
    refine ⟨⟨.ended (.str lit), stack⟩, ?_, .inl rfl⟩
    rw [render, List.cons_append, run_cons]
    exact run_string h
  | .arr [], n + 1, stack, _, hdepth => by
    refine ⟨⟨.ended (.arr []), stack⟩, ?_, .inl rfl⟩
    have hpush : step depth ⟨.value, stack⟩ '[' = some ⟨.valueOrEnd, .elems [] :: stack⟩ :=
      if_pos (by omega)
    rw [render, run_cons, hpush]
    rfl
  | .arr (x :: xs), n + 1, stack, h, hdepth => by
    have hpush : step depth ⟨.value, stack⟩ '[' = some ⟨.valueOrEnd, .elems [] :: stack⟩ :=
      if_pos (by omega)
    have h : x.Fits n ∧ FitsElems n xs := h
    obtain ⟨s, hrun, hends⟩ := run_render x n (.elems [] :: stack) h.1 (by simp; omega)
    refine ⟨⟨.ended (.arr (x :: xs)), stack⟩, ?_, .inl rfl⟩
    rw [render, List.cons_append, run_cons, hpush, Option.bind_some, run_append,
      run_valueOrEnd h.1, hrun, Option.bind_some]
    exact run_renderElems xs n stack [] x s h.2 (by omega) hends
  | .obj [], n + 1, stack, _, hdepth => by
    refine ⟨⟨.ended (.obj []), stack⟩, ?_, .inl rfl⟩
    have hpush : step depth ⟨.value, stack⟩ '\x7b' = some ⟨.keyOrEnd, .members [] :: stack⟩ :=
      if_pos (by omega)
    rw [render, run_cons, hpush]
    rfl
  | .obj ((k, v) :: ms), n + 1, stack, h, hdepth => by
    have hpush : step depth ⟨.value, stack⟩ '\x7b' = some ⟨.keyOrEnd, .members [] :: stack⟩ :=
      if_pos (by omega)
    have h : isString k = true ∧ v.Fits n ∧ FitsMembers n ms := h
    obtain ⟨s, hrun, hends⟩ := run_render v n (.member [] k :: stack) h.2.1 (by simp; omega)
    have hquote : step depth ⟨.keyOrEnd, .members [] :: stack⟩ '"' =
        some ⟨.string true [] .plain, .members [] :: stack⟩ := rfl
    refine ⟨⟨.ended (.obj ((k, v) :: ms)), stack⟩, ?_, .inl rfl⟩
    rw [render, List.append_assoc, List.cons_append, run_cons, hpush, Option.bind_some,
      List.cons_append, run_cons, hquote, Option.bind_some, List.cons_append, List.cons_append,
      run_key h.1, run_append, hrun, Option.bind_some]
    exact run_renderMembers ms n stack [] k v s h.2.2 (by omega) hends

theorem run_renderElems : ∀ (xs : List JsonText) (n : ℕ) (stack : List Frame)
    (ts : List JsonText) (t : JsonText) (s : Scanner), FitsElems n xs →
    stack.length + 1 + n ≤ depth → Ends s t (.elems ts :: stack) →
    run depth s (renderElems xs) = some ⟨.ended (.arr (ts ++ t :: xs)), stack⟩
  | [], n, stack, ts, t, s, _, _, hends => by
    rw [renderElems, run_cons, hends.step (.inr (.inl rfl))]
    rfl
  | x :: xs, n, stack, ts, t, s, h, hdepth, hends => by
    have h : x.Fits n ∧ FitsElems n xs := h
    obtain ⟨s', hrun, hends'⟩ := run_render x n (.elems (ts ++ [t]) :: stack) h.1
      (by simp; omega)
    have hcomma : step depth s ',' = some ⟨.value, .elems (ts ++ [t]) :: stack⟩ :=
      hends.step (.inl rfl)
    rw [renderElems, List.cons_append, run_cons, hcomma, Option.bind_some, run_append, hrun,
      Option.bind_some, run_renderElems xs n stack (ts ++ [t]) x s' h.2 hdepth hends',
      List.append_assoc, List.singleton_append]

theorem run_renderMembers : ∀ (ms : List (List Char × JsonText)) (n : ℕ) (stack : List Frame)
    (before : List (List Char × JsonText)) (k : List Char) (t : JsonText) (s : Scanner),
    FitsMembers n ms → stack.length + 1 + n ≤ depth → Ends s t (.member before k :: stack) →
    run depth s (renderMembers ms) = some ⟨.ended (.obj (before ++ (k, t) :: ms)), stack⟩
  | [], n, stack, before, k, t, s, _, _, hends => by
    rw [renderMembers, run_cons, hends.step (.inr (.inr rfl))]
    rfl
  | (k', v) :: ms, n, stack, before, k, t, s, h, hdepth, hends => by
    have h : isString k' = true ∧ v.Fits n ∧ FitsMembers n ms := h
    obtain ⟨s', hrun, hends'⟩ := run_render v n (.member (before ++ [(k, t)]) k' :: stack) h.2.1
      (by simp; omega)
    have hcomma : step depth s ',' = some ⟨.key, .members (before ++ [(k, t)]) :: stack⟩ :=
      hends.step (.inl rfl)
    have hquote : step depth ⟨.key, .members (before ++ [(k, t)]) :: stack⟩ '"' =
        some ⟨.string true [] .plain, .members (before ++ [(k, t)]) :: stack⟩ := rfl
    rw [renderMembers, List.append_assoc, List.cons_append, run_cons, hcomma, Option.bind_some,
      List.cons_append, run_cons, hquote, Option.bind_some, List.cons_append, List.cons_append,
      run_key h.1, run_append, hrun, Option.bind_some,
      run_renderMembers ms n stack (before ++ [(k, t)]) k' v s' h.2.2 hdepth hends',
      List.append_assoc, List.singleton_append]

end

end Scanner

/-- **A tree is read back from its text.** -/
theorem parseJson_render {depth : ℕ} {t : JsonText} (h : t.Fits depth) :
    parseJson depth t.render = some t := by
  obtain ⟨s, hrun, hends⟩ := Scanner.run_render t depth [] h
    (Nat.le_of_eq (Nat.zero_add depth))
  rw [parseJson, hrun, Option.bind_some, hends.finish]

end Foundation
