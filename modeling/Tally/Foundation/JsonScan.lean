import Tally.Foundation.JsonText

/-!
# What the JSON scanner accepts

Every value the scanner reads is well formed: its literals are, and no more arrays and objects are
nested than the bound allows. A stream is read up to the end of its first value, and what follows is
not looked at. An array or an object ends with its closing bracket, any other value only with the
character after it.

## Main definitions

* `Scanner.Valid`: the open arrays and objects and the value being read fit
* `Scanner.firstValue`: the first value of a stream

## Main results

* `Scanner.Valid.step`: one character keeps the invariant
* `Scanner.firstValue_fits`: the first value of a stream fits
* `Scanner.firstValue_of_parseJson`: a text that is an object is read as it, whatever follows
-/

namespace Foundation

namespace JsonText

theorem fitsElems_iff {n : ℕ} {xs : List JsonText} : FitsElems n xs ↔ ∀ x ∈ xs, x.Fits n := by
  induction xs with
  | nil => simp [FitsElems]
  | cons x xs ih => simp [FitsElems, ih]

theorem fitsMembers_iff {n : ℕ} {ms : List (List Char × JsonText)} :
    FitsMembers n ms ↔ ∀ m ∈ ms, isString m.1 = true ∧ m.2.Fits n := by
  induction ms with
  | nil => simp [FitsMembers]
  | cons m ms ih => simp [FitsMembers, ih, and_assoc]

end JsonText

open JsonText

/-- The elements or members before fit, and so does the key of the member whose value comes. -/
def Frame.Fits (n : ℕ) : Frame → Prop
  | .elems ts => FitsElems n ts
  | .members ms => FitsMembers n ms
  | .member ms key => FitsMembers n ms ∧ isString key = true

/-- Every open array and object fits. -/
def StackFits (depth : ℕ) : List Frame → Prop
  | [] => True
  | frame :: stack =>
    stack.length < depth ∧ frame.Fits (depth - (stack.length + 1)) ∧ StackFits depth stack

/-- The value being read fits so far. -/
def Mode.Fits (depth : ℕ) (stack : List Frame) : Mode → Prop
  | .value | .key => True
  | .valueOrEnd | .keyOrEnd => stack ≠ []
  | .colon lit => isString lit = true
  | .number lit st => lit.foldlM NumState.step .start = some st
  | .string _ lit st => lit.foldlM StrState.step .plain = some st
  | .word _ t => ∀ n, t.Fits n
  | .ended t => t.Fits (depth - stack.length)

namespace Scanner

/-- **The invariant of the scanner.** -/
structure Valid (depth : ℕ) (s : Scanner) : Prop where
  stack : StackFits depth s.stack
  mode : s.mode.Fits depth s.stack

variable {depth : ℕ} {s s' : Scanner} {t : JsonText} {stack : List Frame} {c : Char}

theorem valid_start (depth : ℕ) : Valid depth ⟨.value, []⟩ := ⟨trivial, trivial⟩

/-- A container closes one level further out. -/
theorem fits_closed {n : ℕ} (h : n < depth) : depth - n = depth - (n + 1) + 1 := by omega

theorem valid_push {mode : Mode} {frame : Frame} (hstack : StackFits depth stack)
    (h : push depth mode frame stack = some s') (hframe : ∀ n, frame.Fits n)
    (hmode : mode.Fits depth (frame :: stack)) : s'.Valid depth := by
  unfold push at h
  split_ifs at h with hlt
  obtain rfl := Option.some.inj h
  exact ⟨⟨hlt, hframe _, hstack⟩, hmode⟩

theorem valid_beginValue (hstack : StackFits depth stack) (h : beginValue depth stack c = some s') :
    s'.Valid depth := by
  unfold beginValue at h
  split_ifs at h
  · exact valid_push hstack h (fun _ => trivial) (List.cons_ne_nil _ _)
  · exact valid_push hstack h (fun _ => trivial) (List.cons_ne_nil _ _)
  · obtain rfl := Option.some.inj h
    exact ⟨hstack, rfl⟩
  · obtain rfl := Option.some.inj h
    exact ⟨hstack, fun _ => trivial⟩
  · obtain rfl := Option.some.inj h
    exact ⟨hstack, fun _ => trivial⟩
  · obtain rfl := Option.some.inj h
    exact ⟨hstack, fun _ => trivial⟩
  · obtain ⟨st, hst, rfl⟩ := Option.map_eq_some_iff.mp h
    exact ⟨hstack, by simp [Mode.Fits, hst]⟩

theorem valid_beginKey (hstack : StackFits depth stack) (h : beginKey stack c = some s') :
    s'.Valid depth := by
  unfold beginKey at h
  split_ifs at h
  obtain rfl := Option.some.inj h
  exact ⟨hstack, rfl⟩

/-- A value joins the array or the object it stands in. -/
theorem valid_endValue (hstack : StackFits depth stack) (ht : t.Fits (depth - stack.length))
    (h : endValue t stack c = some s') : s'.Valid depth := by
  unfold endValue at h
  split at h
  · rename_i ts stack
    obtain ⟨hlt, hframe, hrest⟩ := hstack
    have hall : FitsElems (depth - (stack.length + 1)) (ts ++ [t]) :=
      fitsElems_iff.mpr fun x hx => (List.mem_append.mp hx).elim (fitsElems_iff.mp hframe x)
        fun hx => by rwa [List.mem_singleton.mp hx]
    split_ifs at h
    · obtain rfl := Option.some.inj h
      exact ⟨⟨hlt, hall, hrest⟩, trivial⟩
    · obtain rfl := Option.some.inj h
      refine ⟨hrest, ?_⟩
      rw [Mode.Fits, fits_closed hlt]
      exact hall
  · rename_i ms key stack
    obtain ⟨hlt, ⟨hframe, hkey⟩, hrest⟩ := hstack
    have hall : FitsMembers (depth - (stack.length + 1)) (ms ++ [(key, t)]) :=
      fitsMembers_iff.mpr fun m hm => (List.mem_append.mp hm).elim (fitsMembers_iff.mp hframe m)
        fun hm => by
          rw [List.mem_singleton.mp hm]
          exact ⟨hkey, ht⟩
    split_ifs at h
    · obtain rfl := Option.some.inj h
      exact ⟨⟨hlt, hall, hrest⟩, trivial⟩
    · obtain rfl := Option.some.inj h
      refine ⟨hrest, ?_⟩
      rw [Mode.Fits, fits_closed hlt]
      exact hall
  · cases h

/-- The characters of a literal, and one more. -/
theorem foldlM_snoc {σ : Type*} {next : σ → Char → Option σ} {lit : List Char} {st st₀ st' : σ}
    (h : lit.foldlM next st₀ = some st) (hst : next st c = some st') :
    (lit ++ [c]).foldlM next st₀ = some st' := by
  rw [List.foldlM_append, h]
  simp [hst]

theorem isNumber_of_foldlM {lit : List Char} {st : NumState}
    (h : lit.foldlM NumState.step .start = some st) (hcomplete : st.complete = true) :
    isNumber lit = true := by
  rw [isNumber, h]
  exact hcomplete

/-- An empty array or object closes. -/
theorem valid_closeEmpty (hstack : StackFits depth stack) (hne : stack ≠ [])
    (ht : ∀ n, t.Fits (n + 1)) : Valid depth ⟨.ended t, stack.tail⟩ := by
  cases stack with
  | nil => exact absurd rfl hne
  | cons frame stack =>
    obtain ⟨hlt, -, hrest⟩ := hstack
    refine ⟨hrest, ?_⟩
    rw [Mode.Fits, List.tail_cons, fits_closed hlt]
    exact ht _

theorem valid_colon {lit : List Char} (hstack : StackFits depth stack) (hlit : isString lit = true)
    (h : step depth ⟨.colon lit, stack⟩ c = some s') : s'.Valid depth := by
  simp only [Scanner.step] at h
  by_cases hspace : isSpace c = true
  · rw [if_pos hspace] at h
    obtain rfl := Option.some.inj h
    exact ⟨hstack, hlit⟩
  · rw [if_neg hspace] at h
    split at h
    · rename_i ms stack
      split_ifs at h
      obtain rfl := Option.some.inj h
      obtain ⟨hlt, hframe, hrest⟩ := hstack
      exact ⟨⟨hlt, ⟨hframe, hlit⟩, hrest⟩, trivial⟩
    · cases h

theorem valid_number {lit : List Char} {st : NumState} (hstack : StackFits depth stack)
    (hlit : lit.foldlM NumState.step .start = some st)
    (h : step depth ⟨.number lit st, stack⟩ c = some s') : s'.Valid depth := by
  simp only [Scanner.step] at h
  split at h
  · rename_i st' hst
    obtain rfl := Option.some.inj h
    exact ⟨hstack, foldlM_snoc hlit hst⟩
  · split_ifs at h with hcomplete
    · obtain rfl := Option.some.inj h
      exact ⟨hstack, isNumber_of_foldlM hlit hcomplete⟩
    · have hnum : (JsonText.num lit).Fits (depth - stack.length) :=
        isNumber_of_foldlM hlit hcomplete
      exact valid_endValue hstack hnum h

theorem valid_string {isKey : Bool} {lit : List Char} {st : StrState}
    (hstack : StackFits depth stack) (hlit : lit.foldlM StrState.step .plain = some st)
    (h : step depth ⟨.string isKey lit st, stack⟩ c = some s') : s'.Valid depth := by
  simp only [Scanner.step] at h
  split at h
  · rename_i st' hst
    obtain rfl := Option.some.inj h
    exact ⟨hstack, foldlM_snoc hlit hst⟩
  · by_cases hclose : st = .plain ∧ c = '"'
    · rw [if_pos hclose] at h
      obtain rfl := Option.some.inj h
      obtain ⟨rfl, rfl⟩ := hclose
      have hstr : isString lit = true := decide_eq_true hlit
      cases isKey with
      | true => exact ⟨hstack, hstr⟩
      | false => exact ⟨hstack, hstr⟩
    · rw [if_neg hclose] at h
      cases h

theorem valid_word {rest : List Char} (hstack : StackFits depth stack) (ht : ∀ n, t.Fits n)
    (h : step depth ⟨.word rest t, stack⟩ c = some s') : s'.Valid depth := by
  rcases rest with _ | ⟨d, _ | ⟨d', rest⟩⟩
  · cases h
  · simp only [Scanner.step] at h
    split_ifs at h
    obtain rfl := Option.some.inj h
    exact ⟨hstack, ht _⟩
  · simp only [Scanner.step] at h
    split_ifs at h
    obtain rfl := Option.some.inj h
    exact ⟨hstack, ht⟩

/-- **One character keeps the invariant.** -/
theorem Valid.step (h : s.Valid depth) (hstep : step depth s c = some s') : s'.Valid depth := by
  obtain ⟨mode, stack⟩ := s
  obtain ⟨hstack, hmode⟩ := h
  cases mode with
  | value =>
    simp only [Scanner.step] at hstep
    split_ifs at hstep
    · obtain rfl := Option.some.inj hstep
      exact ⟨hstack, trivial⟩
    · exact valid_beginValue hstack hstep
  | valueOrEnd =>
    simp only [Scanner.step] at hstep
    split_ifs at hstep
    · obtain rfl := Option.some.inj hstep
      exact ⟨hstack, hmode⟩
    · obtain rfl := Option.some.inj hstep
      exact valid_closeEmpty hstack hmode fun _ => trivial
    · exact valid_beginValue hstack hstep
  | key =>
    simp only [Scanner.step] at hstep
    split_ifs at hstep
    · obtain rfl := Option.some.inj hstep
      exact ⟨hstack, trivial⟩
    · exact valid_beginKey hstack hstep
  | keyOrEnd =>
    simp only [Scanner.step] at hstep
    split_ifs at hstep
    · obtain rfl := Option.some.inj hstep
      exact ⟨hstack, hmode⟩
    · obtain rfl := Option.some.inj hstep
      exact valid_closeEmpty hstack hmode fun _ => trivial
    · exact valid_beginKey hstack hstep
  | colon lit => exact valid_colon hstack hmode hstep
  | number lit st => exact valid_number hstack hmode hstep
  | string isKey lit st => exact valid_string hstack hmode hstep
  | word rest t => exact valid_word hstack hmode hstep
  | ended t =>
    simp only [Scanner.step] at hstep
    split_ifs at hstep
    · obtain rfl := Option.some.inj hstep
      exact ⟨hstack, hmode⟩
    · exact valid_endValue hstack hmode hstep

/-- A value at the end of a text fits. -/
theorem Valid.finish (h : s.Valid depth) (hfinish : s.finish = some t) : t.Fits depth := by
  obtain ⟨mode, stack⟩ := s
  cases stack with
  | cons frame stack => cases mode <;> cases hfinish
  | nil =>
    cases mode with
    | ended t' =>
      obtain rfl := Option.some.inj hfinish
      exact h.mode
    | number lit st =>
      simp only [Scanner.finish] at hfinish
      split_ifs at hfinish with hcomplete
      obtain rfl := Option.some.inj hfinish
      exact isNumber_of_foldlM h.mode hcomplete
    | _ => cases hfinish

/-! ## The first value of a stream -/

/-- An array or an object that has closed, with nothing around it. -/
def closed : Scanner → Option JsonText
  | ⟨.ended (.arr xs), []⟩ => some (.arr xs)
  | ⟨.ended (.obj ms), []⟩ => some (.obj ms)
  | _ => none

/-- The value that a character after it ends, with nothing around it. -/
def delimited : Scanner → Char → Option JsonText
  | ⟨.ended t, []⟩, _ => some t
  | ⟨.number lit st, []⟩, c => if (st.step c).isNone ∧ st.complete then some (.num lit) else none
  | _, _ => none

/-- The first value of a stream. When its characters run out, the stream has ended or it has
failed. -/
def firstValue (depth : ℕ) (ended : Bool) : Scanner → List Char → Option JsonText
  | s, [] => if ended then s.finish else s.closed
  | s, c :: cs =>
    match s.delimited c with
    | some t => some t
    | none => (step depth s c).bind fun s => firstValue depth ended s cs

example : firstValue 1 false ⟨.value, []⟩ " \x7b\x7d?".toList = some (.obj []) := by rfl

example : firstValue 1 true ⟨.value, []⟩ "12,".toList = some (.num ['1', '2']) := by rfl

example : firstValue 1 false ⟨.value, []⟩ "12".toList = none := by rfl

theorem closed_eq_some (h : s.closed = some t) : s = ⟨.ended t, []⟩ := by
  unfold closed at h
  split at h
  · obtain rfl := Option.some.inj h
    rfl
  · obtain rfl := Option.some.inj h
    rfl
  · cases h

/-- A value that the next character ends is one that ends there. -/
theorem delimited_eq_some (h : s.delimited c = some t) : s.finish = some t := by
  unfold delimited at h
  split at h
  · exact h
  · split_ifs at h with hnum
    rw [finish, if_pos hnum.2, h]
  · cases h

/-- **The first value of a stream fits.** -/
theorem firstValue_fits {ended : Bool} {cs : List Char} (hs : s.Valid depth)
    (h : firstValue depth ended s cs = some t) : t.Fits depth := by
  induction cs generalizing s with
  | nil =>
    unfold firstValue at h
    split_ifs at h
    · exact hs.finish h
    · obtain rfl := closed_eq_some h
      exact hs.mode
  | cons c cs ih =>
    unfold firstValue at h
    split at h
    · rename_i t' hdelim
      exact hs.finish ((delimited_eq_some hdelim).trans h)
    · obtain ⟨s', hstep, hrest⟩ := Option.bind_eq_some_iff.mp h
      exact ih (hs.step hstep) hrest

/-! ## Objects -/

/-- After a value with nothing around it only spaces may follow. -/
theorem run_ended {cs : List Char} (h : run depth ⟨.ended t, []⟩ cs = some s') :
    s' = ⟨.ended t, []⟩ := by
  induction cs with
  | nil => exact (Option.some.inj h).symm
  | cons c cs ih =>
    rw [run_cons] at h
    obtain ⟨s₁, hstep, hrest⟩ := Option.bind_eq_some_iff.mp h
    simp only [Scanner.step, endValue] at hstep
    split_ifs at hstep
    obtain rfl := Option.some.inj hstep
    exact ih hrest

/-- A value that the next character ends is that of the text, if more of it can be read. -/
theorem ended_of_delimited {cs : List Char} (h : run depth s (c :: cs) = some s')
    (hdelim : s.delimited c = some t) : s' = ⟨.ended t, []⟩ := by
  unfold delimited at hdelim
  split at hdelim
  · obtain rfl := Option.some.inj hdelim
    exact run_ended h
  · split_ifs at hdelim with hnum
    obtain rfl := Option.some.inj hdelim
    rw [run_cons] at h
    obtain ⟨s₁, hstep, hrest⟩ := Option.bind_eq_some_iff.mp h
    simp only [Scanner.step, Option.isNone_iff_eq_none.mp hnum.1, if_pos hnum.2, endValue] at hstep
    split_ifs at hstep
    obtain rfl := Option.some.inj hstep
    exact run_ended hrest
  · cases hdelim

/-- A text at the end of which an array or an object has closed is read as that, whatever
follows. -/
theorem firstValue_of_run {ended : Bool} {cs : List Char}
    (h : run depth s cs = some ⟨.ended t, []⟩) (hclosed : closed ⟨.ended t, []⟩ = some t)
    (rest : List Char) : firstValue depth ended s (cs ++ rest) = some t := by
  induction cs generalizing s with
  | nil =>
    obtain rfl := Option.some.inj h
    cases rest with
    | nil =>
      rw [List.append_nil, firstValue]
      split_ifs
      · rfl
      · exact hclosed
    | cons c rest => rfl
  | cons c cs ih =>
    rw [List.cons_append, firstValue]
    cases hdelim : s.delimited c with
    | some t' =>
      have hended := ended_of_delimited h hdelim
      simp only [Scanner.mk.injEq, Mode.ended.injEq, and_true] at hended
      rw [hended]
    | none =>
      rw [run_cons] at h
      obtain ⟨s₁, hstep, hrun⟩ := Option.bind_eq_some_iff.mp h
      simp only [hstep, Option.bind_some]
      exact ih hrun

/-- **A text that is an object is read as the object, whatever follows it.** -/
theorem firstValue_of_parseJson {ended : Bool} {cs : List Char}
    {ms : List (List Char × JsonText)} (h : parseJson depth cs = some (.obj ms))
    (rest : List Char) : firstValue depth ended ⟨.value, []⟩ (cs ++ rest) = some (.obj ms) := by
  obtain ⟨s, hrun, hfinish⟩ := Option.bind_eq_some_iff.mp h
  have hs : s = ⟨.ended (.obj ms), []⟩ := by
    unfold finish at hfinish
    split at hfinish
    · obtain rfl := Option.some.inj hfinish
      rfl
    · split_ifs at hfinish
      cases hfinish
    · cases hfinish
  exact firstValue_of_run (hs ▸ hrun) rfl rest

end Scanner

end Foundation
