import Mathlib.Tactic.IntervalCases
import Tally.Dashboard.Headline
import Tally.Foundation.JsonScan
import Tally.Queue.Producer

/-!
# The query endpoints

The answers of `/v1/counts`, `/v1/uniques` and `/v1/stats` as JSON. A map is written in the order of
its keys, and a struct in the order of its fields. Whoever reads the answers as JSON gets the name
and the numbers back, whatever the name, unless Postgres refuses it, and the page gets the
statistics back. The line end after an answer is left out.

## Main definitions

* `getCount`, `getUniques`: the handlers for one name
* `statsJson`: the body of `/v1/stats`
* `member`, `asNat`, `readStats`: what a reader of JSON takes out of a body

## Main results

* `isNumber_toDigits`: a count is written as a number
* `query_replies`: the answers for one name, after every run
* `stats_read_back`: the page reads the statistics that were answered
-/

namespace Tally

open Foundation Hll

/-! ## The answers -/

/-- A count, as `encoding/json` writes it. -/
def countNumeral (n : ℕ) : Numeral where
  text := Nat.toDigits 10 n
  plain c hc := by
    have hdigit := Nat.isDigit_of_mem_toDigits (by decide) (by decide) hc
    rintro rfl
    exact absurd hdigit (by decide)

/-- `writeJSON` of a map, with its fields in the order of the keys. -/
def writeJSON (status : ℕ) (fields : List (String × Json)) : HttpReply :=
  ⟨status, String.ofList (marshal (.obj fields)), none⟩

section Handlers

variable (tz : TimeZone) (now : ℤ) (st : Store) (event : String)

/-- `Handler.getCount`, on a healthy database, for the parameter `event`. -/
def getCount : HttpReply :=
  if event = "" then ⟨400, "the 'event' query parameter is required", none⟩
  else
    match countToday tz now st event with
    | .error _ => ⟨500, "failed to query count", none⟩
    | .ok n => writeJSON 200 [("count_today", .num (countNumeral n)), ("event", .str event)]

/-- `Handler.getUniques`, on a healthy database: a sketch may still fail to decode. -/
def getUniques (estimate : Sketch → ℕ) : HttpReply :=
  if event = "" then ⟨400, "the 'event' query parameter is required", none⟩
  else
    match uniquesToday estimate tz now st event with
    | .error _ => ⟨500, "failed to query uniques", none⟩
    | .ok n => writeJSON 200 [("event", .str event), ("unique_users_today", .num (countNumeral n))]

end Handlers

/-- A `store.NameCount`. -/
def NameCount.json (g : NameCount) : Json :=
  .obj [("name", .str g.name), ("count", .num (countNumeral g.count))]

/-- A `store.MinutePoint`, whose minute is marshalled as a time. -/
def MinutePoint.json (conv : Conversions) (p : MinutePoint) : Option Json :=
  (conv.formatTime (p.minute * 1000)).map fun minute =>
    .obj [("name", .str p.name), ("minute", .str minute), ("count", .num (countNumeral p.count))]

/-- The body of `/v1/stats`, unless a minute cannot be marshalled. -/
def statsJson (conv : Conversions) (stats : Stats) : Option Json :=
  (stats.series.mapM (MinutePoint.json conv)).map fun points =>
    .obj [("series", .arr points), ("totals_today", .arr (stats.totalsToday.map NameCount.json)),
      ("uniques_today", .arr (stats.uniquesToday.map NameCount.json))]

/-! ## Readers -/

/-- A member of an object; of several with its key the last. -/
def member (key : String) : JsonText → Option JsonText
  | .obj ms => (ms.reverse.find? fun m => unquoteString m.1 = key).map Prod.snd
  | _ => none

/-- A number without sign, point and exponent. -/
def asNat : JsonText → Option ℕ
  | .num lit => if lit.all Char.isDigit then some (Nat.ofDigitChars 10 lit 0) else none
  | _ => none

/-- What a reader of JSON takes out of a text, given what it takes out of the value. -/
def readJson {α : Type*} (read : JsonText → Option α) (text : String) : Option α :=
  (parseJson 10000 text.toList).bind read

/-- `t.name` and `t.count`. -/
def readNameCount (t : JsonText) : Option NameCount := do
  let name ← (member "name" t).bind asString
  let count ← (member "count" t).bind asNat
  return ⟨name, count⟩

/-- `p.name`, `p.minute` and `p.count`. -/
def readMinutePoint (conv : Conversions) (t : JsonText) : Option MinutePoint := do
  let name ← (member "name" t).bind asString
  let minute ← (member "minute" t).bind fun
    | .str lit => conv.time lit
    | _ => none
  let count ← (member "count" t).bind asNat
  return ⟨name, minute / 1000, count⟩

/-- `data.key || []`, with each element read. -/
def readSlice {α : Type} (read : JsonText → Option α) (key : String) (t : JsonText) :
    Option (List α) :=
  match member key t with
  | none | some .null => some []
  | some (.arr xs) => xs.mapM read
  | some _ => none

/-- What `render` takes out of its data. -/
def readStats (conv : Conversions) (t : JsonText) : Option Stats := do
  let totals ← readSlice readNameCount "totals_today" t
  let uniques ← readSlice readNameCount "uniques_today" t
  let series ← readSlice (readMinutePoint conv) "series" t
  return ⟨totals, uniques, series⟩

/-! ## Numbers -/

/-- Beyond its first digit a number goes on with any. -/
theorem foldlM_toDigits {n : ℕ} (hpos : 0 < n) :
    (Nat.toDigits 10 n).foldlM NumState.step .start = some .int := by
  induction n using Nat.strongRecOn with
  | _ n ih =>
    by_cases hlt : n < 10
    · rw [Nat.toDigits_of_lt_base hlt]
      interval_cases n <;> rfl
    · have hle : 10 ≤ n := not_lt.mp hlt
      have hdigit : (n % 10).digitChar.isDigit = true := by
        rw [Nat.isDigit_digitChar]
        exact decide_eq_true (Nat.mod_lt _ (by decide))
      rw [Nat.toDigits_of_base_le (by decide) hle, List.foldlM_append,
        ih (n / 10) (by omega) (by omega)]
      simp [NumState.step, hdigit]

/-- **A count is written as a number.** -/
theorem isNumber_toDigits (n : ℕ) : isNumber (Nat.toDigits 10 n) = true := by
  rcases Nat.eq_zero_or_pos n with rfl | hpos
  · rfl
  · rw [isNumber, foldlM_toDigits hpos]
    rfl

theorem asNat_toDigits (n : ℕ) : asNat (.num (Nat.toDigits 10 n)) = some n := by
  have hall : (Nat.toDigits 10 n).all Char.isDigit = true :=
    List.all_eq_true.mpr fun c hc => Nat.isDigit_of_mem_toDigits (by decide) (by decide) hc
  rw [asNat, if_pos hall, Nat.ofDigitChars_ten_toDigits]

/-! ## Reading an answer back -/

theorem textElems_eq_map (xs : List Json) : textElems xs = xs.map Json.text := by
  induction xs with
  | nil => rfl
  | cons x xs ih => rw [textElems, ih, List.map_cons]

theorem mapM_eq_some_self {α : Type} {f : α → Option α} {l : List α}
    (h : ∀ a ∈ l, f a = some a) : l.mapM f = some l := by
  induction l with
  | nil => rfl
  | cons a l ih =>
    rw [List.mapM_cons, h a List.mem_cons_self, ih fun b hb => h b (List.mem_cons_of_mem a hb)]
    rfl

theorem readNameCount_json (g : NameCount) : readNameCount g.json.text = some g := by
  simp [readNameCount, NameCount.json, Json.text, textFields, member, unquote_escaped, asString,
    countNumeral, asNat_toDigits]

theorem fits_nameCount (g : NameCount) (n : ℕ) : g.json.text.Fits (n + 1) :=
  ⟨isString_escaped _, isString_escaped _, isString_escaped _, isNumber_toDigits _, trivial⟩

theorem textFields_eq_map (fs : List (String × Json)) :
    textFields fs = fs.map fun f => (escaped f.1, f.2.text) := by
  induction fs with
  | nil => rfl
  | cons f fs ih => rw [textFields, ih, List.map_cons]

/-- An object whose values are well formed is read as it was marshalled. -/
theorem readJson_marshal {α : Type} {fields : List (String × Json)}
    (h : ∀ f ∈ fields, f.2.text.Fits 9999) (read : JsonText → Option α) :
    readJson read (String.ofList (marshal (.obj fields))) = read (.obj (textFields fields)) := by
  have hfits : (Json.obj fields).text.Fits 10000 := by
    show JsonText.FitsMembers 9999 (textFields fields)
    rw [textFields_eq_map, JsonText.fitsMembers_iff]
    intro m hm
    obtain ⟨f, hf, rfl⟩ := List.mem_map.mp hm
    exact ⟨isString_escaped _, h f hf⟩
  rw [readJson, String.toList_ofList, marshal_eq_render, parseJson_render hfits, Option.bind_some,
    Json.text]

/-- **The answers for one name, after every run.** For a name with a U+0000 both endpoints answer
500. For every other name both answer 200, and a reader of JSON takes out of the answers the name,
whatever characters it has, the number of stored rows of the name from the session's midnight on,
and the estimate of the sketch of the users that were delivered with it for the session's date. -/
theorem query_replies {c : Postgres} {bs : List (Batch c)} {st : Store} {n : ℕ}
    (h : insertBatches c .empty bs = .ok (st, n)) (tz : TimeZone) (now : ℤ) {event : String}
    (hevent : event ≠ "") :
    let count := getCount tz now st event
    let uniques := getUniques tz now st event Sketch.estimate
    (containsNul event = true → count = ⟨500, "failed to query count", none⟩ ∧
      uniques = ⟨500, "failed to query uniques", none⟩) ∧
    (containsNul event = false → count.status = 200 ∧ uniques.status = 200 ∧
      readJson (fun t => (member "event" t).bind asString) count.text = some event ∧
      readJson (fun t => (member "count_today" t).bind asNat) count.text =
        some (st.events.countP fun r => r.name = event ∧ tz.dayStart now ≤ r.ts) ∧
      readJson (fun t => (member "event" t).bind asString) uniques.text = some event ∧
      readJson (fun t => (member "unique_users_today" t).bind asNat) uniques.text =
        some (Sketch.new.addAll (idsFor (delivered bs) ⟨event, tz.currentDate now⟩)).estimate) := by
  intro count uniques
  refine ⟨fun hnul => ?_, fun hnul => ?_⟩
  · simp only [count, uniques, getCount, getUniques, if_neg hevent, countToday, uniquesToday,
      withName, if_pos hnul, and_self]
  have hcount : count = writeJSON 200 [("count_today", .num (countNumeral
      (st.events.countP fun r => r.name = event ∧ tz.dayStart now ≤ r.ts))),
      ("event", .str event)] := by
    simp only [count, getCount, if_neg hevent, countToday, withName_of_nulFree hnul,
      (sound_of_insertBatches h).countTodaySQL_eq]
  have huniques : uniques = writeJSON 200 [("event", .str event), ("unique_users_today",
      .num (countNumeral (Sketch.new.addAll
        (idsFor (delivered bs) ⟨event, tz.currentDate now⟩)).estimate))] := by
    simp only [uniques, getUniques, if_neg hevent, uniquesToday, withName_of_nulFree hnul,
      uniquesTodaySQL_of_insertBatches h]
  have hfits : ∀ k : ℕ,
      (∀ f ∈ [("count_today", Json.num (countNumeral k)), ("event", .str event)],
        f.2.text.Fits 9999) ∧
      ∀ f ∈ [("event", Json.str event), ("unique_users_today", .num (countNumeral k))],
        f.2.text.Fits 9999 := by
    intro k
    simp only [List.forall_mem_cons]
    exact ⟨⟨isNumber_toDigits k, isString_escaped event, List.forall_mem_nil _⟩,
      isString_escaped event, isNumber_toDigits k, List.forall_mem_nil _⟩
  simp only [hcount, huniques, writeJSON, readJson_marshal (hfits _).1,
    readJson_marshal (hfits _).2]
  simp [textFields, Json.text, member, unquote_escaped, asString, countNumeral, asNat_toDigits]

/-- A name that has to be escaped, and one that is refused. -/
theorem query_replies_escaped_name :
    ∃ st n, insertBatches .bytewise .empty
        [Batch.single .bytewise ⟨"e1", "<\"buy\">", "u1", none, 0⟩] = .ok (st, n) ∧
      readJson (fun t => (member "event" t).bind asString) (getCount .utc 0 st "<\"buy\">").text =
        some "<\"buy\">" ∧
      (getCount .utc 0 st "\x00").status = 500 := by
  obtain ⟨st, n, hrun⟩ := exists_insertBatches_eq_ok
    [Batch.single .bytewise ⟨"e1", "<\"buy\">", "u1", none, 0⟩] (by decide +kernel) allDecode_empty
  have hnul : "\x00" ≠ "" := by decide
  refine ⟨st, n, hrun, ((query_replies hrun .utc 0 (by decide)).2 (by decide +kernel)).2.2.1, ?_⟩
  rw [((query_replies hrun .utc 0 hnul).1 (by decide +kernel)).1]

/-! ## Statistics -/

section Stats

variable {conv : Conversions}

/-- A point is read as it was marshalled. -/
theorem readMinutePoint_json {p : MinutePoint} {j : Json} (h : p.json conv = some j) :
    readMinutePoint conv j.text = some p ∧ ∀ n, j.text.Fits (n + 1) := by
  obtain ⟨minute, hminute, rfl⟩ := Option.map_eq_some_iff.mp h
  have hround : p.minute * 1000 / 1000 = p.minute := Int.mul_ediv_cancel _ (by decide)
  refine ⟨?_, fun n => ⟨isString_escaped _, isString_escaped _, isString_escaped _,
    isString_escaped _, isString_escaped _, isNumber_toDigits _, trivial⟩⟩
  simp [readMinutePoint, Json.text, textFields, member, unquote_escaped, asString, countNumeral,
    asNat_toDigits, conv.time_formatTime hminute, hround]

theorem mapM_points {ps : List MinutePoint} {js : List Json}
    (h : ps.mapM (MinutePoint.json conv) = some js) :
    (js.map Json.text).mapM (readMinutePoint conv) = some ps ∧
      ∀ j ∈ js, ∀ n, j.text.Fits (n + 1) := by
  induction ps generalizing js with
  | nil =>
    cases h
    exact ⟨rfl, nofun⟩
  | cons p ps ih =>
    rw [List.mapM_cons] at h
    obtain ⟨j, hj, h⟩ := Option.bind_eq_some_iff.mp h
    obtain ⟨js', hjs, h⟩ := Option.bind_eq_some_iff.mp h
    cases h
    obtain ⟨hread, hfits⟩ := readMinutePoint_json hj
    obtain ⟨hreads, hall⟩ := ih hjs
    refine ⟨?_, List.forall_mem_cons.mpr ⟨hfits, hall⟩⟩
    rw [List.map_cons, List.mapM_cons, hread, hreads]
    rfl

theorem mapM_eq_none_iff {α β : Type} {f : α → Option β} {l : List α} :
    l.mapM f = none ↔ ∃ a ∈ l, f a = none := by
  induction l with
  | nil => simp
  | cons a l ih =>
    rw [List.mapM_cons]
    cases ha : f a <;> cases hl : l.mapM f <;> simp_all

theorem fits_arr {js : List Json} (h : ∀ j ∈ js, ∀ n, j.text.Fits (n + 1)) :
    (Json.arr js).text.Fits 9999 := by
  show JsonText.FitsElems 9998 (textElems js)
  rw [textElems_eq_map, JsonText.fitsElems_iff]
  intro t ht
  obtain ⟨j, hj, rfl⟩ := List.mem_map.mp ht
  exact h j hj 9997

/-- **The page reads the statistics that were answered.** Whatever the names, and for any
conversions of times: out of the body of an answer of `/v1/stats` the page takes the totals, the
estimates and the points that the handler put into it, in their order. A body is missing only if a
minute cannot be marshalled. -/
theorem stats_read_back (conv : Conversions) (stats : Stats) :
    (∀ body, statsJson conv stats = some body →
      readJson (readStats conv) (String.ofList (marshal body)) = some stats) ∧
    (statsJson conv stats = none ↔
      ∃ p ∈ stats.series, conv.formatTime (p.minute * 1000) = none) := by
  constructor
  · intro body hbody
    obtain ⟨points, hpoints, rfl⟩ := Option.map_eq_some_iff.mp hbody
    obtain ⟨hseries, hfits⟩ := mapM_points hpoints
    have hcounts : ∀ gs : List NameCount,
        gs.mapM (readNameCount ∘ Json.text ∘ NameCount.json) = some gs := fun gs =>
      mapM_eq_some_self fun g _ => readNameCount_json g
    have hcountsFit : ∀ gs : List NameCount, (Json.arr (gs.map NameCount.json)).text.Fits 9999 :=
      fun gs => fits_arr fun j hj => by
        obtain ⟨g, -, rfl⟩ := List.mem_map.mp hj
        exact fits_nameCount g
    rw [readJson_marshal]
    · simp [readStats, readSlice, textFields, Json.text, member, unquote_escaped, textElems_eq_map,
        hcounts, hseries]
    · simp only [List.forall_mem_cons]
      exact ⟨fits_arr hfits, hcountsFit _, hcountsFit _, nofun⟩
  · rw [statsJson, Option.map_eq_none_iff, mapM_eq_none_iff]
    simp [MinutePoint.json]

end Stats

/-- One click, in the first minute. -/
theorem stats_read_back_one_click :
    ∃ body, statsJson .epoch ⟨[⟨"buy_click", 1⟩], [⟨"buy_click", 1⟩], [⟨"buy_click", 0, 1⟩]⟩ =
        some body ∧
      readJson (readStats .epoch) (String.ofList (marshal body)) =
        some ⟨[⟨"buy_click", 1⟩], [⟨"buy_click", 1⟩], [⟨"buy_click", 0, 1⟩]⟩ := by
  have hsome : (statsJson .epoch
      ⟨[⟨"buy_click", 1⟩], [⟨"buy_click", 1⟩], [⟨"buy_click", 0, 1⟩]⟩).isSome := rfl
  obtain ⟨body, hbody⟩ := Option.isSome_iff_exists.mp hsome
  exact ⟨body, hbody, (stats_read_back .epoch _).1 body hbody⟩

end Tally
