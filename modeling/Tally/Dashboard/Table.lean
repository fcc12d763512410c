import Mathlib.Algebra.Order.Field.Rat
import Tally.Dashboard.Chart
import Tally.Dashboard.Refresh
import Tally.Foundation.Markup

/-!
# The page of the dashboard

`render` builds the table and the chart as markup, with the names of the events in it. Anyone who
can send an event chooses its name, so it matters what a browser reads: the tags of the templates
and no others, with each name as text. The widths of the bars and the heights of the columns are
percentages; the totals come largest first, so none is above a hundred.

A browser normalises the line ends of what it reads; this is left out.

## Main definitions

* `Browser`: what the page takes from the browser
* `escapeHTML`, `topMarkup`, `chartMarkup`, `render`: the page
* `topTokens`, `chartTokens`: what a browser should read

## Main results

* `escapes_escapeChar`: an escaped name is read as the name
* `tokenize_topMarkup`, `tokenize_chartMarkup`: what a browser reads
* `render_markup`: the page of every answer
-/

namespace Tally

open Foundation Markup Hll

/-- What the page takes from the browser: its time zone, the character references it knows, and its
texts of numbers, `toLocaleString` and that of a template literal. The references of `escapeHTML`
are among those it knows, and no number has a character that is special in markup. -/
structure Browser where
  zone : BrowserZone
  references : List Char → Option Char
  fmt : ℕ → List Char
  number : ℚ → List Char
  references_amp : references ['a', 'm', 'p'] = some '&'
  references_lt : references ['l', 't'] = some '<'
  references_gt : references ['g', 't'] = some '>'
  references_quot : references ['q', 'u', 'o', 't'] = some '"'
  references_39 : references ['#', '3', '9'] = some '\x27'
  fmt_plain : ∀ n, ∀ c ∈ fmt n, c ≠ '<' ∧ c ≠ '&' ∧ c ≠ '>' ∧ c ≠ '"'
  number_plain : ∀ q, ∀ c ∈ number q, c ≠ '>' ∧ c ≠ '"'

/-! ## What `render` writes -/

/-- `escapeHTML`: the replacement of a character. -/
def escapeChar : Char → List Char
  | '&' => "&amp;".toList
  | '<' => "&lt;".toList
  | '>' => "&gt;".toList
  | '"' => "&quot;".toList
  | '\x27' => "&#39;".toList
  | c => [c]

/-- `escapeHTML`. -/
def escapeHTML (s : String) : List Char := s.toList.flatMap escapeChar

/-- `render`: the count of the longest bar, `totals[0].count || 1`. -/
def barMax (first : NameCount) : ℕ := if first.count = 0 then 1 else first.count

/-- A share in percent, and at least `least`. -/
def percentage (least : ℚ) (whole part : ℕ) : ℚ := max least (100 * part / whole)

/-- `render`: the width of a bar. -/
def barWidth (maxCount count : ℕ) : ℚ := percentage 2 maxCount count

/-- `render`: the entry of a name in the map of unique users, in which a later one replaces an
earlier. -/
def uniqueUsers (uniques : List NameCount) (name : String) : Option ℕ :=
  (uniques.reverse.find? fun u => u.name = name).map NameCount.count

/-- `render`: the cell of the unique users. -/
def usersCell (b : Browser) (uniques : List NameCount) (name : String) : List Char :=
  match uniqueUsers uniques name with
  | some n => b.fmt n
  | none => "–".toList

/-- `render`: a row of the table. -/
def rowMarkup (b : Browser) (maxCount : ℕ) (uniques : List NameCount) (t : NameCount) :
    List Char :=
  "\n      <tr>\n        <td class=\"name\">".toList ++ escapeHTML t.name ++
  "\n          <div class=\"rowbar\" style=\"width:".toList ++
  b.number (barWidth maxCount t.count) ++
  "%\"></div>\n        </td>\n        <td class=\"count\">".toList ++ b.fmt t.count ++
  "</td>\n        <td class=\"count\">".toList ++ usersCell b uniques t.name ++
  "</td>\n      </tr>".toList

/-- `render`: the header of the table. -/
def headerMarkup : List Char :=
  ("<tr><th></th><th class=\"colhead\">events</th><th class=\"colhead\">unique users" ++
    "<span class=\"approx\">≈</span></th></tr>").toList

/-- `render`: the table of the top events. -/
def topMarkup (b : Browser) (totals uniques : List NameCount) : List Char :=
  match totals with
  | [] => "<tr><td class=\"empty\">no events yet — send one!</td></tr>".toList
  | first :: _ => headerMarkup ++ totals.flatMap (rowMarkup b (barMax first) uniques)

/-- `render`: the largest column, and at least one. -/
def peak (cols : List ℕ) : ℕ := cols.foldr max 1

/-- `render`: the height of a column. -/
def colHeight (top v : ℕ) : ℚ := percentage 1 top v

/-- `render`: a column of the chart. -/
def colMarkup (b : Browser) (top v : ℕ) : List Char :=
  "<div class=\"col\" style=\"height:".toList ++ b.number (colHeight top v) ++
  "%\" title=\"".toList ++ b.fmt v ++ " events\"></div>".toList

/-- `render`: the chart. -/
def chartMarkup (b : Browser) (cols : List ℕ) : List Char := cols.flatMap (colMarkup b (peak cols))

/-- What `render` assigns: the text of the headline, and the markup of the table and the chart. -/
structure Page where
  total : List Char
  top : List Char
  chart : List Char

/-- `render`, at the time `now` of the browser in milliseconds. -/
def render (b : Browser) (now : ℤ) (data : Stats) : Page where
  total := b.fmt (headline data)
  top := topMarkup b data.totalsToday data.uniquesToday
  chart := chartMarkup b (cols b.zone now data.series)

/-! ## What a browser should read -/

/-- A tag of a template. -/
def tagOf (content : String) : Token := .tag content.toList

/-- A text of a template. -/
def textOf (s : String) : List Token := chars s.toList

/-- The content of the tag of a bar. -/
def barTag (b : Browser) (width : ℚ) : List Char :=
  "div class=\"rowbar\" style=\"width:".toList ++ b.number width ++ "%\"".toList

/-- A row: the name of the event as text, a bar, and two cells. -/
def rowTokens (b : Browser) (maxCount : ℕ) (uniques : List NameCount) (t : NameCount) :
    List Token :=
  textOf "\n      " ++ [tagOf "tr"] ++ textOf "\n        " ++ [tagOf "td class=\"name\""] ++
  textOf t.name ++ textOf "\n          " ++
  [.tag (barTag b (barWidth maxCount t.count)), tagOf "/div"] ++ textOf "\n        " ++
  [tagOf "/td"] ++ textOf "\n        " ++
  [tagOf "td class=\"count\""] ++ chars (b.fmt t.count) ++ [tagOf "/td"] ++ textOf "\n        " ++
  [tagOf "td class=\"count\""] ++ chars (usersCell b uniques t.name) ++ [tagOf "/td"] ++
  textOf "\n      " ++ [tagOf "/tr"]

/-- The header: a cell without text, and the two columns of counts. -/
def headerTokens : List Token :=
  [tagOf "tr", tagOf "th", tagOf "/th", tagOf "th class=\"colhead\""] ++ textOf "events" ++
  [tagOf "/th", tagOf "th class=\"colhead\""] ++ textOf "unique users" ++
  [tagOf "span class=\"approx\""] ++ textOf "≈" ++ [tagOf "/span", tagOf "/th", tagOf "/tr"]

/-- The table: a row for each total, in their order. -/
def topTokens (b : Browser) (totals uniques : List NameCount) : List Token :=
  match totals with
  | [] => [tagOf "tr", tagOf "td class=\"empty\""] ++ textOf "no events yet — send one!" ++
      [tagOf "/td", tagOf "/tr"]
  | first :: _ => headerTokens ++ totals.flatMap (rowTokens b (barMax first) uniques)

/-- The content of the tag of a column. -/
def colTag (b : Browser) (height : ℚ) (v : ℕ) : List Char :=
  "div class=\"col\" style=\"height:".toList ++ b.number height ++ "%\" title=\"".toList ++
  b.fmt v ++ " events\"".toList

/-- The chart: an element for each column, without text. -/
def chartTokens (b : Browser) (cols : List ℕ) : List Token :=
  cols.flatMap fun v => [.tag (colTag b (colHeight (peak cols) v) v), tagOf "/div"]

/-! ## What it reads -/

section Reading

variable (b : Browser)

/-- **An escaped character is read as the character.** -/
theorem escapes_escapeChar : Escapes b.references escapeChar := by
  intro c
  unfold escapeChar
  split
  · simp [tokenize, step, b.references_amp]
  · simp [tokenize, step, b.references_lt]
  · simp [tokenize, step, b.references_gt]
  · simp [tokenize, step, b.references_quot]
  · simp [tokenize, step, b.references_39]
  · next hamp hlt _ _ _ =>
    exact tokenize_plain fun d hd => by
      obtain rfl := List.mem_singleton.mp hd
      exact ⟨hlt, hamp⟩

theorem tokenize_escapeHTML (s : String) :
    tokenize b.references .text (escapeHTML s) = (textOf s, .text) :=
  (escapes_escapeChar b).tokenize_flatMap s.toList

theorem tokenize_fmt (n : ℕ) : tokenize b.references .text (b.fmt n) = (chars (b.fmt n), .text) :=
  tokenize_plain fun c hc => ⟨(b.fmt_plain n c hc).1, (b.fmt_plain n c hc).2.1⟩

theorem tokenize_usersCell (uniques : List NameCount) (name : String) :
    tokenize b.references .text (usersCell b uniques name) =
      (chars (usersCell b uniques name), .text) := by
  unfold usersCell
  split
  · exact tokenize_fmt b _
  · rfl

theorem count_quote_number (q : ℚ) : (b.number q).count '"' = 0 :=
  List.count_eq_zero.mpr fun h => (b.number_plain q _ h).2 rfl

theorem count_quote_fmt (n : ℕ) : (b.fmt n).count '"' = 0 :=
  List.count_eq_zero.mpr fun h => (b.fmt_plain n _ h).2.2.2 rfl

theorem tokenize_barTag (width : ℚ) :
    tokenize b.references .text ('<' :: barTag b width ++ ['>']) =
      ([.tag (barTag b width)], .text) := by
  unfold barTag
  refine tokenize_tag (fun h => ?_) ?_
  · simp only [List.mem_append] at h
    rcases h with (h | h) | h
    · exact absurd h (by decide +kernel)
    · exact (b.number_plain width _ h).1 rfl
    · exact absurd h (by decide +kernel)
  · simp only [List.count_append, count_quote_number]
    decide +kernel

theorem tokenize_colTag (height : ℚ) (v : ℕ) :
    tokenize b.references .text ('<' :: colTag b height v ++ ['>']) =
      ([.tag (colTag b height v)], .text) := by
  unfold colTag
  refine tokenize_tag (fun h => ?_) ?_
  · simp only [List.mem_append] at h
    rcases h with (((h | h) | h) | h) | h
    · exact absurd h (by decide +kernel)
    · exact (b.number_plain height _ h).1 rfl
    · exact absurd h (by decide +kernel)
    · exact (b.fmt_plain v _ h).2.2.1 rfl
    · exact absurd h (by decide +kernel)
  · simp only [List.count_append, count_quote_number, count_quote_fmt]
    decide +kernel

/-- The literals of a row are cut where the tag of the bar starts and ends. -/
theorem rowMarkup_eq (maxCount : ℕ) (uniques : List NameCount) (t : NameCount) :
    rowMarkup b maxCount uniques t =
      "\n      <tr>\n        <td class=\"name\">".toList ++ escapeHTML t.name ++
      "\n          ".toList ++ ('<' :: barTag b (barWidth maxCount t.count) ++ ['>']) ++
      "</div>\n        </td>\n        <td class=\"count\">".toList ++ b.fmt t.count ++
      "</td>\n        <td class=\"count\">".toList ++ usersCell b uniques t.name ++
      "</td>\n      </tr>".toList := by
  have hstart : "\n          <div class=\"rowbar\" style=\"width:".toList =
      "\n          ".toList ++ '<' :: "div class=\"rowbar\" style=\"width:".toList := by
    decide +kernel
  have hend : "%\"></div>\n        </td>\n        <td class=\"count\">".toList =
      "%\"".toList ++ '>' :: "</div>\n        </td>\n        <td class=\"count\">".toList := by
    decide +kernel
  unfold rowMarkup barTag
  rw [hstart, hend]
  simp only [List.append_assoc, List.cons_append, List.nil_append]

/-- **A row is read with the name as text.** -/
theorem tokenize_rowMarkup (maxCount : ℕ) (uniques : List NameCount) (t : NameCount) :
    tokenize b.references .text (rowMarkup b maxCount uniques t) =
      (rowTokens b maxCount uniques t, .text) := by
  have hopen : tokenize b.references .text "\n      <tr>\n        <td class=\"name\">".toList =
      (textOf "\n      " ++ [tagOf "tr"] ++ textOf "\n        " ++ [tagOf "td class=\"name\""],
        .text) := tokenize_literal (by decide +kernel) (by decide +kernel)
  have hspace : tokenize b.references .text "\n          ".toList =
      (textOf "\n          ", .text) := tokenize_literal (by decide +kernel) (by decide +kernel)
  have hcells : tokenize b.references .text
      "</div>\n        </td>\n        <td class=\"count\">".toList =
      ([tagOf "/div"] ++ textOf "\n        " ++ [tagOf "/td"] ++ textOf "\n        " ++
        [tagOf "td class=\"count\""], .text) :=
    tokenize_literal (by decide +kernel) (by decide +kernel)
  have hnext : tokenize b.references .text "</td>\n        <td class=\"count\">".toList =
      ([tagOf "/td"] ++ textOf "\n        " ++ [tagOf "td class=\"count\""], .text) :=
    tokenize_literal (by decide +kernel) (by decide +kernel)
  have hclose : tokenize b.references .text "</td>\n      </tr>".toList =
      ([tagOf "/td"] ++ textOf "\n      " ++ [tagOf "/tr"], .text) :=
    tokenize_literal (by decide +kernel) (by decide +kernel)
  have hname := tokenize_append_of_eq hopen (tokenize_escapeHTML b t.name)
  have hbar := tokenize_append_of_eq (tokenize_append_of_eq hname hspace)
    (tokenize_barTag b (barWidth maxCount t.count))
  have hcount := tokenize_append_of_eq (tokenize_append_of_eq hbar hcells) (tokenize_fmt b t.count)
  have husers := tokenize_append_of_eq (tokenize_append_of_eq hcount hnext)
    (tokenize_usersCell b uniques t.name)
  unfold rowTokens
  rw [rowMarkup_eq, tokenize_append_of_eq husers hclose]
  simp only [List.append_assoc, List.cons_append, List.nil_append]

/-- **The table is read as a row for each total.** -/
theorem tokenize_topMarkup (totals uniques : List NameCount) :
    tokenize b.references .text (topMarkup b totals uniques) =
      (topTokens b totals uniques, .text) := by
  unfold topMarkup topTokens
  split
  · exact tokenize_literal (by decide +kernel) (by decide +kernel)
  · next first _ =>
    have hheader : tokenize b.references .text headerMarkup = (headerTokens, .text) :=
      tokenize_literal (by decide +kernel) (by decide +kernel)
    exact tokenize_append_of_eq hheader
      (tokenize_flatMap fun t _ => tokenize_rowMarkup b (barMax first) uniques t)

/-- **The chart is read as an element for each column.** -/
theorem tokenize_chartMarkup (cols : List ℕ) :
    tokenize b.references .text (chartMarkup b cols) = (chartTokens b cols, .text) := by
  refine tokenize_flatMap fun v _ => ?_
  have hstart : "<div class=\"col\" style=\"height:".toList =
      '<' :: "div class=\"col\" style=\"height:".toList := by decide +kernel
  have hend : " events\"></div>".toList = " events\"".toList ++ '>' :: "</div>".toList := by
    decide +kernel
  have hsplit : colMarkup b (peak cols) v =
      ('<' :: colTag b (colHeight (peak cols) v) v ++ ['>']) ++ "</div>".toList := by
    unfold colMarkup colTag
    rw [hstart, hend]
    simp only [List.append_assoc, List.cons_append, List.nil_append]
  have hclose : tokenize b.references .text "</div>".toList = ([tagOf "/div"], .text) :=
    tokenize_literal (by decide +kernel) (by decide +kernel)
  rw [hsplit]
  exact tokenize_append_of_eq (tokenize_colTag b _ v) hclose

end Reading

/-! ## Widths and heights -/

theorem percentage_mem {least : ℚ} {whole part : ℕ} (hleast : least ≤ 100) (h : part ≤ whole)
    (hpos : 0 < whole) :
    least ≤ percentage least whole part ∧ percentage least whole part ≤ 100 := by
  have hwhole : (0 : ℚ) < whole := Nat.cast_pos.mpr hpos
  have hpart : (part : ℚ) ≤ whole := Nat.cast_le.mpr h
  refine ⟨le_max_left _ _, max_le hleast ?_⟩
  rw [div_le_iff₀ hwhole]
  exact mul_le_mul_of_nonneg_left hpart (by norm_num)

theorem percentage_self {least : ℚ} {whole : ℕ} (hleast : least ≤ 100) (hpos : 0 < whole) :
    percentage least whole whole = 100 := by
  have hwhole : (whole : ℚ) ≠ 0 := Nat.cast_ne_zero.mpr hpos.ne'
  rw [percentage, mul_div_cancel_right₀ _ hwhole]
  exact max_eq_right hleast

theorem barMax_pos (first : NameCount) : 0 < barMax first := by
  unfold barMax
  split_ifs <;> omega

theorem le_barMax {first t : NameCount} (h : t.count ≤ first.count) : t.count ≤ barMax first := by
  unfold barMax
  split_ifs <;> omega

theorem one_le_peak (cols : List ℕ) : 1 ≤ peak cols := by
  induction cols with
  | nil => exact le_rfl
  | cons v cols ih => exact ih.trans (le_max_right v _)

theorem le_peak {cols : List ℕ} {v : ℕ} (h : v ∈ cols) : v ≤ peak cols := by
  induction cols with
  | nil => cases h
  | cons w cols ih =>
    rcases List.mem_cons.mp h with rfl | h
    · exact le_max_left _ _
    · exact (ih h).trans (le_max_right w _)

theorem peak_eq_one_or_mem (cols : List ℕ) : peak cols = 1 ∨ peak cols ∈ cols := by
  induction cols with
  | nil => exact .inl rfl
  | cons w cols ih =>
    rcases max_choice w (peak cols) with heq | heq
    · exact .inr (List.mem_cons.mpr (.inl heq))
    · have hpeak : peak (w :: cols) = peak cols := heq
      rw [hpeak]
      exact ih.imp_right (List.mem_cons_of_mem w)

/-- The peak is a column, unless all are empty. -/
theorem peak_mem {cols : List ℕ} {v : ℕ} (h : v ∈ cols) (hpos : 0 < v) : peak cols ∈ cols := by
  rcases peak_eq_one_or_mem cols with hone | hmem
  · have hv : v = peak cols := by
      have hle := le_peak h
      omega
    exact hv ▸ h
  · exact hmem

/-- No total is above the first. -/
theorem count_le_first {tz : TimeZone} {now : ℤ} {st : Store}
    {totals : OrderBy (todayGroups tz now st).val NameCount.ge} {first t : NameCount}
    (hfirst : first ∈ (totalsToday totals).head?) (ht : t ∈ totalsToday totals) :
    t.count ≤ first.count := by
  have hsorted : (totalsToday totals).Pairwise NameCount.ge :=
    totals.pairwise.sublist (List.take_sublist 20 _)
  obtain ⟨rest, heq⟩ := List.head?_eq_some_iff.mp hfirst
  rw [heq] at hsorted ht
  rcases List.mem_cons.mp ht with rfl | ht
  · exact le_rfl
  · exact (List.pairwise_cons.mp hsorted).1 t ht

/-- **The page of every answer of `/v1/stats`.** Whatever the names of the events, a browser reads
in the table the tags of the templates and no others, with a row for each total and the name as its
text, and in the chart an element for each column. Bars have between two and a hundred percent, and
the first has a hundred; columns between one and a hundred, and one has a hundred if any has events.
The unique users of a row are those that `/v1/uniques` would have answered. -/
theorem render_markup {c : Postgres} {bs : List (Batch c)} {n : ℕ} {tz : TimeZone}
    {now₁ now₂ now₃ : ℤ} {st₁ st₂ st₃ : Store} (h : insertBatches c .empty bs = .ok (st₁, n))
    {totals : OrderBy (todayGroups tz now₁ st₁).val NameCount.ge}
    {uniques : OrderBy (todaySketches tz now₂ st₂) fun _ _ => True}
    {points : OrderBy (seriesPoints now₃ 15 st₃) (MinutePoint.le c)} {stats : Stats}
    (hstats : getStatsOver Sketch.estimate totals uniques points = .ok stats)
    (b : Browser) (now : ℤ) :
    tokenize b.references .text (render b now stats).top =
      (topTokens b stats.totalsToday stats.uniquesToday, .text) ∧
    tokenize b.references .text (render b now stats).chart =
      (chartTokens b (cols b.zone now stats.series), .text) ∧
    (∀ first ∈ stats.totalsToday.head?, barWidth (barMax first) first.count = 100 ∧
      ∀ t ∈ stats.totalsToday,
        2 ≤ barWidth (barMax first) t.count ∧ barWidth (barMax first) t.count ≤ 100) ∧
    (∀ v ∈ cols b.zone now stats.series,
      1 ≤ colHeight (peak (cols b.zone now stats.series)) v ∧
        colHeight (peak (cols b.zone now stats.series)) v ≤ 100 ∧
        (0 < v → ∃ w ∈ cols b.zone now stats.series,
          colHeight (peak (cols b.zone now stats.series)) w = 100)) ∧
    ∀ name, containsNul name = false ∨ name ∈ stats.totalsToday.map NameCount.name →
      uniquesToday Sketch.estimate tz now₂ st₂ name =
        .ok ((uniqueUsers stats.uniquesToday name).getD 0) := by
  have htotals := totalsToday_of_getStatsOver hstats
  refine ⟨tokenize_topMarkup b _ _, tokenize_chartMarkup b _, fun first hfirst => ?_,
    fun v hv => ?_, fun name hname => ?_⟩
  · rw [htotals] at hfirst ⊢
    have hpos : 0 < first.count := (sound_of_insertBatches h).todayGroups_spec tz now₁ |>.2.1 first
      (mem_totalsToday (List.mem_of_head? hfirst))
    have hmax : barMax first = first.count := if_neg hpos.ne'
    refine ⟨?_, fun t ht => ?_⟩
    · rw [hmax]
      exact percentage_self (by norm_num) hpos
    · exact percentage_mem (by norm_num) (le_barMax (count_le_first hfirst ht)) (barMax_pos first)
  · have hrange := percentage_mem (by norm_num : (1 : ℚ) ≤ 100) (le_peak hv) (one_le_peak _)
    exact ⟨hrange.1, hrange.2, fun hpos =>
      ⟨_, peak_mem hv hpos, percentage_self (by norm_num) (one_le_peak _)⟩⟩
  · refine uniquesToday_eq_find (uniquesToday_of_getStatsOver hstats)
      (List.reverse_perm stats.uniquesToday) (hname.elim id fun hrow => ?_)
    rw [htotals] at hrow
    obtain ⟨t, ht, rfl⟩ := List.mem_map.mp hrow
    exact containsNul_of_mem_todayGroups h (mem_totalsToday ht)

/-- A browser with decimal numbers. -/
def Browser.decimal : Browser where
  zone := .fixed 0
  references
    | ['a', 'm', 'p'] => some '&'
    | ['l', 't'] => some '<'
    | ['g', 't'] => some '>'
    | ['q', 'u', 'o', 't'] => some '"'
    | ['#', '3', '9'] => some '\x27'
    | _ => none
  fmt n := Nat.toDigits 10 n
  number q := Nat.toDigits 10 q.num.toNat
  references_amp := rfl
  references_lt := rfl
  references_gt := rfl
  references_quot := rfl
  references_39 := rfl
  fmt_plain n c hc := by
    have hdigit := Nat.isDigit_of_mem_toDigits (by decide) (by decide) hc
    refine ⟨?_, ?_, ?_, ?_⟩ <;> rintro rfl <;> exact absurd hdigit (by decide)
  number_plain q c hc := by
    have hdigit := Nat.isDigit_of_mem_toDigits (by decide) (by decide) hc
    refine ⟨?_, ?_⟩ <;> rintro rfl <;> exact absurd hdigit (by decide)

/-- One event whose name is a script. -/
theorem render_markup_script :
    ∃ st n stats, ∃ totals : OrderBy (todayGroups .utc 0 st).val NameCount.ge,
      ∃ uniques : OrderBy (todaySketches .utc 0 st) fun _ _ => True,
      ∃ points : OrderBy (seriesPoints 0 15 st) (MinutePoint.le .bytewise),
      insertBatches .bytewise .empty
        [Batch.single .bytewise ⟨"e1", "<script>", "u1", none, 0⟩] = .ok (st, n) ∧
      getStatsOver Sketch.estimate totals uniques points = .ok stats ∧
      tokenize Browser.decimal.references .text (render .decimal 0 stats).top =
        (topTokens .decimal stats.totalsToday stats.uniquesToday, .text) := by
  obtain ⟨st, n, hrun⟩ := exists_insertBatches_eq_ok
    [Batch.single .bytewise ⟨"e1", "<script>", "u1", none, 0⟩] (by decide +kernel) allDecode_empty
  have hdec := (insertBatches_applied hrun).1.uniques.allDecode allDecode_empty
  obtain ⟨totals⟩ := OrderBy.nonempty (todayGroups .utc 0 st).val NameCount.ge
  obtain ⟨uniques⟩ := OrderBy.nonempty_unordered (todaySketches .utc 0 st)
  obtain ⟨points⟩ := OrderBy.nonempty (seriesPoints 0 15 st) (MinutePoint.le .bytewise)
  obtain ⟨stats, hstats, -⟩ := exists_getStats_eq_ok Sketch.estimate totals uniques points hdec
  rw [← getStatsOver_self] at hstats
  exact ⟨st, n, stats, totals, uniques, points, hrun, hstats,
    (render_markup hrun hstats .decimal 0).1⟩

end Tally
