import Mathlib.Data.String.Basic
import Tally.Foundation.GroupedUpsert
import Tally.Hll.Sketch
import Tally.Store.Json

/-!
# Events and tables

The data model of `internal/store` and of the migrations: an event as it is queued, the row it
becomes, the keys of the rollup and sketch tables, and the three tables. A table with a primary
key is a finite map, so two rows of one key cannot be built. `events` is the list of its rows in
insertion order, which is what its serial id records; that its `event_id` is unique is proved,
not assumed.

## Main definitions

* `Event`, `Row`, `Event.toRow`: an event and its row
* `CountKey`, `UniqueKey`: the keys of `event_counts_minute` and `event_uniques_day`
* `Store`: the tables
* `Event.hasNul`: what Postgres refuses in any string of an event
* `Postgres`, `Postgres.Takes`: the database, by how it sorts text and what it refuses
-/

namespace Tally

open Foundation Hll

/-- `store.Event`. Its timestamp is in nanoseconds since the Unix epoch. -/
structure Event where
  eventId : String
  name : String
  distinctId : String
  properties : Option (List (String × Json))
  ts : ℤ

/-- The properties as they are stored: a nil map becomes an empty object. -/
def Event.document (e : Event) : Json := .obj (e.properties.getD [])

/-- A row of `events`, without its serial id. A `timestamptz` is in microseconds. -/
structure Row where
  eventId : String
  name : String
  distinctId : String
  properties : Json
  ts : ℤ

/-- The row of `incoming` an event becomes; pgx drops the nanoseconds below a microsecond. -/
def Event.toRow (e : Event) : Row := ⟨e.eventId, e.name, e.distinctId, e.document, e.ts / 1000⟩

/-- `date_trunc('minute', ts)`, for a session time zone whose offset is a whole number of
minutes. -/
def truncMinute (ts : ℤ) : ℤ := ts / 60000000 * 60000000

/-- The primary key of `event_counts_minute`. -/
structure CountKey where
  name : String
  minute : ℤ
  deriving DecidableEq

/-- The primary key of `event_uniques_day`, `uniqueKey` in the source. The day is the number of
days since the epoch; in the years 0 to 9999 its `YYYY-MM-DD` text determines it and sorts as it
does. -/
structure UniqueKey where
  name : String
  day : ℤ
  deriving DecidableEq

def Row.countKey (r : Row) : CountKey := ⟨r.name, truncMinute r.ts⟩

/-- The name and UTC day of a row. -/
def Row.uniqueKey (r : Row) : UniqueKey := ⟨r.name, r.ts / 86400000000⟩

/-- The sketch an event belongs to: its name and the UTC day of its timestamp. -/
def Event.uniqueKey (e : Event) : UniqueKey := ⟨e.name, e.ts / 86400000000000⟩

@[simp] theorem Event.toRow_eventId (e : Event) : e.toRow.eventId = e.eventId := rfl

@[simp] theorem Event.toRow_distinctId (e : Event) : e.toRow.distinctId = e.distinctId := rfl

/-- Dropping the nanoseconds does not move an event to another day. -/
@[simp] theorem Event.uniqueKey_toRow (e : Event) : e.toRow.uniqueKey = e.uniqueKey := by
  simp only [Row.uniqueKey, Event.toRow, Event.uniqueKey, UniqueKey.mk.injEq, true_and]
  rw [Int.ediv_ediv_of_nonneg (by decide)]
  rfl

/-- The rollup table: the number of events of each name in each minute. -/
abbrev Counts := Finmap fun _ : CountKey => ℕ

/-- The sketch table: the encoded sketch of each name on each day. -/
abbrev Uniques := Finmap fun _ : UniqueKey => List Byte

/-- The three tables. -/
@[ext] structure Store where
  events : List Row
  counts : Counts
  uniques : Uniques

/-- The tables after the migrations. -/
def Store.empty : Store := ⟨[], ∅, ∅⟩

/-- The event ids stored. -/
def Store.ids (st : Store) : List String := st.events.map Row.eventId

/-- A string of the event contains the character U+0000. Postgres takes it neither in a text nor, as
the escape `\u0000`, in a jsonb document. -/
def Event.hasNul (e : Event) : Bool :=
  containsNul e.eventId || containsNul e.name || containsNul e.distinctId ||
    nulEscape false (marshal e.document)

/-- The database: the total order by which it sorts text, and what it refuses besides U+0000. -/
structure Postgres where
  order : LinearOrder String
  /-- A statement fails on what it is given of the event, whether or not the row is inserted: the
  document is nested too deep, or the sketch it belongs to cannot have a row, for its name is too
  long or its year is none that `date` reads. -/
  refusesEvent : Event → Bool
  /-- The row cannot be inserted: its id or its name is too long for an entry of an index. -/
  refusesRow : Row → Bool

namespace Postgres

/-- Text sorts by code point, and nothing but U+0000 is refused. -/
def bytewise : Postgres := ⟨inferInstance, fun _ => false, fun _ => false⟩

variable (c : Postgres)

def le (a b : String) : Prop := c.order.le a b

instance : DecidableRel c.le := c.order.toDecidableLE

theorem le_antisymm {a b : String} (h : c.le a b) (h' : c.le b a) : a = b :=
  c.order.le_antisymm a b h h'

theorem le_trans {a b d : String} (h : c.le a b) (h' : c.le b d) : c.le a d :=
  c.order.le_trans a b d h h'

theorem le_total (a b : String) : c.le a b ∨ c.le b a := c.order.le_total a b

/-- Every batch with the event fails. -/
def refuses (e : Event) : Bool := e.hasNul || c.refusesEvent e

theorem containsNul_name {e : Event} (h : c.refuses e = false) : containsNul e.name = false := by
  simp only [refuses, Event.hasNul, Bool.or_eq_false_iff] at h
  exact h.1.1.1.2

/-- No batch fails for the event. -/
def Takes (e : Event) : Prop := c.refuses e = false ∧ c.refusesRow e.toRow = false

instance (e : Event) : Decidable (c.Takes e) :=
  inferInstanceAs (Decidable (c.refuses e = false ∧ c.refusesRow e.toRow = false))

/-- `ORDER BY name, minute`. -/
def countLe (k l : CountKey) : Prop :=
  if k.name = l.name then k.minute ≤ l.minute else c.le k.name l.name

instance : DecidableRel c.countLe := fun k l => by
  unfold countLe
  infer_instance

end Postgres

end Tally
