import Mathlib.Data.Int.Basic
import Mathlib.Data.List.Induction
import Mathlib.Logic.Function.Basic
import Mathlib.Order.Defs.LinearOrder

/-!
# Counters that expire

A store of counters by key, each with the time after which it is gone. A hit counts up, and sets the
time to live of a counter it creates. Hits belong to windows, and a window has a key, possibly
shared with others: the counter of a window counts its own hits, and nothing else, when the hits of
one window are no further apart than the time to live, and those of different windows with the same
key are further apart.

## Main definitions

* `Counters`, `Counters.incr`, `Counters.expire`: the store and its commands
* `Counters.hit`: counting up, with the time to live set by the first
* `Counters.Separated`: what is asked of the times of the hits
* `Counters.Tracks`: the store holds the counts of the last windows

## Main results

* `Counters.Tracks.hit`: a hit keeps this
* `Counters.hit_after`: a hit returns its position in its window
-/

namespace Foundation

/-- A counter, and the last time at which it is there. -/
structure Counter where
  count : ℕ
  expires : Option ℤ

/-- The counter has not expired. -/
def Counter.live (now : ℤ) (c : Counter) : Bool :=
  match c.expires with
  | none => true
  | some t => now ≤ t

/-- The counters of a store. -/
structure Counters (κ : Type*) where
  at? : κ → Option Counter

/-- A hit of a window at a time. -/
structure Hit (ω : Type*) where
  time : ℤ
  window : ω

namespace Counters

variable {κ ω : Type*} [DecidableEq κ]

/-- No counters. -/
def empty : Counters κ := ⟨fun _ => none⟩

/-- The counter of a key, unless it has expired. -/
def find (now : ℤ) (key : κ) (s : Counters κ) : Option Counter := (s.at? key).filter (·.live now)

def set (key : κ) (c : Option Counter) (s : Counters κ) : Counters κ :=
  ⟨Function.update s.at? key c⟩

/-- Counts up, from zero and without an expiry if there is no counter, and returns the count. -/
def incr (now : ℤ) (key : κ) (s : Counters κ) : ℕ × Counters κ :=
  match s.find now key with
  | none => (1, s.set key (some ⟨1, none⟩))
  | some c => (c.count + 1, s.set key (some ⟨c.count + 1, c.expires⟩))

/-- Sets the expiry of a counter, if there is one. -/
def expire (now ttl : ℤ) (key : κ) (s : Counters κ) : Counters κ :=
  match s.find now key with
  | none => s
  | some c => s.set key (some ⟨c.count, some (now + ttl)⟩)

/-- Counts up, and sets the expiry of a counter that is new. -/
def hit (ttl now : ℤ) (key : κ) (s : Counters κ) : ℕ × Counters κ :=
  let (n, s) := s.incr now key
  (n, if n = 1 then s.expire now ttl key else s)

/-- The store after some hits. -/
def after (ttl : ℤ) (label : ω → κ) (hits : List (Hit ω)) : Counters κ :=
  hits.foldl (fun s h => (s.hit ttl h.time (label h.window)).2) empty

/-- Hits in the order of their times: those of one window are no further apart than the time to
live, and those of different windows with one key are further apart. -/
def Separated (ttl : ℤ) (label : ω → κ) (hits : List (Hit ω)) : Prop :=
  hits.Pairwise fun h h' => h.time ≤ h'.time ∧
    (h.window = h'.window → h'.time ≤ h.time + ttl) ∧
    (h.window ≠ h'.window → label h.window = label h'.window → h.time + ttl < h'.time)

/-! ## One hit -/

section Hit

variable {ttl now : ℤ} {key : κ} {s : Counters κ}

theorem at?_set_self (key : κ) (c : Option Counter) (s : Counters κ) : (s.set key c).at? key = c :=
  Function.update_self _ _ _

theorem at?_set_of_ne {key' : κ} (hkey : key' ≠ key) (c : Option Counter) (s : Counters κ) :
    (s.set key c).at? key' = s.at? key' := Function.update_of_ne hkey _ _

/-- A hit without a counter creates one. -/
theorem hit_of_none (ttl : ℤ) (h : s.find now key = none) :
    (s.hit ttl now key).1 = 1 ∧
      (s.hit ttl now key).2.at? key = some ⟨1, some (now + ttl)⟩ := by
  have hincr : s.incr now key = (1, s.set key (some ⟨1, none⟩)) := by rw [incr, h]
  have hfind : (s.set key (some ⟨1, none⟩)).find now key = some ⟨1, none⟩ := by
    rw [find, at?_set_self]
    rfl
  rw [hit, hincr]
  refine ⟨rfl, ?_⟩
  simp only [if_true, expire, hfind, at?_set_self]

/-- A hit on a counter counts up. -/
theorem hit_of_some (ttl : ℤ) {c : Counter} (h : s.find now key = some c) (hc : c.count ≠ 0) :
    (s.hit ttl now key).1 = c.count + 1 ∧
      (s.hit ttl now key).2.at? key = some ⟨c.count + 1, c.expires⟩ := by
  have hincr : s.incr now key = (c.count + 1, s.set key (some ⟨c.count + 1, c.expires⟩)) := by
    rw [incr, h]
  rw [hit, hincr]
  refine ⟨rfl, ?_⟩
  simp only [if_neg (show ¬ c.count + 1 = 1 by omega), at?_set_self]

/-- A hit touches no other counter. -/
theorem at?_hit_of_ne {key' : κ} (hkey : key' ≠ key) :
    (s.hit ttl now key).2.at? key' = s.at? key' := by
  have hincr : (s.incr now key).2.at? key' = s.at? key' := by
    unfold incr
    cases s.find now key <;> exact at?_set_of_ne hkey _ _
  rw [hit]
  simp only
  split_ifs
  · rw [← hincr, expire]
    cases find now key (s.incr now key).2 with
    | none => rfl
    | some c => exact at?_set_of_ne hkey _ _
  · exact hincr

end Hit

/-! ## Windows -/

section Windows

variable [DecidableEq ω] {ttl : ℤ} {label : ω → κ} {hits : List (Hit ω)} {g : Hit ω}
  {s : Counters κ} {key : κ}

/-- What the store has for a key after some hits: nothing before the first, and then the count of
the last window with that key, which expires counted from its first hit. -/
def TracksAt (ttl : ℤ) (label : ω → κ) (hits : List (Hit ω)) (key : κ) : Option Counter → Prop
  | none => ∀ h ∈ hits, label h.window ≠ key
  | some c => ∃ first ∈ hits, label first.window = key ∧
      c = ⟨hits.countP fun h => h.window = first.window, some (first.time + ttl)⟩ ∧
      ∀ h ∈ hits, label h.window = key → h.window ≠ first.window → h.time + ttl < first.time

/-- The store holds the counts of the last windows. -/
def Tracks (ttl : ℤ) (label : ω → κ) (hits : List (Hit ω)) (s : Counters κ) : Prop :=
  ∀ key, TracksAt ttl label hits key (s.at? key)

omit [DecidableEq κ] in
/-- A hit of another key. -/
theorem TracksAt.snoc_of_ne {o : Option Counter} (h : TracksAt ttl label hits key o)
    (hkey : label g.window ≠ key) : TracksAt ttl label (hits ++ [g]) key o := by
  cases o with
  | none =>
    intro h' hh'
    rcases List.mem_append.mp hh' with hh' | hh'
    · exact h h' hh'
    · rwa [List.mem_singleton.mp hh']
  | some c =>
    obtain ⟨first, hfirst, hlabel, hc, hold⟩ := h
    have hwindow : g.window ≠ first.window := fun hw => hkey (hw ▸ hlabel)
    refine ⟨first, List.mem_append_left _ hfirst, hlabel, ?_, ?_⟩
    · rw [hc, List.countP_append, List.countP_singleton, if_neg (by simpa using hwindow),
        Nat.add_zero]
    · intro h' hh' hlabel'
      rcases List.mem_append.mp hh' with hh' | hh'
      · exact hold h' hh' hlabel'
      · rw [List.mem_singleton.mp hh'] at hlabel'
        exact absurd hlabel' hkey

omit [DecidableEq κ] in
/-- The first hit of a window, after those of other windows with its key have expired. -/
theorem TracksAt.snoc_first (hnew : ∀ h ∈ hits, h.window ≠ g.window)
    (hold : ∀ h ∈ hits, label h.window = label g.window → h.time + ttl < g.time) :
    TracksAt ttl label (hits ++ [g]) (label g.window) (some ⟨1, some (g.time + ttl)⟩) := by
  refine ⟨g, List.mem_append_right _ List.mem_cons_self, rfl, ?_, ?_⟩
  · have hzero : hits.countP (fun h => h.window = g.window) = 0 :=
      List.countP_eq_zero.mpr fun h hh => by simpa using hnew h hh
    rw [List.countP_append, hzero, List.countP_singleton, if_pos (by simp)]
  · intro h hh hlabel hne
    rcases List.mem_append.mp hh with hh | hh
    · exact hold h hh hlabel
    · rw [List.mem_singleton.mp hh] at hne
      exact absurd rfl hne

/-- **A hit returns its position in its window, and the store goes on to hold the counts.** -/
theorem Tracks.hit (h : Tracks ttl label hits s) (hsep : Separated ttl label (hits ++ [g])) :
    (s.hit ttl g.time (label g.window)).1 = hits.countP (fun h => h.window = g.window) + 1 ∧
      Tracks ttl label (hits ++ [g]) (s.hit ttl g.time (label g.window)).2 := by
  have hrel : ∀ h ∈ hits, h.time ≤ g.time ∧ (h.window = g.window → g.time ≤ h.time + ttl) ∧
      (h.window ≠ g.window → label h.window = label g.window → h.time + ttl < g.time) :=
    fun h hh => (List.pairwise_append.mp hsep).2.2 h hh g List.mem_cons_self
  suffices hown : (s.hit ttl g.time (label g.window)).1 =
        hits.countP (fun h => h.window = g.window) + 1 ∧
      TracksAt ttl label (hits ++ [g]) (label g.window)
        ((s.hit ttl g.time (label g.window)).2.at? (label g.window)) by
    refine ⟨hown.1, fun key => ?_⟩
    by_cases hkey : key = label g.window
    · rw [hkey]
      exact hown.2
    · rw [at?_hit_of_ne hkey]
      exact (h key).snoc_of_ne (Ne.symm hkey)
  have hcreate : s.find g.time (label g.window) = none → (∀ h ∈ hits, h.window ≠ g.window) →
      (s.hit ttl g.time (label g.window)).1 = hits.countP (fun h => h.window = g.window) + 1 ∧
        TracksAt ttl label (hits ++ [g]) (label g.window)
          ((s.hit ttl g.time (label g.window)).2.at? (label g.window)) := by
    intro hnone hnew
    obtain ⟨hcount, hat⟩ := hit_of_none ttl hnone
    have hzero : hits.countP (fun h => h.window = g.window) = 0 :=
      List.countP_eq_zero.mpr fun h hh => by simpa using hnew h hh
    rw [hcount, hat, hzero]
    exact ⟨rfl, .snoc_first hnew fun h hh => (hrel h hh).2.2 (hnew h hh)⟩
  have hkey := h (label g.window)
  cases hat : s.at? (label g.window) with
  | none =>
    rw [hat] at hkey
    refine hcreate (by rw [find, hat]; rfl) fun h hh hw => hkey h hh (by rw [hw])
  | some c =>
    rw [hat] at hkey
    obtain ⟨first, hfirst, hlabel, hc, hold⟩ := hkey
    by_cases hw : first.window = g.window
    · have hlive : s.find g.time (label g.window) = some c := by
        have hle := (hrel first hfirst).2.1 hw
        rw [find, hat, Option.filter_some_pos]
        simpa [Counter.live, hc] using hle
      have hpos : c.count ≠ 0 := by
        have hcount : 0 < hits.countP fun h => h.window = first.window :=
          List.countP_pos_iff.mpr ⟨first, hfirst, by simp⟩
        rw [hc]
        exact Nat.pos_iff_ne_zero.mp hcount
      obtain ⟨hcount, hat'⟩ := hit_of_some ttl hlive hpos
      rw [hcount, hat', hc, hw]
      refine ⟨rfl, first, List.mem_append_left _ hfirst, hlabel, ?_, ?_⟩
      · rw [hw, List.countP_append, List.countP_singleton, if_pos (by simp)]
      · intro h hh hlabel' hne
        rcases List.mem_append.mp hh with hh | hh
        · exact hold h hh hlabel' hne
        · rw [List.mem_singleton.mp hh] at hne
          exact absurd hw.symm hne
    · have hdead := (hrel first hfirst).2.2 hw hlabel
      refine hcreate ?_ fun h hh hw' => ?_
      · rw [find, hat, Option.filter_some_neg]
        simpa [Counter.live, hc] using hdead
      · have hbefore := hold h hh (by rw [hw']) (by rw [hw']; exact Ne.symm hw)
        have hafter := (hrel h hh).2.1 hw'
        have hle := (hrel first hfirst).1
        omega

theorem tracks_after (hsep : Separated ttl label hits) :
    Tracks ttl label hits (after ttl label hits) := by
  induction hits using List.reverseRecOn with
  | nil => exact fun key h hh => absurd hh List.not_mem_nil
  | append_singleton hits g ih =>
    have hinit : Separated ttl label hits := (List.pairwise_append.mp hsep).1
    rw [after, List.foldl_append]
    exact ((ih hinit).hit hsep).2

/-- **A hit returns its position in its window.** -/
theorem hit_after (hsep : Separated ttl label (hits ++ [g])) :
    ((after ttl label hits).hit ttl g.time (label g.window)).1 =
      hits.countP (fun h => h.window = g.window) + 1 :=
  ((tracks_after (List.pairwise_append.mp hsep).1).hit hsep).1

end Windows

end Counters

end Foundation
