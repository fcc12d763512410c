import Mathlib.Data.Finset.Lattice.Fold
import Mathlib.Data.Fintype.Pi
import Mathlib.Order.Fin.Basic

/-!
# HyperLogLog sketches

The package `internal/hll`: a sketch is `m = 2 ^ 14` one-byte registers, and adding a value raises
the register the top bits of its hash select to the rank of the remaining bits. Sketches form a
join-semilattice under `merge`, with `new` at the bottom, and adding a value is joining its
`mark`; so a sketch built from values depends on the set of the values only.

## Main definitions

* `GoString`: values that are Go strings
* `hash64`: FNV-1a followed by the splitmix64 finalizer
* `Sketch.new`, `Sketch.add`, `Sketch.merge`: the operations of the package
* `Sketch.bytes`, `Sketch.fromBytes`: the stored encoding
* `mark v`: the sketch of the single value `v`

## Main results

* `add_eq_sup`, `addAll_eq_sup`: adding values is joining their marks
* `addAll_congr`: the values added matter as a set
* `fromBytes_bytes`, `bytes_of_fromBytes`: decoding inverts encoding, and encoding inverts a
  successful decoding
-/

namespace Tally.Hll

/-- Go's `uint8`; its arithmetic wraps modulo 256. -/
abbrev Byte := Fin 256

def precision : ℕ := 14

/-- The number of registers, `1 << Precision`. -/
def m : ℕ := 2 ^ precision

def formatVersion : Byte := 1

/-! ## The hash -/

/-- `hash/fnv`'s `New64a` over a byte string. -/
def fnv64a (data : List UInt8) : UInt64 :=
  data.foldl (fun h c => (h ^^^ c.toUInt64) * 1099511628211) 14695981039346656037

/-- The splitmix64 finalizer. -/
def mix64 (x : UInt64) : UInt64 :=
  let x := x ^^^ (x >>> 30)
  let x := x * 0xbf58476d1ce4e5b9
  let x := x ^^^ (x >>> 27)
  let x := x * 0x94d049bb133111eb
  x ^^^ (x >>> 31)

/-- Values that are Go strings, which may be any bytes. -/
class GoString (V : Type) where
  bytes : V → List UInt8

instance : GoString (List UInt8) := ⟨id⟩

/-- Text is UTF-8. -/
instance : GoString String := ⟨fun s => s.toUTF8.data.toList⟩

variable {V : Type} [GoString V]

/-- The hash of a value: its bytes through FNV-1a, then mixed. -/
def hash64 (value : V) : UInt64 := mix64 (fnv64a (GoString.bytes value))

/-- `bits.LeadingZeros64`. -/
def leadingZeros64 (x : UInt64) : ℕ := if x = 0 then 64 else 63 - x.toNat.log2

/-- The top `p` bits of a 64-bit word are a register index. -/
theorem shiftRight_toNat_lt_m (h : UInt64) : (h >>> 50).toNat < m := by
  have hh := h.toNat_lt
  rw [UInt64.toNat_shiftRight, Nat.shiftRight_eq_div_pow]
  simp only [m, precision]
  -- the shift amount is taken modulo the width
  have h50 : (50 : UInt64).toNat % 64 = 50 := by decide
  rw [h50]
  omega

/-- The register selected by a hash: its top `p` bits. -/
def index (h : UInt64) : Fin m := ⟨(h >>> 50).toNat, shiftRight_toNat_lt_m h⟩

/-- The rank of a hash: one more than the leading zeros of the bits below the index, clamped. -/
def rank (h : UInt64) : Byte :=
  let rest := h <<< 14
  -- the increment is on a `uint8`
  let rank : Byte := Fin.ofNat 256 (leadingZeros64 rest) + 1
  if rank > 51 then 51 else rank

/-! ## Sketches -/

@[ext] structure Sketch where
  regs : Fin m → Byte

namespace Sketch

/-- An empty sketch. -/
def new : Sketch := ⟨fun _ => 0⟩

/-- Record one value. -/
def add (s : Sketch) (value : V) : Sketch :=
  let h := hash64 value
  if rank h > s.regs (index h) then ⟨Function.update s.regs (index h) (rank h)⟩ else s

/-- Record several values. -/
def addAll (s : Sketch) (values : List V) : Sketch := values.foldl add s

/-- Fold `other` into `s`, register by register. -/
def merge (s other : Sketch) : Sketch :=
  ⟨fun i => if other.regs i > s.regs i then other.regs i else s.regs i⟩

/-- The encoding `[version][precision][registers...]`. -/
def bytes (s : Sketch) : List Byte :=
  formatVersion :: Fin.ofNat 256 precision :: List.ofFn s.regs

/-- Restore a sketch from its encoding. -/
def fromBytes (b : List Byte) : Except String Sketch :=
  if b.length ≠ 2 + m ∨ b[0]? ≠ some formatVersion ∨ b[1]? ≠ some (Fin.ofNat 256 precision) then
    .error "hll: invalid or incompatible sketch encoding"
  else
    .ok ⟨fun i => b.getD (2 + i) 0⟩

/-- The length and the header that `fromBytes` checks. -/
def WellFramed (b : List Byte) : Prop :=
  b.length = 2 + m ∧ b[0]? = some formatVersion ∧ b[1]? = some (Fin.ofNat 256 precision)

/-! ## The join-semilattice of sketches -/

instance : PartialOrder Sketch := .lift regs fun _ _ => Sketch.ext

theorem le_def {s t : Sketch} : s ≤ t ↔ ∀ i, s.regs i ≤ t.regs i := Iff.rfl

theorem regs_merge (s t : Sketch) (i : Fin m) : (s.merge t).regs i = s.regs i ⊔ t.regs i := by
  simp only [merge]
  split_ifs with h
  · exact (sup_of_le_right h.le).symm
  · exact (sup_of_le_left (not_lt.mp h)).symm

instance : SemilatticeSup Sketch where
  sup := merge
  le_sup_left s t i := by
    show s.regs i ≤ (s.merge t).regs i
    rw [regs_merge]
    exact le_sup_left
  le_sup_right s t i := by
    show t.regs i ≤ (s.merge t).regs i
    rw [regs_merge]
    exact le_sup_right
  sup_le s t u hs ht i := by
    show (s.merge t).regs i ≤ u.regs i
    rw [regs_merge]
    exact sup_le (hs i) (ht i)

instance : OrderBot Sketch where
  bot := new
  bot_le _ _ := Fin.zero_le _

theorem merge_eq_sup (s t : Sketch) : s.merge t = s ⊔ t := rfl

theorem new_eq_bot : new = ⊥ := rfl

theorem regs_sup (s t : Sketch) (i : Fin m) : (s ⊔ t).regs i = s.regs i ⊔ t.regs i :=
  regs_merge s t i

/-- The sketch of a single value. -/
def mark (value : V) : Sketch :=
  ⟨fun i => if i = index (hash64 value) then rank (hash64 value) else 0⟩

/-- **Adding a value is joining its mark.** -/
theorem add_eq_sup (s : Sketch) (v : V) : s.add v = s ⊔ mark v := by
  ext1
  funext i
  rw [regs_sup]
  by_cases hi : i = index (hash64 v)
  · subst hi
    by_cases h : rank (hash64 v) > s.regs (index (hash64 v))
    · simp [add, h, mark, sup_of_le_right h.le]
    · simp [add, h, mark, sup_of_le_left (not_lt.mp h)]
  · by_cases h : rank (hash64 v) > s.regs (index (hash64 v)) <;> simp [add, h, mark, hi]

/-- **Adding values is joining the marks of their set.** -/
theorem addAll_eq_sup [DecidableEq V] (s : Sketch) (vs : List V) :
    s.addAll vs = s ⊔ vs.toFinset.sup mark := by
  induction vs generalizing s with
  | nil => simp [addAll]
  | cons v vs ih =>
    rw [addAll, List.foldl_cons, ← addAll, ih, add_eq_sup, List.toFinset_cons, Finset.sup_insert,
      sup_assoc]

theorem addAll_append (s : Sketch) (vs ws : List V) :
    s.addAll (vs ++ ws) = (s.addAll vs).addAll ws := by
  simp [addAll]

/-- The values added matter as a set. -/
theorem addAll_congr (s : Sketch) {vs ws : List V} (h : ∀ v, v ∈ vs ↔ v ∈ ws) :
    s.addAll vs = s.addAll ws := by
  classical
  rw [addAll_eq_sup, addAll_eq_sup]
  congr 2
  ext v
  simp [h]

theorem le_addAll (s : Sketch) (vs : List V) : s ≤ s.addAll vs := by
  classical
  rw [addAll_eq_sup]
  exact le_sup_left

/-- A value already added is below the sketch. -/
theorem mark_le_addAll (s : Sketch) {vs : List V} {v : V} (h : v ∈ vs) :
    mark v ≤ s.addAll vs := by
  classical
  rw [addAll_eq_sup]
  exact le_sup_of_le_right (Finset.le_sup (f := mark) (List.mem_toFinset.mpr h))

theorem new_add (v : V) : new.add v = mark v := by
  rw [add_eq_sup, new_eq_bot, bot_sup_eq]

/-- **Register by register** a sketch is the maximum of what it was and of the values added. -/
theorem isGreatest_regs_addAll (s : Sketch) (vs : List V) (i : Fin m) :
    IsGreatest (insert (s.regs i) {x | ∃ v ∈ vs, x = (new.add v).regs i})
      ((s.addAll vs).regs i) := by
  constructor
  · induction vs generalizing s with
    | nil => exact Set.mem_insert _ _
    | cons v vs ih =>
      have hadd : s.add v = s ⊔ new.add v := by rw [new_add, add_eq_sup]
      have hcons : s.addAll (v :: vs) = (s.add v).addAll vs := by
        simp only [addAll, List.foldl_cons]
      simp only [Set.mem_insert_iff, Set.mem_ofPred_eq] at ih ⊢
      rw [hcons]
      rcases ih (s.add v) with hs | ⟨w, hw, hx⟩
      · rw [hs, hadd, regs_sup]
        rcases max_choice (s.regs i) ((new.add v).regs i) with hl | hr
        · exact .inl hl
        · exact .inr ⟨v, List.mem_cons_self, hr⟩
      · exact .inr ⟨w, List.mem_cons_of_mem v hw, hx⟩
  · intro x hx
    simp only [Set.mem_insert_iff, Set.mem_ofPred_eq] at hx
    rcases hx with hx | ⟨v, hv, hx⟩
    · rw [hx]
      exact le_def.mp (le_addAll s vs) i
    · rw [hx, new_add]
      exact le_def.mp (mark_le_addAll s hv) i

/-- Values whose marks are below a sketch do not change it, and no others leave it as it is. -/
theorem addAll_eq_self_iff {s : Sketch} {vs : List V} :
    s.addAll vs = s ↔ ∀ v ∈ vs, mark v ≤ s := by
  classical
  rw [addAll_eq_sup, sup_eq_left, Finset.sup_le_iff]
  simp only [List.mem_toFinset]

/-- A rank is at least 1: the leading zeros are at most 64, so the increment does not wrap. -/
theorem rank_ne_zero (h : UInt64) : rank h ≠ 0 := by
  have hlz : leadingZeros64 (h <<< 14) ≤ 64 := by
    unfold leadingZeros64
    split_ifs <;> omega
  simp only [rank]
  generalize leadingZeros64 (h <<< 14) = k at hlz
  split_ifs
  · decide
  · rw [Ne, Fin.ext_iff]
    simp only [Fin.val_add, Fin.ofNat, Fin.val_one, Fin.val_zero]
    omega

/-- The mark of a value is below a sketch exactly when its register there is at least its rank. -/
theorem mark_le_iff {s : Sketch} {v : V} :
    mark v ≤ s ↔ rank (hash64 v) ≤ s.regs (index (hash64 v)) := by
  rw [le_def]
  constructor
  · intro h
    simpa [mark] using h (index (hash64 v))
  · intro h i
    by_cases hi : i = index (hash64 v)
    · subst hi
      simpa [mark] using h
    · simp [mark, hi]

/-- **A value adds nothing to a sketch of values** exactly when one of them selects its register
with at least its rank. -/
theorem mark_le_addAll_new_iff {v : V} {ws : List V} :
    mark v ≤ new.addAll ws ↔
      ∃ w ∈ ws, index (hash64 w) = index (hash64 v) ∧ rank (hash64 v) ≤ rank (hash64 w) := by
  rw [mark_le_iff]
  induction ws using List.reverseRecOn with
  | nil =>
    simp only [addAll, List.foldl_nil, new, List.not_mem_nil, false_and, exists_false, iff_false,
      Fin.le_zero_iff]
    exact rank_ne_zero _
  | append_singleton ws w ih =>
    rw [addAll_append, addAll, List.foldl_cons, List.foldl_nil, add_eq_sup, regs_sup, le_sup_iff,
      ih]
    have hw : rank (hash64 v) ≤ (mark w).regs (index (hash64 v)) ↔
        index (hash64 w) = index (hash64 v) ∧ rank (hash64 v) ≤ rank (hash64 w) := by
      by_cases hi : index (hash64 v) = index (hash64 w)
      · simp [mark, hi]
      · simp [mark, hi, Ne.symm hi, rank_ne_zero]
    rw [hw]
    simp only [List.mem_append, List.mem_singleton, or_and_right, exists_or, exists_eq_left]

/-! ## The encoding

The two facts about the layout hold for any number of registers; stating them so keeps the 16384
registers of a sketch folded. -/

theorem getD_header_ofFn {n : ℕ} (v p : Byte) (f : Fin n → Byte) (i : Fin n) :
    (v :: p :: List.ofFn f).getD (2 + i) 0 = f i := by
  rw [Nat.add_comm]
  simp [List.getD]

theorem header_ofFn_getD {n : ℕ} {v p : Byte} {b : List Byte} (hlen : b.length = 2 + n)
    (h0 : b[0]? = some v) (h1 : b[1]? = some p) :
    (v :: p :: List.ofFn fun i : Fin n => b.getD (2 + i) 0) = b := by
  refine List.ext_getElem? fun i => ?_
  match i with
  | 0 => rw [h0]; rfl
  | 1 => rw [h1]; rfl
  | i + 2 =>
    by_cases hi : i < n
    · have hlt : i + 2 < b.length := by omega
      simp [hi, Nat.add_comm 2 i, hlt]
    · have hge : b.length ≤ i + 2 := by omega
      have hge' : n ≤ i := by omega
      simp [hge, hge']

/-- **Decoding inverts encoding.** -/
theorem fromBytes_bytes (s : Sketch) : fromBytes s.bytes = .ok s := by
  have hlen : s.bytes.length = 2 + m := by
    rw [bytes, List.length_cons, List.length_cons, List.length_ofFn]
    omega
  have h0 : s.bytes[0]? = some formatVersion := by rw [bytes, List.getElem?_cons_zero]
  have h1 : s.bytes[1]? = some (Fin.ofNat 256 precision) := by
    rw [bytes, List.getElem?_cons_succ, List.getElem?_cons_zero]
  have hok : ¬ (s.bytes.length ≠ 2 + m ∨ s.bytes[0]? ≠ some formatVersion ∨
      s.bytes[1]? ≠ some (Fin.ofNat 256 precision)) := by
    rintro (h | h | h)
    exacts [h hlen, h h0, h h1]
  rw [fromBytes, if_neg hok]
  congr 1
  ext1
  funext i
  exact getD_header_ofFn _ _ s.regs i

/-- **Encoding inverts a successful decoding**: the stored bytes are those of the sketch read
from them. -/
theorem bytes_of_fromBytes {b : List Byte} {s : Sketch} (h : fromBytes b = .ok s) :
    s.bytes = b := by
  unfold fromBytes at h
  split_ifs at h with hb
  push Not at hb
  obtain ⟨hlen, h0, h1⟩ := hb
  rw [← Except.ok.inj h]
  exact header_ofFn_getD hlen h0 h1

theorem bytes_injective : Function.Injective bytes := by
  intro s t h
  have hs := fromBytes_bytes s
  rw [h, fromBytes_bytes] at hs
  exact (Except.ok.inj hs).symm

end Sketch

end Tally.Hll
