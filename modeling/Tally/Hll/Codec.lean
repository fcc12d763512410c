import Tally.Hll.Assembly

/-!
# The sketch codec

`Bytes` writes a header and the registers; `FromBytes` checks the length and the header, and takes
every other byte as a register. Decoding inverts encoding, and encoding inverts a successful
decoding. But a sketch has registers up to 51 only, and `FromBytes` accepts any bytes there: it
decodes to a sketch that can exist exactly when these bytes are at most 51.

## Main definitions

* `Sketch.Valid`: no register is above 51

## Main results

* `Assembly.valid`: every sketch that is built is valid
* `fromBytes_eq_ok_iff`: what `FromBytes` accepts, and what it returns
* `codec_bijective_iff`: when an accepted encoding is that of a valid sketch
-/

namespace Tally.Hll

open Sketch

/-- No register is above the largest rank. -/
def Sketch.Valid (s : Sketch) : Prop := ∀ i, (s.regs i).val ≤ 51

theorem Sketch.valid_new : Sketch.new.Valid := fun _ => Nat.zero_le 51

theorem Sketch.Valid.merge {s t : Sketch} (hs : s.Valid) (ht : t.Valid) : (s.merge t).Valid := by
  intro i
  have hle : s.regs i ⊔ t.regs i ≤ 51 := sup_le (hs i) (ht i)
  rw [regs_merge]
  exact hle

theorem Sketch.valid_mark {V : Type} [GoString V] (v : V) : (mark v).Valid := by
  intro i
  rw [val_regs_mark]
  split_ifs
  · exact rho_le v
  · exact Nat.zero_le _

/-- **Every sketch that is built is valid.** -/
theorem Assembly.valid {V : Type} [GoString V] {t : Assembly V} {s : Sketch}
    (h : t.eval = .ok s) : s.Valid := by
  classical
  rw [t.eval_eq] at h
  obtain rfl := Except.ok.inj h
  refine Finset.sup_induction valid_new (fun a ha b hb => Sketch.Valid.merge ha hb) ?_
  exact fun v _ => valid_mark v

/-! ## What `FromBytes` accepts -/

/-- **`FromBytes` accepts exactly the well-framed byte strings**, and returns their bytes after the
header as the registers. -/
theorem fromBytes_eq_ok_iff {b : List Byte} {s : Sketch} :
    fromBytes b = .ok s ↔ WellFramed b ∧ ∀ i, s.regs i = b.getD (2 + i) 0 := by
  unfold fromBytes
  split_ifs with hbad
  · refine iff_of_false (fun h => by cases h) ?_
    rintro ⟨⟨hlen, h0, h1⟩, -⟩
    rcases hbad with h | h | h
    exacts [h hlen, h h0, h h1]
  · push Not at hbad
    constructor
    · intro h
      rw [← Except.ok.inj h]
      exact ⟨hbad, fun i => rfl⟩
    · rintro ⟨-, hregs⟩
      congr 1
      ext1
      funext i
      exact (hregs i).symm

/-- The bytes of a sketch after the header are its registers. -/
theorem forall_mem_drop_bytes (s : Sketch) (p : Byte → Prop) :
    (∀ x ∈ s.bytes.drop 2, p x) ↔ ∀ i, p (s.regs i) := by
  rw [bytes, List.drop_succ_cons, List.drop_succ_cons, List.drop_zero, List.forall_mem_ofFn_iff]

/-- **The codec is a bijection between valid sketches and accepted encodings exactly where every
byte after the header is at most 51.** Every valid sketch, and so every sketch that is built,
decodes from its encoding. A byte string that decodes is the encoding of what it decodes to, and of
a valid sketch, if and only if it is not well framed, and so is refused, or has no byte above 51
after its header. -/
theorem codec_bijective_iff (b : List Byte) :
    (∀ s : Sketch, (∀ i, s.regs i ≤ 51) → fromBytes s.bytes = .ok s) ∧
    (∀ (V : Type) [GoString V] (t : Assembly V) (s : Sketch),
      t.eval = .ok s → ∀ i, s.regs i ≤ 51) ∧
    ((∀ s, fromBytes b = .ok s → s.bytes = b ∧ ∀ i, s.regs i ≤ 51) ↔
      (WellFramed b → ∀ x ∈ b.drop 2, x ≤ 51)) := by
  refine ⟨fun s _ => fromBytes_bytes s, fun V _ t s => Assembly.valid, ?_, ?_⟩
  · intro h hframed
    have hok : fromBytes b = .ok ⟨fun i => b.getD (2 + i) 0⟩ :=
      fromBytes_eq_ok_iff.mpr ⟨hframed, fun _ => rfl⟩
    obtain ⟨hbytes, hvalid⟩ := h _ hok
    rw [← hbytes]
    exact (forall_mem_drop_bytes _ (· ≤ 51)).mpr hvalid
  · intro h s hs
    have hbytes := bytes_of_fromBytes hs
    refine ⟨hbytes, (forall_mem_drop_bytes s (· ≤ 51)).mp ?_⟩
    rw [hbytes]
    exact h (fromBytes_eq_ok_iff.mp hs).1

/-- A sketch of two users, through the codec. -/
theorem codec_bijective_iff_two_users :
    fromBytes (new.addAll ["u1", "u2"]).bytes = .ok (new.addAll ["u1", "u2"]) :=
  (codec_bijective_iff []).1 _
    ((codec_bijective_iff []).2.1 String (.add (.add .new "u1") "u2") _ rfl)

/-- **A row of `0xff` bytes under a correct header is accepted**, as a sketch whose registers are
all 255. -/
theorem fromBytes_accepts_corrupt_registers :
    ∃ s, fromBytes (1 :: 14 :: List.replicate 16384 255) = .ok s ∧
      ¬ (s.bytes = 1 :: 14 :: List.replicate 16384 255 ∧ ∀ i, s.regs i ≤ 51) := by
  have hbytes : (1 :: 14 :: List.replicate 16384 255 : List Byte) =
      (⟨fun _ => 255⟩ : Sketch).bytes := by
    rw [bytes, List.ofFn_const]
    rfl
  refine ⟨⟨fun _ => 255⟩, by rw [hbytes, fromBytes_bytes], fun h => ?_⟩
  exact absurd (h.2 ⟨0, shiftRight_toNat_lt_m 0⟩) (by decide)

end Tally.Hll
