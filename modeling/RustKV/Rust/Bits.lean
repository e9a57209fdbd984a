import Mathlib.Logic.Basic

/-!
# Single bits of a word

Sets of small numbers are kept in machine words, where `1 << b` is the set
with `b` alone.
-/

namespace Rust

variable {w b i : Nat} {x : BitVec w}

theorem getLsbD_bit (hi : i < w) :
    (1#w <<< b).getLsbD i = decide (i = b) := by
  rw [← BitVec.twoPow_eq, BitVec.getLsbD_twoPow]
  by_cases hb : i = b
  · subst hb
    simp [hi]
  · simp [hb, Ne.symm hb]

theorem getLsbD_or_bit (hb : b < w) :
    (x ||| (1#w <<< b)).getLsbD i = (x.getLsbD i || decide (b = i)) := by
  rw [← BitVec.twoPow_eq, BitVec.getLsbD_or, BitVec.getLsbD_twoPow]
  simp [hb]

theorem and_bit_eq_zero (hb : b < w) :
    x &&& (1#w <<< b) = 0#w ↔ x.getLsbD b = false := by
  rw [← BitVec.twoPow_eq, BitVec.and_twoPow]
  cases h : x.getLsbD b with
  | false => simp
  | true =>
      refine ⟨fun h0 => ?_, fun h0 => (by cases h0)⟩
      have hbit := congrArg (fun x => x.getLsbD b) h0
      simp [hb] at hbit

end Rust
