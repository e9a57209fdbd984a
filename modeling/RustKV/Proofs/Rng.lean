import Mathlib.Data.Int.CardIntervalMod
import RustKV.Raft.Rng
import RustKV.Rust.Mixing

/-!
# What the generator draws

The mixing function is a chain of invertible steps and the counter goes
through all words, so from any seed the next 2^64 words are all the words
there are, each once. What a range or a probability makes of them is then
counted exactly: the values of a range differ by at most one in how often they
are drawn, and a coin of probability `p` falls as often as 53 bits can say.
-/

namespace RustKV.SplitMix64

open Rust

theorem mix_injective : Function.Injective mix := by
  have h₁ := mul_odd_injective (c := 0xBF58476D1CE4E5B9#64) (by decide)
  have h₂ := mul_odd_injective (c := 0x94D049BB133111EB#64) (by decide)
  exact (xorShift_injective (k := 31) (by decide)).comp
    ((h₂.comp (xorShift_injective (k := 27) (by decide))).comp
      (h₁.comp (xorShift_injective (k := 30) (by decide))))

theorem state_skip (r : SplitMix64) (i : Nat) :
    (r.skip i).state = r.state + BitVec.ofNat 64 i * gamma := by
  induction i with
  | zero => simp [skip]
  | succ i ih =>
      have hsucc : BitVec.ofNat 64 (i + 1) = BitVec.ofNat 64 i + 1#64 :=
        BitVec.ofNat_add i 1
      rw [skip, nextU64, ih, hsucc, add_mul, BitVec.one_mul, add_assoc]

def word (r : SplitMix64) (i : Nat) : Nat := (r.skip i).nextU64.1.toNat

theorem word_lt (r : SplitMix64) (i : Nat) : r.word i < 2 ^ 64 :=
  BitVec.isLt _

theorem word_injOn (r : SplitMix64) {i j : Nat} (hi : i < 2 ^ 64)
    (hj : j < 2 ^ 64) (h : r.word i = r.word j) : i = j := by
  have hmix := mix_injective (BitVec.eq_of_toNat_eq h)
  have hstate := add_right_cancel hmix
  rw [state_skip, state_skip] at hstate
  exact counter_injOn (by decide) r.state hi hj hstate

/-- How often a property of words is met in a whole round of draws. -/
theorem card_filter_word (r : SplitMix64) (p : Nat → Prop)
    [DecidablePred p] :
    ((Finset.range (2 ^ 64)).filter fun i => p (r.word i)).card =
      Nat.count p (2 ^ 64) :=
  card_filter_image (fun i _ => r.word_lt i)
    (fun _ _ hi hj h => r.word_injOn hi hj h) p

/-! ## Ranges -/

/-- The value a range makes of a word. -/
def ranged (lo hi x : BitVec 64) : BitVec 64 :=
  if hi - lo + 1#64 = 0#64 then x else lo + x % (hi - lo + 1#64)

theorem nextRange_eq (r : SplitMix64) {lo hi : BitVec 64} (h : lo ≤ hi) :
    r.nextRange lo hi = some (ranged lo hi r.nextU64.1, r.nextU64.2) := by
  rw [nextRange, if_pos h, ranged]
  simp only
  split_ifs <;> rfl

theorem toNat_ranged {lo hi : BitVec 64} (h : lo ≤ hi) (x : BitVec 64) :
    (ranged lo hi x).toNat =
      lo.toNat + x.toNat % (hi.toNat - lo.toNat + 1) := by
  have hle : lo.toNat ≤ hi.toNat := h
  have hhi := hi.isLt
  have hspan : (hi - lo + 1#64).toNat =
      (hi.toNat - lo.toNat + 1) % 2 ^ 64 := by
    rw [BitVec.toNat_add, BitVec.toNat_sub_of_le h, BitVec.toNat_ofNat]
  rw [ranged]
  split
  · next h0 =>
      -- all words: `lo` is 0 and the span is the number of words
      have := congrArg BitVec.toNat h0
      rw [hspan, BitVec.toNat_ofNat, Nat.zero_mod] at this
      have hx := x.isLt
      have : hi.toNat - lo.toNat + 1 = 2 ^ 64 := by omega
      rw [this, Nat.mod_eq_of_lt hx]
      omega
  · next h0 =>
      have hne : (hi.toNat - lo.toNat + 1) % 2 ^ 64 ≠ 0 := by
        intro hz
        exact h0 (BitVec.eq_of_toNat_eq (by rw [hspan, hz]; rfl))
      have hlt : hi.toNat - lo.toNat + 1 < 2 ^ 64 := by omega
      have hmod : x.toNat % (hi.toNat - lo.toNat + 1) <
          hi.toNat - lo.toNat + 1 := Nat.mod_lt _ (by omega)
      rw [BitVec.toNat_add, BitVec.toNat_umod, hspan, Nat.mod_eq_of_lt hlt]
      exact Nat.mod_eq_of_lt (by omega)

theorem count_ranged {lo hi v : Nat} (hlo : lo ≤ v) (hhi : v ≤ hi) (N : Nat) :
    Nat.count (fun x => lo + x % (hi - lo + 1) = v) N =
      N / (hi - lo + 1) +
        if v - lo < N % (hi - lo + 1) then 1 else 0 := by
  have hmod := Nat.count_modEq_card (r := hi - lo + 1) N (by omega) (v - lo)
  rw [Nat.mod_eq_of_lt (a := v - lo) (by omega)] at hmod
  rw [← hmod]
  congr 1
  funext x
  rw [Nat.ModEq, Nat.mod_eq_of_lt (a := v - lo) (by omega)]
  exact propext (by omega)

/-! ## Coins -/

theorem nextBool_iff (r : SplitMix64) (i : Nat) (p : ℚ) :
    ((r.skip i).nextBool p).1 = true ↔
      r.word i < ⌈p * 2 ^ 53⌉₊ * 2 ^ 11 := by
  have hword : ((r.skip i).nextU64.1 >>> 11).toNat = r.word i / 2 ^ 11 := by
    rw [BitVec.toNat_ushiftRight, Nat.shiftRight_eq_div_pow, word]
  rw [nextBool]
  simp only [decide_eq_true_eq]
  rw [hword, div_lt_iff₀ (by positivity), ← Nat.lt_ceil]
  exact Nat.div_lt_iff_lt_mul (by positivity)

theorem count_lt (m N : Nat) : Nat.count (· < m) N = min m N := by
  induction N with
  | zero => simp
  | succ N ih =>
      rw [Nat.count_succ, ih]
      split_ifs <;> omega

/-- Whatever is drawn, the generator goes on by one. From any seed, a whole
round of draws gives every word once; a range gives each of its values as
often as the words divide up among them, the first few once more, and nothing
else; and a coin falls for `p` as for the next multiple of `2^-53`, never below
0 and always from 1 on. -/
theorem draws_uniform (r : SplitMix64) :
    (∀ x, ∃! i, i < 2 ^ 64 ∧ (r.skip i).nextU64.1 = x) ∧
    (∀ lo hi, lo ≤ hi →
      (∀ i, ∃ v, (r.skip i).nextRange lo hi = some (v, r.skip (i + 1)) ∧
        lo ≤ v ∧ v ≤ hi) ∧
      ∀ v, lo ≤ v → v ≤ hi →
        ((Finset.range (2 ^ 64)).filter fun i =>
          ((r.skip i).nextRange lo hi).map Prod.fst = some v).card =
        2 ^ 64 / (hi.toNat - lo.toNat + 1) +
          if v.toNat - lo.toNat < 2 ^ 64 % (hi.toNat - lo.toNat + 1) then 1
          else 0) ∧
    ∀ p, (∀ i, ((r.skip i).nextBool p).2 = r.skip (i + 1)) ∧
      ((Finset.range (2 ^ 64)).filter fun i =>
        ((r.skip i).nextBool p).1 = true).card =
      min (⌈p * 2 ^ 53⌉₊ * 2 ^ 11) (2 ^ 64) := by
  refine ⟨fun x => ?_, fun lo hi h => ⟨fun i => ?_, fun v hlo hhi => ?_⟩,
    fun p => ⟨fun i => rfl, ?_⟩⟩
  · obtain ⟨i, ⟨hi, hx⟩, hone⟩ := existsUnique_image
      (fun i _ => r.word_lt i) (fun _ _ hi hj h => r.word_injOn hi hj h)
      x.isLt
    exact ⟨i, ⟨hi, BitVec.eq_of_toNat_eq hx⟩,
      fun j hj => hone j ⟨hj.1, congrArg BitVec.toNat hj.2⟩⟩
  · have hval := toNat_ranged h (r.skip i).nextU64.1
    have hmod : (r.skip i).nextU64.1.toNat % (hi.toNat - lo.toNat + 1) <
        hi.toNat - lo.toNat + 1 := Nat.mod_lt _ (by omega)
    have hle : lo.toNat ≤ hi.toNat := h
    refine ⟨_, nextRange_eq _ h, BitVec.le_def.mpr ?_, BitVec.le_def.mpr ?_⟩ <;>
      omega
  · have hiff : ∀ i, ((r.skip i).nextRange lo hi).map Prod.fst = some v ↔
        lo.toNat + r.word i % (hi.toNat - lo.toNat + 1) = v.toNat := by
      intro i
      rw [nextRange_eq _ h, Option.map_some, Option.some_inj,
        ← BitVec.toNat_inj, toNat_ranged h, word]
    rw [← count_ranged hlo hhi, ← card_filter_word r]
    exact congrArg Finset.card (Finset.filter_congr fun i _ => hiff i)
  · rw [← count_lt, ← card_filter_word r]
    exact congrArg Finset.card
      (Finset.filter_congr fun i _ => r.nextBool_iff i p)

end RustKV.SplitMix64
