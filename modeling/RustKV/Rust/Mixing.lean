import Mathlib.Data.BitVec
import Mathlib.Data.Nat.Count
import Mathlib.Data.Nat.ModEq
import Mathlib.Data.Finset.Card

/-!
# Words that are only shuffled

The steps a mixing function is made of lose nothing: a word combined with a
shift of itself can be read off again from the top, and a product with an odd
number can be divided again. A counter that goes up by an odd step passes
through every word before it comes back to one.

So the outputs of a generator built from these are a permutation of all words,
and how often something happens among them is a matter of counting words
(`card_filter_image`).
-/

namespace Rust

variable {w : Nat}

/-- A word combined with itself shifted down. -/
def xorShift (k : Nat) (x : BitVec w) : BitVec w := x ^^^ (x >>> k)

theorem xorShift_injective {k : Nat} (hk : 0 < k) :
    Function.Injective (xorShift k : BitVec w → BitVec w) := by
  intro x y h
  -- from the top: a bit is what the bit `k` above it does not explain
  have hbit : ∀ d i, w ≤ i + d → x.getLsbD i = y.getLsbD i := by
    intro d
    induction d with
    | zero =>
        intro i hi
        rw [BitVec.getLsbD_of_ge x i hi, BitVec.getLsbD_of_ge y i hi]
    | succ d ih =>
        intro i hi
        have habove := ih (k + i) (by omega)
        have hi' := congrArg (BitVec.getLsbD · i) h
        simp only [xorShift, BitVec.getLsbD_xor, BitVec.getLsbD_ushiftRight,
          habove] at hi'
        exact Bool.xor_left_inj.mp hi'
  exact BitVec.eq_of_getLsbD_eq fun i _ => hbit w i (by omega)

theorem coprime_two_pow {c : Nat} (hc : c % 2 = 1) :
    Nat.gcd (2 ^ w) c = 1 := by
  refine Nat.Coprime.pow_left w ?_
  rw [Nat.Coprime, Nat.gcd_rec, hc]
  rfl

theorem mul_odd_injective {c : BitVec w} (hc : c.toNat % 2 = 1) :
    Function.Injective (· * c) := by
  intro x y h
  have hmod : x.toNat * c.toNat ≡ y.toNat * c.toNat [MOD 2 ^ w] := by
    have hval := congrArg BitVec.toNat h
    simp only [BitVec.toNat_mul] at hval
    exact hval
  exact BitVec.eq_of_toNat_eq
    ((Nat.ModEq.cancel_right_of_coprime (coprime_two_pow hc) hmod).eq_of_lt_of_lt
      x.isLt y.isLt)

/-- A counter with an odd step meets no word twice on its way round. -/
theorem counter_injOn {c : BitVec w} (hc : c.toNat % 2 = 1) (s : BitVec w)
    {i j : Nat} (hi : i < 2 ^ w) (hj : j < 2 ^ w)
    (h : s + BitVec.ofNat w i * c = s + BitVec.ofNat w j * c) : i = j := by
  have hij := mul_odd_injective hc (add_left_cancel h)
  have := congrArg BitVec.toNat hij
  rwa [BitVec.toNat_ofNat, BitVec.toNat_ofNat, Nat.mod_eq_of_lt hi,
    Nat.mod_eq_of_lt hj] at this

/-! ## Counting -/

variable {N : Nat} {f : Nat → Nat}

/-- Among the values of a permutation of the numbers below `N`, a property is
as frequent as among the numbers. -/
theorem card_filter_image (hlt : ∀ i, i < N → f i < N)
    (hinj : ∀ i j, i < N → j < N → f i = f j → i = j) (p : Nat → Prop)
    [DecidablePred p] :
    ((Finset.range N).filter fun i => p (f i)).card = Nat.count p N := by
  have himage : (Finset.range N).image f = Finset.range N := by
    refine Finset.eq_of_subset_of_card_le ?_ ?_
    · intro y hy
      obtain ⟨i, hi, rfl⟩ := Finset.mem_image.mp hy
      exact Finset.mem_range.mpr (hlt i (Finset.mem_range.mp hi))
    · rw [Finset.card_image_of_injOn]
      intro i hi j hj h
      exact hinj i j (Finset.mem_range.mp hi) (Finset.mem_range.mp hj) h
  have hcount : Nat.count p N =
      (((Finset.range N).filter fun i => p (f i)).image f).card := by
    rw [Nat.count_eq_card_filter_range, ← Finset.filter_image, himage]
  rw [hcount, Finset.card_image_of_injOn]
  intro i hi j hj h
  exact hinj i j (Finset.mem_range.mp (Finset.mem_filter.mp hi).1)
    (Finset.mem_range.mp (Finset.mem_filter.mp hj).1) h

/-- A permutation of the numbers below `N` takes every value once. -/
theorem existsUnique_image (hlt : ∀ i, i < N → f i < N)
    (hinj : ∀ i j, i < N → j < N → f i = f j → i = j) {y : Nat} (hy : y < N) :
    ∃! i, i < N ∧ f i = y := by
  have hone : ((Finset.range N).filter fun i => f i = y).card = 1 := by
    rw [card_filter_image hlt hinj (· = y), Nat.count_eq_card_filter_range,
      Finset.filter_eq', if_pos (Finset.mem_range.mpr hy),
      Finset.card_singleton]
  obtain ⟨i, hi⟩ := Finset.card_eq_one.mp hone
  have hmem := Finset.ext_iff.mp hi
  simp only [Finset.mem_filter, Finset.mem_range,
    Finset.mem_singleton] at hmem
  exact ⟨i, (hmem i).mpr rfl, fun j hj => (hmem j).mp hj⟩

end Rust
