import Mathlib.Data.Finset.Card
import Mathlib.Data.List.Sort

/-!
# Majorities of configurations one server apart

A configuration is a finite set of servers and a decision needs a strict
majority of it. Two majorities of one configuration meet; so do a majority
of a configuration and a majority of one that differs from it by a single
added or removed server. That second fact is all the single-server
membership change rests on.

How a leader finds what a majority has is by sorting: of the numbers its
servers have reached, the one a majority from the end is reached by a
majority.
-/

namespace Consensus

variable {ι : Type*} [DecidableEq ι]

/-- `Q` is a strict majority of the configuration `C`. -/
def IsMajority (Q C : Finset ι) : Prop := Q ⊆ C ∧ C.card / 2 + 1 ≤ Q.card

/-- The two configurations differ by at most one server. -/
def Near (C D : Finset ι) : Prop := (C \ D).card + (D \ C).card ≤ 1

theorem Near.refl (C : Finset ι) : Near C C := by
  simp [Near]

theorem Near.symm {C D : Finset ι} (h : Near C D) : Near D C := by
  unfold Near at h ⊢
  omega

theorem Near.of_eq {C D : Finset ι} (h : C = D) : Near C D := h ▸ Near.refl C

/-- Majorities of configurations at most one server apart share a server. -/
theorem IsMajority.exists_common {Q R C D : Finset ι} (hnear : Near C D)
    (hQ : IsMajority Q C) (hR : IsMajority R D) : ∃ v, v ∈ Q ∧ v ∈ R := by
  by_contra hnone
  have hdisj : Disjoint Q R := by
    rw [Finset.disjoint_left]
    exact fun v hv hv' => hnone ⟨v, hv, hv'⟩
  have hsub : Q ∪ R ⊆ C ∪ D := Finset.union_subset_union hQ.1 hR.1
  have hcard := Finset.card_le_card hsub
  rw [Finset.card_union_of_disjoint hdisj] at hcard
  have hC : (C ∪ D).card = C.card + (D \ C).card := by
    rw [← Finset.union_sdiff_self_eq_union,
      Finset.card_union_of_disjoint Finset.disjoint_sdiff]
  have hD : (C ∪ D).card = D.card + (C \ D).card := by
    rw [Finset.union_comm, ← Finset.union_sdiff_self_eq_union,
      Finset.card_union_of_disjoint Finset.disjoint_sdiff]
  have h1 := hQ.2
  have h2 := hR.2
  unfold Near at hnear
  omega

/-- What stands `m` places from the end of a list once it is sorted is the
greatest number that at least `m` of its elements reach. -/
theorem le_getD_insertionSort_iff (L : List Nat) {m k : Nat} (hm : 0 < m)
    (hL : m ≤ L.length) :
    k ≤ (L.insertionSort (· ≤ ·)).getD
        ((L.insertionSort (· ≤ ·)).length - m) 0 ↔
      m ≤ L.countP fun v => k ≤ v := by
  set S := L.insertionSort (· ≤ ·) with hS
  have hlen : S.length = L.length := List.length_insertionSort _ _
  have hperm : S.Perm L := List.perm_insertionSort _ _
  have hsorted : S.Pairwise (· ≤ ·) := List.pairwise_insertionSort _ _
  have hpos : S.length - m < S.length := by omega
  rw [← hperm.countP_eq, List.getD_eq_getElem?_getD,
    List.getElem?_eq_getElem hpos, Option.getD_some]
  constructor
  · intro hk
    -- all from there on reach it too
    have hall : ∀ v ∈ S.drop (S.length - m), decide (k ≤ v) = true := by
      intro v hv
      obtain ⟨j, hj, rfl⟩ := List.mem_iff_getElem.mp hv
      rw [List.getElem_drop, decide_eq_true_eq]
      rcases Nat.eq_zero_or_pos j with rfl | hj0
      · exact hk
      · exact hk.trans
          (List.pairwise_iff_getElem.mp hsorted _ _ _ _ (by omega))
    calc m = (S.drop (S.length - m)).length := by
          rw [List.length_drop]
          omega
      _ = (S.drop (S.length - m)).countP (fun v => decide (k ≤ v)) :=
          (List.countP_eq_length.mpr hall).symm
      _ ≤ S.countP (fun v => decide (k ≤ v)) :=
          (List.drop_sublist _ _).countP_le
  · intro hcount
    by_contra hk
    -- none up to there reaches it, and there are fewer than `m` beyond
    have hnone : (S.take (S.length - m + 1)).countP
        (fun v => decide (k ≤ v)) = 0 := by
      rw [List.countP_eq_zero]
      intro v hv hkv
      obtain ⟨j, hj, rfl⟩ := List.mem_iff_getElem.mp hv
      rw [List.length_take] at hj
      rw [List.getElem_take, decide_eq_true_eq] at hkv
      rcases Nat.lt_or_ge j (S.length - m) with hlt | hge
      · exact hk (hkv.trans
          (List.pairwise_iff_getElem.mp hsorted _ _ _ _ hlt))
      · obtain rfl : j = S.length - m := by omega
        exact hk hkv
    have hrest : (S.drop (S.length - m + 1)).countP
        (fun v => decide (k ≤ v)) ≤ m - 1 := by
      refine List.countP_le_length.trans ?_
      rw [List.length_drop]
      omega
    rw [← List.take_append_drop (S.length - m + 1) S, List.countP_append,
      hnone] at hcount
    omega

/-- At least `m` elements of a list are no less than the one that stands `m`
places from the end once it is sorted. -/
theorem le_countP_getD_insertionSort (L : List Nat) {m : Nat}
    (hm : 0 < m) (hL : m ≤ L.length) :
    m ≤ L.countP fun v =>
      (L.insertionSort (· ≤ ·)).getD
        ((L.insertionSort (· ≤ ·)).length - m) 0 ≤ v :=
  (le_getD_insertionSort_iff L hm hL).mp le_rfl

end Consensus
