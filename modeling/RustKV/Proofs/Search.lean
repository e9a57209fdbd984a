import Mathlib.Data.Finset.Card
import Mathlib.Data.Finset.Range
import RustKV.Consensus.Linearization
import RustKV.Rust.Bits
import RustKV.Kv.Checker

/-!
# The checker's search

`search` decides whether the operations that are not in its mask have a
linearization from its register value (`search_exact`). One level of it is one
use of `Calls.exists_linearizes_iff`. The memo is sound because of what it
holds whenever the search looks something up in it: configurations that have
failed, and those the search is inside of, which have fewer operations than
the one it looks up (`Settled`).

The operations are the list `tags` of calls of any type, of which the checker
sees the entries; bit `b` of a mask stands for the `b`-th of them.
-/

namespace RustKV.Lin

open Consensus

/-! ## Masks -/

section Masks

variable {mask : Mask} {b c : Nat}

theorem getLsbD_or_bit (hb : b < 64) :
    (mask ||| bit b).getLsbD c = (mask.getLsbD c || decide (b = c)) :=
  Rust.getLsbD_or_bit hb

theorem and_bit_eq_zero (hb : b < 64) :
    mask &&& bit b = 0#64 ↔ mask.getLsbD b = false :=
  Rust.and_bit_eq_zero hb

/-- `requiredMask` for operations whose bits start at `k`. -/
def requiredFrom (ops : List Entry) (k : Nat) : Mask :=
  (((ops.zipIdx k).filter fun p => p.1.required).map fun p => bit p.2).foldr
    (· + ·) 0#64

theorem requiredFrom_cons (e : Entry) (ops : List Entry) (k : Nat) :
    requiredFrom (e :: ops) k = if e.required then
      bit k + requiredFrom ops (k + 1) else requiredFrom ops (k + 1) := by
  rw [requiredFrom, List.zipIdx_cons, List.filter_cons]
  cases e.required <;> rfl

/-- The sum carries nothing, so its bits are those of its terms. -/
theorem getLsbD_requiredFrom (ops : List Entry) (k : Nat)
    (hlen : k + ops.length ≤ 64) (b : Nat) :
    (requiredFrom ops k).getLsbD b = true ↔
      k ≤ b ∧ ∃ e, ops[b - k]? = some e ∧ e.required = true := by
  induction ops generalizing k b with
  | nil => simp [requiredFrom]
  | cons e ops ih =>
      rw [List.length_cons] at hlen
      have ih := ih (k + 1) (by omega)
      -- the head has a bit below all others
      have hcons : (k ≤ b ∧ ∃ e', (e :: ops)[b - k]? = some e' ∧
          e'.required = true) ↔ (b = k ∧ e.required = true) ∨
            (requiredFrom ops (k + 1)).getLsbD b = true := by
        rw [ih b]
        by_cases hb : b = k
        · subst hb
          simp
        · have hsub : k ≤ b → b - k = b - (k + 1) + 1 := by omega
          constructor
          · rintro ⟨hle, e', he', hr⟩
            rw [hsub hle, List.getElem?_cons_succ] at he'
            exact .inr ⟨by omega, e', he', hr⟩
          · rintro (⟨heq, -⟩ | ⟨hle, e', he', hr⟩)
            · exact absurd heq hb
            · refine ⟨by omega, e', ?_, hr⟩
              rw [hsub (by omega), List.getElem?_cons_succ]
              exact he'
      rw [hcons, requiredFrom_cons]
      cases hr : e.required with
      | false => simp
      | true =>
          have hzero : bit k &&& requiredFrom ops (k + 1) = 0#64 := by
            rw [BitVec.and_comm, and_bit_eq_zero (by omega),
              ← Bool.not_eq_true, ih k]
            omega
          rw [if_pos rfl, BitVec.add_eq_or_of_and_eq_zero _ _ hzero,
            BitVec.or_comm, getLsbD_or_bit (by omega)]
          rw [Bool.or_eq_true, decide_eq_true_eq, or_comm]
          exact or_congr_left ⟨fun h => ⟨h.symm, rfl⟩, fun h => h.1.symm⟩

/-- The early exit: every operation that must happen is in the mask. -/
theorem covers_iff {ops : List Entry} (hlen : ops.length ≤ 64) :
    mask &&& requiredMask ops = requiredMask ops ↔
      ∀ b e, ops[b]? = some e → e.required = true →
        mask.getLsbD b = true := by
  have hbit : ∀ b, (requiredMask ops).getLsbD b = true ↔
      ∃ e, ops[b]? = some e ∧ e.required = true := by
    intro b
    have h := getLsbD_requiredFrom ops 0 (by omega) b
    rw [Nat.sub_zero] at h
    exact h.trans (and_iff_right (Nat.zero_le b))
  constructor
  · intro h b e he hr
    have hreq := (hbit b).mpr ⟨e, he, hr⟩
    rw [← h, BitVec.getLsbD_and, Bool.and_eq_true] at hreq
    exact hreq.1
  · intro h
    refine BitVec.eq_of_getLsbD_eq fun b _ => ?_
    rw [BitVec.getLsbD_and]
    cases hreq : (requiredMask ops).getLsbD b with
    | false => exact Bool.and_false _
    | true =>
        obtain ⟨e, he, hr⟩ := (hbit b).mp hreq
        rw [h b e he hr, Bool.and_self]

end Masks

/-! ## Configurations -/

/-- What the times of an entry satisfy. -/
structure Entry.Timed (e : Entry) : Prop where
  inv_le_ret : e.inv ≤ e.ret
  pending : e.required = false → e.ret = never

def Action.apply : Action → Option Value → Option (Option Value)
  | .set newState, _ => some newState
  | .expect expected, state => if state = expected then some state else none

theorem le_never (t : UInt64) : t ≤ never := by
  rw [UInt64.le_iff_toNat_le]
  exact Nat.le_of_lt_succ t.toNat_lt

def calls {ι : Type} (e : ι → Entry) (he : ∀ i, (e i).Timed) :
    Calls ι ℕ (Option Value) where
  inv i := (e i).inv.toNat
  ret i := (e i).ret.toNat
  required i := (e i).required = true
  apply i := (e i).action.apply
  inv_le_ret i := UInt64.le_iff_toNat_le.mp (he i).inv_le_ret
  pending i hr j := by
    rw [(he i).pending (Bool.not_eq_true _ ▸ hr)]
    exact UInt64.le_iff_toNat_le.mp (le_never _)

section Search

variable {ι : Type} (e : ι → Entry) (he : ∀ i, (e i).Timed) (tags : List ι)

/-- The calls that are not in the mask. -/
def Undone (mask : Mask) (i : ι) : Prop :=
  ∃ b, tags[b]? = some i ∧ mask.getLsbD b = false

def Feasible (mask : Mask) (state : Option Value) : Prop :=
  ∃ order, (calls e he).Linearizes (Undone tags mask) state order

variable {e tags} {mask : Mask} {state : Option Value} {b : Nat} {i : ι}

theorem Undone.next (hnodup : tags.Nodup) (hlen : tags.length ≤ 64)
    (hb : tags[b]? = some i) :
    Undone tags (mask ||| bit b) = fun j => Undone tags mask j ∧ j ≠ i := by
  obtain ⟨hlt, hbi⟩ := List.getElem?_eq_some_iff.mp hb
  funext j
  refine propext ⟨?_, ?_⟩
  · rintro ⟨c, hc, hm⟩
    rw [getLsbD_or_bit (by omega), Bool.or_eq_false_iff] at hm
    refine ⟨⟨c, hc, hm.1⟩, fun hji => of_decide_eq_false hm.2 ?_⟩
    subst hji
    exact (List.getElem?_inj hlt hnodup).mp (hb.trans hc.symm)
  · rintro ⟨⟨c, hc, hm⟩, hji⟩
    refine ⟨c, hc, ?_⟩
    rw [getLsbD_or_bit (by omega), hm, Bool.false_or, decide_eq_false_iff_not]
    rintro rfl
    exact hji (Option.some.inj (hc.symm.trans hb))

theorem mem_zipIdx_map {x : Entry} :
    (x, b) ∈ (tags.map e).zipIdx ↔ ∃ i, tags[b]? = some i ∧ e i = x := by
  rw [List.mem_zipIdx_iff_getElem?, List.getElem?_map,
    Option.map_eq_some_iff]

theorem lt_of_getElem? (hlen : tags.length ≤ 64) (hb : tags[b]? = some i) :
    b < 64 := by
  obtain ⟨hlt, -⟩ := List.getElem?_eq_some_iff.mp hb
  omega

/-- An operation is a candidate if nothing that is left returned before it was
invoked. -/
theorem le_minRet_iff (hlen : tags.length ≤ 64) (t : UInt64) :
    t ≤ minRet (tags.map e) mask ↔
      ∀ j, Undone tags mask j → t ≤ (e j).ret := by
  have hmem : ∀ r, r ∈ (((tags.map e).zipIdx.filter fun p =>
      mask &&& bit p.2 = 0#64).map fun p => p.1.ret) ↔
        ∃ j, Undone tags mask j ∧ (e j).ret = r := by
    intro r
    rw [List.mem_map]
    constructor
    · rintro ⟨⟨x, b⟩, hp, rfl⟩
      obtain ⟨hz, hm⟩ := List.mem_filter.mp hp
      obtain ⟨j, hj, rfl⟩ := mem_zipIdx_map.mp hz
      have hb := (and_bit_eq_zero (lt_of_getElem? hlen hj)).mp
        (of_decide_eq_true hm)
      exact ⟨j, ⟨b, hj, hb⟩, rfl⟩
    · rintro ⟨j, ⟨b, hj, hm⟩, rfl⟩
      refine ⟨(e j, b), List.mem_filter.mpr
        ⟨mem_zipIdx_map.mpr ⟨j, hj, rfl⟩, decide_eq_true ?_⟩, rfl⟩
      exact (and_bit_eq_zero (lt_of_getElem? hlen hj)).mpr hm
  rw [minRet]
  cases hmin : ((((tags.map e).zipIdx.filter fun p =>
      mask &&& bit p.2 = 0#64).map fun p => p.1.ret)).min? with
  | none =>
      refine ⟨fun _ j hj => ?_, fun _ => le_never t⟩
      have hret := (hmem _).mpr ⟨j, hj, rfl⟩
      rw [List.min?_eq_none_iff.mp hmin] at hret
      cases hret
  | some m =>
      rw [Option.getD_some, List.le_min?_iff hmin]
      constructor
      · intro h j hj
        exact h _ ((hmem _).mpr ⟨j, hj, rfl⟩)
      · intro h r hr
        obtain ⟨j, hj, rfl⟩ := (hmem r).mp hr
        exact h j hj

theorem covers_iff_undone (hlen : tags.length ≤ 64) :
    mask &&& requiredMask (tags.map e) = requiredMask (tags.map e) ↔
      ∀ i, Undone tags mask i → ¬ (e i).required = true := by
  rw [covers_iff (by rwa [List.length_map])]
  constructor
  · rintro h i ⟨b, hb, hm⟩ hr
    rw [h b (e i) (by rw [List.getElem?_map, hb]; rfl) hr] at hm
    cases hm
  · intro h b x hx hr
    rw [List.getElem?_map] at hx
    obtain ⟨i, hi, rfl⟩ := Option.map_eq_some_iff.mp hx
    by_contra hm
    exact h i ⟨b, hi, Bool.not_eq_true _ ▸ hm⟩ hr

/-- The operation with bit `b` may come next, and the rest can be done after
it. -/
def Extends (e : ι → Entry) (he : ∀ i, (e i).Timed) (tags : List ι)
    (mask : Mask) (state : Option Value) (x : Entry) (b : Nat) : Prop :=
  mask &&& bit b = 0#64 ∧ x.inv ≤ minRet (tags.map e) mask ∧
    ∃ state', x.action.apply state = some state' ∧
      Feasible e he tags (mask ||| bit b) state'

theorem feasible_iff (hnodup : tags.Nodup) (hlen : tags.length ≤ 64) :
    Feasible e he tags mask state ↔
      mask &&& requiredMask (tags.map e) = requiredMask (tags.map e) ∨
      ∃ x b, (x, b) ∈ (tags.map e).zipIdx ∧
        Extends e he tags mask state x b := by
  rw [Feasible, Calls.exists_linearizes_iff]
  refine or_congr (covers_iff_undone hlen).symm ⟨?_, ?_⟩
  · rintro ⟨i, ⟨b, hb, hm⟩, hmin, state', hs, order, h⟩
    refine ⟨e i, b, mem_zipIdx_map.mpr ⟨i, hb, rfl⟩,
      (and_bit_eq_zero (lt_of_getElem? hlen hb)).mpr hm,
      (le_minRet_iff hlen _).mpr fun j hj =>
        UInt64.le_iff_toNat_le.mpr (hmin j hj), state', hs, order, ?_⟩
    rw [Undone.next hnodup hlen hb]
    exact h
  · rintro ⟨x, b, hz, hm, hmin, state', hs, order, h⟩
    obtain ⟨i, hb, rfl⟩ := mem_zipIdx_map.mp hz
    rw [and_bit_eq_zero (lt_of_getElem? hlen hb)] at hm
    rw [Undone.next hnodup hlen hb] at h
    exact ⟨i, ⟨b, hb, hm⟩, fun j hj => UInt64.le_iff_toNat_le.mp
      ((le_minRet_iff hlen _).mp hmin j hj), state', hs, order, h⟩

/-! ## The search with its memo -/

/-- The loop succeeds if one of the attempts would, as long as every attempt
that fails leaves the memo in order. -/
theorem anyFeasible_spec {attempt : Entry → Nat → Memo → Bool × Memo}
    {good : Entry → Nat → Prop} {I : Memo → Prop} {l : List (Entry × Nat)}
    (h : ∀ x b, (x, b) ∈ l → ∀ memo, I memo →
      ((attempt x b memo).1 = true ↔ good x b) ∧
        ((attempt x b memo).1 = false → I (attempt x b memo).2))
    {memo : Memo} (hI : I memo) :
    ((anyFeasible attempt l memo).1 = true ↔ ∃ x b, (x, b) ∈ l ∧ good x b) ∧
      ((anyFeasible attempt l memo).1 = false →
        I (anyFeasible attempt l memo).2) := by
  induction l generalizing memo with
  | nil => simp [anyFeasible, hI]
  | cons p rest ih =>
      obtain ⟨x, b⟩ := p
      obtain ⟨hgood, hkeep⟩ := h x b List.mem_cons_self memo hI
      have ih := @ih fun y c hy => h y c (List.mem_cons_of_mem _ hy)
      rw [anyFeasible]
      generalize attempt x b memo = outcome at hgood hkeep
      obtain ⟨r, memo'⟩ := outcome
      cases r with
      | true =>
          refine ⟨⟨fun _ => ⟨x, b, List.mem_cons_self, hgood.mp rfl⟩,
            fun _ => rfl⟩, fun hf => (by cases hf)⟩
      | false =>
          obtain ⟨hrest, hkept⟩ := ih (hkeep rfl)
          refine ⟨hrest.trans ⟨?_, ?_⟩, hkept⟩
          · rintro ⟨y, c, hy, hg⟩
            exact ⟨y, c, List.mem_cons_of_mem _ hy, hg⟩
          · rintro ⟨y, c, hy, hg⟩
            rcases List.mem_cons.mp hy with heq | hy
            · cases heq
              cases hgood.mpr hg
            · exact ⟨y, c, hy, hg⟩

/-- What the search finds in the memo has failed, or does not have all of
`mask`. -/
def Settled (e : ι → Entry) (he : ∀ i, (e i).Timed) (tags : List ι)
    (mask : Mask) (memo : Memo) : Prop :=
  ∀ p ∈ memo, ¬ Feasible e he tags p.1 p.2 ∨
    ∃ b, mask.getLsbD b = true ∧ p.1.getLsbD b = false

def left (tags : List ι) (mask : Mask) : Nat :=
  ((Finset.range tags.length).filter fun b => mask.getLsbD b = false).card

theorem left_next (hlen : tags.length ≤ 64) (hb : tags[b]? = some i)
    (hm : mask.getLsbD b = false) :
    left tags (mask ||| bit b) < left tags mask := by
  have hlt := lt_of_getElem? hlen hb
  obtain ⟨hin, -⟩ := List.getElem?_eq_some_iff.mp hb
  refine Finset.card_lt_card ((Finset.ssubset_iff_of_subset ?_).mpr ⟨b, ?_⟩)
  · intro c hc
    simp only [Finset.mem_filter, getLsbD_or_bit hlt,
      Bool.or_eq_false_iff] at hc ⊢
    exact ⟨hc.1, hc.2.1⟩
  · simp [hin, hm, getLsbD_or_bit hlt]

theorem not_undone_of_left (h : left tags mask = 0) : ¬ Undone tags mask i := by
  rintro ⟨b, hb, hm⟩
  obtain ⟨hin, -⟩ := List.getElem?_eq_some_iff.mp hb
  have hmem : b ∈ (Finset.range tags.length).filter
      fun b => mask.getLsbD b = false :=
    Finset.mem_filter.mpr ⟨Finset.mem_range.mpr hin, hm⟩
  rw [Finset.card_eq_zero.mp h] at hmem
  exact absurd hmem (Finset.notMem_empty b)

/-- All that is new in the memo has failed. -/
def Kept (e : ι → Entry) (he : ∀ i, (e i).Timed) (tags : List ι)
    (memo memo' : Memo) : Prop :=
  ∀ p ∈ memo', p ∈ memo ∨ ¬ Feasible e he tags p.1 p.2

theorem Kept.refl (memo : Memo) : Kept e he tags memo memo :=
  fun _ hp => .inl hp

theorem Kept.trans {memo memo' memo'' : Memo}
    (h : Kept e he tags memo memo') (h' : Kept e he tags memo' memo'') :
    Kept e he tags memo memo'' := by
  intro p hp
  rcases h' p hp with hp | hp
  · exact h p hp
  · exact .inr hp

/-- The search tells whether the rest can be linearized, and remembers only
failures if it cannot. -/
def Exact (e : ι → Entry) (he : ∀ i, (e i).Timed) (tags : List ι)
    (mask : Mask) (state : Option Value) (memo : Memo)
    (outcome : Bool × Memo) : Prop :=
  (outcome.1 = true ↔ Feasible e he tags mask state) ∧
    (outcome.1 = false → Kept e he tags memo outcome.2)

theorem Settled.next {memo memo' : Memo} (hlen : tags.length ≤ 64)
    (h : Settled e he tags mask memo) (hb : tags[b]? = some i)
    (hm : mask.getLsbD b = false)
    (h' : Kept e he tags (insert (mask, state) memo) memo') :
    Settled e he tags (mask ||| bit b) memo' := by
  have hlt := lt_of_getElem? hlen hb
  intro p hp
  rcases h' p hp with hp | hp
  · rcases Finset.mem_insert.mp hp with rfl | hp
    · refine .inr ⟨b, ?_, hm⟩
      rw [getLsbD_or_bit hlt, decide_eq_true rfl, Bool.or_true]
    · refine (h p hp).imp_right fun hc => ?_
      obtain ⟨c, hc, hpc⟩ := hc
      refine ⟨c, ?_, hpc⟩
      rw [getLsbD_or_bit hlt, hc, Bool.true_or]
  · exact .inl hp

theorem exact_of_covers {memo : Memo} (hnodup : tags.Nodup)
    (hlen : tags.length ≤ 64)
    (h : mask &&& requiredMask (tags.map e) = requiredMask (tags.map e)) :
    Exact e he tags mask state memo (true, memo) :=
  ⟨⟨fun _ => (feasible_iff he hnodup hlen).mpr (.inl h), fun _ => rfl⟩,
    fun hf => (by cases hf)⟩

theorem exact_of_seen {memo : Memo} (hmemo : Settled e he tags mask memo)
    (h : (mask, state) ∈ memo) :
    Exact e he tags mask state memo (false, memo) := by
  refine ⟨⟨fun hf => (by cases hf), fun hf => ?_⟩, fun _ => .refl he memo⟩
  rcases hmemo _ h with hno | ⟨b, hb, hb'⟩
  · exact absurd hf hno
  · rw [hb] at hb'
    cases hb'

theorem attempt_spec {descend : Memo → Mask → Option Value → Bool × Memo}
    (x : Entry) (state : Option Value) {memo : Memo}
    (hdescend : mask &&& bit b = 0#64 → ∀ state', Exact e he tags
      (mask ||| bit b) state' memo (descend memo (mask ||| bit b) state')) :
    ((attempt (tags.map e) mask state descend x b memo).1 = true ↔
      Extends e he tags mask state x b) ∧
    ((attempt (tags.map e) mask state descend x b memo).1 = false →
      Kept e he tags memo
        (attempt (tags.map e) mask state descend x b memo).2) := by
  rw [attempt]
  by_cases hskip : mask &&& bit b ≠ 0#64 ∨ minRet (tags.map e) mask < x.inv
  · rw [if_pos hskip]
    refine ⟨⟨fun hf => (by cases hf), ?_⟩, fun _ => .refl he memo⟩
    rintro ⟨hm, hmin, -⟩
    exact absurd hmin
      (UInt64.not_le.mpr (hskip.resolve_left (not_not_intro hm)))
  rw [if_neg hskip]
  obtain ⟨hm, hmin⟩ := not_or.mp hskip
  have hm := not_not.mp hm
  have hmin := UInt64.not_lt.mp hmin
  -- whether the register takes it, and with which value the search goes on
  have hlead : ∀ state', x.action.apply state = some state' →
      (Extends e he tags mask state x b ↔
        Feasible e he tags (mask ||| bit b) state') := by
    intro state' hs
    refine ⟨?_, fun h => ⟨hm, hmin, state', hs, h⟩⟩
    rintro ⟨-, -, s, hs', h⟩
    rw [hs] at hs'
    cases hs'
    exact h
  cases hact : x.action with
  | set newState =>
      obtain ⟨hiff, hkeep⟩ := hdescend hm newState
      exact ⟨hiff.trans (hlead newState (by rw [hact]; rfl)).symm, hkeep⟩
  | expect expected =>
      simp only
      by_cases hs : state = expected
      · obtain ⟨hiff, hkeep⟩ := hdescend hm state
        rw [if_pos hs]
        refine ⟨hiff.trans (hlead state ?_).symm, hkeep⟩
        rw [hact, Action.apply, if_pos hs]
      · rw [if_neg hs]
        refine ⟨⟨fun hf => (by cases hf), ?_⟩, fun _ => .refl he memo⟩
        rintro ⟨-, -, s, hs', -⟩
        rw [hact, Action.apply, if_neg hs] at hs'
        cases hs'

/-- One level of the search, if the levels below are exact. -/
theorem loop_spec {descend : Memo → Mask → Option Value → Bool × Memo}
    {memo : Memo} (state : Option Value) (hlen : tags.length ≤ 64)
    (hmemo : Settled e he tags mask memo)
    (hdescend : ∀ b memo' state',
      left tags (mask ||| bit b) < left tags mask →
      Settled e he tags (mask ||| bit b) memo' →
      Exact e he tags (mask ||| bit b) state' memo'
        (descend memo' (mask ||| bit b) state')) :
    ((anyFeasible (attempt (tags.map e) mask state descend)
        (tags.map e).zipIdx (insert (mask, state) memo)).1 = true ↔
      ∃ x b, (x, b) ∈ (tags.map e).zipIdx ∧
        Extends e he tags mask state x b) ∧
    ((anyFeasible (attempt (tags.map e) mask state descend)
        (tags.map e).zipIdx (insert (mask, state) memo)).1 = false →
      Kept e he tags (insert (mask, state) memo)
        (anyFeasible (attempt (tags.map e) mask state descend)
          (tags.map e).zipIdx (insert (mask, state) memo)).2) := by
  refine anyFeasible_spec
    (I := Kept e he tags (insert (mask, state) memo)) ?_ (.refl he _)
  intro x b hx memo' hkept
  obtain ⟨i, hb, -⟩ := mem_zipIdx_map.mp hx
  obtain ⟨hiff, hkeep⟩ := attempt_spec he x state
    (fun hm state' => by
      rw [and_bit_eq_zero (lt_of_getElem? hlen hb)] at hm
      exact hdescend b memo' state' (left_next hlen hb hm)
        (hmemo.next he hlen hb hm hkept))
  exact ⟨hiff, fun hf => hkept.trans he (hkeep hf)⟩

theorem search_exact (hnodup : tags.Nodup) (hlen : tags.length ≤ 64)
    (fuel : Nat) (memo : Memo) (mask : Mask) (state : Option Value)
    (hfuel : left tags mask ≤ fuel) (hmemo : Settled e he tags mask memo) :
    Exact e he tags mask state memo
      (search (tags.map e) (requiredMask (tags.map e)) fuel memo mask
        state) := by
  induction fuel generalizing memo mask state with
  | zero =>
      have hdone : mask &&& requiredMask (tags.map e) =
          requiredMask (tags.map e) :=
        (covers_iff_undone hlen).mpr fun i hi =>
          absurd hi (not_undone_of_left (Nat.le_zero.mp hfuel))
      rw [search, if_pos hdone]
      exact exact_of_covers he hnodup hlen hdone
  | succ fuel ih =>
      rw [search]
      by_cases hdone : mask &&& requiredMask (tags.map e) =
          requiredMask (tags.map e)
      · rw [if_pos hdone]
        exact exact_of_covers he hnodup hlen hdone
      by_cases hseen : (mask, state) ∈ memo
      · rw [if_neg hdone, if_pos hseen]
        exact exact_of_seen he hmemo hseen
      rw [if_neg hdone, if_neg hseen]
      obtain ⟨hiff, hkeep⟩ := loop_spec he state hlen hmemo
        fun b memo' state' hless hmemo' =>
          ih memo' (mask ||| bit b) state' (by omega) hmemo'
      have hexact := hiff.trans ((feasible_iff he hnodup hlen).trans
        (or_iff_right hdone)).symm
      refine ⟨hexact, fun hf p hp => ?_⟩
      rcases hkeep hf p hp with hp | hp
      · rcases Finset.mem_insert.mp hp with rfl | hp
        · -- this configuration has failed too
          refine .inr fun hfeasible => ?_
          rw [hexact.mpr hfeasible] at hf
          cases hf
        · exact .inl hp
      · exact .inr hp

end Search

end RustKV.Lin
