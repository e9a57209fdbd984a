import Mathlib.Data.List.Nodup
import Mathlib.Logic.Function.Basic
import Mathlib.Order.BoundedOrder.Lattice
import Mathlib.Order.Lattice

/-!
# Linearization

Calls of operations on a shared object, each with the time it was made and the
time it returned, and the sequences of operations that explain them. Two facts
make the existence of such a sequence something one can search for. A sequence
can be built from the front, one call at a time, where a call may come next if
none of those still missing returned before it was made
(`exists_linearizes_iff`). And an object that consists of independent parts
can be looked at part by part (`locality`). Where the states of the object
follow a log, and every call has its place there, the log is such a sequence
(`Placement.linearizes`).
-/

namespace Consensus

/-- Calls on an object with states `S`: `apply i s` is the state after `i`,
unless `i` cannot have been answered as it was in `s`. A call may be one that
need not have taken effect; such a call has not returned. -/
structure Calls (ι T S : Type*) [LE T] where
  inv : ι → T
  ret : ι → T
  required : ι → Prop
  apply : ι → S → Option S
  inv_le_ret : ∀ i, inv i ≤ ret i
  pending : ∀ i, ¬ required i → ∀ j, inv j ≤ ret i

namespace Calls

variable {ι T S K : Type*}

section Search

variable [LE T] (C : Calls ι T S) {A : ι → Prop} {s s' : S} {i : ι}
  {order : List ι}

/-- The state after some operations in sequence. -/
def run (s : S) (order : List ι) : Option S :=
  order.foldlM (fun s i => C.apply i s) s

@[simp] theorem run_nil : C.run s [] = some s := rfl

@[simp] theorem run_cons :
    C.run s (i :: order) = (C.apply i s).bind fun s' => C.run s' order := rfl

theorem run_append (s : S) (order order' : List ι) :
    C.run s (order ++ order') =
      (C.run s order).bind fun s' => C.run s' order' :=
  List.foldlM_append

/-- `order` explains the calls `A` on an object that is in state `s`. -/
structure Linearizes (A : ι → Prop) (s : S) (order : List ι) : Prop where
  nodup : order.Nodup
  only : ∀ i ∈ order, A i
  all : ∀ i, A i → C.required i → i ∈ order
  realTime : order.Pairwise fun i j => C.inv i ≤ C.ret j
  legal : (C.run s order).isSome = true

theorem linearizes_nil (h : ∀ i, A i → ¬ C.required i) :
    C.Linearizes A s [] where
  nodup := List.nodup_nil
  only := List.forall_mem_nil _
  all i ha hr := absurd hr (h i ha)
  realTime := List.Pairwise.nil
  legal := rfl

theorem linearizes_cons (hi : A i) (hmin : ∀ j, A j → C.inv i ≤ C.ret j)
    (hs : C.apply i s = some s')
    (h : C.Linearizes (fun j => A j ∧ j ≠ i) s' order) :
    C.Linearizes A s (i :: order) where
  nodup := List.nodup_cons.mpr ⟨fun hmem => (h.only i hmem).2 rfl, h.nodup⟩
  only := List.forall_mem_cons.mpr ⟨hi, fun j hj => (h.only j hj).1⟩
  all j ha hr := by
    by_cases hji : j = i
    · exact List.mem_cons.mpr (.inl hji)
    · exact List.mem_cons_of_mem _ (h.all j ⟨ha, hji⟩ hr)
  realTime := List.pairwise_cons.mpr
    ⟨fun j hj => hmin j (h.only j hj).1, h.realTime⟩
  legal := by
    rw [run_cons, hs]
    exact h.legal

theorem Linearizes.first (h : C.Linearizes A s (i :: order)) :
    A i ∧ (∀ j, A j → C.inv i ≤ C.ret j) ∧ ∃ s', C.apply i s = some s' ∧
      C.Linearizes (fun j => A j ∧ j ≠ i) s' order := by
  obtain ⟨hnew, hnodup⟩ := List.nodup_cons.mp h.nodup
  obtain ⟨hfirst, htime⟩ := List.pairwise_cons.mp h.realTime
  refine ⟨h.only i List.mem_cons_self, ?_, ?_⟩
  · -- whoever is not in the sequence has not returned
    intro j ha
    by_cases hr : C.required j
    · rcases List.mem_cons.mp (h.all j ha hr) with rfl | hj
      · exact C.inv_le_ret j
      · exact hfirst j hj
    · exact C.pending j hr i
  · have hlegal := h.legal
    rw [run_cons] at hlegal
    cases hs : C.apply i s with
    | none =>
        rw [hs] at hlegal
        cases hlegal
    | some s' =>
        rw [hs] at hlegal
        refine ⟨s', rfl, hnodup, ?_, ?_, htime, hlegal⟩
        · intro j hj
          exact ⟨h.only j (List.mem_cons_of_mem _ hj),
            fun heq => hnew (heq ▸ hj)⟩
        · intro j ha hr
          exact (List.mem_cons.mp (h.all j ha.1 hr)).resolve_left ha.2

/-- There is nothing left that must be explained, or there is a call that may
come next and a way to go on after it. -/
theorem exists_linearizes_iff :
    (∃ order, C.Linearizes A s order) ↔ (∀ i, A i → ¬ C.required i) ∨
      ∃ i, A i ∧ (∀ j, A j → C.inv i ≤ C.ret j) ∧
        ∃ s', C.apply i s = some s' ∧
          ∃ order, C.Linearizes (fun j => A j ∧ j ≠ i) s' order := by
  constructor
  · rintro ⟨order, h⟩
    cases order with
    | nil =>
        refine .inl fun i ha hr => ?_
        cases h.all i ha hr
    | cons i order =>
        obtain ⟨hi, hmin, s', hs, hrest⟩ := h.first
        exact .inr ⟨i, hi, hmin, s', hs, order, hrest⟩
  · rintro (hdone | ⟨i, hi, hmin, s', hs, order, h⟩)
    · exact ⟨[], C.linearizes_nil hdone⟩
    · exact ⟨i :: order, C.linearizes_cons hi hmin hs h⟩

end Search

/-! ## Objects made of parts -/

section Locality

variable [LE T] [DecidableEq K] (C : Calls ι T S) (key : ι → K)

/-- The object that has a part for every key, where a call is on the part its
key names. -/
def spread : Calls ι T (K → S) :=
  { C with
    apply := fun i f =>
      (C.apply i (f (key i))).map (Function.update f (key i)) }

/-- A sequence is legal if each part's share of it is. -/
theorem run_spread (f : K → S) (order : List ι) :
    ((C.spread key).run f order).isSome = true ↔
      ∀ k, (C.run (f k) (order.filter fun i => key i = k)).isSome = true := by
  induction order generalizing f with
  | nil => simp
  | cons i order ih =>
      rw [run_cons]
      show (((C.apply i (f (key i))).map (Function.update f (key i))).bind
        fun f' => (C.spread key).run f' order).isSome = true ↔ _
      cases hs : C.apply i (f (key i)) with
      | none =>
          refine ⟨fun h => (by cases h), fun h => ?_⟩
          have hk := h (key i)
          rw [List.filter_cons_of_pos (by simp), run_cons, hs] at hk
          cases hk
      | some s' =>
          rw [Option.map_some, Option.bind_some, ih]
          refine forall_congr' fun k => ?_
          by_cases hk : key i = k
          · subst hk
            rw [List.filter_cons_of_pos (by simp), run_cons, hs,
              Function.update_self, Option.bind_some]
          · rw [List.filter_cons_of_neg (by simp [hk]),
              Function.update_of_ne (Ne.symm hk)]

theorem Linearizes.part {A : ι → Prop} {f : K → S} {order : List ι}
    (h : (C.spread key).Linearizes A f order) (k : K) :
    C.Linearizes (fun i => A i ∧ key i = k) (f k)
      (order.filter fun i => key i = k) where
  nodup := h.nodup.filter _
  only i hi := by
    obtain ⟨hmem, hk⟩ := List.mem_filter.mp hi
    exact ⟨h.only i hmem, of_decide_eq_true hk⟩
  all i ha hr :=
    List.mem_filter.mpr ⟨h.all i ha.1 hr, decide_eq_true ha.2⟩
  realTime := h.realTime.filter _
  legal := (C.run_spread key f order).mp h.legal k

end Locality

section Parts

variable [LE T] (C : Calls ι T S) {A : ι → Prop} {key : ι → K} {ks : List K}
  {f : K → S} {ord : K → List ι}

theorem mem_flatten_parts
    (hord : ∀ k ∈ ks, C.Linearizes (fun i => A i ∧ key i = k) (f k) (ord k))
    {i : ι} : i ∈ (ks.map ord).flatten ↔ key i ∈ ks ∧ i ∈ ord (key i) := by
  rw [List.mem_flatten]
  constructor
  · rintro ⟨order, horder, hi⟩
    obtain ⟨k, hk, rfl⟩ := List.mem_map.mp horder
    obtain ⟨-, rfl⟩ := (hord k hk).only i hi
    exact ⟨hk, hi⟩
  · rintro ⟨hk, hi⟩
    exact ⟨_, List.mem_map_of_mem hk, hi⟩

theorem nodup_flatten_parts (hks : ks.Nodup)
    (hord : ∀ k ∈ ks, C.Linearizes (fun i => A i ∧ key i = k) (f k) (ord k)) :
    (ks.map ord).flatten.Nodup := by
  refine List.nodup_flatten.mpr ⟨?_, ?_⟩
  · intro order horder
    obtain ⟨k, hk, rfl⟩ := List.mem_map.mp horder
    exact (hord k hk).nodup
  · refine List.pairwise_map.mpr (hks.imp_of_mem fun hk hk' hne i hi hi' => ?_)
    exact hne (((hord _ hk).only i hi).2.symm.trans ((hord _ hk').only i hi').2)

end Parts

/-! ## One sequence from those of the parts

Each operation of a part gets a point in time between its call and its return:
the latest call so far in the part's sequence. Sorted by these points, the
operations of all parts are in an order that respects real time, and those of
one part are in the order they had. -/

section Merge

variable [LinearOrder T] (C : Calls ι T S) {t : T} {order : List ι}

def stamp : T → List ι → List (T × ι)
  | _, [] => []
  | t, i :: order =>
      (max t (C.inv i), i) :: stamp (max t (C.inv i)) order

theorem map_snd_stamp (t : T) (order : List ι) :
    (C.stamp t order).map Prod.snd = order := by
  induction order generalizing t with
  | nil => rfl
  | cons i order ih => rw [stamp, List.map_cons, ih]

theorem le_stamp (t : T) (order : List ι) :
    ∀ p ∈ C.stamp t order, t ≤ p.1 ∧ C.inv p.2 ≤ p.1 := by
  induction order generalizing t with
  | nil => exact List.forall_mem_nil _
  | cons i order ih =>
      refine List.forall_mem_cons.mpr
        ⟨⟨le_max_left _ _, le_max_right _ _⟩, fun p hp => ?_⟩
      obtain ⟨ht, hinv⟩ := ih _ p hp
      exact ⟨(le_max_left _ _).trans ht, hinv⟩

theorem pairwise_stamp (t : T) (order : List ι) :
    (C.stamp t order).Pairwise fun p q => p.1 ≤ q.1 := by
  induction order generalizing t with
  | nil => exact List.Pairwise.nil
  | cons i order ih =>
      exact List.pairwise_cons.mpr
        ⟨fun q hq => (C.le_stamp _ _ q hq).1, ih _⟩

theorem stamp_le_ret (ht : ∀ i ∈ order, t ≤ C.ret i)
    (h : order.Pairwise fun i j => C.inv i ≤ C.ret j) :
    ∀ p ∈ C.stamp t order, p.1 ≤ C.ret p.2 := by
  induction order generalizing t with
  | nil => exact List.forall_mem_nil _
  | cons i order ih =>
      obtain ⟨hfirst, hrest⟩ := List.pairwise_cons.mp h
      obtain ⟨hti, hto⟩ := List.forall_mem_cons.mp ht
      exact List.forall_mem_cons.mpr ⟨max_le hti (C.inv_le_ret i),
        ih (fun j hj => max_le (hto j hj) (hfirst j hj)) hrest⟩

def earlier (p q : T × ι) : Bool := p.1 ≤ q.1

theorem earlier_trans (p q r : T × ι) (h : earlier p q = true)
    (h' : earlier q r = true) : earlier p r = true := by
  simp only [earlier, decide_eq_true_eq] at h h' ⊢
  exact h.trans h'

theorem earlier_total (p q : T × ι) :
    (earlier p q || earlier q p) = true := by
  simp only [earlier, Bool.or_eq_true, decide_eq_true_eq]
  exact le_total _ _

variable [OrderBot T] {orders : List (List ι)}

/-- All the points of some sequences, in time. -/
def points (orders : List (List ι)) : List (T × ι) :=
  (orders.flatMap (C.stamp ⊥)).mergeSort earlier

/-- The sequences merged into one. -/
def merge (orders : List (List ι)) : List ι := (C.points orders).map Prod.snd

theorem merge_perm (orders : List (List ι)) :
    (C.merge orders).Perm orders.flatten := by
  have hp := (List.mergeSort_perm (orders.flatMap (C.stamp ⊥)) earlier).map
    Prod.snd
  rw [List.map_flatMap] at hp
  simp only [map_snd_stamp, List.flatMap_id'] at hp
  exact hp

theorem sublist_merge (h : order ∈ orders) :
    order.Sublist (C.merge orders) := by
  have hsub : (C.stamp ⊥ order).Sublist (orders.flatMap (C.stamp ⊥)) :=
    List.sublist_flatten_of_mem (List.mem_map_of_mem h)
  have hsorted : (C.stamp ⊥ order).Pairwise fun p q => earlier p q = true :=
    (C.pairwise_stamp ⊥ order).imp decide_eq_true
  have hkept := (List.sublist_mergeSort earlier_trans earlier_total hsorted
    hsub).map Prod.snd
  rwa [map_snd_stamp] at hkept

theorem pairwise_merge (h : ∀ order ∈ orders,
      order.Pairwise fun i j => C.inv i ≤ C.ret j) :
    (C.merge orders).Pairwise fun i j => C.inv i ≤ C.ret j := by
  have hpoint : ∀ p ∈ C.points orders,
      C.inv p.2 ≤ p.1 ∧ p.1 ≤ C.ret p.2 := by
    intro p hp
    obtain ⟨order, hmem, hp'⟩ :=
      List.mem_flatMap.mp (List.mem_mergeSort.mp hp)
    exact ⟨(C.le_stamp ⊥ order p hp').2,
      C.stamp_le_ret (fun _ _ => bot_le) (h order hmem) p hp'⟩
  refine List.pairwise_map.mpr ((List.pairwise_mergeSort earlier_trans
    earlier_total _).imp_of_mem fun hp hq hle => ?_)
  calc C.inv _ ≤ _ := (hpoint _ hp).1
    _ ≤ _ := of_decide_eq_true hle
    _ ≤ C.ret _ := (hpoint _ hq).2

variable [DecidableEq K] {A : ι → Prop} {key : ι → K} {ks : List K}
  {f : K → S} {ord : K → List ι}

/-- The merged sequence has each part's sequence as that part's share. -/
theorem filter_merge (hks : ks.Nodup)
    (hord : ∀ k ∈ ks, C.Linearizes (fun i => A i ∧ key i = k) (f k) (ord k))
    {k : K} (hk : k ∈ ks) :
    ((C.merge (ks.map ord)).filter fun i => key i = k) = ord k := by
  have hperm := C.merge_perm (ks.map ord)
  have hall : (ord k).filter (fun i => key i = k) = ord k :=
    List.filter_eq_self.mpr fun i hi =>
      decide_eq_true ((hord k hk).only i hi).2
  have hsub : (ord k).Sublist
      ((C.merge (ks.map ord)).filter fun i => key i = k) :=
    hall ▸ (C.sublist_merge (List.mem_map_of_mem hk)).filter _
  have hnodup := (hperm.nodup_iff.mpr (C.nodup_flatten_parts hks hord)).filter
    fun i => key i = k
  refine (hsub.eq_of_length (List.Perm.length_eq ?_)).symm
  refine (List.perm_ext_iff_of_nodup (hord k hk).nodup hnodup).mpr fun i => ?_
  refine ⟨fun hi => hsub.subset hi, fun hi => ?_⟩
  obtain ⟨hmem, hki⟩ := List.mem_filter.mp hi
  obtain rfl := of_decide_eq_true hki
  exact ((C.mem_flatten_parts hord).mp (hperm.mem_iff.mp hmem)).2

theorem linearizes_merge (hks : ks.Nodup) (hkey : ∀ i, A i → key i ∈ ks)
    (hord : ∀ k ∈ ks, C.Linearizes (fun i => A i ∧ key i = k) (f k) (ord k)) :
    (C.spread key).Linearizes A f (C.merge (ks.map ord)) := by
  have hperm := C.merge_perm (ks.map ord)
  have hmem {i : ι} : i ∈ C.merge (ks.map ord) ↔
      key i ∈ ks ∧ i ∈ ord (key i) :=
    hperm.mem_iff.trans (C.mem_flatten_parts hord)
  refine ⟨hperm.nodup_iff.mpr (C.nodup_flatten_parts hks hord), ?_, ?_,
    C.pairwise_merge ?_, (C.run_spread key f _).mpr fun k => ?_⟩
  · intro i hi
    obtain ⟨hk, hi⟩ := hmem.mp hi
    exact ((hord _ hk).only i hi).1
  · intro i ha hr
    exact hmem.mpr ⟨hkey i ha, (hord _ (hkey i ha)).all i ⟨ha, rfl⟩ hr⟩
  · intro order horder
    obtain ⟨k, hk, rfl⟩ := List.mem_map.mp horder
    exact (hord k hk).realTime
  · by_cases hk : k ∈ ks
    · rw [C.filter_merge hks hord hk]
      exact (hord k hk).legal
    · have hnone : ((C.merge (ks.map ord)).filter fun i => key i = k) =
          [] := by
        refine List.filter_eq_nil_iff.mpr fun i hi hki => hk ?_
        obtain rfl := of_decide_eq_true hki
        exact (hmem.mp hi).1
      rw [hnone]
      rfl

/-- An object made of parts has a sequence if each of its parts has one. -/
theorem locality (hks : ks.Nodup) (hkey : ∀ i, A i → key i ∈ ks) :
    (∃ order, (C.spread key).Linearizes A f order) ↔
      ∀ k ∈ ks, ∃ order,
        C.Linearizes (fun i => A i ∧ key i = k) (f k) order := by
  constructor
  · rintro ⟨order, h⟩ k -
    exact ⟨_, Linearizes.part C key h k⟩
  · intro h
    have hord : ∀ k, ∃ order, k ∈ ks →
        C.Linearizes (fun i => A i ∧ key i = k) (f k) order := by
      intro k
      by_cases hk : k ∈ ks
      · obtain ⟨order, ho⟩ := h k hk
        exact ⟨order, fun _ => ho⟩
      · exact ⟨[], fun hk' => absurd hk' hk⟩
    choose ord hord using hord
    exact ⟨_, C.linearizes_merge hks hkey hord⟩

end Merge

/-! ## Objects behind a log -/

section Log

variable [LE T] (C : Calls ι T S) {A : ι → Prop} {s : S}

theorem run_eq_self {order : List ι}
    (h : ∀ i ∈ order, C.apply i s = some s) : C.run s order = some s := by
  induction order with
  | nil => rfl
  | cons i rest ih =>
      obtain ⟨hi, hrest⟩ := List.forall_mem_cons.mp h
      rw [run_cons, hi, Option.bind_some, ih hrest]

/-- The states of the object follow a log, and `block k` are the calls that
belong to its entry `k`. -/
theorem run_log {block : ℕ → List ι} {state : ℕ → S} {n : ℕ}
    (hinit : C.run s (block 0) = some (state 0))
    (hstep : ∀ k, k < n →
      C.run (state k) (block (k + 1)) = some (state (k + 1))) :
    C.run s ((List.range (n + 1)).flatMap block) = some (state n) := by
  induction n with
  | zero => simpa using hinit
  | succ n ih =>
      rw [List.range_succ, List.flatMap_append, run_append,
        ih fun k hk => hstep k (Nat.lt_succ_of_lt hk), Option.bind_some]
      simpa using hstep n (Nat.lt_succ_self n)

/-- An object behind a log is linearized by the log. -/
theorem linearizes_log (block : ℕ → List ι) (state : ℕ → S) {n : ℕ}
    (hinit : C.run s (block 0) = some (state 0))
    (hstep : ∀ k, k < n →
      C.run (state k) (block (k + 1)) = some (state (k + 1)))
    (hnodup : ∀ k, (block k).Nodup)
    (honce : ∀ i j k, i ∈ block j → i ∈ block k → j = k)
    (honly : ∀ k, ∀ i ∈ block k, A i)
    (hall : ∀ i, A i → C.required i → ∃ k, k ≤ n ∧ i ∈ block k)
    (hwithin : ∀ k, (block k).Pairwise fun i j => C.inv i ≤ C.ret j)
    (hacross : ∀ j k, j < k → ∀ i ∈ block j, ∀ i' ∈ block k,
      C.inv i ≤ C.ret i') :
    C.Linearizes A s ((List.range (n + 1)).flatMap block) where
  nodup := by
    refine List.nodup_flatMap.mpr ⟨fun k _ => hnodup k, ?_⟩
    refine List.pairwise_lt_range.imp fun {j k} hjk => ?_
    exact fun i hi hi' => hjk.ne (honce i j k hi hi')
  only i hi := by
    obtain ⟨k, -, hk⟩ := List.mem_flatMap.mp hi
    exact honly k i hk
  all i ha hr := by
    obtain ⟨k, hk, hi⟩ := hall i ha hr
    exact List.mem_flatMap.mpr
      ⟨k, List.mem_range.mpr (Nat.lt_succ_of_le hk), hi⟩
  realTime := by
    refine List.pairwise_flatMap.mpr ⟨fun k _ => hwithin k, ?_⟩
    exact List.pairwise_lt_range.imp fun {j k} hjk => hacross j k hjk
  legal := by
    rw [C.run_log hinit hstep]
    rfl

end Log

/-! ## Updates and queries

Of the calls behind a log some are its entries, the others only look at the
state that the entries before some point have left. -/

section Placement

variable [LinearOrder T] (C : Calls ι T S)

/-- Where in a log calls take effect: an update at `k + 1` is the entry that
leads from `state k` to `state (k + 1)`, a query at `k` looks at `state k`. -/
structure Placement (state : ℕ → S) (update : ι → Prop)
    (place : ι → ℕ → Prop) (n : ℕ) : Prop where
  unique : ∀ i j k, place i j → place i k → j = k
  single : ∀ i j k, update i → update j → place i k → place j k → i = j
  query_zero : ∀ i, place i 0 → ¬ update i
  update_apply : ∀ i k, update i → place i (k + 1) →
    C.apply i (state k) = some (state (k + 1))
  idle : ∀ k, k < n → (∀ i, update i → ¬ place i (k + 1)) →
    state (k + 1) = state k
  query_apply : ∀ i k, ¬ update i → place i k →
    C.apply i (state k) = some (state k)
  order : ∀ i i' j k, place i j → place i' k → C.ret i' < C.inv i →
    k < j ∨ (k = j ∧ ¬ update i)

variable {C} {state : ℕ → S} {update : ι → Prop} {place : ι → ℕ → Prop}
  {n k : ℕ} {calls : List ι}

open Classical in
/-- The updates at a place of the log. -/
noncomputable def updates (update : ι → Prop) (place : ι → ℕ → Prop)
    (calls : List ι) (k : ℕ) : List ι :=
  calls.filter fun i => update i ∧ place i k

open Classical in
/-- The queries at a place of the log, in the order they were made. -/
noncomputable def queries (C : Calls ι T S) (update : ι → Prop)
    (place : ι → ℕ → Prop) (calls : List ι) (k : ℕ) : List ι :=
  (calls.filter fun i => ¬ update i ∧ place i k).mergeSort
    fun i j => C.inv i ≤ C.inv j

theorem mem_updates {i : ι} :
    i ∈ updates update place calls k ↔ i ∈ calls ∧ update i ∧ place i k := by
  simp [updates]

theorem mem_queries {i : ι} :
    i ∈ C.queries update place calls k ↔
      i ∈ calls ∧ ¬ update i ∧ place i k := by
  simp [queries]

theorem pairwise_queries : (C.queries update place calls k).Pairwise
    fun i j => C.inv i ≤ C.inv j := by
  refine (List.pairwise_mergeSort ?_ ?_ _).imp of_decide_eq_true
  · intro a b c hab hbc
    exact decide_eq_true
      ((of_decide_eq_true hab).trans (of_decide_eq_true hbc))
  · intro a b
    simpa using le_total (C.inv a) (C.inv b)

/-- The queries at one place see one state. -/
theorem Placement.run_queries (h : C.Placement state update place n) :
    C.run (state k) (C.queries update place calls k) = some (state k) :=
  C.run_eq_self fun i hi =>
    h.query_apply i k (mem_queries.mp hi).2.1 (mem_queries.mp hi).2.2

theorem Placement.run_updates (h : C.Placement state update place n)
    (hmem : ∀ i, i ∈ calls) (hnodup : calls.Nodup) (hk : k < n) :
    C.run (state k) (updates update place calls (k + 1)) =
      some (state (k + 1)) := by
  by_cases hidle : ∀ i, update i → ¬ place i (k + 1)
  · have hnil : updates update place calls (k + 1) = [] :=
      List.eq_nil_iff_forall_not_mem.mpr fun i hi =>
        hidle i (mem_updates.mp hi).2.1 (mem_updates.mp hi).2.2
    rw [hnil, h.idle k hk hidle]
    rfl
  · push Not at hidle
    obtain ⟨i, hi, hpl⟩ := hidle
    -- the only call with an effect at this place
    have hone : updates update place calls (k + 1) = [i] := by
      refine List.perm_singleton.mp ((List.perm_ext_iff_of_nodup
        (hnodup.filter _) (List.nodup_singleton i)).mpr fun j => ?_)
      rw [← updates, mem_updates, List.mem_singleton]
      constructor
      · rintro ⟨-, hj, hplj⟩
        exact h.single j i (k + 1) hj hi hplj hpl
      · rintro rfl
        exact ⟨hmem j, hi, hpl⟩
    rw [hone, run_cons, h.update_apply i k hi hpl]
    rfl

/-- Calls that have their places in a log are linearized by it. -/
theorem Placement.linearizes (h : C.Placement state update place n)
    {A : ι → Prop} (hmem : ∀ i, i ∈ calls) (hnodup : calls.Nodup)
    (honly : ∀ i k, place i k → A i)
    (hall : ∀ i, A i → C.required i → ∃ k, k ≤ n ∧ place i k) :
    ∃ order, C.Linearizes A (state 0) order := by
  let block k := updates update place calls k ++
    C.queries update place calls k
  have hblock : ∀ {i k}, i ∈ block k ↔ place i k := by
    intro i k
    rw [List.mem_append, mem_updates, mem_queries]
    by_cases hi : update i
    · simp [hmem i, hi]
    · simp [hmem i, hi]
  have hlt : ∀ {i i' j k}, place i j → place i' k →
      j < k ∨ (j = k ∧ update i) → C.inv i ≤ C.ret i' := by
    intro i i' j k hi hi' hjk
    by_contra hlate
    rcases h.order i i' j k hi hi' (not_le.mp hlate) with hlt | ⟨heq, hno⟩
    · omega
    · rcases hjk with hlt | ⟨-, hup⟩
      · omega
      · exact hno hup
  refine ⟨_, C.linearizes_log block state (n := n) ?_
    (fun k hk => ?_) (fun k => ?_)
    (fun i j k hj hk => h.unique i j k (hblock.mp hj) (hblock.mp hk))
    (fun k i hi => honly i k (hblock.mp hi)) (fun i ha hr => ?_)
    (fun k => ?_)
    (fun j k hjk i hi i' hi' => hlt (hblock.mp hi) (hblock.mp hi')
      (.inl hjk))⟩
  · have hnil : updates update place calls 0 = [] :=
      List.eq_nil_iff_forall_not_mem.mpr fun i hi =>
        h.query_zero i (mem_updates.mp hi).2.2 (mem_updates.mp hi).2.1
    show C.run (state 0) (updates update place calls 0 ++ _) = _
    rw [hnil, List.nil_append, h.run_queries]
  · rw [run_append, h.run_updates hmem hnodup hk, Option.bind_some,
      h.run_queries]
  · refine List.nodup_append.mpr ⟨hnodup.filter _,
      (List.mergeSort_perm _ _).nodup_iff.mpr (hnodup.filter _), ?_⟩
    rintro i hi _ hi' rfl
    exact (mem_queries.mp hi').2.1 (mem_updates.mp hi).2.1
  · obtain ⟨k, hk, hpl⟩ := hall i ha hr
    exact ⟨k, hk, hblock.mpr hpl⟩
  · refine List.pairwise_append.mpr ⟨?_, ?_, fun i hi i' hi' => ?_⟩
    · refine List.pairwise_of_forall_mem_list fun i hi i' hi' => ?_
      obtain ⟨-, hup, hpl⟩ := mem_updates.mp hi
      exact hlt hpl (mem_updates.mp hi').2.2 (.inr ⟨rfl, hup⟩)
    · exact pairwise_queries.imp fun hle => hle.trans (C.inv_le_ret _)
    · obtain ⟨-, hup, hpl⟩ := mem_updates.mp hi
      exact hlt hpl (mem_queries.mp hi').2.2 (.inr ⟨rfl, hup⟩)

end Placement

end Calls

end Consensus
