import Mathlib.Order.Nat
import RustKV.Proofs.Search

/-!
# The checker is exact

What a linearization of a history is, said without the checker's masks and
per-key searches (`Linearizes`): one order over all keys, of positions in the
history. The checker accepts exactly the histories that have one
(`checker_exact`): its search is exact for a key (`search_exact`), and an order
for every key makes one for all of them (`Calls.locality`).
-/

namespace RustKV.Lin

open Rust Consensus

/-! ## What a linearization is -/

namespace Recorded

def failed (r : Recorded) : Bool :=
  match r.op with
  | .write _ .fail _ => true
  | _ => false

def acknowledged (r : Recorded) : Bool :=
  match r.op with
  | .write _ .ok _ => true
  | .read _ => true
  | _ => false

/-- `r` returned strictly before `r'` was invoked; a write with an unknown
outcome never returned. -/
def Before (r r' : Recorded) : Prop :=
  r.acknowledged = true ∧ r.returnedUs < r'.invokedUs

def written (r : Recorded) : Option (Option Value) :=
  match r.op with
  | .write kind _ _ => some kind.state
  | .read _ => none

end Recorded

/-- The value of the latest write to `key`: none if there is no write or it is
a delete. -/
def latest (key : String) (rs : List Recorded) : Option Value :=
  ((rs.filter fun r => r.key = key).filterMap
    Recorded.written).getLast?.getD none

/-- A total order of all that has happened and some of what may have, in real
time, in which every read returns the latest value. -/
structure Linearizes (history : List Recorded)
    (order : List (Fin history.length)) : Prop where
  nodup : order.Nodup
  happened : ∀ i ∈ order, (history.get i).failed = false
  acknowledged : ∀ i, (history.get i).acknowledged = true → i ∈ order
  realTime : order.Pairwise fun i j =>
    ¬ (history.get j).Before (history.get i)
  reads : ∀ pre i post, order = pre ++ i :: post →
    ∀ result, (history.get i).op = .read result →
      latest (history.get i).key (pre.map history.get) = result

/-! ## Records as calls -/

namespace Recorded

def action (r : Recorded) : Action :=
  match r.op with
  | .write kind _ _ => .set kind.state
  | .read result => .expect result

def asEntry (r : Recorded) : Entry where
  inv := r.invokedUs
  ret := if r.acknowledged then r.returnedUs else never
  action := r.action
  required := r.acknowledged

theorem entry_eq (r : Recorded) :
    r.entry = if r.failed then none else some r.asEntry := by
  obtain ⟨process, key, op, inv, ret⟩ := r
  cases op with
  | read result => rfl
  | write kind outcome pos => cases outcome <;> rfl

theorem not_failed {r : Recorded} (h : r.acknowledged = true) :
    r.failed = false := by
  obtain ⟨process, key, op, inv, ret⟩ := r
  cases op with
  | read result => rfl
  | write kind outcome pos =>
      cases outcome with
      | ok => rfl
      | fail => cases h
      | unknown => cases h

theorem timed {r : Recorded} (h : r.invokedUs ≤ r.returnedUs) :
    r.asEntry.Timed := by
  cases ha : r.acknowledged with
  | false => exact ⟨by simp [asEntry, ha, le_never], by simp [asEntry, ha]⟩
  | true => exact ⟨by simpa [asEntry, ha] using h, by simp [asEntry, ha]⟩

theorem not_before_iff {r r' : Recorded} :
    ¬ r.Before r' ↔ r'.asEntry.inv ≤ r.asEntry.ret := by
  cases ha : r.acknowledged with
  | false => simp [Before, asEntry, ha, le_never]
  | true => simp [Before, asEntry, ha]

theorem isSome_apply {r : Recorded} {state : Option Value} :
    (r.action.apply state).isSome = true ↔
      ∀ result, r.op = .read result → state = result := by
  cases hop : r.op with
  | write kind outcome pos => simp [action, hop, Action.apply]
  | read result =>
      by_cases hs : state = result
      · simp [action, hop, Action.apply, hs]
      · simp [action, hop, Action.apply, hs]

theorem apply_eq {r : Recorded} {state state' : Option Value}
    (h : r.action.apply state = some state') :
    state' = r.written.getD state := by
  cases hop : r.op with
  | write kind outcome pos =>
      simp only [action, hop, Action.apply] at h
      simp only [written, hop, Option.getD_some]
      exact (Option.some.inj h).symm
  | read result =>
      simp only [action, hop, Action.apply] at h
      simp only [written, hop, Option.getD_none]
      split at h
      · exact (Option.some.inj h).symm
      · cases h

end Recorded

theorem latest_concat (key : String) (rs : List Recorded) (r : Recorded) :
    latest key (rs ++ [r]) = if r.key = key then
      r.written.getD (latest key rs) else latest key rs := by
  by_cases hk : r.key = key
  · rw [if_pos hk, latest, List.filter_append, List.filterMap_append]
    cases hw : r.written with
    | none => simp [hk, hw, latest]
    | some s => simp [hk, hw]
  · rw [if_neg hk, latest, List.filter_append]
    simp [hk, latest]

theorem forall_split_concat {α : Type} {P : List α → α → Prop} {l : List α}
    {a : α} : (∀ pre x post, l ++ [a] = pre ++ x :: post → P pre x) ↔
      (∀ pre x post, l = pre ++ x :: post → P pre x) ∧ P l a := by
  constructor
  · intro h
    refine ⟨fun pre x post hl => h pre x (post ++ [a]) ?_, h l a [] rfl⟩
    rw [hl, List.append_assoc, List.cons_append]
  · rintro ⟨h, ha⟩ pre x post hl
    rcases List.eq_nil_or_concat post with rfl | ⟨post', y, rfl⟩
    · obtain ⟨rfl, heq⟩ := List.append_inj' hl rfl
      cases heq
      exact ha
    · rw [List.concat_eq_append, ← List.cons_append,
        ← List.append_assoc] at hl
      exact h pre x post' (List.append_inj' hl rfl).1

section History

variable {history : List Recorded}
  (htime : ∀ i, (history.get i).asEntry.Timed)

/-- The whole history as calls on a register for each key. -/
def registers : Calls (Fin history.length) ℕ (String → Option Value) :=
  (calls (fun i => (history.get i).asEntry) htime).spread
    fun i => (history.get i).key

theorem run_concat {f : String → Option Value}
    {order : List (Fin history.length)} {i : Fin history.length} :
    (registers htime).run f (order ++ [i]) =
      ((registers htime).run f order).bind fun f' =>
        ((history.get i).action.apply (f' (history.get i).key)).map
          (Function.update f' (history.get i).key) := by
  rw [Calls.run_append]
  congr 1
  funext f'
  rw [Calls.run_cons]
  exact Option.bind_fun_some _

theorem run_latest {order : List (Fin history.length)}
    {f : String → Option Value}
    (h : (registers htime).run (fun _ => none) order = some f) (k : String) :
    f k = latest k (order.map history.get) := by
  induction order using List.reverseRecOn generalizing f k with
  | nil =>
      cases h
      rfl
  | append_singleton order i ih =>
      rw [run_concat] at h
      obtain ⟨f', hf', happ⟩ := Option.bind_eq_some_iff.mp h
      obtain ⟨state', hs, rfl⟩ := Option.map_eq_some_iff.mp happ
      rw [List.map_append, List.map_singleton, latest_concat,
        ← ih hf' k]
      by_cases hk : (history.get i).key = k
      · subst hk
        rw [if_pos rfl, Function.update_self]
        exact Recorded.apply_eq hs
      · rw [if_neg hk, Function.update_of_ne (Ne.symm hk)]

theorem isSome_run_iff (order : List (Fin history.length)) :
    ((registers htime).run (fun _ => none) order).isSome = true ↔
      ∀ pre i post, order = pre ++ i :: post →
        ∀ result, (history.get i).op = .read result →
          latest (history.get i).key (pre.map history.get) = result := by
  induction order using List.reverseRecOn with
  | nil => simp
  | append_singleton order i ih =>
      rw [forall_split_concat (P := fun pre i => ∀ result,
        (history.get i).op = .read result →
          latest (history.get i).key (pre.map history.get) = result),
        ← ih, run_concat]
      cases hrun : (registers htime).run (fun _ => none) order with
      | none => simp
      | some f =>
          rw [← run_latest htime hrun, ← Recorded.isSome_apply]
          simp

theorem linearizes_iff (order : List (Fin history.length)) :
    Linearizes history order ↔ (registers htime).Linearizes
      (fun i => (history.get i).failed = false) (fun _ => none) order := by
  have hreal : (order.Pairwise fun i j =>
      ¬ (history.get j).Before (history.get i)) ↔
      order.Pairwise fun i j =>
        (registers htime).inv i ≤ (registers htime).ret j := by
    refine ⟨fun h => h.imp fun hb => ?_, fun h => h.imp fun hle => ?_⟩
    · exact UInt64.le_iff_toNat_le.mp (Recorded.not_before_iff.mp hb)
    · exact Recorded.not_before_iff.mpr (UInt64.le_iff_toNat_le.mpr hle)
  constructor
  · intro h
    exact ⟨h.nodup, h.happened, fun i _ hr => h.acknowledged i hr,
      hreal.mp h.realTime, (isSome_run_iff htime order).mpr h.reads⟩
  · intro h
    exact ⟨h.nodup, h.only,
      fun i ha => h.all i (Recorded.not_failed ha) ha,
      hreal.mpr h.realTime, (isSome_run_iff htime order).mp h.legal⟩

/-! ## One key -/

def positions (history : List Recorded) (key : String) :
    List (Fin history.length) :=
  (List.finRange history.length).filter fun i =>
    (history.get i).key = key ∧ (history.get i).failed = false

theorem length_positions (history : List Recorded) (key : String) :
    (positions history key).length = (history.filter fun r =>
      r.key = key ∧ r.failed = false).length := by
  conv_rhs => rw [← List.map_get_finRange history]
  rw [List.filter_map, List.length_map]
  rfl

theorem nodup_positions (history : List Recorded) (key : String) :
    (positions history key).Nodup :=
  (List.nodup_finRange _).filter _

theorem filterMap_entry {ι : Type} (g : ι → Recorded) (key : String)
    (l : List ι) :
    ((l.map g).filter fun r => r.key = key).filterMap Recorded.entry =
      (l.filter fun i => (g i).key = key ∧ (g i).failed = false).map
        fun i => (g i).asEntry := by
  induction l with
  | nil => rfl
  | cons i l ih =>
      rw [List.map_cons, List.filter_cons, List.filter_cons]
      by_cases hk : (g i).key = key
      · rw [if_pos (decide_eq_true hk), List.filterMap_cons,
          Recorded.entry_eq, ih]
        cases hf : (g i).failed with
        | true => simp
        | false => simp [hk]
      · rw [if_neg (by simp [hk]), if_neg (by simp [hk]), ih]

theorem entries_eq (history : List Recorded) (key : String) :
    (history.filter fun r => r.key = key).filterMap Recorded.entry =
      (positions history key).map fun i => (history.get i).asEntry := by
  have h := filterMap_entry history.get key (List.finRange history.length)
  rw [List.map_get_finRange] at h
  exact h

theorem undone_zero (key : String) :
    Undone (positions history key) 0#64 = fun i =>
      (history.get i).failed = false ∧ (history.get i).key = key := by
  funext i
  refine propext ⟨?_, ?_⟩
  · rintro ⟨b, hb, -⟩
    obtain ⟨-, hi⟩ := List.mem_filter.mp (List.mem_of_getElem? hb)
    exact (of_decide_eq_true hi).symm
  · intro hi
    have hmem : i ∈ positions history key :=
      List.mem_filter.mpr ⟨List.mem_finRange i, decide_eq_true hi.symm⟩
    obtain ⟨b, hb⟩ := List.mem_iff_getElem?.mp hmem
    exact ⟨b, hb, BitVec.getLsbD_zero⟩

theorem left_zero {ι : Type} (tags : List ι) :
    left tags 0#64 = tags.length := by
  simp [left]

/-- `check_key` decides whether the operations on its key have a
linearization. -/
theorem checkKey_exact {key : String}
    (hsize : (positions history key).length ≤ 63) :
    ∃ v, checkKey (history.filter fun r => r.key = key) = .ok v ∧
      (v = .ok () ↔ ∃ order,
        (calls (fun i => (history.get i).asEntry) htime).Linearizes
          (fun i => (history.get i).failed = false ∧
            (history.get i).key = key) none order) := by
  have hexact := (search_exact htime (nodup_positions history key)
    (by omega) (positions history key).length ∅ 0#64 none
    (left_zero _).le (fun p hp => absurd hp (Finset.notMem_empty p))).1
  rw [Feasible, undone_zero] at hexact
  simp only [checkKey, entries_eq, List.length_map]
  rw [if_neg (by omega), ← hexact]
  cases (search ((positions history key).map
    fun i => (history.get i).asEntry) _ _ ∅ 0#64 none).1 with
  | true => exact ⟨.ok (), rfl, fun _ => rfl, fun _ => rfl⟩
  | false =>
      exact ⟨_, rfl, fun h => (by cases h), fun h => (by cases h)⟩

/-! ## All keys -/

theorem get_byKey (history : List Recorded) (key : String) :
    ((byKey history).get key).getD [] =
      history.filter fun r => r.key = key := by
  induction history using List.reverseRecOn with
  | nil => rfl
  | append_singleton history r ih =>
      rw [byKey, List.foldl_append, List.foldl_cons, List.foldl_nil, ← byKey,
        BTreeMap.get_insert, List.filter_append, ← ih]
      by_cases hk : key = r.key
      · subst hk
        simp
      · simp [hk, Ne.symm hk]

theorem mem_keys_byKey (history : List Recorded) (key : String) :
    key ∈ (byKey history).keys ↔ ∃ r ∈ history, r.key = key := by
  induction history using List.reverseRecOn with
  | nil => simp [byKey, BTreeMap.keys, BTreeMap.empty]
  | append_singleton history r ih =>
      rw [← BTreeMap.mem_keySet] at ih ⊢
      rw [byKey, List.foldl_append, List.foldl_cons, List.foldl_nil, ← byKey,
        BTreeMap.keySet_insert, Finset.mem_insert, ih]
      simp [or_comm, eq_comm]

theorem checkKeys_iff {records : String → List Recorded} {keys : List String}
    {P : String → Prop} (h : ∀ key ∈ keys, ∃ v,
      checkKey (records key) = .ok v ∧ (v = .ok () ↔ P key)) :
    ∃ v, checkKeys records keys = .ok v ∧ (v = .ok () ↔ ∀ key ∈ keys, P key)
    := by
  induction keys with
  | nil => exact ⟨.ok (), rfl, fun _ => List.forall_mem_nil _, fun _ => rfl⟩
  | cons key keys ih =>
      obtain ⟨⟨v, hv, hkey⟩, hrest⟩ := List.forall_mem_cons.mp h
      obtain ⟨v', hv', hkeys⟩ := ih hrest
      rw [checkKeys, hv, List.forall_mem_cons, ← hkey, ← hkeys]
      cases v with
      | error reason =>
          exact ⟨_, rfl, fun hv => (by cases hv), fun hv => (by cases hv.1)⟩
      | ok u => exact ⟨v', hv', fun h => ⟨rfl, h⟩, fun h => h.2⟩

end History

/-- The checker is exact: it accepts a history, whose operations return after
they are invoked and of which no key has more than 63 that have not failed, if
and only if there is a linearization of it. -/
theorem checker_exact (history : List Recorded)
    (htime : ∀ r ∈ history, r.invokedUs ≤ r.returnedUs)
    (hsize : ∀ key, (history.filter fun r =>
      r.key = key ∧ r.failed = false).length ≤ 63) :
    ∃ v, checkLinearizable history = .ok v ∧
      (v = .ok () ↔ ∃ order, Linearizes history order) := by
  have htimed : ∀ i, (history.get i).asEntry.Timed :=
    fun i => Recorded.timed (htime _ (List.get_mem history i))
  have hkeys : ∀ i : Fin history.length, (history.get i).failed = false →
      (history.get i).key ∈ (byKey history).keys := by
    intro i _
    exact (mem_keys_byKey history _).mpr ⟨_, List.get_mem history i, rfl⟩
  have hglobal : (∃ order, Linearizes history order) ↔
      ∀ key ∈ (byKey history).keys, ∃ order,
        (calls (fun i => (history.get i).asEntry) htimed).Linearizes
          (fun i => (history.get i).failed = false ∧
            (history.get i).key = key) none order := by
    rw [exists_congr (linearizes_iff htimed)]
    exact Calls.locality _ (byKey history).nodup_keys hkeys
  rw [hglobal, checkLinearizable]
  refine checkKeys_iff fun key _ => ?_
  rw [get_byKey]
  exact checkKey_exact htimed ((length_positions history key).trans_le
    (hsize key))

/-- Two keys; a write whose outcome is unknown, invoked before one that is
confirmed, and a read in between that has seen it. -/
def overlapping : List Recorded :=
  [⟨0, "a", .write (.put 1) .ok none, 0, 10⟩,
    ⟨1, "a", .write (.put 2) .unknown none, 5, never⟩,
    ⟨2, "b", .write (.put 3) .fail none, 6, 8⟩,
    ⟨3, "b", .read none, 20, 25⟩,
    ⟨2, "a", .read (some 2), 20, 30⟩,
    ⟨0, "a", .write .delete .ok none, 25, 40⟩,
    ⟨2, "a", .read none, 50, 60⟩]

theorem checker_exact_overlapping :
    checkLinearizable overlapping = .ok (.ok ()) ∧
      ∃ order, Linearizes overlapping order := by
  have hok : checkLinearizable overlapping = .ok (.ok ()) := by
    decide +kernel
  have hsize : ∀ key, (overlapping.filter fun r =>
      r.key = key ∧ r.failed = false).length ≤ 63 := fun key =>
    (List.length_filter_le _ _).trans (by decide)
  obtain ⟨v, hv, hiff⟩ := checker_exact overlapping (by decide) hsize
  rw [hok] at hv
  cases hv
  exact ⟨hok, hiff.mp rfl⟩

end RustKV.Lin
