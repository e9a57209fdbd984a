import Mathlib.Data.Finset.Dedup
import Mathlib.Data.Finset.Card
import Mathlib.Order.Defs.LinearOrder

/-!
# `std::collections::BTreeMap`

An ordered map as the list of its bindings in key order. Iteration follows
that list, so whatever a program reads off a map by iterating it comes out
in the order the real one delivers. The order is part of the type: a map
with a key out of place, or bound twice, cannot be built.

What a quorum argument wants of a map is its set of keys, `keySet`; the
lemmas below say how each operation moves it.
-/

namespace Rust

variable {α β γ : Type} [LinearOrder α]

/-- A map as its bindings in strictly increasing key order. -/
structure BTreeMap (α β : Type) [LinearOrder α] where
  entries : List (α × β)
  sorted : (entries.map Prod.fst).Pairwise (· < ·)

namespace BTreeMap

@[ext] theorem ext {m m' : BTreeMap α β} (h : m.entries = m'.entries) :
    m = m' := by
  cases m
  cases m'
  simpa using h

instance [DecidableEq β] : DecidableEq (BTreeMap α β) := fun m m' =>
  decidable_of_iff (m.entries = m'.entries)
    ⟨ext, fun h => congrArg entries h⟩

def empty : BTreeMap α β := ⟨[], List.Pairwise.nil⟩

instance : Inhabited (BTreeMap α β) := ⟨empty⟩

def keys (m : BTreeMap α β) : List α := m.entries.map Prod.fst

def keySet (m : BTreeMap α β) : Finset α := m.keys.toFinset

def len (m : BTreeMap α β) : Nat := m.entries.length

def isEmpty (m : BTreeMap α β) : Bool := m.entries.isEmpty

def get (m : BTreeMap α β) (k : α) : Option β :=
  (m.entries.find? fun x => x.1 = k).map Prod.snd

def containsKey (m : BTreeMap α β) (k : α) : Bool := k ∈ m.keys

/-- The bindings with `k` bound to `v`, in their place. -/
def insertList (k : α) (v : β) : List (α × β) → List (α × β)
  | [] => [(k, v)]
  | x :: rest =>
      if k < x.1 then (k, v) :: x :: rest
      else if k = x.1 then (k, v) :: rest
      else x :: insertList k v rest

theorem mem_insertList {k : α} {v : β} {l : List (α × β)} {a : α}
    (h : a ∈ (insertList k v l).map Prod.fst) :
    a = k ∨ a ∈ l.map Prod.fst := by
  induction l with
  | nil => simpa [insertList] using h
  | cons x rest ih =>
      rw [insertList] at h
      split at h
      · simpa using h
      · split at h
        · next hk =>
            simp only [List.map_cons, List.mem_cons] at h ⊢
            tauto
        · simp only [List.map_cons, List.mem_cons] at h ⊢
          rcases h with h | h
          · exact .inr (.inl h)
          · rcases ih h with h | h
            · exact .inl h
            · exact .inr (.inr h)

theorem mem_insertList_self {k : α} {v : β} (l : List (α × β)) :
    k ∈ (insertList k v l).map Prod.fst := by
  induction l with
  | nil => simp [insertList]
  | cons x rest ih =>
      rw [insertList]
      split
      · simp
      · split
        · simp
        · exact List.mem_cons_of_mem _ ih

theorem mem_insertList_of_mem {k : α} {v : β} {l : List (α × β)} {a : α}
    (h : a ∈ l.map Prod.fst) : a ∈ (insertList k v l).map Prod.fst := by
  induction l with
  | nil => simp at h
  | cons x rest ih =>
      rw [insertList]
      split
      · exact List.mem_cons_of_mem _ h
      · split
        · next hk =>
            simp only [List.map_cons, List.mem_cons] at h ⊢
            rcases h with h | h
            · exact .inl (h.trans hk.symm)
            · exact .inr h
        · simp only [List.map_cons, List.mem_cons] at h ⊢
          rcases h with h | h
          · exact .inl h
          · exact .inr (ih h)

theorem insertList_sorted {k : α} {v : β} {l : List (α × β)}
    (h : (l.map Prod.fst).Pairwise (· < ·)) :
    ((insertList k v l).map Prod.fst).Pairwise (· < ·) := by
  induction l with
  | nil => simp [insertList]
  | cons x rest ih =>
      rw [List.map_cons, List.pairwise_cons] at h
      rw [insertList]
      split
      · next hk =>
          simp only [List.map_cons, List.pairwise_cons, List.mem_cons]
          refine ⟨?_, h⟩
          rintro a (rfl | ha)
          · exact hk
          · exact hk.trans (h.1 a ha)
      · split
        · next hk =>
            subst hk
            simp only [List.map_cons, List.pairwise_cons]
            exact h
        · next hlt hne =>
            simp only [List.map_cons, List.pairwise_cons]
            refine ⟨fun a ha => ?_, ih h.2⟩
            rcases mem_insertList ha with rfl | ha
            · exact lt_of_le_of_ne (not_lt.mp hlt) (Ne.symm hne)
            · exact h.1 a ha

def insert (m : BTreeMap α β) (k : α) (v : β) : BTreeMap α β :=
  ⟨insertList k v m.entries, insertList_sorted m.sorted⟩

/-- `retain`: the bindings that satisfy `p`. -/
def retain (m : BTreeMap α β) (p : α → β → Bool) : BTreeMap α β :=
  ⟨m.entries.filter fun x => p x.1 x.2,
    m.sorted.sublist (List.filter_sublist.map Prod.fst)⟩

def remove (m : BTreeMap α β) (k : α) : BTreeMap α β :=
  m.retain fun a _ => a ≠ k

/-- `collect` from an iterator: later bindings win. -/
def collect (l : List (α × β)) : BTreeMap α β :=
  l.foldl (fun m x => m.insert x.1 x.2) empty

def mapValues (m : BTreeMap α β) (f : β → γ) : BTreeMap α γ :=
  ⟨m.entries.map fun x => (x.1, f x.2), by
    simpa [List.map_map, Function.comp_def] using m.sorted⟩

/-! ## The set of keys -/

theorem nodup_keys (m : BTreeMap α β) : m.keys.Nodup :=
  m.sorted.imp fun h => ne_of_lt h

theorem mem_keySet {m : BTreeMap α β} {k : α} :
    k ∈ m.keySet ↔ k ∈ m.keys := List.mem_toFinset

@[simp] theorem containsKey_iff {m : BTreeMap α β} {k : α} :
    m.containsKey k = true ↔ k ∈ m.keySet := by
  simp [containsKey, mem_keySet]

theorem card_keySet (m : BTreeMap α β) : m.keySet.card = m.len := by
  rw [keySet, List.toFinset_card_of_nodup m.nodup_keys, keys, List.length_map,
    len]

@[simp] theorem keySet_empty : (empty : BTreeMap α β).keySet = ∅ := rfl

theorem isEmpty_iff {m : BTreeMap α β} : m.isEmpty = true ↔ m.keySet = ∅ := by
  rw [← Finset.card_eq_zero, card_keySet, len, isEmpty,
    List.isEmpty_iff_length_eq_zero]

@[simp] theorem keySet_insert (m : BTreeMap α β) (k : α) (v : β) :
    (m.insert k v).keySet = Insert.insert k m.keySet := by
  ext a
  rw [Finset.mem_insert, mem_keySet, mem_keySet]
  constructor
  · exact mem_insertList
  · rintro (rfl | h)
    · exact mem_insertList_self _
    · exact mem_insertList_of_mem h

theorem keySet_collect (l : List (α × β)) :
    (collect l).keySet = (l.map Prod.fst).toFinset := by
  have hgen : ∀ (l : List (α × β)) (m : BTreeMap α β),
      (l.foldl (fun m x => m.insert x.1 x.2) m).keySet =
        m.keySet ∪ (l.map Prod.fst).toFinset := by
    intro l
    induction l with
    | nil => intro m; simp
    | cons x rest ih =>
        intro m
        rw [List.foldl_cons, ih, keySet_insert]
        ext a
        simp only [Finset.mem_union, Finset.mem_insert, List.map_cons,
          List.toFinset_cons]
        tauto
  rw [collect, hgen, keySet_empty, Finset.empty_union]

theorem length_keys_filter (m : BTreeMap α β) (p : α → Bool) :
    (m.keys.filter p).length = (m.keySet.filter fun a => p a).card := by
  rw [← List.toFinset_card_of_nodup (m.nodup_keys.filter p),
    List.toFinset_filter, keySet]

/-! ## Lookups -/

theorem mem_entries_iff {m : BTreeMap α β} {k : α} {v : β} :
    (k, v) ∈ m.entries ↔ m.get k = some v := by
  rw [get, Option.map_eq_some_iff]
  constructor
  · intro h
    cases hf : m.entries.find? fun x => x.1 = k with
    | none =>
        exact absurd (by simp) (List.find?_eq_none.mp hf _ h)
    | some x =>
        have hx : x = (k, v) := List.inj_on_of_nodup_map m.nodup_keys
          (List.mem_of_find?_eq_some hf) h
          (by simpa using List.find?_some hf)
        exact ⟨x, rfl, by rw [hx]⟩
  · rintro ⟨x, hf, rfl⟩
    have hk : x.1 = k := by simpa using List.find?_some hf
    rw [← hk]
    exact List.mem_of_find?_eq_some hf

/-- A map is what it answers. -/
theorem ext_get {m m' : BTreeMap α β} (h : ∀ k, m.get k = m'.get k) :
    m = m' := by
  have hsorted : ∀ m : BTreeMap α β,
      m.entries.Pairwise fun x y => x.1 < y.1 := fun m =>
    List.pairwise_map.mp m.sorted
  have hnodup : ∀ m : BTreeMap α β, m.entries.Nodup := fun m =>
    List.Nodup.of_map _ m.nodup_keys
  have hasymm : ∀ x y : α × β, x.1 < y.1 → y.1 < x.1 → x = y :=
    fun x y hxy hyx => absurd hxy (lt_asymm hyx)
  apply ext
  refine List.Perm.eq_of_pairwise (fun x y _ _ => hasymm x y) (hsorted m)
    (hsorted m') ?_
  rw [List.perm_ext_iff_of_nodup (hnodup m) (hnodup m')]
  rintro ⟨k, v⟩
  rw [mem_entries_iff, mem_entries_iff, h]

theorem get_insert (m : BTreeMap α β) (k : α) (v : β) (a : α) :
    (m.insert k v).get a = if a = k then some v else m.get a := by
  have hlist : ∀ l : List (α × β),
      ((insertList k v l).find? fun x => x.1 = a).map Prod.snd =
        if a = k then some v
        else (l.find? fun x => x.1 = a).map Prod.snd := by
    intro l
    induction l with
    | nil => by_cases h : k = a <;> simp [insertList, h, eq_comm]
    | cons x rest ih =>
        rw [insertList]
        by_cases h : a = k
        · subst h
          rw [if_pos rfl] at ih ⊢
          split
          · simp
          · split
            · simp
            · next hne =>
                rw [List.find?_cons_of_neg (by simpa using Ne.symm hne), ih]
        · rw [if_neg h] at ih ⊢
          have hk : ¬ k = a := fun hka => h hka.symm
          split
          · rw [List.find?_cons_of_neg (by simpa using hk)]
          · split
            · next heq =>
                rw [List.find?_cons_of_neg (by simpa using hk),
                  List.find?_cons_of_neg (by simpa [← heq] using hk)]
            · rw [List.find?_cons, List.find?_cons]
              split
              · rfl
              · exact ih
  exact hlist m.entries

theorem get_remove (m : BTreeMap α β) (k a : α) :
    (m.remove k).get a = if a = k then none else m.get a := by
  rw [get, get, remove, retain, List.find?_filter]
  by_cases h : a = k
  · rw [if_pos h, Option.map_eq_none_iff, List.find?_eq_none]
    simp [h]
  · rw [if_neg h]
    congr 2
    funext x
    by_cases hx : x.1 = a <;> simp [hx, h]

theorem get_eq_none_iff {m : BTreeMap α β} {k : α} :
    m.get k = none ↔ k ∉ m.keySet := by
  rw [get, Option.map_eq_none_iff, List.find?_eq_none, mem_keySet, keys,
    List.mem_map]
  constructor
  · rintro h ⟨x, hx, rfl⟩
    exact h x hx (decide_eq_true rfl)
  · intro h x hx hk
    exact h ⟨x, hx, of_decide_eq_true hk⟩

theorem mem_keySet_of_get {m : BTreeMap α β} {k : α} {v : β}
    (h : m.get k = some v) : k ∈ m.keySet := by
  by_contra hk
  rw [get_eq_none_iff.mpr hk] at h
  cases h

theorem get_retain (m : BTreeMap α β) (p : α → β → Bool) (a : α) :
    (m.retain p).get a = (m.get a).filter (p a) := by
  refine Option.ext fun v => ?_
  rw [← mem_entries_iff, retain, List.mem_filter, mem_entries_iff,
    Option.filter_eq_some_iff]

/-- The bindings of `es` whose keys satisfy `p`, put over those of `m`. -/
theorem get_foldl_insert (f : γ → β) (p : α → Prop) [DecidablePred p]
    {es : List (α × γ)} (hes : (es.map Prod.fst).Nodup) (m : BTreeMap α β)
    (a : α) :
    (es.foldl (fun m x => if p x.1 then m.insert x.1 (f x.2) else m) m).get a =
      if p a then
        (((es.find? fun x => x.1 = a).map Prod.snd).map f).or (m.get a)
      else m.get a := by
  induction es generalizing m with
  | nil => simp
  | cons x rest ih =>
      rw [List.map_cons, List.nodup_cons] at hes
      rw [List.foldl_cons, ih hes.2]
      by_cases hx : x.1 = a
      · subst hx
        have hnone : (rest.find? fun y => y.1 = x.1) = none := by
          rw [List.find?_eq_none]
          intro y hy hyx
          exact hes.1 (List.mem_map.mpr ⟨y, hy, of_decide_eq_true hyx⟩)
        by_cases hp : p x.1 <;> simp [hnone, hp, get_insert]
      · have hsame : (if p x.1 then m.insert x.1 (f x.2) else m).get a =
            m.get a := by
          split
          · rw [get_insert, if_neg fun h => hx h.symm]
          · rfl
        rw [hsame, List.find?_cons_of_neg (by simpa using hx)]

theorem eq_empty_of_isEmpty {m : BTreeMap α β} (h : m.isEmpty = true) :
    m = empty := ext (List.isEmpty_iff.mp h)

theorem insert_eq_insert_iff {m m' : BTreeMap α β} {k : α} {v : β} :
    m.insert k v = m'.insert k v ↔ ∀ a, a ≠ k → m.get a = m'.get a := by
  constructor
  · intro h a ha
    have := congrArg (fun m => m.get a) h
    simpa only [get_insert, if_neg ha] using this
  · intro h
    refine ext_get fun a => ?_
    rw [get_insert, get_insert]
    split
    · rfl
    · next ha => exact h a ha

theorem remove_eq_remove_iff {m m' : BTreeMap α β} {k : α} :
    m.remove k = m'.remove k ↔ ∀ a, a ≠ k → m.get a = m'.get a := by
  constructor
  · intro h a ha
    have := congrArg (fun m => m.get a) h
    simpa only [get_remove, if_neg ha] using this
  · intro h
    refine ext_get fun a => ?_
    rw [get_remove, get_remove]
    split
    · rfl
    · next ha => exact h a ha

end BTreeMap

end Rust
