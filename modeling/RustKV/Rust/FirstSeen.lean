import Mathlib.Logic.Function.Basic
import Mathlib.Data.List.Basic

/-!
# Keeping the first value of each key

A map that is only ever filled where it is empty holds, for each key, the
first value it was offered. That is enough to tell whether all values offered
for a key were the same: a later value that differs from any earlier one
differs from the first, or the earlier one did.
-/

namespace Rust

variable {α β : Type} {l : List (α × β)} {k : α} {v w : β}

/-- No key is listed with two values. -/
def Agree (l : List (α × β)) : Prop :=
  ∀ x ∈ l, ∀ y ∈ l, x.1 = y.1 → x.2 = y.2

theorem Agree.nil : Agree ([] : List (α × β)) :=
  fun _ hx => absurd hx List.not_mem_nil

theorem agree_congr {l' : List (α × β)} (h : l.Perm l') :
    Agree l ↔ Agree l' := by
  simp only [Agree, h.mem_iff]

variable [DecidableEq α]

/-- The first value listed for a key. -/
def firstSeen (l : List (α × β)) (k : α) : Option β :=
  (l.find? fun x => x.1 = k).map Prod.snd

theorem mem_of_firstSeen (h : firstSeen l k = some v) : (k, v) ∈ l := by
  obtain ⟨x, hx, rfl⟩ := Option.map_eq_some_iff.mp h
  have hk : x.1 = k := by simpa using List.find?_some hx
  subst hk
  exact List.mem_of_find?_eq_some hx

theorem firstSeen_eq_none (h : firstSeen l k = none) :
    ∀ x ∈ l, x.1 ≠ k := by
  intro x hx hk
  rw [firstSeen, Option.map_eq_none_iff, List.find?_eq_none] at h
  exact h x hx (decide_eq_true hk)

theorem firstSeen_concat_of_none (h : firstSeen l k = none) :
    firstSeen (l ++ [(k, v)]) = Function.update (firstSeen l) k (some v) := by
  funext a
  rw [firstSeen, List.find?_append, Option.map_or]
  show (firstSeen l a).or _ = _
  by_cases ha : a = k
  · subst ha
    rw [h, Function.update_self]
    simp
  · have ha' : ¬ k = a := fun hk => ha hk.symm
    rw [Function.update_of_ne ha]
    simp [ha']

theorem firstSeen_concat_of_some (h : firstSeen l k = some w) :
    firstSeen (l ++ [(k, v)]) = firstSeen l := by
  funext a
  rw [firstSeen, List.find?_append, Option.map_or]
  show (firstSeen l a).or _ = _
  by_cases ha : a = k
  · subst ha
    rw [h]
    rfl
  · have ha' : ¬ k = a := fun hk => ha hk.symm
    simp [ha']

/-- One more pair agrees with the rest if it agrees with the first of its
key. -/
theorem agree_concat :
    Agree (l ++ [(k, v)]) ↔
      Agree l ∧ ∀ w, firstSeen l k = some w → w = v := by
  constructor
  · intro h
    refine ⟨fun x hx y hy => h x (by simp [hx]) y (by simp [hy]), ?_⟩
    intro w hw
    exact h (k, w) (by simp [mem_of_firstSeen hw]) (k, v) (by simp) rfl
  · rintro ⟨ha, hfirst⟩
    -- the new pair against an old one: both against the first of the key
    have hnew : ∀ x ∈ l, x.1 = k → x.2 = v := by
      intro x hx hk
      cases hw : firstSeen l k with
      | none => exact absurd hk (firstSeen_eq_none hw x hx)
      | some w =>
          have hxw := ha x hx (k, w) (mem_of_firstSeen hw) hk
          exact hxw.trans (hfirst w hw)
    intro x hx y hy hxy
    simp only [List.mem_append, List.mem_singleton] at hx hy
    rcases hx with hx | rfl <;> rcases hy with hy | rfl
    · exact ha x hx y hy hxy
    · exact hnew x hx hxy
    · exact (hnew y hy hxy.symm).symm
    · rfl

theorem agree_concat_of_none (h : firstSeen l k = none) :
    Agree (l ++ [(k, v)]) ↔ Agree l := by
  rw [agree_concat, h]
  simp

theorem agree_concat_of_some (h : firstSeen l k = some w) :
    Agree (l ++ [(k, v)]) ↔ Agree l ∧ w = v := by
  rw [agree_concat, h]
  simp

end Rust
