import Mathlib.Data.Finset.Insert

/-!
# Runs

Systems that go from state to state by partial, fallible steps, each of them
some choice of a scheduler's. A finite list of choices that can all be made is
a run that repeats a last, idle choice for ever (`step_trail`). If every step
of one system can be answered by a step of another, whole runs can
(`exists_lockstep`). And what can be done for one after the other can be done
for any finite number (`exists_sweep`).
-/

namespace Rust

section Schedules

variable {σ α ε π : Type} (step : σ → α → Option (Except π (σ × ε)))
  (idle : α) (none : ε)

/-- One choice made, if it can be. -/
def next (s : σ) (a : α) : σ × ε :=
  match step s a with
  | some (.ok r) => r
  | _ => (s, none)

/-- The state after the first `i` choices of a list. -/
def trail (s : σ) (acts : List α) : ℕ → σ
  | 0 => s
  | i + 1 => (next step none (trail s acts i) (acts.getD i idle)).1

/-- Whether all choices of a list can be made, one after the other. -/
def plays (s : σ) : List α → Bool
  | [] => true
  | a :: rest =>
      match step s a with
      | some (.ok (s', _)) => plays s' rest
      | _ => false

variable {step idle none}

theorem trail_cons (s : σ) (a : α) (rest : List α) (i : ℕ) :
    trail step idle none s (a :: rest) (i + 1) =
      trail step idle none (next step none s a).1 rest i := by
  induction i with
  | zero => rfl
  | succ i ih =>
      rw [trail, ih, trail]
      rfl

theorem step_trail (hidle : ∀ s, step s idle = some (.ok (s, none)))
    {s : σ} {acts : List α} (h : plays step s acts = true) (i : ℕ) :
    step (trail step idle none s acts i) (acts.getD i idle) =
      some (.ok (next step none (trail step idle none s acts i)
        (acts.getD i idle))) := by
  induction acts generalizing s i with
  | nil =>
      have hd : ([] : List α).getD i idle = idle := rfl
      rw [hd, next, hidle]
  | cons a rest ih =>
      rw [plays] at h
      split at h
      · next s' eff hs =>
          have hnext : next step none s a = (s', eff) := by rw [next, hs]
          cases i with
          | zero =>
              simp only [trail, List.getD_cons_zero]
              rw [hs, hnext]
          | succ i =>
              rw [trail_cons, hnext, List.getD_cons_succ]
              exact ih h i
      · cases h

end Schedules

/-- `Match i` says which states of the answering system fit the `i`-th state of
the given run, and `Next i` what an answer to its `i`-th step is. -/
theorem exists_lockstep {α : Type} (First : α → Prop) (Match : ℕ → α → Prop)
    (Next : ℕ → α → α → Prop) (hfirst : ∃ a, First a ∧ Match 0 a)
    (hnext : ∀ i a, Match i a → ∃ b, Next i a b ∧ Match (i + 1) b) :
    ∃ f : ℕ → α, First (f 0) ∧ (∀ i, Match i (f i)) ∧
      ∀ i, Next i (f i) (f (i + 1)) := by
  classical
  obtain ⟨a, ha, hm⟩ := hfirst
  -- the state so far, together with the fact that it fits
  let State (i : ℕ) := { a : α // Match i a }
  let later (i : ℕ) (s : State i) : State (i + 1) :=
    ⟨(hnext i s.1 s.2).choose, (hnext i s.1 s.2).choose_spec.2⟩
  let all (i : ℕ) : State i := Nat.rec (motive := State) ⟨a, hm⟩ later i
  exact ⟨fun i => (all i).1, ha, fun i => (all i).2,
    fun i => (hnext i (all i).1 (all i).2).choose_spec.1⟩

theorem exists_sweep {σ ι : Type} [DecidableEq ι] (Reach : σ → σ → Prop)
    (hrefl : ∀ s, Reach s s)
    (htrans : ∀ s s₁ s', Reach s s₁ → Reach s₁ s' → Reach s s')
    {Inv : Finset ι → σ → Prop} (all : Finset ι)
    (hvisit : ∀ i ∈ all, ∀ done s, i ∉ done → Inv done s →
      ∃ s', Reach s s' ∧ Inv (insert i done) s')
    {s : σ} (hs : Inv ∅ s) : ∃ s', Reach s s' ∧ Inv all s' := by
  induction all using Finset.induction_on with
  | empty => exact ⟨s, hrefl s, hs⟩
  | insert i rest hi ih =>
      obtain ⟨s₁, h₁, hs₁⟩ := ih fun j hj =>
        hvisit j (Finset.mem_insert_of_mem hj)
      obtain ⟨s', h', hs'⟩ :=
        hvisit i (Finset.mem_insert_self i rest) rest s₁ hi hs₁
      exact ⟨s', htrans _ _ _ h₁ h', hs'⟩

end Rust
