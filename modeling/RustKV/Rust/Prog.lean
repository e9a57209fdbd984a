import Mathlib.Logic.Basic

/-!
# Programs that read, write and may panic

A method on `&mut self` that can hit an `expect`, an `assert!` or a checked
subtraction is a state transformer that may fail. `wp x Q s` says that `x`,
started in `s`, does not fail and ends with `Q`: total correctness, so a
specification in this form is at once a proof that no panic is reachable.

`wlp x Q s` says less: wherever `x` ends, it ends with `Q`. That is the form
for what a program can do, once it is known not to panic.

The rules below are the ones the proofs walk a method body with, one per
way of writing a program; `wp_mono` and `wlp_mono` are how a caller uses the
specification of what it calls.
-/

namespace Rust

variable {ε σ α β : Type}

/-- A computation on a state `σ` that may panic with an `ε`. -/
abbrev Prog (ε σ α : Type) := StateT σ (Except ε) α

namespace Prog

def panicWith (e : ε) : Prog ε σ α := fun _ => .error e

/-- `expect` on a result: its value, or a panic. -/
def expect (r : Except β α) (e : β → ε) : Prog ε σ α := fun s =>
  match r with
  | .ok a => .ok (a, s)
  | .error b => .error (e b)

/-- `expect` on an option. -/
def unwrap (r : Option α) (e : ε) : Prog ε σ α := fun s =>
  match r with
  | some a => .ok (a, s)
  | none => .error e

/-- `x` from `s` ends without a panic, in a result and a state that `Q`
accepts. -/
def wp (x : Prog ε σ α) (Q : α → σ → Prop) (s : σ) : Prop :=
  match x s with
  | .ok (a, s') => Q a s'
  | .error _ => False

theorem wp_iff {x : Prog ε σ α} {Q : α → σ → Prop} {s : σ} :
    wp x Q s ↔ ∃ a s', x s = .ok (a, s') ∧ Q a s' := by
  unfold wp
  constructor
  · intro h
    split at h
    · next a s' hx => exact ⟨a, s', hx, h⟩
    · exact h.elim
  · rintro ⟨a, s', hx, hQ⟩
    rw [hx]
    exact hQ

theorem wp_mono {x : Prog ε σ α} {Q Q' : α → σ → Prop} {s : σ}
    (h : wp x Q s) (hQ : ∀ a s', Q a s' → Q' a s') : wp x Q' s := by
  obtain ⟨a, s', hx, hq⟩ := wp_iff.mp h
  exact wp_iff.mpr ⟨a, s', hx, hQ a s' hq⟩

@[simp] theorem wp_pure {a : α} {Q : α → σ → Prop} {s : σ} :
    wp (pure a : Prog ε σ α) Q s ↔ Q a s := Iff.rfl

@[simp] theorem wp_bind {x : Prog ε σ α} {f : α → Prog ε σ β}
    {Q : β → σ → Prop} {s : σ} :
    wp (x >>= f) Q s ↔ wp x (fun a s' => wp (f a) Q s') s := by
  unfold wp
  simp only [bind, StateT.bind, Except.bind]
  cases x s with
  | error e => rfl
  | ok p => rfl

theorem bind_of_ok {x : Prog ε σ α} {f : α → Prog ε σ β} {a : α} {s s' : σ}
    (h : x s = .ok (a, s')) : (x >>= f) s = f a s' := by
  simp only [bind, StateT.bind, Except.bind, h]

@[simp] theorem wp_get {Q : σ → σ → Prop} {s : σ} :
    wp (get : Prog ε σ σ) Q s ↔ Q s s := Iff.rfl

@[simp] theorem wp_set {s s' : σ} {Q : PUnit → σ → Prop} :
    wp (set s' : Prog ε σ PUnit) Q s ↔ Q ⟨⟩ s' := Iff.rfl

@[simp] theorem wp_modify {f : σ → σ} {Q : PUnit → σ → Prop} {s : σ} :
    wp (modify f : Prog ε σ PUnit) Q s ↔ Q ⟨⟩ (f s) := Iff.rfl

@[simp] theorem wp_panicWith {e : ε} {Q : α → σ → Prop} {s : σ} :
    wp (panicWith e : Prog ε σ α) Q s ↔ False := Iff.rfl

theorem wp_expect {r : Except β α} {e : β → ε} {a : α} (h : r = .ok a)
    {Q : α → σ → Prop} {s : σ} :
    wp (expect r e : Prog ε σ α) Q s ↔ Q a s := by
  subst h
  exact Iff.rfl

theorem wp_unwrap {r : Option α} {e : ε} {a : α} (h : r = some a)
    {Q : α → σ → Prop} {s : σ} :
    wp (unwrap r e : Prog ε σ α) Q s ↔ Q a s := by
  subst h
  exact Iff.rfl

theorem wp_ite {c : Prop} [Decidable c] {x y : Prog ε σ α}
    {Q : α → σ → Prop} {s : σ} :
    wp (if c then x else y) Q s ↔
      (c → wp x Q s) ∧ (¬ c → wp y Q s) := by
  split
  · next h => exact ⟨fun hx => ⟨fun _ => hx, fun hc => absurd h hc⟩,
      fun hx => hx.1 h⟩
  · next h => exact ⟨fun hx => ⟨fun hc => absurd hc h, fun _ => hx⟩,
      fun hx => hx.2 h⟩

/-! ## Partial correctness -/

/-- Wherever `x` from `s` ends without a panic, `Q` accepts the result and
the state. -/
def wlp (x : Prog ε σ α) (Q : α → σ → Prop) (s : σ) : Prop :=
  ∀ a s', x s = .ok (a, s') → Q a s'

theorem wlp_mono {x : Prog ε σ α} {Q Q' : α → σ → Prop} {s : σ}
    (h : wlp x Q s) (hQ : ∀ a s', Q a s' → Q' a s') : wlp x Q' s :=
  fun a s' hx => hQ a s' (h a s' hx)

theorem wlp_and {x : Prog ε σ α} {Q Q' : α → σ → Prop} {s : σ}
    (h : wlp x Q s) (h' : wlp x Q' s) : wlp x (fun a t => Q a t ∧ Q' a t) s :=
  fun a s' hx => ⟨h a s' hx, h' a s' hx⟩

/-- Together they give total correctness. -/
theorem wlp.wp {x : Prog ε σ α} {Q Q' : α → σ → Prop} {s : σ}
    (h : wlp x Q s) (ht : Prog.wp x Q' s) : Prog.wp x Q s := by
  obtain ⟨a, s', hx, -⟩ := wp_iff.mp ht
  exact wp_iff.mpr ⟨a, s', hx, h a s' hx⟩

theorem wp.wlp {x : Prog ε σ α} {Q : α → σ → Prop} {s : σ}
    (h : Prog.wp x Q s) : Prog.wlp x Q s := by
  intro a s' hx
  rwa [Prog.wp, hx] at h

@[simp] theorem wlp_pure {a : α} {Q : α → σ → Prop} {s : σ} :
    wlp (pure a : Prog ε σ α) Q s ↔ Q a s := by
  constructor
  · intro h
    exact h a s rfl
  · intro h a' s' hx
    cases hx
    exact h

@[simp] theorem wlp_bind {x : Prog ε σ α} {f : α → Prog ε σ β}
    {Q : β → σ → Prop} {s : σ} :
    wlp (x >>= f) Q s ↔ wlp x (fun a s' => wlp (f a) Q s') s := by
  unfold wlp
  simp only [bind, StateT.bind, Except.bind]
  cases x s with
  | error e =>
      constructor
      · intro _ a s' hx
        cases hx
      · intro _ b s' hx
        cases hx
  | ok p =>
      constructor
      · intro h a s' hx
        cases hx
        exact h
      · intro h
        exact h p.1 p.2 rfl

@[simp] theorem wlp_modify {f : σ → σ} {Q : PUnit → σ → Prop} {s : σ} :
    wlp (modify f : Prog ε σ PUnit) Q s ↔ Q ⟨⟩ (f s) :=
  wlp_pure (a := PUnit.unit)

@[simp] theorem wlp_panicWith {e : ε} {Q : α → σ → Prop} {s : σ} :
    wlp (panicWith e : Prog ε σ α) Q s ↔ True :=
  ⟨fun _ => trivial, fun _ a s' hx => by cases hx⟩

@[simp] theorem wlp_throw {e : ε} {Q : α → σ → Prop} {s : σ} :
    wlp (throw e : Prog ε σ α) Q s ↔ True :=
  wlp_panicWith

@[simp] theorem wlp_expect {r : Except β α} {e : β → ε}
    {Q : α → σ → Prop} {s : σ} :
    wlp (expect r e : Prog ε σ α) Q s ↔ ∀ a, r = .ok a → Q a s := by
  unfold wlp expect
  cases r with
  | error b =>
      constructor
      · intro _ a hx
        cases hx
      · intro _ a s' hx
        cases hx
  | ok a =>
      constructor
      · intro h a' hx
        cases hx
        exact h a s rfl
      · intro h a' s' hx
        cases hx
        exact h a rfl

@[simp] theorem wlp_unwrap {r : Option α} {e : ε} {Q : α → σ → Prop}
    {s : σ} :
    wlp (unwrap r e : Prog ε σ α) Q s ↔ ∀ a, r = some a → Q a s := by
  unfold wlp unwrap
  cases r with
  | none =>
      constructor
      · intro _ a hx
        cases hx
      · intro _ a s' hx
        cases hx
  | some a =>
      constructor
      · intro h a' hx
        cases hx
        exact h a s rfl
      · intro h a' s' hx
        cases hx
        exact h a rfl

theorem wlp_ite {c : Prop} [Decidable c] {x y : Prog ε σ α}
    {Q : α → σ → Prop} {s : σ} :
    wlp (if c then x else y) Q s ↔
      (c → wlp x Q s) ∧ (¬ c → wlp y Q s) := by
  split
  · next h => exact ⟨fun hx => ⟨fun _ => hx, fun hc => absurd h hc⟩,
      fun hx => hx.1 h⟩
  · next h => exact ⟨fun hx => ⟨fun hc => absurd hc h, fun _ => hx⟩,
      fun hx => hx.2 h⟩

end Prog

end Rust
