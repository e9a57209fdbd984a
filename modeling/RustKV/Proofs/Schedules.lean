import RustKV.Proofs.Leaders
import RustKV.Rust.Lockstep

/-!
# Schedules

What can still be made of a run. In a cluster that a run gets to, an event
that is possible happens, and does what its handler does: no handler panics.
So any finite schedule from there on can be appended to the run.

`Path` is a schedule of messages among the nodes of a set `Q`, all at one
clock reading. `Goes` is one of messages and timers, with the time. The model
has no deadlines: a timer is drawn anew, up to `election_timeout_max` ahead,
whenever a node votes, follows or campaigns, and may then fire late but never
early. So a schedule lets a timer fire only if nothing at all has happened for
some time `w`; as long as no timer is set further ahead than `w`, its deadline
is past.
-/

namespace RustKV

open Rust Prog NodeM Consensus

variable {V : Type} {M : StateMachine V} {D : Deployment}
  {c c₁ c' : Cluster M} {Q : Finset NodeId} {w : Duration}
  {now now₁ now' : Instant} {n p : NodeId}

def Action.isTimer : Action V → Bool
  | .timeout _ _ => true
  | .heartbeat _ _ => true
  | _ => false

def Action.isMessage : Action V → Bool
  | .deliver _ _ => true
  | .reply _ _ => true
  | _ => false

def Cluster.Reached (D : Deployment) (c : Cluster M) : Prop :=
  ∃ (run : Run D M) (k : ℕ), run.state k = c

/-- From `c` to `c'` by messages among nodes of `Q`, at reading `now`. -/
inductive Cluster.Path (Q : Finset NodeId) (now : Instant) :
    Cluster M → Cluster M → Prop
  | refl (c : Cluster M) : Path Q now c c
  | step {c c₁ c' : Cluster M} {a : Action V} {eff : Effect M}
      (h : c.step a = some (.ok (c₁, eff))) (hn : eff.node ∈ Q)
      (ha : a.isMessage = true) (hnow : a.now? = some now)
      (rest : Path Q now c₁ c') : Path Q now c c'

theorem Cluster.Path.trans (h : c.Path Q now c₁) (h' : c₁.Path Q now c') :
    c.Path Q now c' := by
  induction h with
  | refl => exact h'
  | step hs hn ha hnow _ ih => exact .step hs hn ha hnow (ih h')

/-- From `c` at reading `now` to `c'` at `now'`, by messages and timers of
nodes of `Q`. A timer takes a pause of `w`. -/
inductive Cluster.Goes (Q : Finset NodeId) (w : Duration) :
    Instant → Cluster M → Instant → Cluster M → Prop
  | refl (now : Instant) (c : Cluster M) : Goes Q w now c now c
  | step {now now₁ now' : Instant} {c c₁ c' : Cluster M} {a : Action V}
      {eff : Effect M} (h : c.step a = some (.ok (c₁, eff)))
      (hn : eff.node ∈ Q) (ha : a.isTimer = true ∨ a.isMessage = true)
      (hnow : a.now? = some now₁) (hle : now ≤ now₁)
      (hpause : a.isTimer = true → now + w ≤ now₁)
      (rest : Goes Q w now₁ c₁ now' c') : Goes Q w now c now' c'

namespace Cluster.Goes

theorem trans (h : c.Goes Q w now now₁ c₁) (h' : c₁.Goes Q w now₁ now' c') :
    c.Goes Q w now now' c' := by
  induction h with
  | refl => exact h'
  | step hs hn ha hnow hle hpause _ ih =>
      exact .step hs hn ha hnow hle hpause (ih h')

theorem le (h : c.Goes Q w now now' c') : now ≤ now' := by
  induction h with
  | refl => exact le_rfl
  | step _ _ _ _ hle _ _ ih => exact hle.trans ih

theorem of_path (h : c.Path Q now c') : c.Goes Q w now now c' := by
  induction h with
  | refl c => exact .refl now c
  | @step _ _ _ a _ hs hn ha hnow _ ih =>
      refine .step hs hn (.inr ha) hnow le_rfl (fun htimer => ?_) ih
      cases a <;> cases ha <;> cases htimer

end Cluster.Goes

/-! ## Continuing a run -/

structure Run.Extends (run' run : Run D M) (k : ℕ) : Prop where
  state : ∀ j, j ≤ k → run'.state j = run.state j
  action : ∀ j, j < k → run'.action j = run.action j
  effect : ∀ j, j < k → run'.effect j = run.effect j

/-- From step `i` up to `j` only nodes of `Q` act, by timers and messages. -/
def Run.Routinely (run : Run D M) (Q : Finset NodeId) (i j : ℕ) : Prop :=
  ∀ s, i ≤ s → s < j → (run.effect s).node ∈ Q ∧
    ((run.action s).isTimer = true ∨ (run.action s).isMessage = true)

/-- From step `i` up to `j` it is `now` or later, the clock does not go back,
also not behind what was read before, and whenever a timer fires, the last
reading was at least `w` ago. -/
structure Run.Paced (run : Run D M) (w : Duration) (now : Instant)
    (i j : ℕ) : Prop where
  since : ∀ s, i ≤ s → s < j → ∀ a ∈ (run.action s).now?, now ≤ a
  onward : ∀ s s', i ≤ s → s < j → s' < s → ∀ a ∈ (run.action s).now?,
    ∀ b ∈ (run.action s').now?, b ≤ a
  pauses : ∀ s s', i ≤ s → s < j → s' < s →
    (run.action s).isTimer = true → ∀ a ∈ (run.action s).now?,
      ∀ b ∈ (run.action s').now?, b + w ≤ a

/-- No clock reading of the first `k` steps is later than `now`. -/
def Run.Until (run : Run D M) (k : ℕ) (now : Instant) : Prop :=
  ∀ s, s < k → ∀ b ∈ (run.action s).now?, b ≤ now

namespace Run

variable {run run₁ run' : Run D M} {i k k₁ k' : ℕ}

theorem Extends.refl (run : Run D M) (k : ℕ) : run.Extends run k :=
  ⟨fun _ _ => rfl, fun _ _ => rfl, fun _ _ => rfl⟩

theorem Extends.trans (h' : run'.Extends run₁ k₁) (h : run₁.Extends run k)
    (hk : k ≤ k₁) : run'.Extends run k where
  state j hj := (h'.state j (hj.trans hk)).trans (h.state j hj)
  action j hj := (h'.action j (hj.trans_le hk)).trans (h.action j hj)
  effect j hj := (h'.effect j (hj.trans_le hk)).trans (h.effect j hj)

theorem Extends.mono (h : run'.Extends run k) (hk : i ≤ k) :
    run'.Extends run i :=
  h.trans (.refl run i) hk

theorem Routinely.trans (h : run.Routinely Q i k)
    (h' : run.Routinely Q k k') : run.Routinely Q i k' := by
  intro s hs hk
  rcases Nat.lt_or_ge s k with hlt | hge
  · exact h s hs hlt
  · exact h' s hge hk

theorem Paced.trans (h : run.Paced w now i k) (h' : run.Paced w now₁ k k')
    (hle : now ≤ now₁) : run.Paced w now i k' where
  since s hs hk a ha := by
    rcases Nat.lt_or_ge s k with hlt | hge
    · exact h.since s hs hlt a ha
    · exact hle.trans (h'.since s hge hk a ha)
  onward s s' hs hk := by
    rcases Nat.lt_or_ge s k with hlt | hge
    · exact h.onward s s' hs hlt
    · exact h'.onward s s' hge hk
  pauses s s' hs hk := by
    rcases Nat.lt_or_ge s k with hlt | hge
    · exact h.pauses s s' hs hlt
    · exact h'.pauses s s' hge hk

theorem Until.step (h : run.Until k now)
    (hnow : (run.action k).now? = some now₁) (hle : now ≤ now₁)
    (hpause : (run.action k).isTimer = true → now + w ≤ now₁) :
    run.Paced w now k (k + 1) ∧ run.Until (k + 1) now₁ := by
  have honly : ∀ s, k ≤ s → s < k + 1 → s = k := fun s hs hk => by omega
  refine ⟨⟨fun s hs hk a ha => ?_, fun s s' hs hk hlt a ha b hb => ?_,
    fun s s' hs hk hlt ht a ha b hb => ?_⟩, fun s hs b hb => ?_⟩
  · obtain rfl := honly s hs hk
    cases ha.symm.trans hnow
    exact hle
  · obtain rfl := honly s hs hk
    cases ha.symm.trans hnow
    exact (h s' hlt b hb).trans hle
  · obtain rfl := honly s hs hk
    cases ha.symm.trans hnow
    exact (Nat.add_le_add_right (h s' hlt b hb) w).trans (hpause ht)
  · rcases Nat.lt_succ_iff_lt_or_eq.mp hs with hlt | rfl
    · exact (h s hlt b hb).trans hle
    · cases hb.symm.trans hnow
      exact le_rfl

/-- The run that does `a` at step `k` and idles from then on. -/
def divert (run : Run D M) (k : ℕ) (a : Action V) (c' : Cluster M)
    (eff : Effect M) (h : (run.state k).step a = some (.ok (c', eff))) :
    Run D M where
  state j := if j ≤ k then run.state j else c'
  action j := if j < k then run.action j else if j = k then a else .idle
  effect j := if j < k then run.effect j else if j = k then eff else ⟨0, []⟩
  init := by
    rw [if_pos (Nat.zero_le k)]
    exact run.init
  step j := by
    rcases Nat.lt_trichotomy j k with hlt | rfl | hgt
    · rw [if_pos hlt.le, if_pos hlt, if_pos hlt,
        if_pos (Nat.succ_le_of_lt hlt)]
      exact run.step j
    · rw [if_pos le_rfl, if_neg (Nat.lt_irrefl j), if_pos rfl,
        if_neg (Nat.not_succ_le_self j), if_neg (Nat.lt_irrefl j),
        if_pos rfl]
      exact h
    · rw [if_neg (Nat.not_le_of_lt hgt), if_neg (Nat.lt_asymm hgt),
        if_neg hgt.ne', if_neg (by omega), if_neg (Nat.lt_asymm hgt),
        if_neg hgt.ne']
      rfl

theorem exists_step (run : Run D M) (k : ℕ) {a : Action V} {eff : Effect M}
    (h : (run.state k).step a = some (.ok (c', eff))) :
    ∃ run' : Run D M, run'.Extends run k ∧ run'.state (k + 1) = c' ∧
      run'.action k = a ∧ run'.effect k = eff := by
  refine ⟨run.divert k a c' eff h, ⟨fun j hj => if_pos hj,
    fun j hj => if_pos hj, fun j hj => if_pos hj⟩,
    if_neg (Nat.not_succ_le_self k), ?_, ?_⟩
  · simp only [divert, if_neg (Nat.lt_irrefl k), if_pos]
  · simp only [divert, if_neg (Nat.lt_irrefl k), if_pos]

end Run

/-! ## Making a step -/

/-- Node `n` took a turn that left it and its outputs as in `x`. -/
structure Cluster.Took (c : Cluster M) (n : NodeId)
    (answers : List (Reply M)) (x : Ctx M) (c' : Cluster M) : Prop where
  nodes : c'.nodes = Function.update c.nodes n x.node
  epochs : c'.epochs = c.epochs
  rpcs : c'.rpcs =
    c.rpcs ++ x.out.filterMap (Cluster.sent n (c.epochs n))
  replies : c'.replies = c.replies ++ answers

/-- A message whose answer node `n` would still take. -/
def Cluster.Posted (c : Cluster M) (n p : NodeId)
    (req : RpcRequest V M.Payload) (tag : Tag) : Prop :=
  ⟨n, c.epochs n, p, req, tag⟩ ∈ c.rpcs

namespace Cluster

variable {req : RpcRequest V M.Payload} {tag : Tag}

theorem Took.node {answers : List (Reply M)} {x : Ctx M}
    (h : c.Took n answers x c') : c'.nodes n = x.node := by
  rw [h.nodes, Function.update_self]

theorem Took.others {answers : List (Reply M)} {x : Ctx M}
    (h : c.Took n answers x c') {m : NodeId} (hm : m ≠ n) :
    c'.nodes m = c.nodes m := by
  rw [h.nodes, Function.update_of_ne hm]

theorem Took.kept {answers : List (Reply M)} {x : Ctx M} {m : NodeId}
    (h : c.Took n answers x c') (hp : c.Posted m p req tag) :
    c'.Posted m p req tag := by
  rw [Posted, h.epochs, h.rpcs]
  exact List.mem_append_left _ hp

theorem Took.posted {answers : List (Reply M)} {x : Ctx M}
    (h : c.Took n answers x c') (hs : .send p req tag ∈ x.out) :
    c'.Posted n p req tag := by
  rw [Posted, h.epochs, h.rpcs]
  exact List.mem_append_right _ (List.mem_filterMap.mpr ⟨_, hs, rfl⟩)

namespace Reached

theorem step (h : c.Reached D) {a : Action V} {eff : Effect M}
    (hs : c.step a = some (.ok (c', eff))) : c'.Reached D := by
  obtain ⟨run, k, rfl⟩ := h
  obtain ⟨run', -, hend, -⟩ := run.exists_step k hs
  exact ⟨run', k + 1, hend⟩

theorem goes (h : c.Reached D) (hg : c.Goes Q w now now' c') :
    c'.Reached D := by
  induction hg with
  | refl => exact h
  | step hs _ _ _ _ _ _ ih => exact ih (h.step hs)

theorem path (h : c.Reached D) (hp : c.Path Q now c') : c'.Reached D :=
  h.goes (.of_path (w := 0) hp)

theorem config (h : c.Reached D) (n : NodeId) :
    (c.nodes n).config = D.config n := by
  obtain ⟨run, k, rfl⟩ := h
  exact run.config_eq k n

theorem id (h : c.Reached D) (n : NodeId) : (c.nodes n).config.id = n := by
  rw [h.config, D.id_eq]

theorem exec (h : c.Reached D) {a : Action V}
    {body : NodeM M (List (Reply M))} (hs : c.step a = some (c.exec n body))
    {P : List (Reply M) → Ctx M → Prop} (hb : wlp body P ⟨c.nodes n, []⟩) :
    ∃ c' answers x, c.step a = some (.ok (c', ⟨n, x.out⟩)) ∧
      c.Took n answers x c' ∧ P answers x := by
  obtain ⟨run, k, rfl⟩ := h
  obtain ⟨T⟩ := run.exists_trace
  obtain ⟨_, _, _, _, hok, -⟩ := (T.inv k).step hs
  rw [hs]
  rw [Cluster.exec] at hok ⊢
  split at hok
  · cases hok
  · next answers x hx =>
      exact ⟨_, answers, x, rfl, ⟨rfl, rfl, rfl, rfl⟩, hb answers x hx⟩

theorem silently (h : c.Reached D) {a : Action V} {body : NodeM M Unit}
    (hs : c.step a = some (c.exec n (Cluster.silently body)))
    {P : Ctx M → Prop} (hb : wlp body (fun _ x => P x) ⟨c.nodes n, []⟩) :
    ∃ c' x, c.step a = some (.ok (c', ⟨n, x.out⟩)) ∧ c.Took n [] x c' ∧
      P x := by
  obtain ⟨c', answers, x, hstep, ht, hans, hx⟩ := h.exec hs
    (P := fun answers x => answers = [] ∧ P x) (by
      simp only [Cluster.silently, wlp_bind, wlp_pure]
      exact wlp_mono hb fun _ _ hx => ⟨trivial, hx⟩)
  subst hans
  exact ⟨c', x, hstep, ht, hx⟩

theorem timeout (h : c.Reached D) (now : Instant) (w : Duration)
    (hn : n ∈ Q) (hl : (c.nodes n).isLeader = false) {P : Ctx M → Prop}
    (hb : wlp (onElectionTimeout (now + w)) (fun _ x => P x)
      ⟨c.nodes n, []⟩) :
    ∃ c' x, c.Goes Q w now (now + w) c' ∧ c.Took n [] x c' ∧ P x := by
  obtain ⟨c', x, hstep, ht, hx⟩ := h.silently (a := .timeout n (now + w))
    (if_neg (by rw [hl]; exact Bool.false_ne_true)) hb
  exact ⟨c', x, .step hstep hn (.inl rfl) rfl (Nat.le_add_right now w)
    (fun _ => le_rfl) (.refl _ c'), ht, hx⟩

theorem heartbeat (h : c.Reached D) (now : Instant) (w : Duration)
    (hn : n ∈ Q) (hl : (c.nodes n).isLeader = true) {P : Ctx M → Prop}
    (hb : wlp (onHeartbeatTick (now + w)) (fun _ x => P x)
      ⟨c.nodes n, []⟩) :
    ∃ c' x, c.Goes Q w now (now + w) c' ∧ c.Took n [] x c' ∧ P x := by
  obtain ⟨c', x, hstep, ht, hx⟩ := h.silently (a := .heartbeat n (now + w))
    (if_pos hl) hb
  exact ⟨c', x, .step hstep hn (.inl rfl) rfl (Nat.le_add_right now w)
    (fun _ => le_rfl) (.refl _ c'), ht, hx⟩

end Reached

/-- `p` was handed a message of `n`, which left it as in `x`, and `n` its
answer, which left it as in `y`. -/
structure Exchanged (c : Cluster M) (n p : NodeId) (x y : Ctx M)
    (c' : Cluster M) : Prop where
  peer : c'.nodes p = x.node
  node : c'.nodes n = y.node
  others : ∀ m, m ≠ p → m ≠ n → c'.nodes m = c.nodes m
  kept : ∀ m q req tag, c.Posted m q req tag → c'.Posted m q req tag
  posted : ∀ q req tag, .send q req tag ∈ y.out → c'.Posted n q req tag

theorem Reached.exchange (h : c.Reached D) (now : Instant)
    (hposted : c.Posted n p req tag) (hne : p ≠ n) (hp : p ∈ Q) (hn : n ∈ Q)
    {P : RpcResponse → Ctx M → Prop}
    (hb : wlp (handleInbound now req) P ⟨c.nodes p, []⟩)
    {R : RpcResponse → Ctx M → Prop}
    (hb' : ∀ response x, P response x →
      wlp (handleEvent now (tag.event p (.ok response)))
        (fun _ y => R response y) ⟨c.nodes n, []⟩) :
    ∃ c' response x y, c.Path Q now c' ∧ c.Exchanged n p x y c' ∧
      P response x ∧ R response y := by
  obtain ⟨i, hi⟩ := List.getElem?_of_mem hposted
  obtain ⟨c₁, answers, x, hstep, ht, response, rfl, hx⟩ := h.exec
    (a := .deliver i now) (n := p) (by rw [Cluster.step, hi]; rfl)
    (P := fun answers x => ∃ response,
      answers = [⟨⟨n, c.epochs n, p, req, tag⟩, response⟩] ∧ P response x)
    (by
      simp only [Cluster.serve, wlp_bind, wlp_pure]
      exact wlp_mono hb fun response x hx => ⟨response, rfl, hx⟩)
  have hn₁ : c₁.nodes n = c.nodes n := ht.others hne.symm
  obtain ⟨c', y, hstep', ht', hy⟩ := (h.step hstep).silently
    (a := .reply c.replies.length now) (n := n) (by
      rw [Cluster.step, ht.replies, List.getElem?_concat_length]
      exact if_pos (by rw [ht.epochs])) (by
      rw [hn₁]
      exact hb' response x hx)
  refine ⟨c', response, x, y, .step hstep hp rfl rfl
    (.step hstep' hn rfl rfl (.refl c')), ?_, hx, hy⟩
  exact
    { peer := by rw [ht'.others hne, ht.node]
      node := ht'.node
      others := fun m hmp hmn => by rw [ht'.others hmn, ht.others hmp]
      kept := fun _ _ _ _ hold => ht'.kept (ht.kept hold)
      posted := fun _ _ _ hs => ht'.posted hs }

end Cluster

end RustKV
