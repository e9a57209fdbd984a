import RustKV.Proofs.Verdicts
import RustKV.Proofs.Waiters
import Mathlib.Algebra.BigOperators.Group.Finset.Basic

/-!
# Every proposal is answered once

An accepted proposal leaves a ticket with the node: its term and index, and
the sender its client waits on. From then on the ticket is pending, until it
is answered: with a verdict, or by its sender being dropped with a replaced
log or a dying process.

The books balance. In every change of a node what was pending and what was
promised is what stays pending and what is answered (`Change.balance`), and
so over every run. Since no ticket is promised twice (`Run.promised_le_one`),
no ticket is answered twice, none is answered that was not promised, and none
is lost (`answered_once`).
-/

namespace RustKV

open Rust Prog NodeM Consensus

variable {V : Type} {M : StateMachine V} {D : Deployment} {run : Run D M}
  {now : Instant} {cause : Cause M} {x y z : Node M}
  {os os' : List (Output M)} {t i : ℕ}

/-! ## Counting -/

def Output.promises (t i : ℕ) : Output M → Bool
  | .proposeReply (.ok p) => p = (t, i)
  | _ => false

/-- The output answers the ticket `(t, i)`: with a verdict, or by dropping the
sender, at a crash or because an installed snapshot covers it. -/
def Output.answers (t i : ℕ) : Output M → Bool
  | .committed t' i' _ => t' = t ∧ i' = i
  | .dropped t' i' => t' = t ∧ i' = i
  | _ => false

def promised (t i : ℕ) (os : List (Output M)) : ℕ :=
  os.countP (Output.promises t i)

def answered (t i : ℕ) (os : List (Output M)) : ℕ :=
  os.countP (Output.answers t i)

def Node.waiting (x : Node M) (t i : ℕ) : ℕ := x.pending.count ⟨t, i⟩

theorem promised_append : promised t i (os ++ os') =
    promised t i os + promised t i os' := List.countP_append

theorem answered_append : answered t i (os ++ os') =
    answered t i os + answered t i os' := List.countP_append

theorem promised_eq_zero (h : ∀ o ∈ os, o.promises t i = false) :
    promised t i os = 0 :=
  List.countP_eq_zero.mpr fun o ho => by rw [h o ho]; exact Bool.false_ne_true

theorem answered_eq_zero (h : ∀ o ∈ os, o.answers t i = false) :
    answered t i os = 0 :=
  List.countP_eq_zero.mpr fun o ho => by rw [h o ho]; exact Bool.false_ne_true

theorem promised_filter_tells :
    promised t i (os.filter Output.tells) = promised t i os := by
  rw [promised, promised, List.countP_filter]
  refine List.countP_congr fun o _ => ?_
  cases o with
  | proposeReply r => cases r <;> simp [Output.promises, Output.tells]
  | _ => simp [Output.promises]

theorem answered_filter_tells :
    answered t i (os.filter Output.tells) = answered t i os := by
  rw [answered, answered, List.countP_filter]
  refine List.countP_congr fun o _ => ?_
  cases o <;> simp [Output.answers, Output.tells]

theorem answered_map (ps : List PendingProposal)
    (f : PendingProposal → Output M)
    (hf : ∀ p, (f p).answers t i = decide (p = ⟨t, i⟩)) :
    answered t i (ps.map f) = ps.count ⟨t, i⟩ := by
  rw [answered, List.countP_map, List.count]
  refine List.countP_congr fun p _ => ?_
  rw [Function.comp_apply, hf, beq_eq_decide]

theorem PendingProposal.eq_iff {p : PendingProposal} :
    (p.term = t ∧ p.index = i) ↔ p = ⟨t, i⟩ := by
  cases p
  simp

theorem count_filter_add (ps : List PendingProposal)
    (f : PendingProposal → Bool) (p : PendingProposal) :
    (ps.filter f).count p + (ps.filter fun q => !f q).count p =
      ps.count p := by
  induction ps with
  | nil => rfl
  | cons q ps ih =>
      cases hf : f q
      · rw [List.filter_cons_of_neg (by simp [hf]),
          List.filter_cons_of_pos (by simp [hf]), List.count_cons,
          List.count_cons]
        omega
      · rw [List.filter_cons_of_pos hf,
          List.filter_cons_of_neg (by simp [hf]), List.count_cons,
          List.count_cons]
        omega

/-- `resolve_pending` answers exactly those it takes off the list. -/
theorem Node.settled_balance (x : Node M) :
    x.waiting t i = x.settled.waiting t i + answered t i x.verdicts := by
  have hv : x.verdicts = (x.pending.filter fun p =>
      !(x.verdict p).isNone).map fun p =>
        .committed p.term p.index ((x.verdict p).getD false) := by
    rw [Node.verdicts]
    induction x.pending with
    | nil => rfl
    | cons p ps ih =>
        cases hp : x.verdict p with
        | none =>
            rw [List.filterMap_cons_none (by rw [hp]; rfl),
              List.filter_cons_of_neg (by simp [hp]), ih]
        | some v =>
            rw [List.filterMap_cons_some (b := .committed p.term p.index v)
              (by rw [hp]; rfl), List.filter_cons_of_pos (by simp [hp]),
              List.map_cons, ih, hp]
            rfl
  rw [hv, answered_map _ _ fun p => by
    simp only [Output.answers, PendingProposal.eq_iff]]
  exact (count_filter_add x.pending _ _).symm

/-! ## One change, one event -/

/-- What was there and what was promised is what stays and what is
answered. -/
def Balance (t i : ℕ) (x y : Node M) (os : List (Output M)) : Prop :=
  x.waiting t i + promised t i os = y.waiting t i + answered t i os

theorem Balance.trans (h : Balance t i x y os) (h' : Balance t i y z os') :
    Balance t i x z (os ++ os') := by
  rw [Balance] at *
  rw [promised_append, answered_append]
  omega

theorem promised_verdicts (x : Node M) : promised t i x.verdicts = 0 :=
  promised_eq_zero fun o ho => by
    obtain ⟨p, v, rfl⟩ := Node.of_mem_verdicts ho
    rfl

theorem Change.balance (h : Change cause x z os) : Balance t i x z os := by
  rw [Balance]
  cases h with
  | nothing => rfl
  | append => rfl
  | propose e hS =>
      show x.pending.count _ + _ = (x.pending ++ _).count _ + 0
      rw [List.count_append, promised, List.countP_singleton,
        List.count_singleton, Nat.add_zero]
      congr 1
      simp only [Output.promises, beq_iff_eq, decide_eq_true_iff,
        PendingProposal.mk.injEq, Prod.mk.injEq]
  | cut =>
      rw [promised_verdicts, ← Node.settled_balance]
      rfl
  | @install S state snap =>
      have hdrop := answered_map (t := t) (i := i) (M := M)
        (x.pending.filter fun p => p.index ≤ snap.lastIncludedIndex)
        (fun p => .dropped p.term p.index) fun p => by
          simp only [Output.answers, PendingProposal.eq_iff]
      have hrest := Node.settled_balance (t := t) (i := i)
        (x.replaced S state snap.lastIncludedIndex)
      have hsplit := count_filter_add x.pending
        (fun p => decide (p.index ≤ snap.lastIncludedIndex)) ⟨t, i⟩
      have hkeep : (x.replaced S state snap.lastIncludedIndex).pending =
          x.pending.filter fun q =>
            !decide (q.index ≤ snap.lastIncludedIndex) :=
        List.filter_congr fun q _ => by
          rw [← decide_not]
          exact decide_eq_decide.mpr Nat.not_le.symm
      have hno : promised t i ((x.pending.filter fun p =>
          p.index ≤ snap.lastIncludedIndex).map (fun p =>
            (.dropped p.term p.index : Output M))) = 0 :=
        promised_eq_zero fun o ho => by
          obtain ⟨p, -, rfl⟩ := List.mem_map.mp ho
          rfl
      rw [promised_append, answered_append, promised_verdicts, hno, hdrop]
      rw [Node.waiting, hkeep] at hrest
      rw [Node.waiting]
      omega
  | commit k es hk hlen hes hy hz =>
      have hno : promised t i (es.map (.applied : _ → Output M)) = 0 :=
        promised_eq_zero fun o ho => by
          obtain ⟨e, -, rfl⟩ := List.mem_map.mp ho
          rfl
      have hno' : answered t i (es.map (.applied : _ → Output M)) = 0 :=
        answered_eq_zero fun o ho => by
          obtain ⟨e, -, rfl⟩ := List.mem_map.mp ho
          rfl
      have hrest := Node.settled_balance (t := t) (i := i) (x.advanced k es)
      rw [promised_append, answered_append, promised_verdicts, hno, hno',
        show z.waiting t i = (x.advanced k es).settled.waiting t i by
          rw [Node.waiting, hz.pending, hy.pending]
          rfl]
      rw [show (x.advanced k es).waiting t i = x.waiting t i from rfl]
        at hrest
      omega
  | ship => rfl

theorem Deed.balance (h : Deed cause x y os) : Balance t i x y os := by
  obtain ⟨z, hz, hy⟩ := h
  have hb := hz.balance (t := t) (i := i)
  rw [Balance, promised_filter_tells, answered_filter_tells] at hb
  rwa [Balance, show y.waiting t i = z.waiting t i by
    rw [Node.waiting, hy.pending]
    rfl]

theorem Acts.balance (h : Acts now cause x y os) : Balance t i x y os := by
  induction h with
  | refl => rfl
  | step _ _ hd ih => exact ih.trans hd.balance

/-! ## Over a run -/

theorem Moves.promises_none (h : Moves now cause x y os)
    (hc : ∀ cmd, cause ≠ .propose cmd) : promised t i os = 0 := by
  refine promised_eq_zero fun o ho => ?_
  by_contra hp
  obtain ⟨y, y', _, os', _, -, hm, ho', -⟩ := h.split ho
  cases o with
  | proposeReply r =>
      cases r with
      | error e => exact hp rfl
      | ok p =>
          obtain ⟨cmd, -, -, hcmd, -⟩ := hm.accepts ho'
          exact hc cmd hcmd
  | _ => exact hp rfl

theorem Performs.promises_none {c c' : Ctx M}
    (h : Performs now (.heartbeat : Cause M) c c') :
    promised t i c'.out = promised t i c.out := by
  obtain ⟨os, ho, ha⟩ := h
  rw [ho, promised_append, ha.moves.promises_none fun _ => nofun]
  rfl

theorem handlePropose_promises (cmd : Command V) (c : Ctx M) :
    wlp (handlePropose now cmd) (fun _ c' =>
      promised t i c'.out ≤ promised t i c.out + 1) c := by
  have hone : ∀ (x : Node M) (o : Output M),
      promised t i (⟨x, c.out ++ [o]⟩ : Ctx M).out ≤
        promised t i c.out + 1 := fun _ o => by
    rw [promised_append]
    exact Nat.add_le_add_left List.countP_le_length _
  have hrest : ∀ c₁ : Ctx M, promised t i c₁.out ≤
      promised t i c.out + 1 → wlp maybeAdvanceCommit (fun _ c₂ =>
        wlp (sendAppends c₂.node.replicationTargets) (fun _ c' =>
          promised t i c'.out ≤ promised t i c.out + 1) c₂) c₁ := by
    intro c₁ h₁
    refine wlp_mono (maybeAdvanceCommit_acts now .heartbeat c₁)
      fun _ c₂ h₂ => ?_
    refine wlp_mono (sendAppends_acts now .heartbeat _ c₂)
      fun _ c₃ h₃ => ?_
    rw [h₃.1.promises_none, h₂.promises_none]
    exact h₁
  simp only [handlePropose, wlp_bind, wlp_node]
  cases hl : c.node.role with
  | leader l =>
      simp only
      cases c.node.validateCommand l now cmd with
      | error reason => exact wlp_emit.mpr (hone _ _)
      | ok u =>
          simp only [wlp_bind, wlp_expect, wlp_update, wlp_emit, wlp_node]
          intro S hS
          cases cmd with
          | configChange m =>
              simp only [adoptCommand, adoptMembership, publishMembership,
                wlp_bind, wlp_update, hl]
              exact hrest _ (hone _ _)
          | _ => exact wlp_pure.mpr (hrest _ (hone _ _))
  | _ => exact wlp_emit.mpr (hone _ _)

def Cause.handler (now : Instant) : Cause M → NodeM M Unit
  | .timeout => onElectionTimeout now
  | .heartbeat => onHeartbeatTick now
  | .propose cmd => handlePropose now cmd
  | .read => handleRead
  | .inbound req => do
      let _ ← handleInbound now req
  | .reply event => handleEvent now event

theorem Run.handled (run : Run D M) {j : ℕ} {n : NodeId}
    {Q : Node M → List (Output M) → Prop}
    (hc : (run.state j).Causes (run.action j) n now cause)
    (hb : wlp (cause.handler now) (fun _ c₁ => Q c₁.node c₁.out)
      ⟨(run.state j).nodes n, []⟩) :
    Q ((run.state (j + 1)).nodes n) (run.effect j).outputs := by
  have hs := run.step j
  have hexec : ∀ {body : NodeM M (List (Reply M))},
      (run.state j).exec n body = .ok (run.state (j + 1), run.effect j) →
      wlp body (fun _ c₁ => Q c₁.node c₁.out) ⟨(run.state j).nodes n, []⟩ →
      Q ((run.state (j + 1)).nodes n) (run.effect j).outputs := by
    intro body h hbody
    rw [Cluster.exec] at h
    split at h
    · cases h
    · next answers c₁ hx =>
        obtain ⟨hstate, heff⟩ := Prod.mk.inj (Except.ok.inj h)
        rw [← hstate, ← heff]
        simp only [Function.update_self]
        exact hbody answers c₁ hx
  have hsil : ∀ {body : NodeM M Unit}, (run.state j).exec n
      (Cluster.silently body) = .ok (run.state (j + 1), run.effect j) →
      wlp body (fun _ c₁ => Q c₁.node c₁.out) ⟨(run.state j).nodes n, []⟩ →
      Q ((run.state (j + 1)).nodes n) (run.effect j).outputs :=
    fun h hbody => hexec h (by
      simp only [Cluster.silently, wlp_bind, wlp_pure]
      exact hbody)
  generalize run.action j = a at hc hs
  cases hc with
  | timeout hl =>
      rw [Cluster.step, if_neg (by rw [hl]; exact Bool.false_ne_true)] at hs
      exact hsil (Option.some.inj hs) hb
  | heartbeat hl =>
      rw [Cluster.step, if_pos hl] at hs
      exact hsil (Option.some.inj hs) hb
  | propose => exact hsil (Option.some.inj hs) hb
  | read => exact hsil (Option.some.inj hs) hb
  | deliver hr =>
      rw [Cluster.step, hr] at hs
      refine hexec (Option.some.inj hs) ?_
      simp only [Cause.handler, wlp_bind, wlp_pure] at hb
      simp only [Cluster.serve, wlp_bind, wlp_pure]
      exact hb
  | reply hr he =>
      rw [Cluster.step, hr, Option.bind_some, Cluster.settle, if_pos he] at hs
      exact hsil (Option.some.inj hs) hb
  | fail hr he =>
      rw [Cluster.step, hr, Option.bind_some, Cluster.settle, if_pos he] at hs
      exact hsil (Option.some.inj hs) hb

theorem Run.promised_step (run : Run D M) (j : ℕ) :
    promised t i (run.effect j).outputs ≤ 1 := by
  cases run.did j with
  | idle _ ho => rw [ho]; exact Nat.zero_le 1
  | restart h =>
      refine (promised_eq_zero fun o ho => ?_).trans_le (Nat.zero_le 1)
      have hplain := h.outputs o ho
      cases o with
      | proposeReply r =>
          cases r with
          | ok p => cases hplain
          | error e => rfl
      | _ => rfl
  | turn now cause h =>
      by_cases hc : ∃ cmd, cause = .propose cmd
      · obtain ⟨cmd, rfl⟩ := hc
        exact run.handled (Q := fun _ os => promised t i os ≤ 1) h.causes
          (handlePropose_promises cmd ⟨_, []⟩)
      · rw [h.moves.promises_none fun cmd h => hc ⟨cmd, h⟩]
        exact Nat.zero_le 1

theorem exists_of_promised (h : 0 < promised t i os) :
    Output.proposeReply (.ok (t, i)) ∈ os := by
  obtain ⟨o, ho, hp⟩ := List.countP_pos_iff.mp h
  cases o with
  | proposeReply r =>
      cases r with
      | ok p => rwa [← of_decide_eq_true hp]
      | error e => cases hp
  | _ => cases hp

theorem Run.promise_leads (run : Run D M) {j : ℕ}
    (h : Output.proposeReply (.ok (t, i)) ∈ (run.effect j).outputs) :
    run.Leads j (run.effect j).node t := by
  cases run.did j with
  | idle _ ho => rw [ho] at h; cases h
  | restart hr => exact absurd (hr.outputs _ h) Bool.false_ne_true
  | turn now cause ht =>
      obtain ⟨y, y', _, os', _, hxy, hm, ho, -⟩ := ht.moves.split h
      obtain ⟨cmd, l, S, rfl, hl, rfl, -⟩ := hm.accepts ho
      exact (hxy.leader hl).resolve_right id

theorem Run.Trace.leads_between (T : run.Trace) {j m k : ℕ} {n n' : NodeId}
    (hj : run.Leads j n' t) (hjm : j ≤ m) (hmk : m ≤ k)
    (hk : run.Leads k n t) : run.Leads m n t := by
  obtain ⟨d, rfl⟩ := Nat.exists_eq_add_of_le hmk
  induction d with
  | zero => exact hk
  | succ d ih =>
      exact ih (Nat.le_add_right m d)
        (T.leads_of_le (hjm.trans (Nat.le_add_right m d)) hj hk)

/-- What is promised once is not promised again: the leader's log of the term
has reached it. -/
theorem Run.Trace.promised_later (T : run.Trace) {j k : ℕ} (hjk : j < k)
    (hj : 0 < promised t i (run.effect j).outputs) :
    promised t i (run.effect k).outputs = 0 := by
  refine Nat.eq_zero_of_not_pos fun hk => ?_
  have hoj := exists_of_promised hj
  have hok := exists_of_promised hk
  have hlj := run.promise_leads hoj
  have hlk := run.promise_leads hok
  obtain ⟨_, htr, -⟩ := (T.advance k).here
  have hlow : ((T.hist k).tlog t).length < i := (htr.out _ hok).2
  -- the same node leads in between
  obtain ⟨b, hb, -⟩ := T.leader hlj.1
  obtain ⟨b', hb', -⟩ := T.leader hlk.1
  rw [hlj.2] at hb
  rw [hlk.2] at hb'
  have hnode := congrArg Prod.fst (T.led_unique hb hb')
  simp only at hnode
  rw [← hnode] at hlk
  have hnext := T.leads_between hlj (Nat.le_succ j) hjk hlk
  have hreach : i ≤ ((T.hist (j + 1)).tlog t).length := by
    cases run.acted j with
    | idle _ ho => rw [ho] at hoj; cases hoj
    | restart hr => exact absurd (hr.outputs _ hoj) Bool.false_ne_true
    | turn now cause h ha =>
        rcases ha.resolved (p := ⟨t, i⟩) (.inr hoj) with hp | ho | hle
        · obtain ⟨hpos, ht⟩ := T.waiting hp
          obtain ⟨e, he, rfl⟩ := termAt_eq_some ht (by omega)
          have hlt : i - 1 < ((T.hist (j + 1)).tlog e.term).length :=
            ((T.inv (j + 1)).nodes _).ok.valid.lt_tlog he
          omega
        · obtain ⟨_, htr, -⟩ := (T.advance j).here
          exact absurd hoj (T.not_promised (htr.out _ ho).2.1)
        · have hlen := hle.trans ((T.inv (j + 1)).nodes _).body.commit_le
          obtain ⟨_, -, hlog⟩ := T.leader hnext.1
          rwa [← hnext.2, hlog]
  have hmono : ((T.hist (j + 1)).tlog t).length ≤
      ((T.hist k).tlog t).length := ((T.le hjk).tlog t).length_le
  omega

def Run.promised (run : Run D M) (n : NodeId) (t i k : ℕ) : ℕ :=
  ∑ j ∈ Finset.range k, if (run.effect j).node = n then
    RustKV.promised t i (run.effect j).outputs else 0

def Run.answered (run : Run D M) (n : NodeId) (t i k : ℕ) : ℕ :=
  ∑ j ∈ Finset.range k, if (run.effect j).node = n then
    RustKV.answered t i (run.effect j).outputs else 0

theorem Run.promised_le_one (run : Run D M) (t i k : ℕ) :
    ∑ j ∈ Finset.range k, RustKV.promised t i (run.effect j).outputs ≤ 1 := by
  obtain ⟨T⟩ := run.exists_trace
  by_cases h : ∃ j ∈ Finset.range k,
      0 < RustKV.promised t i (run.effect j).outputs
  · obtain ⟨j, hj, hpos⟩ := h
    rw [Finset.sum_eq_single_of_mem j hj fun m _ hne => ?_]
    · exact run.promised_step j
    · rcases Nat.lt_or_gt_of_ne hne with hlt | hgt
      · refine Nat.eq_zero_of_not_pos fun hm => ?_
        rw [T.promised_later hlt hm] at hpos
        exact Nat.lt_irrefl 0 hpos
      · exact T.promised_later hgt hpos
  · rw [Finset.sum_eq_zero fun j hj => Nat.eq_zero_of_not_pos fun hpos =>
      h ⟨j, hj, hpos⟩]
    exact Nat.zero_le 1

theorem Cluster.Rebirth.balance {c c' : Cluster M} {a : Action V}
    {eff : Effect M} (h : c.Rebirth a c' eff)
    (hs : c.step a = some (.ok (c', eff))) :
    Balance t i (c.nodes eff.node) (c'.nodes eff.node) eff.outputs := by
  obtain ⟨state, hboot⟩ := Node.eq_boot_of_spawn h.node
  have hout : eff.outputs = Cluster.lost (c.nodes eff.node) := by
    rw [h.action, Cluster.step, Cluster.reborn, h.node] at hs
    exact congrArg Effect.outputs
      (congrArg Prod.snd (Except.ok.inj (Option.some.inj hs))).symm
  have hplain := Cluster.plain_lost (c.nodes eff.node)
  rw [Balance, hout, hboot]
  rw [promised_eq_zero fun o ho => ?_, Cluster.lost, answered_append,
    answered_map _ _ fun p => by
      simp only [Output.answers, PendingProposal.eq_iff],
    answered_eq_zero fun o ho => ?_]
  · show (c.nodes eff.node).waiting t i = 0 + (_ + 0)
    rw [Nat.zero_add]
    rfl
  · obtain ⟨r, -, rfl⟩ := List.mem_map.mp ho
    rfl
  · have := hplain o ho
    cases o with
    | proposeReply r =>
        cases r with
        | ok p => cases this
        | error e => rfl
    | _ => rfl

theorem Run.balance_step (run : Run D M) (j : ℕ) :
    Balance t i ((run.state j).nodes (run.effect j).node)
      ((run.state (j + 1)).nodes (run.effect j).node)
      (run.effect j).outputs := by
  cases run.acted j with
  | idle hc ho =>
      rw [hc, ho]
      rfl
  | turn now cause _ ha => exact ha.balance
  | restart h => exact h.balance (run.step j)

/-- The books of every node balance at all times: what it has promised is
pending or answered. And a ticket is promised once, by one node. -/
theorem answered_once (run : Run D M) (t i k : ℕ) :
    (∀ n, run.promised n t i k =
      ((run.state k).nodes n).waiting t i + run.answered n t i k) ∧
    ∑ j ∈ Finset.range k, RustKV.promised t i (run.effect j).outputs ≤ 1 := by
  refine ⟨fun n => ?_, run.promised_le_one t i k⟩
  induction k with
  | zero => rw [run.init]; rfl
  | succ k ih =>
      rw [Run.promised, Finset.sum_range_succ, Run.answered,
        Finset.sum_range_succ]
      rw [Run.promised, Run.answered] at ih
      by_cases hn : (run.effect k).node = n
      · subst hn
        have hb := run.balance_step (t := t) (i := i) k
        rw [Balance] at hb
        rw [if_pos rfl, if_pos rfl]
        omega
      · have hsame : (run.state (k + 1)).nodes n = (run.state k).nodes n := by
          cases run.did k with
          | idle hc => rw [hc]
          | restart h => exact h.others n (Ne.symm hn)
          | turn now cause h => exact h.others n (Ne.symm hn)
        rw [if_neg hn, if_neg hn, hsame]
        omega

end RustKV
