import RustKV.Proofs.Inbound
import RustKV.Proofs.Requests

/-!
# The cluster keeps its invariant

One lemma per kind of event puts the handler specifications to work:
whatever the scheduler picks, the step does not panic, the invariant holds
afterwards, and the step is an `Advance` of the history. `Advance` is all
that is ever said about a step; every theorem about runs is derived from it.

A crash between events is a step like the others. The node comes back a
follower with its term, its vote and its log, and knows less about what is
committed; nothing in the history is about what it forgot.
-/

namespace RustKV

open Rust Prog NodeM Consensus History

variable {V : Type} {M : StateMachine V} {D : Deployment}
  {H H' : Hist V} {L L' : NodeId → List (LogEntry V)} {c c' : Cluster M}

/-! ## Where events start -/

/-- An entry an event may bring to node `n`: in an AppendEntries to it that
is not older than its term, or inside a snapshot and hence committed. -/
def Cluster.Delivered (c : Cluster M) (H : Hist V) (n : NodeId)
    (e : LogEntry V) : Prop :=
  (∃ r ∈ c.rpcs, r.dst = n ∧ ∃ a, r.request = .appendEntries a ∧
    (c.nodes n).currentTerm ≤ a.term ∧ e ∈ a.entries) ∨ Committed H e

def Cluster.start (c : Cluster M) (H : Hist V)
    (L : NodeId → List (LogEntry V)) (n : NodeId) (kind : EventKind) :
    Start M :=
  ⟨n, c.nodes n, H, L n, kind, c.Delivered H n⟩

theorem Role.part_leader {x : Node M} :
    x.role.part = .leader ↔ x.isLeader = true := by
  rw [Node.isLeader]
  cases x.role <;> simp [Role.part]

theorem ClusterInv.start (h : ClusterInv D H L c) (n : NodeId)
    (kind : EventKind) :
    At D (c.start H L n kind) H (L n) ⟨c.nodes n, []⟩ where
  frame := Frame.refl _ _
  sound := h.sound
  moved :=
    { term_le := le_rfl
      applied_le := le_rfl
      leader := fun hp => .inl ⟨Role.part_leader.mp hp, rfl⟩
      reads := fun hp => by
        refine ⟨?_, rfl⟩
        show (c.nodes n).isLeader = true
        rw [Node.isLeader]
        cases hr : (c.nodes n).role with
        | leader l => rfl
        | follower => rw [hr] at hp; exact absurd rfl hp
        | preCandidate votes => rw [hr] at hp; exact absurd rfl hp
        | candidate votes => rw [hr] at hp; exact absurd rfl hp
      heard := fun hq => .inl hq
      log := fun e he => .inl he
      kept := fun P hp _ => hp }
  created e m j he _ := .inl he
  out := List.forall_mem_nil _
  inv := h.nodes n
  fresh e he := .inl he

/-! ## What a step does -/

/-- What an event did to its own node, whichever event it was. -/
structure Transit (D : Deployment) (s : Start M) (H : Hist V)
    (F : List (LogEntry V)) (x : Node M) (os : List (Output M)) : Prop where
  frame : Frame s.id s.hist H
  inv : NodeInv D H s.id F x
  term_le : s.node.currentTerm ≤ x.currentTerm
  leader : x.isLeader = true →
    (s.node.isLeader = true ∧ s.node.currentTerm = x.currentTerm) ∨
      s.hist.led x.currentTerm = none
  heard : ∀ {m t v q}, H.heard m t v q →
    s.hist.heard m t v q ∨ (v = s.id ∧ s.node.currentTerm ≤ t)
  log : ∀ e ∈ F, s.Source H e
  kept : ∀ P, P <+: s.log → s.Shared P x.currentTerm → P <+: F
  created : s.Creates H os
  out : ∀ o ∈ os, OutOk D s H F o
  fresh : ∀ e, Committed H e → Committed s.hist e ∨ Output.applied e ∈ os

theorem At.transit {s : Start M} {F : List (LogEntry V)} {x : Ctx M}
    (h : At D s H F x) : Transit D s H F x.node x.out where
  frame := h.frame
  inv := h.inv
  term_le := h.moved.term_le
  leader hl := h.moved.leader (Role.part_leader.mpr hl)
  heard := h.moved.heard
  log := h.moved.log
  kept := h.moved.kept
  created := h.created
  out := h.out
  fresh := h.fresh

theorem Sound.shared {s : Start M} {P : List (LogEntry V)}
    (h : Sound D s.hist) (hc : s.hist.CommittedAt s.node.currentTerm P)
    (t : Nat) : s.Shared P t := fun _ _ hu _ hl =>
  h.wf.committed_tlog hl (hc.mono (Le.refl _) hu)

/-- One step of the cluster, with the histories and logs on both sides. -/
structure Advance (D : Deployment) (H : Hist V)
    (L : NodeId → List (LogEntry V)) (c : Cluster M) (H' : Hist V)
    (L' : NodeId → List (LogEntry V)) (c' : Cluster M) (eff : Effect M) :
    Prop where
  inv : ClusterInv D H' L' c'
  here : ∃ kind, Transit D (c.start H L eff.node kind) H'
    (L' eff.node) (c'.nodes eff.node) eff.outputs ∧
    (kind = .restarting → c'.epochs eff.node ≠ c.epochs eff.node)
  others : ∀ m, m ≠ eff.node → c'.nodes m = c.nodes m ∧ L' m = L m
  rpcs : c'.rpcs = c.rpcs ++
    eff.outputs.filterMap (Cluster.sent eff.node (c.epochs eff.node))
  epochs : ∀ m, c.epochs m ≤ c'.epochs m
  applied_le : ∀ m, c'.epochs m = c.epochs m →
    (c.nodes m).lastApplied ≤ (c'.nodes m).lastApplied

theorem mem_filterMap_sent {os : List (Output M)} {n : NodeId} {k : Nat}
    {r : Rpc M} (h : r ∈ os.filterMap (Cluster.sent n k)) :
    r.src = n ∧ r.epoch = k ∧ Output.send r.dst r.request r.tag ∈ os := by
  obtain ⟨o, ho, heq⟩ := List.mem_filterMap.mp h
  cases o with
  | send peer req tag =>
      cases heq
      exact ⟨rfl, rfl, ho⟩
  | _ => cases heq

/-- The invariant after an event, put together from the node's own part. -/
theorem ClusterInv.advance (h : ClusterInv D H L c) {n : NodeId}
    {kind : EventKind} {F : List (LogEntry V)} {x : Node M}
    {os : List (Output M)} (hs : Sound D H')
    (ht : Transit D (c.start H L n kind) H' F x os)
    (hk : kind = .restarting → c'.epochs n ≠ c.epochs n)
    {answers : List (Reply M)}
    (hr : ∀ r ∈ answers, RpcOk D H r.rpc.src r.rpc.request r.rpc.tag ∧
      ReplyOk H' r)
    (hc' : c'.nodes = Function.update c.nodes n x)
    (hrpcs : c'.rpcs = c.rpcs ++ os.filterMap (Cluster.sent n (c.epochs n)))
    (hreplies : c'.replies = c.replies ++ answers)
    (hepochs : ∀ m, c.epochs m ≤ c'.epochs m)
    (happ : c'.epochs n = c.epochs n →
      (c.nodes n).lastApplied ≤ x.lastApplied) :
    Advance D H L c H' (Function.update L n F) c' ⟨n, os⟩ := by
  have hle : Le H H' := ht.frame.toLe
  have hother : ∀ m, m ≠ n → c'.nodes m = c.nodes m ∧
      Function.update L n F m = L m := by
    intro m hm
    rw [hc', Function.update_of_ne hm, Function.update_of_ne hm]
    exact ⟨rfl, rfl⟩
  have hself : c'.nodes n = x ∧ Function.update L n F n = F := by
    rw [hc', Function.update_self, Function.update_self]
    exact ⟨rfl, rfl⟩
  refine
    { inv :=
        { sound := hs
          nodes := fun m => ?_
          rpcs := fun r hmem => ?_
          replies := fun r hmem => ?_ }
      here := ⟨kind, by
        show Transit D _ H' (Function.update L n F n) (c'.nodes n) os
        rw [hself.1, hself.2]
        exact ht, hk⟩
      others := hother
      rpcs := hrpcs
      epochs := hepochs
      applied_le := fun m hm => ?_ }
  · by_cases hmn : m = n
    · subst hmn
      rw [hself.1, hself.2]
      exact ht.inv
    · rw [(hother m hmn).1, (hother m hmn).2]
      exact (h.nodes m).frame h.sound hmn ht.frame
  · rw [hrpcs] at hmem
    rcases List.mem_append.mp hmem with hmem | hmem
    · exact (h.rpcs r hmem).mono hle
    · obtain ⟨hsrc, -, ho⟩ := mem_filterMap_sent hmem
      rw [hsrc]
      exact (ht.out _ ho).2.1
  · rw [hreplies] at hmem
    rcases List.mem_append.mp hmem with hmem | hmem
    · exact ⟨(h.replies r hmem).1.mono hle, (h.replies r hmem).2.mono hle⟩
    · exact ⟨(hr r hmem).1.mono hle, (hr r hmem).2⟩
  · by_cases hmn : m = n
    · subst hmn
      rw [hself.1]
      exact happ hm
    · rw [(hother m hmn).1]

/-! ## Handlers as steps -/

def Advances (D : Deployment) (H : Hist V) (L : NodeId → List (LogEntry V))
    (c : Cluster M) (r : Except Panic (Cluster M × Effect M)) : Prop :=
  ∃ c' eff H' L', r = .ok (c', eff) ∧ Advance D H L c H' L' c' eff

theorem ClusterInv.exec (h : ClusterInv D H L c) {n : NodeId}
    (kind : EventKind) (hk : kind ≠ .restarting)
    {body : NodeM M (List (Reply M))}
    (hb : wp body (fun answers x => ∃ H' F,
      At D (c.start H L n kind) H' F x ∧
      ∀ r ∈ answers, RpcOk D H r.rpc.src r.rpc.request r.rpc.tag ∧
        ReplyOk H' r) ⟨c.nodes n, []⟩) :
    Advances D H L c (c.exec n body) := by
  obtain ⟨answers, x, hx, H', F, hat, hr⟩ := wp_iff.mp hb
  have heq : c.exec n body = .ok ({ c with
      nodes := Function.update c.nodes n x.node
      rpcs := c.rpcs ++ x.out.filterMap (Cluster.sent n (c.epochs n))
      replies := c.replies ++ answers }, ⟨n, x.out⟩) := by
    simp only [Cluster.exec, hx]
  exact ⟨_, _, H', _, heq, h.advance hat.sound hat.transit
    (fun h => absurd h hk) hr rfl rfl rfl (fun _ => le_rfl)
    (fun _ => hat.moved.applied_le)⟩

theorem ClusterInv.silently (h : ClusterInv D H L c) {n : NodeId}
    {body : NodeM M Unit}
    (hb : wp body (fun _ x => Ends D (c.start H L n .acting) x)
      ⟨c.nodes n, []⟩) :
    Advances D H L c (c.exec n (Cluster.silently body)) := by
  refine h.exec .acting nofun ?_
  simp only [Cluster.silently, wp_bind, wp_pure]
  refine wp_mono hb fun _ x hx => ?_
  obtain ⟨H', F, hat⟩ := hx
  exact ⟨H', F, hat, List.forall_mem_nil _⟩

/-- Any message ever sent may be delivered, once more or for the first
time. -/
theorem ClusterInv.serve (h : ClusterInv D H L c) {rpc : Rpc M}
    (hmem : rpc ∈ c.rpcs) (now : Instant) :
    Advances D H L c (c.exec rpc.dst (Cluster.serve now rpc)) := by
  have hrpc := h.rpcs rpc hmem
  have hat := h.start rpc.dst .serving
  refine h.exec .serving nofun ?_
  obtain ⟨src, epoch, dst, request, tag⟩ := rpc
  cases request with
  | requestVote a =>
      obtain ⟨-, hsrc, L₀, hL, hi, ht⟩ := hrpc
      subst hsrc
      simp only [Cluster.serve, handleInbound, wp_bind, wp_pure]
      refine wp_mono (handleRequestVote_spec hat hL hi ht)
        fun r x hx => ?_
      obtain ⟨H', hat', hv⟩ := hx
      refine ⟨H', _, hat', fun r' hr' => ?_⟩
      rw [List.mem_singleton.mp hr']
      exact ⟨h.rpcs _ hmem, hv⟩
  | preVote a =>
      simp only [Cluster.serve, handleInbound, handlePreVote, wp_bind,
        wp_node, wp_pure]
      refine ⟨H, _, hat, fun r' hr' => ?_⟩
      rw [List.mem_singleton.mp hr']
      exact ⟨h.rpcs _ hmem, trivial⟩
  | appendEntries a =>
      obtain ⟨ha, seq, htag, hseq⟩ := hrpc
      simp only [Cluster.serve, handleInbound, wp_bind, wp_pure]
      refine wp_mono (handleAppendEntries_spec hat rfl rfl ha
        (ha.led.elim fun b hb => ⟨_, hb⟩) hseq
        fun hterm e he => .inl ⟨_, hmem, rfl, a, rfl, hterm, he⟩)
        fun r x hx => ?_
      obtain ⟨H', F', hat', hle, hack, hheard⟩ := hx
      refine ⟨H', F', hat', fun r' hr' => ?_⟩
      rw [List.mem_singleton.mp hr']
      refine ⟨h.rpcs _ hmem, hle, hack, fun heq prev len seq' htag' => ?_⟩
      simp only at htag htag'
      rw [htag] at htag'
      cases htag'
      exact hheard heq
  | installSnapshot a =>
      obtain ⟨⟨P, hP⟩, -⟩ := hrpc
      simp only [Cluster.serve, handleInbound, wp_bind, wp_pure]
      refine wp_mono (handleInstallSnapshot_spec hat rfl rfl hP
        (hP.led.elim fun b hb => ⟨_, hb⟩) hP.committed
        fun e he => .inr ⟨a.term, P, hP.committed, he⟩) fun r x hx => ?_
      obtain ⟨H', F', hat', hle, hack⟩ := hx
      refine ⟨H', F', hat', fun r' hr' => ?_⟩
      rw [List.mem_singleton.mp hr']
      exact ⟨h.rpcs _ hmem, hle, hack⟩

theorem ClusterInv.answer (h : ClusterInv D H L c) {r : Reply M}
    (hmem : r ∈ c.replies) (now : Instant) :
    wp (handleEvent now (r.rpc.tag.event r.rpc.dst (.ok r.response)))
      (fun _ x => Ends D (c.start H L r.rpc.src .acting) x)
      ⟨c.nodes r.rpc.src, []⟩ := by
  obtain ⟨hrpc, hrep⟩ := h.replies r hmem
  have hat := h.start r.rpc.src .acting
  have hsame : Ends D (c.start H L r.rpc.src .acting)
      ⟨c.nodes r.rpc.src, []⟩ := ⟨_, _, hat⟩
  obtain ⟨⟨src, epoch, dst, request, tag⟩, response⟩ := r
  -- a response of another kind than the request's is ignored
  cases request with
  | requestVote a =>
      obtain ⟨rfl, -⟩ := hrpc
      cases response with
      | requestVote reply => exact handleVoteReply_spec hat rfl now hrep
      | _ => exact hsame
  | preVote a =>
      obtain rfl : tag = _ := hrpc
      cases response with
      | preVote reply => exact handlePreVoteReply_spec hat rfl now _ _ _
      | _ => exact hsame
  | appendEntries a =>
      obtain ⟨-, seq, rfl, -⟩ := hrpc
      cases response with
      | appendEntries reply =>
          exact handleAppendReply_spec hat rfl now hrep.1 hrep.2.1
            fun heq => hrep.2.2 heq _ _ _ rfl
      | _ => exact hsame
  | installSnapshot a =>
      obtain ⟨-, rfl⟩ := hrpc
      cases response with
      | installSnapshot reply =>
          exact handleInstallSnapshotReply_spec hat rfl now hrep.1 hrep.2
      | _ => exact hsame

theorem ClusterInv.failed (h : ClusterInv D H L c) (rpc : Rpc M)
    (error : TransportError) (now : Instant) :
    wp (handleEvent now (rpc.tag.event rpc.dst (.error error)))
      (fun _ x => Ends D (c.start H L rpc.src .acting) x)
      ⟨c.nodes rpc.src, []⟩ := by
  have hsame : Ends D (c.start H L rpc.src .acting) ⟨c.nodes rpc.src, []⟩ :=
    ⟨_, _, h.start rpc.src .acting⟩
  cases rpc.tag <;> exact hsame

/-! ## Restarts -/

theorem NodeInv.boot {n : NodeId} {F : List (LogEntry V)} {x : Node M}
    (h : NodeInv D H n F x) :
    NodeInv D H n F (Node.boot x.config x.storage
      (M.replay (F.take x.storage.snapshotIndex))) where
  body :=
    { config := h.body.config
      repr := h.body.repr
      boundary_le := le_rfl
      applied_le := le_rfl
      commit_le := h.body.repr.boundary_le
      state := rfl
      staged := fun st hst => by cases hst }
  members :=
    { members := by
        rw [← h.body.config]
        exact deriveMembership_fst h.body.repr _
      index := deriveMembership_snd h.body.repr _ }
  waiting p hp := by cases hp
  ok := by
    refine h.ok.stepDown.learn (k := x.storage.snapshotIndex)
      (by simp) h.body.repr.boundary_le ?_
    refine h.ok.committed.shorten ?_
    exact List.take_prefix_take_left
      (h.body.boundary_le.trans h.body.applied_le)
  role := trivial
  seq := h.seq
  applied := rfl
  uncommitted p hp := by cases hp

theorem NodeInv.spawn {n : NodeId} {F : List (LogEntry V)} {x : Node M}
    (h : NodeInv D H n F x) :
    Node.spawn x.config x.storage = .ok (Node.boot x.config x.storage
      (M.replay (F.take x.storage.snapshotIndex))) := by
  rw [Node.spawn]
  cases hs : x.storage.snapshot with
  | none =>
      have hb : x.storage.snapshotIndex = 0 := by
        rw [Storage.snapshotIndex, hs]
        rfl
      simp only [hb]
      rfl
  | some snap =>
      simp only [(h.body.repr.snapshot snap hs).state, M.restore_snapshot]

theorem ClusterInv.reborn (h : ClusterInv D H L c) (n : NodeId) :
    Advances D H L c (c.reborn n) := by
  have hx := h.nodes n
  have hstart := (h.start n .restarting).moved
  have heq : c.reborn n = .ok ({ c with
      nodes := Function.update c.nodes n (Node.boot (c.nodes n).config
        (c.nodes n).storage
        (M.replay ((L n).take (c.nodes n).storage.snapshotIndex)))
      epochs := Function.update c.epochs n (c.epochs n + 1) },
      ⟨n, Cluster.lost (c.nodes n)⟩) := by
    simp only [Cluster.reborn, hx.spawn]
  have hlost : ∀ o ∈ Cluster.lost (c.nodes n),
      OutOk D (c.start H L n .restarting) H (L n) o := by
    intro o ho
    rcases List.mem_append.mp ho with ho | ho
    · obtain ⟨p, hp, rfl⟩ := List.mem_map.mp ho
      exact ⟨hp, .inl rfl⟩
    · obtain ⟨r, -, rfl⟩ := List.mem_map.mp ho
      trivial
  have ht : Transit D (c.start H L n .restarting) H (L n) (Node.boot
      (c.nodes n).config (c.nodes n).storage (M.replay
        ((L n).take (c.nodes n).storage.snapshotIndex)))
      (Cluster.lost (c.nodes n)) :=
    { frame := Frame.refl _ _
      inv := hx.boot
      term_le := le_rfl
      leader := fun hl => by cases hl
      heard := hstart.heard
      log := hstart.log
      kept := hstart.kept
      created := fun e m j he _ => .inl he
      out := hlost
      fresh := fun e he => .inl he }
  have hnone : (Cluster.lost (c.nodes n)).filterMap
      (Cluster.sent n (c.epochs n)) = [] := by
    rw [List.filterMap_eq_nil_iff]
    intro o ho
    rcases List.mem_append.mp ho with ho | ho
    · obtain ⟨p, -, rfl⟩ := List.mem_map.mp ho
      rfl
    · obtain ⟨r, -, rfl⟩ := List.mem_map.mp ho
      rfl
  refine ⟨_, _, H, _, heq, h.advance h.sound ht ?_
    (List.forall_mem_nil (fun r : Reply M =>
      RpcOk D H r.rpc.src r.rpc.request r.rpc.tag ∧ ReplyOk H r))
    rfl ?_ (List.append_nil _).symm (fun m => ?_) (fun hn => ?_)⟩
  · simp only [Function.update_self]
    omega
  · rw [hnone, List.append_nil]
  · by_cases hm : m = n
    · subst hm
      simp only [Function.update_self]
      omega
    · simp only [Function.update_of_ne hm, le_rfl]
  · simp only [Function.update_self] at hn
    omega

/-! ## Runs -/

theorem ClusterInv.init : ClusterInv D (History.empty : Hist V)
    (fun _ => []) (Cluster.init D : Cluster M) where
  sound := ⟨Wf.empty, fun t i e he => by cases he⟩
  nodes n :=
    { body :=
        { config := rfl
          repr := Represents.empty
          boundary_le := le_rfl
          applied_le := le_rfl
          commit_le := le_rfl
          state := rfl
          staged := fun st hst => by cases hst }
      members :=
        { members := deriveMembership_fst (M := M) Represents.empty _
          index := ⟨(fun e he => by cases he), .inl le_rfl⟩ }
      waiting := fun p hp => by cases hp
      ok := Replica.Ok.empty n
      role := trivial
      seq := fun _ _ => rfl
      applied := rfl
      uncommitted := fun p hp => by cases hp }
  rpcs r hr := by cases hr
  replies r hr := by cases hr

/-- Whatever the scheduler picks, nothing panics and the invariant holds
again. -/
theorem ClusterInv.step (h : ClusterInv D H L c) {a : Action V}
    {r : Except Panic (Cluster M × Effect M)} (hs : c.step a = some r) :
    Advances D H L c r := by
  cases a with
  | idle =>
      cases hs
      have hat := h.start 0 .acting
      refine ⟨c, ⟨0, []⟩, H, _, rfl, h.advance h.sound hat.transit
        (fun hk => by cases hk) (List.forall_mem_nil (fun r : Reply M =>
          RpcOk D H r.rpc.src r.rpc.request r.rpc.tag ∧ ReplyOk H r))
        (Function.update_eq_self _ _).symm (List.append_nil _).symm
        (List.append_nil _).symm (fun _ => le_rfl) (fun _ => le_rfl)⟩
  | timeout n now =>
      simp only [Cluster.step] at hs
      split at hs
      · cases hs
      · cases hs
        exact h.silently (onElectionTimeout_spec (h.start n .acting) rfl rfl
          now)
  | heartbeat n now =>
      simp only [Cluster.step] at hs
      split at hs
      · cases hs
        exact h.silently (wp_mono
          (onHeartbeatTick_spec (h.start n .acting) rfl now)
          fun _ _ hx => ⟨_, _, hx⟩)
      · cases hs
  | propose n cmd now =>
      cases hs
      exact h.silently (handlePropose_spec (h.start n .acting) rfl rfl now
        cmd)
  | read n =>
      cases hs
      exact h.silently (handleRead_spec (h.start n .acting) rfl rfl)
  | deliver i now =>
      obtain ⟨rpc, hrpc, rfl⟩ := Option.map_eq_some_iff.mp hs
      exact h.serve (List.mem_of_getElem? hrpc) now
  | reply i now =>
      obtain ⟨r, hr, hset⟩ := Option.bind_eq_some_iff.mp hs
      simp only [Cluster.settle] at hset
      split at hset
      · cases hset
        exact h.silently (h.answer (List.mem_of_getElem? hr) now)
      · cases hset
  | fail i error now =>
      obtain ⟨rpc, hr, hset⟩ := Option.bind_eq_some_iff.mp hs
      simp only [Cluster.settle] at hset
      split at hset
      · cases hset
        exact h.silently (h.failed rpc error now)
      · cases hset
  | restart n =>
      cases hs
      exact h.reborn n

/-- A run with the history that grows along it. -/
structure Run.Trace (run : Run D M) where
  hist : ℕ → Hist V
  log : ℕ → NodeId → List (LogEntry V)
  start : hist 0 = History.empty
  inv : ∀ i, ClusterInv D (hist i) (log i) (run.state i)
  advance : ∀ i, Advance D (hist i) (log i) (run.state i) (hist (i + 1))
    (log (i + 1)) (run.state (i + 1)) (run.effect i)

theorem Run.next (run : Run D M) (i : ℕ)
    (h : ClusterInv D H L (run.state i)) :
    ∃ p : Hist V × (NodeId → List (LogEntry V)),
      Advance D H L (run.state i) p.1 p.2 (run.state (i + 1))
        (run.effect i) := by
  obtain ⟨c', eff, H', L', heq, hadv⟩ := h.step (run.step i)
  cases heq
  exact ⟨(H', L'), hadv⟩

theorem Run.exists_trace (run : Run D M) : Nonempty run.Trace := by
  classical
  -- the history so far, together with the fact that it fits
  let State (i : ℕ) := { p : Hist V × (NodeId → List (LogEntry V)) //
    ClusterInv D p.1 p.2 (run.state i) }
  let first : State 0 := ⟨(History.empty, fun _ => []), by
    rw [run.init]
    exact ClusterInv.init⟩
  let later (i : ℕ) (p : State i) : State (i + 1) :=
    ⟨(run.next i p.2).choose, (run.next i p.2).choose_spec.inv⟩
  let all (i : ℕ) : State i := Nat.rec first later i
  exact ⟨⟨fun i => (all i).1.1, fun i => (all i).1.2, rfl,
    fun i => (all i).2, fun i => (run.next i (all i).2).choose_spec⟩⟩

namespace Run.Trace

variable {run : Run D M} (T : run.Trace)

theorem le_succ (i : ℕ) : Le (T.hist i) (T.hist (i + 1)) := by
  obtain ⟨_, h, -⟩ := (T.advance i).here
  exact h.frame.toLe

theorem le {i j : ℕ} (h : i ≤ j) : Le (T.hist i) (T.hist j) := by
  induction h with
  | refl => exact Le.refl _
  | step _ ih => exact ih.trans (T.le_succ _)

end Run.Trace

end RustKV
