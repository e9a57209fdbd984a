import RustKV.Kv.Store
import RustKV.Transport.Sim
import RustKV.Proofs.Hints
import RustKV.Proofs.Observer

/-!
# A scenario of the simulator is a run of the cluster

`Raft/Cluster.lean` lets the network do anything with a message once it is
sent. The simulator does something in particular: plans, legs, inboxes,
channels, timeouts. Every step it takes is one the cluster could take too, or
none at all (`Shadows.step`), so its scenarios are runs and everything proved
of runs holds of them (`exists_run`).

The relation between the two is about what is on its way. A task stands for the
RPC at the same place in the cluster's network, whatever is in an inbox has
been sent there, and an answer on its way back, or in a channel, was given.
-/

namespace RustKV.Sim

open Rust

variable {V : Type} {M : StateMachine V}

/-- The answer a task carries home. -/
def Stage.response? : Stage → Option RpcResponse
  | .answered _ response => some response
  | .replying _ _ response => some response
  | _ => none

/-! ## One lemma per action: what its step is -/

namespace World

variable [DecidableEq V] {w : World M} {k : Nat} {n : NodeId}
  {r : Except Panic (World M × Effect M)}

theorem step_recvInbound (hs : w.step (.recvInbound n) = some r) :
    ∃ x rest t, w.inbox n = x :: rest ∧ w.tasks[x.task]? = some t ∧
      r = w.serve n x rest t := by
  rw [step] at hs
  split at hs
  · cases hs
  · next x rest hx =>
      obtain ⟨t, ht, rfl⟩ := Option.map_eq_some_iff.mp hs
      exact ⟨x, rest, t, hx, ht, rfl⟩

theorem step_recvEvent (hs : w.step (.recvEvent n) = some r) :
    ∃ event rest, w.events n = event :: rest ∧
      r = ({ w with
        events := Function.update w.events n rest } : World M).silently n
          (handleEvent w.now event) := by
  rw [step] at hs
  split at hs
  · cases hs
  · next event rest he =>
      cases hs
      exact ⟨event, rest, he, rfl⟩

theorem step_send (hs : w.step (.send k) = some r) :
    ∃ t, w.tasks[k]? = some t ∧ r = .ok (w.begin k t, ⟨0, []⟩) := by
  rw [step] at hs
  split at hs
  · next t ht =>
      obtain ⟨-, hs⟩ := Option.ite_none_right_eq_some.mp hs
      exact ⟨t, ht, (Option.some.inj hs).symm⟩
  · cases hs

theorem step_wakeRequest (hs : w.step (.wakeRequest k) = some r) :
    ∃ t f, w.tasks[k]? = some t ∧ r = .ok (w.request k t f, ⟨0, []⟩) := by
  rw [step] at hs
  split at hs
  · next rpc f wake ht =>
      obtain ⟨-, hs⟩ := Option.ite_none_right_eq_some.mp hs
      exact ⟨_, f, ht, (Option.some.inj hs).symm⟩
  · cases hs

theorem step_wakeDuplicate (hs : w.step (.wakeDuplicate k) = some r) :
    ∃ d t, w.tasks[d.task]? = some t ∧
      r = .ok (w.duplicate k d t.rpc.dst, ⟨0, []⟩) := by
  rw [step] at hs
  split at hs
  · next d hd =>
      split at hs
      · next t ht =>
          obtain ⟨-, hs⟩ := Option.ite_none_right_eq_some.mp hs
          exact ⟨d, t, ht, (Option.some.inj hs).symm⟩
      · cases hs
  · cases hs

theorem step_startReply (hs : w.step (.startReply k) = some r) :
    ∃ t stage, w.tasks[k]? = some t ∧
      stage.response? = t.stage.response? ∧
      r = .ok (w.goto k t stage, ⟨0, []⟩) := by
  rw [step] at hs
  split at hs
  · next rpc f response ht =>
      exact ⟨_, .replying f _ response, ht, rfl, (Option.some.inj hs).symm⟩
  · cases hs

theorem step_wakeReply (hs : w.step (.wakeReply k) = some r) :
    ∃ t f response, w.tasks[k]? = some t ∧
      t.stage.response? = some response ∧
      r = .ok (w.reply k t f response, ⟨0, []⟩) := by
  rw [step] at hs
  split at hs
  · next rpc f wake response ht =>
      obtain ⟨-, hs⟩ := Option.ite_none_right_eq_some.mp hs
      exact ⟨_, f, response, ht, rfl, (Option.some.inj hs).symm⟩
  · cases hs

theorem step_expire (hs : w.step (.expire k) = some r) :
    ∃ t, w.tasks[k]? = some t ∧
      r = .ok (w.return_ k t (.error .timeout), ⟨0, []⟩) := by
  rw [step] at hs
  split at hs
  · next t ht =>
      split at hs
      · obtain ⟨-, hs⟩ := Option.ite_none_right_eq_some.mp hs
        exact ⟨t, ht, (Option.some.inj hs).symm⟩
      · cases hs
  · cases hs

end World

/-- An inbox of `n`: everything in it was sent there. -/
def Addressed (c : Cluster M) (n : NodeId) (inbox : List Inbound) : Prop :=
  ∀ x ∈ inbox, ∃ rpc, c.rpcs[x.task]? = some rpc ∧ rpc.dst = n

/-- A result `n` may be told in an incarnation: of an RPC that one sent, and
no answer that was not given. -/
def Owed (c : Cluster M) (n : NodeId) (epoch : Nat) (event : Event) : Prop :=
  ∃ rpc result, rpc ∈ c.rpcs ∧ rpc.src = n ∧ rpc.epoch = epoch ∧
    event = rpc.tag.event rpc.dst result ∧
    ∀ r, result = .ok r → ⟨rpc, r⟩ ∈ c.replies

/-- What a cluster has to be like for a scenario to be in this state. -/
structure Shadows (w : World M) (c : Cluster M) : Prop where
  nodes : c.nodes = w.nodes
  epochs : c.epochs = w.epochs
  rpcs : c.rpcs = w.tasks.map Task.rpc
  inbox : ∀ n, Addressed c n (w.inbox n)
  answers : ∀ t ∈ w.tasks, ∀ r, t.stage.response? = some r →
    ⟨t.rpc, r⟩ ∈ c.replies
  events : ∀ n, ∀ event ∈ w.events n, Owed c n (w.epochs n) event
  dead : ∀ n, w.alive n = false → w.events n = []

/-- A step of a scenario answered by the cluster. -/
def Matched (c : Cluster M) : Except Panic (World M × Effect M) → Prop
  | .error p => ∃ a, c.step a = some (.error p)
  | .ok (w, eff) => ∃ a c', c.step a = some (.ok (c', eff)) ∧ Shadows w c'

namespace Shadows

variable {w w' : World M} {c : Cluster M} {k : Nat} {n : NodeId} {t : Task M}

theorem init (D : Deployment) (seed : BitVec 64) (config : FaultConfig) :
    Shadows (World.init D seed config : World M) (Cluster.init D) where
  nodes := rfl
  epochs := rfl
  rpcs := rfl
  inbox _ _ hx := absurd hx List.not_mem_nil
  answers _ ht := absurd ht List.not_mem_nil
  events _ _ he := absurd he List.not_mem_nil
  dead _ _ := rfl

theorem idle (h : Shadows w c) : Matched c (.ok (w, ⟨0, []⟩)) :=
  ⟨.idle, c, rfl, h⟩

/-! ## Steps no node takes part in -/

theorem rpc_mem (h : Shadows w c) (ht : w.tasks[k]? = some t) :
    c.rpcs[k]? = some t.rpc := by
  rw [h.rpcs, List.getElem?_map, ht]
  rfl

theorem map_rpc_set (ht : w.tasks[k]? = some t) (stage : Stage) :
    (w.tasks.set k { t with stage := stage }).map Task.rpc =
      w.tasks.map Task.rpc := by
  refine List.ext_getElem? fun j => ?_
  rw [List.getElem?_map, List.getElem?_map, List.getElem?_set]
  split
  · next hk =>
      subst hk
      rw [ht]
      split
      · rfl
      · next hlt =>
          exact absurd (List.getElem?_eq_some_iff.mp ht).1 hlt
  · rfl

theorem goto (h : Shadows w c) (ht : w.tasks[k]? = some t) {stage : Stage}
    (hr : ∀ r, stage.response? = some r → ⟨t.rpc, r⟩ ∈ c.replies) :
    Shadows (w.goto k t stage) c where
  nodes := h.nodes
  epochs := h.epochs
  rpcs := h.rpcs.trans (map_rpc_set ht stage).symm
  inbox := h.inbox
  answers t' ht' r hr' := by
    rcases List.mem_or_eq_of_mem_set ht' with hmem | rfl
    · exact h.answers t' hmem r hr'
    · exact hr r hr'
  events := h.events
  dead := h.dead

theorem goto_mute (h : Shadows w c) (ht : w.tasks[k]? = some t)
    {stage : Stage} (hs : stage.response? = none) :
    Shadows (w.goto k t stage) c :=
  h.goto ht fun r hr => by
    rw [hs] at hr
    cases hr

theorem channel (h : Shadows w c) {events : List Event}
    (he : ∀ event ∈ events, Owed c n (w.epochs n) event)
    (hdead : w.alive n = false → events = []) :
    Shadows { w with events := Function.update w.events n events } c :=
  { h with
    events := (Function.forall_update_iff w.events fun n events =>
      ∀ event ∈ events, Owed c n (w.epochs n) event).mpr
        ⟨he, fun m _ => h.events m⟩
    dead := (Function.forall_update_iff w.events fun n events =>
      w.alive n = false → events = []).mpr ⟨hdead, fun m _ => h.dead m⟩ }

theorem mailbox (h : Shadows w c) {inbox : List Inbound}
    (hx : Addressed c n inbox) :
    Shadows { w with inbox := Function.update w.inbox n inbox } c :=
  { h with
    inbox := (Function.forall_update_iff w.inbox (Addressed c)).mpr
      ⟨hx, fun m _ => h.inbox m⟩ }

theorem post (h : Shadows w c) {rpc : Rpc M} (hrpc : rpc ∈ c.rpcs)
    {result : RpcResult} (hr : ∀ r, result = .ok r → ⟨rpc, r⟩ ∈ c.replies) :
    Shadows (w.post rpc result) c := by
  rw [World.post]
  split
  · next hopen =>
      refine h.channel (List.forall_mem_append.mpr ⟨h.events _, ?_⟩) ?_
      · rw [List.forall_mem_singleton]
        exact ⟨rpc, result, hrpc, rfl, hopen.2.symm, rfl, hr⟩
      · intro hdead
        rw [hopen.1] at hdead
        cases hdead
  · exact h

theorem return_ (h : Shadows w c) (ht : w.tasks[k]? = some t)
    {result : RpcResult}
    (hr : ∀ r, result = .ok r → ⟨t.rpc, r⟩ ∈ c.replies) :
    Shadows (w.return_ k t result) c :=
  (h.goto_mute ht rfl).post
    (List.mem_of_getElem? (h.rpc_mem ht)) hr

theorem deposit (h : Shadows w c) {x : Inbound} {rpc : Rpc M}
    (hx : c.rpcs[x.task]? = some rpc) (hn : rpc.dst = n) :
    Shadows (w.deposit n x) c :=
  h.mailbox (List.forall_mem_append.mpr ⟨h.inbox n,
    List.forall_mem_singleton.mpr ⟨rpc, hx, hn⟩⟩)

/-- The network's own state means nothing to the cluster, nor does the clock
or what is on its way a second time. -/
theorem reframe (h : Shadows w c) (net : SimNetwork V) (now : Instant)
    (duplicates : List Duplicate) :
    Shadows { w with net := net, now := now, duplicates := duplicates } c :=
  { h with }

theorem request (h : Shadows w c) (ht : w.tasks[k]? = some t) (f : Flight) :
    Shadows (w.request k t f) c := by
  rw [World.request]
  split
  · exact h.goto_mute ht rfl
  · split
    · exact (h.goto_mute ht rfl).deposit (h.rpc_mem ht) rfl
    · exact h.goto_mute ht rfl

theorem duplicate (h : Shadows w c) (d : Duplicate)
    (ht : w.tasks[d.task]? = some t) :
    Shadows (w.duplicate k d t.rpc.dst) c := by
  have h' := h.reframe w.net w.now (w.duplicates.eraseIdx k)
  rw [World.duplicate]
  split
  · exact h'.deposit (h.rpc_mem ht) rfl
  · exact h'

theorem reply (h : Shadows w c) (ht : w.tasks[k]? = some t) (f : Flight)
    {response : RpcResponse} (hr : t.stage.response? = some response) :
    Shadows (w.reply k t f response) c := by
  rw [World.reply]
  split
  · exact h.goto_mute ht rfl
  · split
    · exact h.goto_mute ht rfl
    · refine h.return_ ht fun r heq => ?_
      cases heq
      exact h.answers t (List.mem_of_getElem? ht) _ hr

theorem begin [DecidableEq V] (h : Shadows w c)
    (ht : w.tasks[k]? = some t) : Shadows (w.begin k t) c := by
  rw [World.begin]
  split
  · exact h.goto_mute ht rfl
  · split
    · next net _ =>
        exact (h.reframe net w.now w.duplicates).goto_mute ht rfl
    · next plan net _ =>
        have h' := h.reframe net w.now w.duplicates
        split
        · exact h'.return_ ht (by rintro r ⟨⟩)
        · next target _ =>
            split
            · exact (h.reframe net w.now _).goto_mute ht rfl
            · exact h'.goto_mute ht rfl

theorem crashed (h : Shadows w c) (n : NodeId) :
    Shadows (w.crashed n) c := by
  have h' : Shadows { w with
      inbox := Function.update w.inbox n []
      events := Function.update w.events n [] } c :=
    (h.channel (fun _ he => absurd he List.not_mem_nil) fun _ => rfl).mailbox
      fun _ hx => absurd hx List.not_mem_nil
  refine { h' with dead := fun m hm => ?_ }
  by_cases hmn : m = n
  · subst hmn
    exact Function.update_self m [] w.events
  · rw [World.crashed] at hm
    exact h'.dead m ((Function.update_of_ne hmn false w.alive).symm.trans hm)

/-! ## Events of a node -/

/-- What an event leaves behind, once its outputs are on the network. -/
theorem after (h : Shadows w c) (x : Node M) (sent : List (Rpc M))
    (answers : List (Reply M)) :
    Shadows { w with
      nodes := Function.update w.nodes n x
      tasks := w.tasks ++ sent.map fun rpc => ⟨rpc, .spawned⟩ }
    { c with
      nodes := Function.update c.nodes n x
      rpcs := c.rpcs ++ sent
      replies := c.replies ++ answers } where
  nodes := by rw [h.nodes]
  epochs := h.epochs
  rpcs := by
    rw [h.rpcs, List.map_append, List.map_map]
    exact congrArg _ (List.map_id sent).symm
  inbox m x hx := by
    obtain ⟨rpc, hrpc, hdst⟩ := h.inbox m x hx
    exact ⟨rpc, Consensus.getElem?_of_isPrefix ⟨sent, rfl⟩ hrpc, hdst⟩
  answers t ht r hr := by
    rcases List.mem_append.mp ht with ht | ht
    · exact List.mem_append_left _ (h.answers t ht r hr)
    · obtain ⟨rpc, -, rfl⟩ := List.mem_map.mp ht
      cases hr
  events m event he := by
    obtain ⟨rpc, result, hrpc, hsrc, hep, hev, hr⟩ := h.events m event he
    exact ⟨rpc, result, List.mem_append_left _ hrpc, hsrc, hep, hev,
      fun r heq => List.mem_append_left _ (hr r heq)⟩
  dead := h.dead

theorem silently (h : Shadows w c) {body : NodeM M Unit}
    {a : RustKV.Action V}
    (ha : c.step a = some (c.exec n (Cluster.silently body))) :
    Matched c (w.silently n body) := by
  rw [World.silently, World.exec]
  rw [Cluster.exec, Cluster.silently, h.nodes] at ha
  cases hb : body ⟨w.nodes n, []⟩ with
  | error p =>
      refine ⟨a, ?_⟩
      rw [ha]
      simp only [bind, StateT.bind, Except.bind, hb]
  | ok x =>
      obtain ⟨u, ctx⟩ := x
      refine ⟨a, _, ?_, h.after (n := n) ctx.node
        (ctx.out.filterMap (Cluster.sent n (w.epochs n))) []⟩
      rw [ha, Prog.bind_of_ok hb, h.nodes, h.epochs]
      rfl

theorem answer (h : Shadows w c) {x : Inbound} {rpc : Rpc M}
    {response : RpcResponse} (hx : c.rpcs[x.task]? = some rpc)
    (hr : ⟨rpc, response⟩ ∈ c.replies) : Shadows (w.answer x response) c := by
  rw [World.answer]
  split
  · next t ht =>
      have hrpc : t.rpc = rpc := by
        rw [h.rpc_mem ht] at hx
        exact Option.some.inj hx
      split
      · refine h.goto ht fun r heq => ?_
        cases heq
        rw [hrpc]
        exact hr
      · exact h
  · exact h

theorem serve (h : Shadows w c) {x : Inbound} {rest : List Inbound}
    (hx : w.inbox n = x :: rest) (ht : w.tasks[x.task]? = some t) :
    Matched c (w.serve n x rest t) := by
  have hrpc := h.rpc_mem ht
  have hn : t.rpc.dst = n := by
    obtain ⟨rpc, hrpc', hdst⟩ := h.inbox n x (by
      rw [hx]
      exact List.mem_cons_self)
    rw [hrpc] at hrpc'
    cases hrpc'
    exact hdst
  have ha : c.step (.deliver x.task w.now) =
      some (c.exec n (Cluster.serve w.now t.rpc)) := by
    rw [Cluster.step, hrpc, Option.map_some, hn]
  have h' : Shadows { w with inbox := Function.update w.inbox n rest } c :=
    h.mailbox fun y hy => h.inbox n y (by
      rw [hx]
      exact List.mem_cons_of_mem x hy)
  rw [World.serve, World.exec]
  rw [Cluster.exec, Cluster.serve, h.nodes] at ha
  cases hb : handleInbound w.now t.rpc.request ⟨w.nodes n, []⟩ with
  | error p =>
      refine ⟨_, ha.trans ?_⟩
      simp only [bind, StateT.bind, Except.bind, hb]
  | ok y =>
      obtain ⟨response, ctx⟩ := y
      have hafter := h'.after (n := n) ctx.node
        (ctx.out.filterMap (Cluster.sent n (w.epochs n))) [⟨t.rpc, response⟩]
      refine ⟨.deliver x.task w.now, _, ?_, hafter.answer
        (Consensus.getElem?_of_isPrefix ⟨_, rfl⟩ hrpc)
        (List.mem_append_right _ List.mem_cons_self)⟩
      rw [ha, Prog.bind_of_ok hb, h.nodes, h.epochs]
      rfl

theorem recvEvent (h : Shadows w c) {event : Event} {rest : List Event}
    (he : w.events n = event :: rest) :
    Matched c (({ w with
      events := Function.update w.events n rest } : World M).silently n
        (handleEvent w.now event)) := by
  have hall : ∀ ev ∈ event :: rest, Owed c n (w.epochs n) ev := by
    rw [← he]
    exact h.events n
  have h' : Shadows { w with
      events := Function.update w.events n rest } c := by
    refine h.channel (List.forall_mem_of_forall_mem_cons hall) fun hdead => ?_
    rw [h.dead n hdead] at he
    cases he
  obtain ⟨rpc, result, hrpc, rfl, hep, rfl, hr⟩ :=
    hall event List.mem_cons_self
  have hsettle : c.settle rpc result w.now = some (c.exec rpc.src
      (Cluster.silently (handleEvent w.now
        (rpc.tag.event rpc.dst result)))) := by
    rw [Cluster.settle, h.epochs, if_pos hep]
  cases result with
  | ok response =>
      obtain ⟨j, hj⟩ := List.mem_iff_getElem?.mp (hr response rfl)
      refine h'.silently (a := .reply j w.now) ?_
      rw [Cluster.step, hj]
      exact hsettle
  | error error =>
      obtain ⟨k, hk⟩ := List.mem_iff_getElem?.mp hrpc
      refine h'.silently (a := .fail k error w.now) ?_
      rw [Cluster.step, hk]
      exact hsettle

theorem reborn (h : Shadows w c) (hn : w.alive n = false) :
    Matched c (w.reborn n) := by
  have ha : c.step (.restart n) = some (c.reborn n) := rfl
  rw [World.reborn]
  rw [Cluster.reborn, h.nodes] at ha
  cases hs : Node.spawn (w.nodes n).config (w.nodes n).storage with
  | error p =>
      refine ⟨_, ha.trans ?_⟩
      rw [hs]
  | ok x =>
      rw [hs] at ha
      refine ⟨_, _, ha, ?_⟩
      refine { h with
        nodes := rfl
        epochs := by rw [h.epochs]
        events := fun m event he => ?_
        dead := fun m hm => ?_ }
      · have hmn : m ≠ n := by
          rintro rfl
          rw [h.dead m hn] at he
          cases he
        show Owed c m (Function.update w.epochs n (w.epochs n + 1) m) event
        rw [Function.update_of_ne hmn]
        exact h.events m event he
      · by_cases hmn : m = n
        · subst hmn
          exact h.dead m hn
        · exact h.dead m
            ((Function.update_of_ne hmn true w.alive).symm.trans hm)

theorem spawned (h : Shadows w c) (net : SimNetwork V) (n : NodeId) :
    Shadows { w with alive := Function.update w.alive n true, net := net }
      c :=
  { h with
    dead := fun m hm => h.dead m <| by
      have hmn : m ≠ n := by
        rintro rfl
        simp at hm
      exact (Function.update_of_ne hmn true w.alive).symm.trans hm }

/-! ## Steps -/

variable [DecidableEq V]

/-- Every step of a scenario, a panic included, is one the cluster can
make. -/
theorem step (h : Shadows w c) {a : Action V}
    {r : Except Panic (World M × Effect M)} (hs : w.step a = some r) :
    Matched c r := by
  cases a with
  | advance d =>
      cases hs
      exact (h.reframe w.net (w.now + d) w.duplicates).idle
  | setLinkBlocked src dst blocked =>
      obtain ⟨-, hs⟩ := Option.ite_none_left_eq_some.mp hs
      cases hs
      exact (h.reframe _ w.now w.duplicates).idle
  | setFaultConfig config =>
      obtain ⟨-, hs⟩ := Option.ite_none_left_eq_some.mp hs
      cases hs
      exact (h.reframe _ w.now w.duplicates).idle
  | spawn n =>
      obtain ⟨-, hs⟩ := Option.ite_none_left_eq_some.mp hs
      cases hs
      exact (h.spawned _ n).idle
  | crash n =>
      obtain ⟨-, hs⟩ := Option.ite_none_right_eq_some.mp hs
      cases hs
      exact (h.crashed n).idle
  | restart n =>
      obtain ⟨hg, hs⟩ := Option.ite_none_left_eq_some.mp hs
      cases hs
      exact h.reborn (by simpa using fun hal => hg (.inr (.inl hal)))
  | timeout n =>
      obtain ⟨hg, hs⟩ := Option.ite_none_right_eq_some.mp hs
      cases hs
      refine h.silently (a := .timeout n w.now) ?_
      rw [Cluster.step, h.nodes, if_neg (by simpa using hg.2)]
  | heartbeat n =>
      obtain ⟨hg, hs⟩ := Option.ite_none_right_eq_some.mp hs
      cases hs
      refine h.silently (a := .heartbeat n w.now) ?_
      rw [Cluster.step, h.nodes, if_pos hg.2]
  | propose n command =>
      obtain ⟨-, hs⟩ := Option.ite_none_right_eq_some.mp hs
      cases hs
      exact h.silently (a := .propose n command w.now) rfl
  | read n =>
      obtain ⟨-, hs⟩ := Option.ite_none_right_eq_some.mp hs
      cases hs
      exact h.silently (a := .read n) rfl
  | recvInbound n =>
      obtain ⟨x, rest, t, hx, ht, rfl⟩ := World.step_recvInbound hs
      exact h.serve hx ht
  | recvEvent n =>
      obtain ⟨event, rest, he, rfl⟩ := World.step_recvEvent hs
      exact h.recvEvent he
  | send k =>
      obtain ⟨t, ht, rfl⟩ := World.step_send hs
      exact (h.begin ht).idle
  | wakeRequest k =>
      obtain ⟨t, f, ht, rfl⟩ := World.step_wakeRequest hs
      exact (h.request ht f).idle
  | wakeDuplicate k =>
      obtain ⟨d, t, ht, rfl⟩ := World.step_wakeDuplicate hs
      exact (h.duplicate d ht).idle
  | startReply k =>
      obtain ⟨t, stage, ht, hresp, rfl⟩ := World.step_startReply hs
      refine (h.goto ht fun r hr => ?_).idle
      exact h.answers t (List.mem_of_getElem? ht) r (hresp ▸ hr)
  | wakeReply k =>
      obtain ⟨t, f, response, ht, hresp, rfl⟩ := World.step_wakeReply hs
      exact (h.reply ht f hresp).idle
  | expire k =>
      obtain ⟨t, ht, rfl⟩ := World.step_expire hs
      exact (h.return_ ht (by rintro r ⟨⟩)).idle

end Shadows

/-! ## What a step does to the network

Only a send touches the observer, the generator and the lock. -/

namespace World

variable (w : World M) (k : Nat) (t : Task M)

@[simp]
theorem goto_net (stage : Stage) : (w.goto k t stage).net = w.net := rfl

@[simp]
theorem post_net (rpc : Rpc M) (result : RpcResult) :
    (w.post rpc result).net = w.net := by
  rw [post]
  split <;> rfl

@[simp]
theorem return_net (result : RpcResult) :
    (w.return_ k t result).net = w.net := by
  rw [return_, post_net, goto_net]

@[simp]
theorem request_net (f : Flight) : (w.request k t f).net = w.net := by
  rw [request]
  split
  · rfl
  · split <;> rfl

@[simp]
theorem duplicate_net (d : Duplicate) (dst : NodeId) :
    (w.duplicate k d dst).net = w.net := by
  rw [duplicate]
  split <;> rfl

@[simp]
theorem reply_net (f : Flight) (response : RpcResponse) :
    (w.reply k t f response).net = w.net := by
  rw [reply]
  split
  · rfl
  · split
    · rfl
    · exact w.return_net k t _

@[simp]
theorem answer_net (x : Inbound) (response : RpcResponse) :
    (w.answer x response).net = w.net := by
  rw [answer]
  split
  · split <;> rfl
  · rfl

variable {w k t} {w' : World M} {eff : Effect M}

theorem exec_net {α : Type} {n : NodeId} {body : NodeM M α}
    {x : α × World M × Effect M} (h : w.exec n body = .ok x) :
    x.2.1.net = w.net := by
  rw [exec] at h
  split at h
  · cases h
  · cases h
    rfl

theorem silently_net {n : NodeId} {body : NodeM M Unit}
    (h : w.silently n body = .ok (w', eff)) : w'.net = w.net := by
  rw [silently] at h
  cases hx : w.exec n body with
  | error p =>
      rw [hx] at h
      cases h
  | ok x =>
      obtain ⟨_, w₁, eff₁⟩ := x
      rw [hx] at h
      cases h
      exact exec_net hx

theorem serve_net {n : NodeId} {x : Inbound} {rest : List Inbound}
    (h : w.serve n x rest t = .ok (w', eff)) : w'.net = w.net := by
  rw [serve] at h
  cases hx : ({ w with inbox := Function.update w.inbox n rest } :
      World M).exec n (handleInbound w.now t.rpc.request) with
  | error p =>
      rw [hx] at h
      cases h
  | ok y =>
      rw [hx] at h
      cases h
      have hnet := exec_net hx
      exact (answer_net ..).trans hnet

theorem reborn_observer {n : NodeId} (h : w.reborn n = .ok (w', eff)) :
    w'.net.observer = w.net.observer := by
  rw [reborn] at h
  split at h
  · cases h
  · cases h
    rfl

variable [DecidableEq V]

theorem begin_observer : (w.begin k t).net.observer = w.net.observer ∨
    (w.begin k t).net.observer =
      w.net.observer.inspectAppendEntries t.rpc.request := by
  rw [begin]
  split
  · exact .inl rfl
  · right
    have hplan : (w.net.planSend t.rpc.src t.rpc.dst t.rpc.request).2.observer =
        w.net.observer.inspectAppendEntries t.rpc.request := by
      rw [SimNetwork.planSend]
      split <;> rfl
    split
    · next net hnet =>
        rw [hnet] at hplan
        exact hplan
    · next plan net hnet =>
        rw [hnet] at hplan
        split
        · rw [return_net]
          exact hplan
        · rw [goto_net]
          split <;> exact hplan

/-- One request is shown to the observer at a time, when it is sent. -/
theorem step_observer {a : Action V}
    (hs : w.step a = some (.ok (w', eff))) :
    w'.net.observer = w.net.observer ∨ ∃ t ∈ w.tasks, w'.net.observer =
      w.net.observer.inspectAppendEntries t.rpc.request := by
  cases a with
  | send k =>
      obtain ⟨t, ht, ⟨⟩⟩ := step_send hs
      exact begin_observer.imp_right
        fun h => ⟨t, List.mem_of_getElem? ht, h⟩
  | advance d =>
      cases hs
      exact .inl rfl
  | setLinkBlocked src dst blocked | setFaultConfig config | spawn n =>
      obtain ⟨-, hs⟩ := Option.ite_none_left_eq_some.mp hs
      cases hs
      exact .inl rfl
  | crash n =>
      obtain ⟨-, hs⟩ := Option.ite_none_right_eq_some.mp hs
      cases hs
      exact .inl rfl
  | restart n =>
      obtain ⟨-, hs⟩ := Option.ite_none_left_eq_some.mp hs
      exact .inl (reborn_observer (Option.some.inj hs))
  | timeout n | heartbeat n | propose n | read n =>
      obtain ⟨-, hs⟩ := Option.ite_none_right_eq_some.mp hs
      have hnet := silently_net (Option.some.inj hs)
      exact .inl (congrArg SimNetwork.observer hnet)
  | recvInbound n =>
      obtain ⟨x, rest, t, -, -, hr⟩ := step_recvInbound hs
      have hnet := serve_net hr.symm
      exact .inl (congrArg SimNetwork.observer hnet)
  | recvEvent n =>
      obtain ⟨event, rest, -, hr⟩ := step_recvEvent hs
      have hnet := silently_net hr.symm
      exact .inl (congrArg SimNetwork.observer hnet)
  | wakeRequest k =>
      obtain ⟨t, f, -, ⟨⟩⟩ := step_wakeRequest hs
      rw [request_net]
      exact .inl rfl
  | wakeDuplicate k =>
      obtain ⟨d, t, -, ⟨⟩⟩ := step_wakeDuplicate hs
      rw [duplicate_net]
      exact .inl rfl
  | startReply k =>
      obtain ⟨t, stage, -, -, ⟨⟩⟩ := step_startReply hs
      exact .inl rfl
  | wakeReply k =>
      obtain ⟨t, f, response, -, -, ⟨⟩⟩ := step_wakeReply hs
      rw [reply_net]
      exact .inl rfl
  | expire k =>
      obtain ⟨t, -, ⟨⟩⟩ := step_expire hs
      rw [return_net]
      exact .inl rfl

end World

/-! ## Scenarios -/

variable [DecidableEq V] {D : Deployment}

namespace SimRun

/-- The run a scenario is, with its state and effects at every step. -/
structure Tracks (W : SimRun D M) (run : Run D M) : Prop where
  shadows : ∀ i, Shadows (W.state i) (run.state i)
  effect : ∀ i, run.effect i = W.effect i

theorem exists_tracks (W : SimRun D M) : ∃ run, W.Tracks run := by
  obtain ⟨f, hfirst, hmatch, hnext⟩ := exists_lockstep
    (fun c => c = (Cluster.init D : Cluster M))
    (fun i c => Shadows (W.state i) c)
    (fun i c c' => ∃ a, c.step a = some (.ok (c', W.effect i)))
    ⟨_, rfl, by
      rw [W.init]
      exact Shadows.init D W.seed W.config⟩
    (fun i c h => by
      obtain ⟨a, c', ha, h'⟩ := h.step (W.step i)
      exact ⟨c', ⟨a, ha⟩, h'⟩)
  choose acts hacts using hnext
  exact ⟨⟨f, acts, W.effect, hfirst, hacts⟩, hmatch, fun _ => rfl⟩

end SimRun

/-- A scenario is a run of the cluster: the nodes, their incarnations and
everything sent are the same at every moment, and every step puts out the
same. Nothing that can happen in it makes a node panic. -/
theorem scenario_refines (W : SimRun D M) :
    (∃ run : Run D M, ∀ i, (run.state i).nodes = (W.state i).nodes ∧
      (run.state i).epochs = (W.state i).epochs ∧
      (run.state i).rpcs = (W.state i).tasks.map Task.rpc ∧
      run.effect i = W.effect i) ∧
    ∀ i a p, (W.state i).step a ≠ some (.error p) := by
  obtain ⟨run, hrun⟩ := W.exists_tracks
  refine ⟨⟨run, fun i => ?_⟩, fun i a p hs => ?_⟩
  · have h := hrun.shadows i
    exact ⟨h.nodes, h.epochs, h.rpcs, hrun.effect i⟩
  · obtain ⟨b, hb⟩ := (hrun.shadows i).step hs
    obtain ⟨T⟩ := run.exists_trace
    obtain ⟨_, _, _, _, hok, -⟩ := (T.inv i).step hb
    cases hok

/-! ## The observer has nothing to report -/

/-- Every claim the observer was shown was sent. -/
theorem SimRun.Tracks.observed {W : SimRun D M} {run : Run D M}
    (h : W.Tracks run) (i : ℕ) :
    ∃ reqs : List (RpcRequest V M.Payload),
      (W.state i).net.observer = Observer.afterAll reqs ∧
      ∀ req ∈ reqs, ∃ r ∈ (run.state i).rpcs, r.request = req := by
  induction i with
  | zero =>
      refine ⟨[], ?_, List.forall_mem_nil _⟩
      rw [W.init]
      rfl
  | succ i ih =>
      obtain ⟨reqs, hobs, hsent⟩ := ih
      have hgrow := (run.network_grows (Nat.le_succ i)).1.subset
      have hsent' : ∀ req ∈ reqs, ∃ r ∈ (run.state (i + 1)).rpcs,
          r.request = req := fun req hreq => by
        obtain ⟨r, hr, heq⟩ := hsent req hreq
        exact ⟨r, hgrow hr, heq⟩
      rcases World.step_observer (W.step i) with ho | ⟨t, ht, ho⟩
      · exact ⟨reqs, ho.trans hobs, hsent'⟩
      · refine ⟨reqs ++ [t.rpc.request], ?_, ?_⟩
        · rw [ho, hobs, Observer.afterAll, Observer.afterAll,
            List.foldl_append]
          rfl
        · refine List.forall_mem_append.mpr ⟨hsent',
            List.forall_mem_singleton.mpr ⟨t.rpc, hgrow ?_, rfl⟩⟩
          rw [(h.shadows i).rpcs]
          exact List.mem_map_of_mem ht

/-- Messages of one run agree about who leads and what stands where, and hang
together. -/
theorem afterAll_violations {run : Run D M} {i : ℕ}
    {reqs : List (RpcRequest V M.Payload)}
    (hsent : ∀ req ∈ reqs, ∃ r ∈ (run.state i).rpcs, r.request = req)
    (hr : ∀ a ∈ appends reqs, a.InRange) :
    (Observer.afterAll reqs).violations = [] := by
  obtain ⟨T⟩ := run.exists_trace
  have hs := (T.inv i).sound
  have hmem : ∀ a ∈ appends reqs, ∃ r ∈ (run.state i).rpcs,
      r.request = .appendEntries a ∧ AppendOk (T.hist i) r.src a := by
    intro a ha
    obtain ⟨req, hreq, happ⟩ := List.mem_filterMap.mp ha
    obtain ⟨r, hr, rfl⟩ := hsent req hreq
    have hok := (T.inv i).rpcs r hr
    cases hq : r.request with
    | appendEntries b =>
        rw [hq] at happ hok
        cases happ
        exact ⟨r, hr, hq, hok.1⟩
    | _ =>
        rw [hq] at happ
        cases happ
  rw [Observer.violations_eq_nil_iff]
  refine ⟨?_, ?_, fun a ha => ?_⟩
  · rw [← not_not (a := Agree _), not_agree_claims_iff]
    rintro ⟨a, ha, b, hb, ht, hne⟩
    obtain ⟨r, -, -, hra⟩ := hmem a ha
    obtain ⟨r', -, -, hrb⟩ := hmem b hb
    obtain ⟨x, hx⟩ := hra.led
    obtain ⟨y, hy⟩ := hrb.led
    rw [← ht, hx] at hy
    have hsrc : r.src = r'.src := congrArg Prod.fst (Option.some.inj hy)
    exact hne (hra.leaderId.trans (hsrc.trans hrb.leaderId.symm))
  · rw [← not_not (a := Agree _), not_agree_ships_iff]
    rintro ⟨a, ha, e, he, b, hb, e', he', ht, hi, hne⟩
    obtain ⟨r, hr, hra, -⟩ := hmem a ha
    obtain ⟨r', hr', hrb, -⟩ := hmem b hb
    have heq : e = e' := T.holds_unique (.inr ⟨r, hr, a, hra, he⟩)
      (.inr ⟨r', hr', b, hrb, he'⟩) ht hi
    exact hne (congrArg LogEntry.command heq)
  · obtain ⟨r, -, -, hra⟩ := hmem a ha
    have hshape := hra.wellShaped hs
    exact (Observer.wellFormed_iff (hr a ha)).mpr
      ⟨hshape.index, hshape.mono, fun e he => hshape.le_term _
        (List.mem_cons_of_mem _ (List.mem_map_of_mem he))⟩

/-- No scenario makes the network's observer report anything, before or after
faults, crashes and changes of membership, as long as no message reaches the
end of the index range. -/
theorem observer_silent (W : SimRun D M) (i : ℕ)
    (hr : ∀ t ∈ (W.state i).tasks, ∀ a, t.rpc.request = .appendEntries a →
      a.InRange) : (W.state i).net.safetyViolations = [] := by
  obtain ⟨run, hrun⟩ := W.exists_tracks
  obtain ⟨reqs, hobs, hsent⟩ := hrun.observed i
  rw [SimNetwork.safetyViolations, hobs]
  refine afterAll_violations hsent fun a ha => ?_
  obtain ⟨req, hreq, happ⟩ := List.mem_filterMap.mp ha
  obtain ⟨r, hmem, rfl⟩ := hsent req hreq
  rw [(hrun.shadows i).rpcs] at hmem
  obtain ⟨t, ht, rfl⟩ := List.mem_map.mp hmem
  refine hr t ht a ?_
  cases hq : t.rpc.request with
  | appendEntries b =>
      rw [hq] at happ
      cases happ
      rfl
  | _ =>
      rw [hq] at happ
      cases happ

/-- Two nodes elect the first one over a network that delays, and its first
AppendEntries is on its way. -/
def electionScenario :
    SimRun (Deployment.ofIds [1, 2] none) (KvStore.machine Nat) :=
  SimRun.ofActions _ _ 7 ⟨1000, 10000, 0, 0, 100000⟩
    [.spawn 1, .spawn 2, .timeout 1,
      .send 0, .advance 10000, .wakeRequest 0, .recvInbound 2,
      .startReply 0, .advance 10000, .wakeReply 0, .recvEvent 1,
      .send 1, .advance 10000, .wakeRequest 1, .recvInbound 2,
      .startReply 1, .advance 10000, .wakeReply 1, .recvEvent 1, .send 2]
    (by decide +kernel)

theorem observer_silent_election :
    ((electionScenario.state 20).nodes 1).isLeader = true ∧
      (electionScenario.state 20).net.safetyViolations = [] := by
  refine ⟨by decide +kernel, observer_silent electionScenario 20 ?_⟩
  have hall : ∀ a ∈ appends ((electionScenario.state 20).tasks.map fun t =>
      t.rpc.request), a.InRange := by decide +kernel
  intro t ht a ha
  exact hall a (List.mem_filterMap.mpr
    ⟨t.rpc.request, List.mem_map_of_mem ht, by rw [ha]; rfl⟩)

end RustKV.Sim
