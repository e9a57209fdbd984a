import RustKV.Raft.Handlers
import RustKV.Rust.Lockstep

/-!
# A cluster of nodes and its network

Any number of nodes, each its own event loop, and everything they ever sent.
A message stays in the network once sent: delivering it leaves it there, so
it may arrive late, out of order, more than once or never, and the same goes
for replies. A reply reaches only the incarnation of the node that sent the
RPC, since the task awaiting it dies with the process.

Timers fire whenever the loop would take them, and every handler that reads
the clock is handed an arbitrary reading. A crash falls between two events;
the node comes back from its storage with everything else lost.

`Cluster.step` is the whole system as a function of the scheduler's choice;
a `Run` is one infinite sequence of such choices. A finite execution is a run
that is idle from some point on.
-/

namespace RustKV

open Rust Prog NodeM

variable {V : Type} {M : StateMachine V}

/-- How the nodes of one cluster are configured: the safety gates of
reconfiguration on, and one bootstrap membership among all nodes that do not
join later. -/
structure Deployment where
  config : NodeId → RaftConfig
  bootstrap : Finset NodeId
  id_eq : ∀ n, (config n).id = n
  gated : ∀ n, (config n).testDisableReconfigGates = false
  bootstrap_eq : ∀ n, (config n).join = false →
    ((config n).peers ++ [n]).toFinset = bootstrap

/-- An RPC in flight, with what the sending task keeps for the reply. -/
structure Rpc (M : StateMachine V) where
  src : NodeId
  /-- The incarnation of `src` whose task awaits the reply. -/
  epoch : Nat
  dst : NodeId
  request : RpcRequest V M.Payload
  tag : Tag

/-- An answer on its way back to the sender of `rpc`. -/
structure Reply (M : StateMachine V) where
  rpc : Rpc M
  response : RpcResponse

structure Cluster (M : StateMachine V) where
  nodes : NodeId → Node M
  epochs : NodeId → Nat
  /-- Every RPC ever sent. -/
  rpcs : List (Rpc M)
  /-- Every reply ever given. -/
  replies : List (Reply M)

/-- What the scheduler may pick. Messages are picked by position. -/
inductive Action (V : Type) where
  | idle
  | timeout (n : NodeId) (now : Instant)
  | heartbeat (n : NodeId) (now : Instant)
  | propose (n : NodeId) (command : Command V) (now : Instant)
  | read (n : NodeId)
  | deliver (i : Nat) (now : Instant)
  | reply (i : Nat) (now : Instant)
  /-- The transport gives up on an RPC. -/
  | fail (i : Nat) (error : TransportError) (now : Instant)
  | restart (n : NodeId)

/-- What one event did: at which node, and what it put out. -/
structure Effect (M : StateMachine V) where
  node : NodeId
  outputs : List (Output M)

namespace Cluster

/-- Every node started on an empty disk. -/
def init (D : Deployment) : Cluster M where
  nodes n := Node.boot (D.config n) Storage.empty M.new
  epochs _ := 0
  rpcs := []
  replies := []

def sent (n : NodeId) (epoch : Nat) : Output M → Option (Rpc M)
  | .send peer request tag => some ⟨n, epoch, peer, request, tag⟩
  | _ => none

/-- Runs one event of node `n`, which may answer some RPCs. -/
def exec (c : Cluster M) (n : NodeId) (body : NodeM M (List (Reply M))) :
    Except Panic (Cluster M × Effect M) :=
  match body ⟨c.nodes n, []⟩ with
  | .error p => .error p
  | .ok (answers, ctx) =>
      .ok ({ c with
        nodes := Function.update c.nodes n ctx.node
        rpcs := c.rpcs ++ ctx.out.filterMap (sent n (c.epochs n))
        replies := c.replies ++ answers }, ⟨n, ctx.out⟩)

def silently (body : NodeM M Unit) : NodeM M (List (Reply M)) := do
  body
  return []

/-- An inbound RPC and its answer. -/
def serve (now : Instant) (rpc : Rpc M) : NodeM M (List (Reply M)) := do
  let response ← handleInbound now rpc.request
  return [⟨rpc, response⟩]

/-- The process dies: every waiter's sender is dropped. -/
def lost (n : Node M) : List (Output M) :=
  n.pending.map (fun p => .dropped p.term p.index) ++
    n.role.pendingReads.map fun r => .readDropped n.currentTerm r.neededSeq

def reborn (c : Cluster M) (n : NodeId) :
    Except Panic (Cluster M × Effect M) :=
  match Node.spawn (c.nodes n).config (c.nodes n).storage with
  | .error p => .error p
  | .ok node =>
      .ok ({ c with
        nodes := Function.update c.nodes n node
        epochs := Function.update c.epochs n (c.epochs n + 1) },
        ⟨n, lost (c.nodes n)⟩)

/-- The result of an RPC, posted to the task that awaits it if that task is
still alive. -/
def settle (c : Cluster M) (rpc : Rpc M) (result : RpcResult)
    (now : Instant) : Option (Except Panic (Cluster M × Effect M)) :=
  if rpc.epoch = c.epochs rpc.src then
    some (c.exec rpc.src
      (silently (handleEvent now (rpc.tag.event rpc.dst result))))
  else none

/-- One event of the whole system; `none` if it cannot happen now. -/
def step (c : Cluster M) :
    Action V → Option (Except Panic (Cluster M × Effect M))
  | .idle => some (.ok (c, ⟨0, []⟩))
  | .timeout n now =>
      if (c.nodes n).isLeader then none
      else some (c.exec n (silently (onElectionTimeout now)))
  | .heartbeat n now =>
      if (c.nodes n).isLeader then
        some (c.exec n (silently (onHeartbeatTick now)))
      else none
  | .propose n command now =>
      some (c.exec n (silently (handlePropose now command)))
  | .read n => some (c.exec n (silently handleRead))
  | .deliver i now =>
      c.rpcs[i]?.map fun rpc => c.exec rpc.dst (serve now rpc)
  | .reply i now =>
      c.replies[i]?.bind fun r => c.settle r.rpc (.ok r.response) now
  | .fail i error now =>
      c.rpcs[i]?.bind fun rpc => c.settle rpc (.error error) now
  | .restart n => some (c.reborn n)

end Cluster

/-- One schedule of a cluster, from its start on. -/
structure Run (D : Deployment) (M : StateMachine V) where
  state : ℕ → Cluster M
  action : ℕ → Action V
  effect : ℕ → Effect M
  init : state 0 = Cluster.init D
  step : ∀ i, (state i).step (action i) =
    some (.ok (state (i + 1), effect i))

/-! ## Finite schedules

A finite list of choices that can all be made is a run that idles from then
on. -/

/-- The cluster `ids` started together, snapshots as given; every other node
is one that would join. -/
def Deployment.ofIds (ids : List NodeId) (snapshotThreshold : Option Nat) :
    Deployment where
  config n :=
    { id := n
      peers := ids.filter fun id => id ≠ n
      electionTimeoutMin := 150000
      electionTimeoutMax := 300000
      snapshotThreshold := snapshotThreshold
      snapshotTrailing := 0
      bootstrapAddrs := BTreeMap.empty
      join := n ∉ ids
      testDisableReconfigGates := false }
  bootstrap := ids.toFinset
  id_eq _ := rfl
  gated _ := rfl
  bootstrap_eq n hn := by
    have hmem : n ∈ ids := by simpa using hn
    ext m
    by_cases hm : m = n <;> simp [hm, hmem]

/-- Compares outputs that carry no state of the state machine and no
message. -/
def Output.same [DecidableEq V] : Output M → Output M → Bool
  | .committed t i v, .committed t' i' v' => t = t' ∧ i = i' ∧ v = v'
  | .dropped t i, .dropped t' i' => t = t' ∧ i = i'
  | .applied e, .applied e' => e = e'
  | .commitAdvanced t k, .commitAdvanced t' k' => t = t' ∧ k = k'
  | .proposeReply (.ok p), .proposeReply (.ok p') => p = p'
  | _, _ => false

theorem Output.mem_of_same [DecidableEq V] {o : Output M}
    {os : List (Output M)} (h : os.any o.same = true) : o ∈ os := by
  obtain ⟨o', ho', hsame⟩ := List.any_eq_true.mp h
  have heq : o = o' := by
    unfold Output.same at hsame
    split at hsame <;> simp_all
  exact heq ▸ ho'

/-- The run of a schedule that can be played. -/
def Run.ofActions (D : Deployment) (M : StateMachine V)
    (acts : List (Action V))
    (h : plays Cluster.step (Cluster.init D : Cluster M) acts = true) :
    Run D M where
  state := trail Cluster.step .idle ⟨0, []⟩ (Cluster.init D) acts
  action i := acts.getD i .idle
  effect i := (next Cluster.step ⟨0, []⟩
    (trail Cluster.step .idle ⟨0, []⟩ (Cluster.init D) acts i)
    (acts.getD i .idle)).2
  init := rfl
  step := step_trail (fun _ => rfl) h

theorem Run.of_mem_outputs {D : Deployment} {acts : List (Action V)}
    {h : plays Cluster.step (Cluster.init D : Cluster M) acts = true}
    {P : ℕ → Output M → Bool} (hall : ∀ j < acts.length,
      ((Run.ofActions D M acts h).effect j).outputs.all (P j) = true)
    {j : ℕ} {o : Output M}
    (ho : o ∈ ((Run.ofActions D M acts h).effect j).outputs) :
    P j o = true := by
  rcases Nat.lt_or_ge j acts.length with hj | hj
  · exact List.all_eq_true.mp (hall j hj) o ho
  · -- the schedule is over
    have hidle : acts.getD j .idle = .idle := by
      rw [List.getD_eq_getElem?_getD, List.getElem?_eq_none hj]
      rfl
    simp only [Run.ofActions, hidle] at ho
    cases ho

end RustKV
