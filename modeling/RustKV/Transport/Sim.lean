import RustKV.Raft.Cluster
import RustKV.Raft.Rng
import RustKV.Rust.Lockstep
import RustKV.Transport.Observer

/-!
# The simulated network (`raft/transport/sim.rs`)

Nodes in one process, connected by a network that delays, loses, duplicates
and blocks messages as a seeded generator says. `SimNetwork` is the state
behind the network's lock. `World` is all of a scenario: the nodes, their
inboxes and event channels, the virtual clock, and the tasks that carry RPCs.

`SimTransport::send` is one task per RPC. What it does between two waits is a
step: the critical section that draws the whole plan of the exchange, the end
of the request leg, the arrival of the answer, the end of the reply leg, the
timeout. A duplicate is a task of its own. Which task goes on next is up to
the scheduler, and so is when a node's timers fire; a sleep ends at its time or
later, never before.

A draw from an invalid configuration panics with the lock held. The lock is
poisoned from then on, and every task that asks for it dies.
-/

namespace RustKV.Sim

open Rust

structure FaultConfig where
  /-- Delay bounds, for each leg of an exchange. -/
  minDelay : Duration
  maxDelay : Duration
  /-- That a leg is lost. -/
  dropProbability : ℚ
  /-- That a request is delivered twice. -/
  duplicateProbability : ℚ
  rpcTimeout : Duration

instance : Inhabited FaultConfig := ⟨⟨1000, 10000, 0, 0, 100000⟩⟩

/-- The `State` of the network. A registered inbox is the incarnation of the
node that reads it. -/
structure SimNetwork (V : Type) where
  rng : SplitMix64
  config : FaultConfig
  nodes : NodeId → Option Nat
  /-- Directed links whose messages are dropped. -/
  blocked : Finset (NodeId × NodeId)
  observer : Observer V
  /-- Whether a thread has panicked while it held the lock. -/
  poisoned : Bool

/-- Everything random about one send, drawn up front. -/
structure SendPlan where
  target : Option Nat
  reqBlocked : Bool
  reqDropped : Bool
  reqDelay : Duration
  respDropped : Bool
  respDelay : Duration
  reqDuplicated : Bool
  dupDelay : Duration
  rpcTimeout : Duration
  deriving DecidableEq

/-- `u64::try_from(..).expect(..)` of a duration in microseconds. -/
def toU64 (d : Duration) : Option (BitVec 64) :=
  if d < 2 ^ 64 then some (BitVec.ofNat 64 d) else none

/-- `none` where the configuration is asserted against. -/
def drawDelay (rng : SplitMix64) (cfg : FaultConfig) :
    Option (Duration × SplitMix64) := do
  let lo ← toU64 cfg.minDelay
  let hi ← toU64 cfg.maxDelay
  let (delay, rng) ← rng.nextRange lo hi
  return (delay.toNat, rng)

namespace SimNetwork

variable {V P : Type}

def new (seed : BitVec 64) (config : FaultConfig) : SimNetwork V where
  rng := .new seed
  config := config
  nodes _ := none
  blocked := ∅
  observer := .new
  poisoned := false

/-- A new inbox for `id` replaces the old one. -/
def register (net : SimNetwork V) (id : NodeId) (incarnation : Nat) :
    SimNetwork V :=
  { net with nodes := Function.update net.nodes id (some incarnation) }

def setLinkBlocked (net : SimNetwork V) (src dst : NodeId) (blocked : Bool) :
    SimNetwork V :=
  { net with
    blocked := if blocked then insert (src, dst) net.blocked
      else net.blocked.erase (src, dst) }

def setFaultConfig (net : SimNetwork V) (config : FaultConfig) :
    SimNetwork V :=
  { net with config := config }

def safetyViolations (net : SimNetwork V) : List String :=
  net.observer.violations

/-- The plan of a send from `src` to `dst`, and the generator after it. -/
def drawPlan (net : SimNetwork V) (src dst : NodeId) :
    Option (SendPlan × SplitMix64) := do
  let cfg := net.config
  let (reqDropped, rng) := net.rng.nextBool cfg.dropProbability
  let (reqDelay, rng) ← drawDelay rng cfg
  let (respDropped, rng) := rng.nextBool cfg.dropProbability
  let (respDelay, rng) ← drawDelay rng cfg
  let (reqDuplicated, rng) := rng.nextBool cfg.duplicateProbability
  let (dupDelay, rng) ← drawDelay rng cfg
  return ({
    target := net.nodes dst
    reqBlocked := (src, dst) ∈ net.blocked
    reqDropped := reqDropped
    reqDelay := reqDelay
    respDropped := respDropped
    respDelay := respDelay
    reqDuplicated := reqDuplicated
    dupDelay := dupDelay
    rpcTimeout := cfg.rpcTimeout }, rng)

variable [DecidableEq V]

/-- The critical section of `send`. -/
def planSend (net : SimNetwork V) (src dst : NodeId)
    (request : RpcRequest V P) : Option SendPlan × SimNetwork V :=
  let net := { net with observer := net.observer.inspectAppendEntries request }
  match net.drawPlan src dst with
  | some (plan, rng) => (some plan, { net with rng := rng })
  | none => (none, { net with poisoned := true })

end SimNetwork

/-! ## Tasks -/

/-- What the task of an RPC goes on with once it has its plan. -/
structure Flight where
  plan : SendPlan
  /-- The inbox the request goes to. -/
  target : Nat
  /-- When the sender gives up. -/
  deadline : Instant
  deriving DecidableEq

inductive Stage where
  | spawned
  /-- On the request leg. -/
  | sleeping (f : Flight) (wake : Instant)
  /-- Delivered; the answer is awaited. -/
  | waiting (f : Flight)
  | answered (f : Flight) (response : RpcResponse)
  /-- On the reply leg. -/
  | replying (f : Flight) (wake : Instant) (response : RpcResponse)
  /-- A future that never resolves, until the sender gives up. -/
  | stuck (f : Flight)
  /-- Returned, or died. -/
  | finished
  deriving DecidableEq

/-- Whether the timeout can win: the exchange itself is asked first, and has
nothing to go on with. -/
def Stage.expires (now : Instant) : Stage → Option Flight
  | .sleeping f wake => if now < wake then some f else none
  | .waiting f => some f
  | .replying f wake _ => if now < wake then some f else none
  | .stuck f => some f
  | _ => none

variable {V : Type} {M : StateMachine V}

structure Task (M : StateMachine V) where
  rpc : Rpc M
  stage : Stage

/-- A second copy of the request of a task, on its own clock. -/
structure Duplicate where
  task : Nat
  target : Nat
  wake : Instant

/-- An RPC in an inbox. Nobody waits for the answer to a second copy. -/
structure Inbound where
  task : Nat
  primary : Bool
  deriving DecidableEq

structure World (M : StateMachine V) where
  nodes : NodeId → Node M
  epochs : NodeId → Nat
  /-- Whether the event loop of a node is running. -/
  alive : NodeId → Bool
  net : SimNetwork V
  now : Instant
  /-- One for each RPC ever sent. -/
  tasks : List (Task M)
  duplicates : List Duplicate
  inbox : NodeId → List Inbound
  events : NodeId → List Event

inductive Action (V : Type) where
  | advance (d : Duration)
  | setLinkBlocked (src dst : NodeId) (blocked : Bool)
  | setFaultConfig (config : FaultConfig)
  /-- A node started for the first time. -/
  | spawn (n : NodeId)
  | crash (n : NodeId)
  | restart (n : NodeId)
  -- the arms of a node's event loop
  | timeout (n : NodeId)
  | heartbeat (n : NodeId)
  | propose (n : NodeId) (command : Command V)
  | read (n : NodeId)
  | recvInbound (n : NodeId)
  | recvEvent (n : NodeId)
  -- the tasks
  | send (k : Nat)
  | wakeRequest (k : Nat)
  | wakeDuplicate (k : Nat)
  | startReply (k : Nat)
  | wakeReply (k : Nat)
  | expire (k : Nat)

namespace World

/-- No node started yet. -/
def init (D : Deployment) (seed : BitVec 64) (config : FaultConfig) :
    World M where
  nodes n := Node.boot (D.config n) Storage.empty M.new
  epochs _ := 0
  alive _ := false
  net := .new seed config
  now := 0
  tasks := []
  duplicates := []
  inbox _ := []
  events _ := []

def goto (w : World M) (k : Nat) (t : Task M) (stage : Stage) : World M :=
  { w with tasks := w.tasks.set k { t with stage := stage } }

/-- The result of an RPC goes to the event channel of the node that sent it,
if that is still the same. -/
def post (w : World M) (rpc : Rpc M) (result : RpcResult) : World M :=
  if w.alive rpc.src = true ∧ w.epochs rpc.src = rpc.epoch then
    { w with
      events := Function.update w.events rpc.src
        (w.events rpc.src ++ [rpc.tag.event rpc.dst result]) }
  else w

/-- `send` returns. -/
def return_ (w : World M) (k : Nat) (t : Task M) (result : RpcResult) :
    World M :=
  (w.goto k t .finished).post t.rpc result

/-- Whether an inbox is still read. -/
def opened (w : World M) (n : NodeId) (incarnation : Nat) : Bool :=
  w.alive n && decide (w.epochs n = incarnation)

def deposit (w : World M) (n : NodeId) (x : Inbound) : World M :=
  { w with inbox := Function.update w.inbox n (w.inbox n ++ [x]) }

/-- One event of node `n`: every RPC it sends is a new task. -/
def exec {α : Type} (w : World M) (n : NodeId) (body : NodeM M α) :
    Except Panic (α × World M × Effect M) :=
  match body ⟨w.nodes n, []⟩ with
  | .error p => .error p
  | .ok (a, ctx) =>
      let sent := ctx.out.filterMap (Cluster.sent n (w.epochs n))
      .ok (a, { w with
        nodes := Function.update w.nodes n ctx.node
        tasks := w.tasks ++ sent.map fun rpc => ⟨rpc, .spawned⟩ },
        ⟨n, ctx.out⟩)

def silently (w : World M) (n : NodeId) (body : NodeM M Unit) :
    Except Panic (World M × Effect M) :=
  (w.exec n body).map fun x => x.2

/-- The answer to an inbound RPC; its sender may have given up on it. -/
def answer (w : World M) (x : Inbound) (response : RpcResponse) : World M :=
  match w.tasks[x.task]? with
  | some t =>
      match x.primary, t.stage with
      | true, .waiting f => w.goto x.task t (.answered f response)
      | _, _ => w
  | none => w

/-- `handle_inbound` on the first RPC of the inbox. -/
def serve (w : World M) (n : NodeId) (x : Inbound) (rest : List Inbound)
    (t : Task M) : Except Panic (World M × Effect M) :=
  (({ w with inbox := Function.update w.inbox n rest } : World M).exec n
    (handleInbound w.now t.rpc.request)).map fun y =>
      (y.2.1.answer x y.1, y.2.2)

/-- The process dies, and with it its channels. -/
def crashed (w : World M) (n : NodeId) : World M :=
  { w with
    alive := Function.update w.alive n false
    inbox := Function.update w.inbox n []
    events := Function.update w.events n [] }

/-- A crashed node comes back from its storage under a new inbox. -/
def reborn (w : World M) (n : NodeId) : Except Panic (World M × Effect M) :=
  match Node.spawn (w.nodes n).config (w.nodes n).storage with
  | .error p => .error p
  | .ok node =>
      .ok ({ w with
        nodes := Function.update w.nodes n node
        epochs := Function.update w.epochs n (w.epochs n + 1)
        alive := Function.update w.alive n true
        net := w.net.register n (w.epochs n + 1) },
        ⟨n, Cluster.lost (w.nodes n)⟩)

/-- The end of the request leg. -/
def request (w : World M) (k : Nat) (t : Task M) (f : Flight) : World M :=
  if f.plan.reqBlocked || f.plan.reqDropped then w.goto k t (.stuck f)
  -- a closed inbox is a black hole
  else if w.opened t.rpc.dst f.target then
    (w.goto k t (.waiting f)).deposit t.rpc.dst ⟨k, true⟩
  else w.goto k t (.stuck f)

/-- The end of a duplicate's own leg. -/
def duplicate (w : World M) (k : Nat) (d : Duplicate) (dst : NodeId) :
    World M :=
  let w := { w with duplicates := w.duplicates.eraseIdx k }
  if w.opened dst d.target then w.deposit dst ⟨d.task, false⟩ else w

/-- The end of the reply leg; the link back is looked at now. -/
def reply (w : World M) (k : Nat) (t : Task M) (f : Flight)
    (response : RpcResponse) : World M :=
  if w.net.poisoned then w.goto k t .finished
  else if f.plan.respDropped ∨ (t.rpc.dst, t.rpc.src) ∈ w.net.blocked then
    w.goto k t (.stuck f)
  else w.return_ k t (.ok response)

variable [DecidableEq V]

/-- `send` up to its first wait. -/
def begin (w : World M) (k : Nat) (t : Task M) : World M :=
  if w.net.poisoned then w.goto k t .finished
  else
    match w.net.planSend t.rpc.src t.rpc.dst t.rpc.request with
    | (none, net) => { w with net := net }.goto k t .finished
    | (some plan, net) =>
        let w := { w with net := net }
        match plan.target with
        | none => w.return_ k t (.error (.unreachable t.rpc.dst))
        | some target =>
            let w := if plan.reqDuplicated && !plan.reqBlocked then
                { w with
                  duplicates :=
                    w.duplicates ++ [⟨k, target, w.now + plan.dupDelay⟩] }
              else w
            w.goto k t (.sleeping ⟨plan, target, w.now + plan.rpcTimeout⟩
              (w.now + plan.reqDelay))

/-- What happens without any node. -/
def quiet (w : World M) : Option (Except Panic (World M × Effect M)) :=
  some (.ok (w, ⟨0, []⟩))

/-- One step of the scenario; `none` if it cannot happen now. -/
def step (w : World M) :
    Action V → Option (Except Panic (World M × Effect M))
  | .advance d => { w with now := w.now + d }.quiet
  | .setLinkBlocked src dst blocked =>
      if w.net.poisoned then none
      else { w with net := w.net.setLinkBlocked src dst blocked }.quiet
  | .setFaultConfig config =>
      if w.net.poisoned then none
      else { w with net := w.net.setFaultConfig config }.quiet
  | .spawn n =>
      if w.net.poisoned ∨ (w.net.nodes n).isSome then none
      else { w with
        alive := Function.update w.alive n true
        net := w.net.register n (w.epochs n) }.quiet
  | .crash n => if w.alive n then (w.crashed n).quiet else none
  | .restart n =>
      if w.net.poisoned ∨ w.alive n ∨ (w.net.nodes n).isNone then none
      else some (w.reborn n)
  | .timeout n =>
      if w.alive n ∧ !(w.nodes n).isLeader then
        some (w.silently n (onElectionTimeout w.now))
      else none
  | .heartbeat n =>
      if w.alive n ∧ (w.nodes n).isLeader then
        some (w.silently n (onHeartbeatTick w.now))
      else none
  | .propose n command =>
      if w.alive n then some (w.silently n (handlePropose w.now command))
      else none
  | .read n =>
      if w.alive n then some (w.silently n handleRead) else none
  | .recvInbound n =>
      match w.inbox n with
      | [] => none
      | x :: rest => w.tasks[x.task]?.map (w.serve n x rest)
  | .recvEvent n =>
      match w.events n with
      | [] => none
      | event :: rest =>
          some (({ w with
            events := Function.update w.events n rest } : World M).silently n
              (handleEvent w.now event))
  | .send k =>
      match w.tasks[k]? with
      | some t => if t.stage = .spawned then (w.begin k t).quiet else none
      | none => none
  | .wakeRequest k =>
      match w.tasks[k]? with
      | some ⟨rpc, .sleeping f wake⟩ =>
          if wake ≤ w.now then
            (w.request k ⟨rpc, .sleeping f wake⟩ f).quiet
          else none
      | _ => none
  | .wakeDuplicate k =>
      match w.duplicates[k]? with
      | some d =>
          match w.tasks[d.task]? with
          | some t =>
              if d.wake ≤ w.now then (w.duplicate k d t.rpc.dst).quiet
              else none
          | none => none
      | none => none
  | .startReply k =>
      match w.tasks[k]? with
      | some ⟨rpc, .answered f response⟩ =>
          (w.goto k ⟨rpc, .answered f response⟩
            (.replying f (w.now + f.plan.respDelay) response)).quiet
      | _ => none
  | .wakeReply k =>
      match w.tasks[k]? with
      | some ⟨rpc, .replying f wake response⟩ =>
          if wake ≤ w.now then
            (w.reply k ⟨rpc, .replying f wake response⟩ f response).quiet
          else none
      | _ => none
  | .expire k =>
      match w.tasks[k]? with
      | some t =>
          match t.stage.expires w.now with
          | some f =>
              if f.deadline ≤ w.now then
                (w.return_ k t (.error .timeout)).quiet
              else none
          | none => none
      | none => none

end World

/-- One scenario, from an empty network on. -/
structure SimRun (D : Deployment) (M : StateMachine V) [DecidableEq V] where
  seed : BitVec 64
  config : FaultConfig
  state : ℕ → World M
  action : ℕ → Action V
  effect : ℕ → Effect M
  init : state 0 = World.init D seed config
  step : ∀ i, (state i).step (action i) =
    some (.ok (state (i + 1), effect i))

/-- The scenario of a schedule that can be played; no time passes after
it. -/
def SimRun.ofActions (D : Deployment) (M : StateMachine V) [DecidableEq V]
    (seed : BitVec 64) (config : FaultConfig) (acts : List (Action V))
    (h : plays World.step (World.init D seed config : World M) acts = true) :
    SimRun D M where
  seed := seed
  config := config
  state := trail World.step (.advance 0) ⟨0, []⟩ (World.init D seed config) acts
  action i := acts.getD i (.advance 0)
  effect i := (next World.step ⟨0, []⟩ (trail World.step (.advance 0) ⟨0, []⟩
    (World.init D seed config) acts i) (acts.getD i (.advance 0))).2
  init := rfl
  step := step_trail (fun _ => rfl) h

end RustKV.Sim
