import RustKV.Raft.Storage
import RustKV.Rust.Prog

/-!
# The state of a Raft node (`raft/node.rs`)

What one event-loop task owns, what it can send, and the pieces of it that
are plain reads. The handlers are in `Raft/Handlers.lean`.

Timers carry no state here: an election timeout or a heartbeat tick may fire
whenever the loop would accept one, so deadlines and the jitter generator
have nothing left to decide. Where the code reads the clock the handler takes
`now`. A oneshot channel is the term and index (for a read, the term and
sequence number) it was handed out for, and what happens to it is an output:
a verdict sent, a sender dropped, a read granted.
-/

namespace RustKV

open Rust

variable {V : Type}

/-! ## Configuration and the state machine -/

structure RaftConfig where
  id : NodeId
  /-- The other members at bootstrap. -/
  peers : List NodeId
  electionTimeoutMin : Duration
  electionTimeoutMax : Duration
  snapshotThreshold : Option Nat
  snapshotTrailing : Nat
  bootstrapAddrs : Membership
  join : Bool
  testDisableReconfigGates : Bool

/-- `trait StateMachine`. `restore` answers `none` on a malformed payload,
which is fail-stop; a payload `snapshot` produced restores the very state. -/
structure StateMachine (V : Type) where
  State : Type
  Payload : Type
  new : State
  apply : State → LogEntry V → State
  snapshot : State → Payload
  restore : Payload → Option State
  restore_snapshot : ∀ s, restore (snapshot s) = some s

/-! ## Roles -/

/-- A proposal whose commit outcome is still unknown. -/
structure PendingProposal where
  term : Nat
  index : Nat
  deriving DecidableEq, Repr

/-- A registered read awaiting leadership confirmation and apply. -/
structure PendingRead where
  neededSeq : Nat
  readIndex : Nat
  deriving DecidableEq, Repr

/-- The fields of `Role::Leader`. -/
structure LeaderState where
  nextIndex : NodeId → Option Nat
  matchIndex : NodeId → Option Nat
  termStartIndex : Nat
  heartbeatSeq : Nat
  ackedSeq : NodeId → Option Nat
  lastContact : NodeId → Option Instant
  departing : BTreeMap NodeId (Nat × MemberAddr)
  pendingReads : List PendingRead

inductive Role where
  | follower
  | preCandidate (votes : Finset NodeId)
  | candidate (votes : Finset NodeId)
  | leader (l : LeaderState)

inductive RoleKind where
  | follower
  | preCandidate
  | candidate
  | leader
  deriving DecidableEq, Repr

def Role.kind : Role → RoleKind
  | .follower => .follower
  | .preCandidate _ => .preCandidate
  | .candidate _ => .candidate
  | .leader _ => .leader

/-- The payload of the membership watch. -/
structure MembershipView where
  members : Membership
  departing : Membership
  deriving DecidableEq

inductive ProposeError where
  | notLeader (leaderHint : Option NodeId)
  | invalidConfigChange (reason : String)
  | shutdown
  deriving DecidableEq, Repr

/-- The tags an outbound RPC's task keeps for its reply. -/
inductive Tag where
  | preVote (sentTerm : Nat)
  | vote (sentTerm : Nat)
  | append (sentTerm : Nat) (sentPrevIndex : Nat) (sentEntries : Nat)
      (sentSeq : Nat)
  | installSnapshot (sentTerm : Nat) (lastIncludedIndex : Nat)
  deriving DecidableEq, Repr

abbrev RpcResult := Except TransportError RpcResponse

/-- Replies from outbound-RPC tasks, tagged with what was sent. -/
inductive Event where
  | preVoteReply (sentTerm : Nat) (peer : NodeId) (result : RpcResult)
  | voteReply (sentTerm : Nat) (peer : NodeId) (result : RpcResult)
  | appendReply (sentTerm : Nat) (peer : NodeId) (sentPrevIndex : Nat)
      (sentEntries : Nat) (sentSeq : Nat) (result : RpcResult)
  | installSnapshotReply (sentTerm : Nat) (peer : NodeId)
      (lastIncludedIndex : Nat) (result : RpcResult)

/-- The event a finished RPC task posts. -/
def Tag.event (tag : Tag) (peer : NodeId) (result : RpcResult) : Event :=
  match tag with
  | .preVote t => .preVoteReply t peer result
  | .vote t => .voteReply t peer result
  | .append t prev len seq => .appendReply t peer prev len seq result
  | .installSnapshot t i => .installSnapshotReply t peer i result

/-! ## The node -/

/-- A state-machine capture awaiting its compaction turn. -/
structure StagedSnapshot (P : Type) where
  index : Nat
  state : P
  membership : Option Membership

structure Node (M : StateMachine V) where
  config : RaftConfig
  storage : Storage V M.Payload
  stateMachine : M.State
  role : Role
  leaderId : Option NodeId
  commitIndex : Nat
  lastApplied : Nat
  pending : List PendingProposal
  stagedSnapshot : Option (StagedSnapshot M.Payload)
  members : Membership
  membersIndex : Nat
  /-- What the membership watch last published. -/
  membershipView : MembershipView
  lastLeaderContact : Option Instant

/-- Everything a handler does besides changing the node. -/
inductive Output (M : StateMachine V) where
  /-- A spawned task sends an RPC and will post its reply. -/
  | send (peer : NodeId) (request : RpcRequest V M.Payload) (tag : Tag)
  /-- A verdict on a proposal's `committed` channel. -/
  | committed (term : Nat) (index : Nat) (verdict : Bool)
  /-- A proposal's sender dropped without a verdict. -/
  | dropped (term : Nat) (index : Nat)
  /-- A read ticket granted, and what the node had applied by then; its
  waiter reads the store then or later. -/
  | granted (term : Nat) (neededSeq : Nat) (lastApplied : Nat)
      (state : M.State)
  /-- A read ticket's sender dropped. -/
  | readDropped (term : Nat) (neededSeq : Nat)
  | applied (entry : LogEntry V)
  /-- `maybe_advance_commit` moved the commit index. -/
  | commitAdvanced (term : Nat) (commitIndex : Nat)
  | proposeReply (result : Except ProposeError (Nat × Nat))
  | readReply (result : Except ProposeError (Nat × PendingRead))

/-- The fail-stop points. -/
inductive Panic where
  | storage (what : String) (err : StorageError)
  | truncatesCommitted (index : Nat)
  | missingCommittedEntry (index : Nat)
  | nextIndexOutOfBounds (index : Nat)
  | missingSnapshot
  | malformedSnapshot
  | termMovedBackwards
  | underflow
  | sliceOutOfBounds
  deriving DecidableEq, Repr

/-- A running handler: the node and what it has put out so far. -/
structure Ctx (M : StateMachine V) where
  node : Node M
  out : List (Output M)

abbrev NodeM (M : StateMachine V) := Prog Panic (Ctx M)

namespace NodeM

variable {M : StateMachine V}

def node : NodeM M (Node M) := do
  return (← get).node

def update (f : Node M → Node M) : NodeM M Unit :=
  modify fun c => { c with node := f c.node }

def emit (o : Output M) : NodeM M Unit :=
  modify fun c => { c with out := c.out ++ [o] }

def emitAll (os : List (Output M)) : NodeM M Unit :=
  modify fun c => { c with out := c.out ++ os }

/-- Subtraction as a debug build checks it. -/
def checkedSub (a b : Nat) : NodeM M Nat :=
  if b ≤ a then pure (a - b) else Prog.panicWith .underflow

variable {Q : Unit → Ctx M → Prop} {c : Ctx M}

open Prog

@[simp] theorem wp_node {Q : Node M → Ctx M → Prop} :
    wp node Q c ↔ Q c.node c := Iff.rfl

@[simp] theorem wp_update {f : Node M → Node M} :
    wp (update f) Q c ↔ Q () { c with node := f c.node } := Iff.rfl

@[simp] theorem wp_emit {o : Output M} :
    wp (emit o) Q c ↔ Q () { c with out := c.out ++ [o] } := Iff.rfl

@[simp] theorem wp_emitAll {os : List (Output M)} :
    wp (emitAll os) Q c ↔ Q () { c with out := c.out ++ os } := Iff.rfl

theorem wp_checkedSub {a b : Nat} (h : b ≤ a) {Q : Nat → Ctx M → Prop} :
    wp (checkedSub a b) Q c ↔ Q (a - b) c := by
  rw [checkedSub, if_pos h, wp_pure]

@[simp] theorem wlp_node {Q : Node M → Ctx M → Prop} :
    wlp node Q c ↔ Q c.node c := wlp_pure

@[simp] theorem wlp_update {f : Node M → Node M} :
    wlp (update f) Q c ↔ Q () { c with node := f c.node } := wlp_modify

@[simp] theorem wlp_emit {o : Output M} :
    wlp (emit o) Q c ↔ Q () { c with out := c.out ++ [o] } := wlp_modify

@[simp] theorem wlp_emitAll {os : List (Output M)} :
    wlp (emitAll os) Q c ↔ Q () { c with out := c.out ++ os } := wlp_modify

@[simp] theorem wlp_checkedSub {a b : Nat} {Q : Nat → Ctx M → Prop} :
    wlp (checkedSub a b) Q c ↔ (b ≤ a → Q (a - b) c) := by
  rw [checkedSub, wlp_ite, wlp_pure, wlp_panicWith]
  exact ⟨fun h => h.1, fun h => ⟨h, fun _ => trivial⟩⟩

end NodeM

/-! ## Plain reads -/

/-- The newest configuration some entries carry, with its index. -/
def newestConfig (es : List (LogEntry V)) : Option (Membership × Nat) :=
  es.reverse.findSome? fun e => e.configChange?.map fun m => (m, e.index)

/-- The configuration before any is known: the node and its peers, or
nothing when it is to join a running cluster. -/
def RaftConfig.bootMembership (config : RaftConfig) : Membership :=
  if config.join then BTreeMap.empty
  else
    BTreeMap.collect ((config.peers ++ [config.id]).map fun id =>
      (id, (config.bootstrapAddrs.get id).getD default))

/-- Membership evaluated against durable state: the latest ConfigChange of
the retained log, else the snapshot's, else bootstrap. -/
def deriveMembership {P : Type} (storage : Storage V P)
    (config : RaftConfig) : Membership × Nat :=
  match newestConfig storage.entries with
  | some found => found
  | none =>
      match storage.snapshot.bind Snapshot.membership with
      | some members => (members, storage.snapshotIndex)
      | none => (config.bootMembership, 0)

namespace Node

variable {M : StateMachine V}

def currentTerm (n : Node M) : Nat := n.storage.hardState.currentTerm

def isLeader (n : Node M) : Bool :=
  match n.role with
  | .leader _ => true
  | _ => false

/-- Strict majority of the current membership. -/
def majority (n : Node M) : Nat := n.members.len / 2 + 1

def peerIds (n : Node M) : List NodeId :=
  n.members.keys.filter fun id => id ≠ n.config.id

def isDeparting (n : Node M) (peer : NodeId) : Bool :=
  match n.role with
  | .leader l => l.departing.containsKey peer
  | _ => false

def replicationTargets (n : Node M) : List NodeId :=
  match n.role with
  | .leader l => n.peerIds ++ l.departing.keys
  | _ => n.peerIds

/-- Only current members' grants count. -/
def countMemberVotes (n : Node M) (votes : Finset NodeId) : Nat :=
  (votes.filter fun id => n.members.containsKey id).card

/-- The configuration in effect at `index`; `none` while bootstrap-derived. -/
def membershipAt (n : Node M) (index : Nat) : Option Membership :=
  match n.storage.entries.reverse.findSome?
      fun e => if e.index > index then none else e.configChange? with
  | some members => some members
  | none => n.storage.snapshot.bind Snapshot.membership

/-- The reads `lastContact` answers as recent. -/
def heardWithin (contact : NodeId → Option Instant) (window : Duration)
    (now : Instant) (id : NodeId) : Bool :=
  (contact id).any fun at_ => now - at_ < window

/-- The node `spawn` builds around a restored state machine: everything up to
the boundary committed and applied, all else to be learned again. -/
def boot (config : RaftConfig) (storage : Storage V M.Payload)
    (stateMachine : M.State) : Node M where
  config := config
  storage := storage
  stateMachine := stateMachine
  role := .follower
  leaderId := none
  commitIndex := storage.snapshotIndex
  lastApplied := storage.snapshotIndex
  pending := []
  stagedSnapshot := none
  members := (deriveMembership storage config).1
  membersIndex := (deriveMembership storage config).2
  membershipView := ⟨(deriveMembership storage config).1, BTreeMap.empty⟩
  lastLeaderContact := none

/-- `RaftNode::spawn`: restore the snapshot into a fresh state machine. -/
def spawn (config : RaftConfig) (storage : Storage V M.Payload) :
    Except Panic (Node M) :=
  match storage.snapshot with
  | none => .ok (boot config storage M.new)
  | some snap =>
      match M.restore snap.state with
      | some sm => .ok (boot config storage sm)
      | none => .error .malformedSnapshot

/-- `validate_config_change` on the leader's own fields: the reason a
proposed configuration is refused, if it is. -/
def validateConfigChange (n : Node M) (l : LeaderState) (now : Instant)
    (new : Membership) : Except String Unit :=
  if !n.config.testDisableReconfigGates ∧ n.commitIndex < l.termStartIndex then
    .error "this term's no-op is not yet committed; retry shortly"
  else if !n.config.testDisableReconfigGates ∧
      n.membersIndex > n.commitIndex then
    .error "a configuration change is already in flight"
  else if new.isEmpty then
    .error "the new configuration must keep at least one member"
  else
    let added := (new.keys.filter fun id => !n.members.containsKey id).length
    let removed := (n.members.keys.filter fun id => !new.containsKey id).length
    if added + removed ≠ 1 then
      .error "exactly one member must be added or removed"
    else
      let window := n.config.electionTimeoutMax
      let reachable := (new.keys.filter fun id => id = n.config.id ||
        ((l.ackedSeq id).isSome && heardWithin l.lastContact window now id)).length
      if reachable < new.len / 2 + 1 then
        .error ("a majority of the new configuration must be reachable (recently " ++
          "heard); refusing a change that could stall the cluster — a " ++
          "not-yet-added member always counts as unreachable")
      else .ok ()

end Node

end RustKV
