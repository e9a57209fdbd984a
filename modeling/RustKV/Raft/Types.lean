import RustKV.Rust.BTreeMap

/-!
# Core Raft data types (`raft/types.rs`, `raft/rpc.rs`)

The data the consensus core, its persistence and its RPCs share. Two source
types stay open: `V` is the JSON value a client stores, `P` the JSON payload
of a snapshot. Raft treats both as opaque, and so does everything generic
over them. `Term`, `LogIndex` and the other `u64` counters are natural
numbers, a log index 1-based with 0 for "no entry"; nothing in the core
subtracts one from another without having compared them first.
-/

namespace RustKV

open Rust

abbrev NodeId := Nat

/-- A point in time and a span of it, in microseconds. -/
abbrev Instant := Nat

abbrev Duration := Nat

structure Session where
  client : Nat
  seq : Nat
  deriving DecidableEq, Repr

structure MemberAddr where
  raft : String
  client : String
  deriving DecidableEq, Repr

instance : Inhabited MemberAddr := ⟨⟨"", ""⟩⟩

abbrev Membership := BTreeMap NodeId MemberAddr

inductive Command (V : Type) where
  | put (key : String) (value : V) (session : Option Session)
  | delete (key : String) (session : Option Session)
  | noop
  | configChange (members : Membership)
  deriving DecidableEq

structure LogEntry (V : Type) where
  term : Nat
  index : Nat
  command : Command V
  deriving DecidableEq

/-- The state machine at a log prefix. `membership` is the configuration in
effect at the boundary, `none` while it is still the bootstrap one. -/
structure Snapshot (P : Type) where
  lastIncludedIndex : Nat
  lastIncludedTerm : Nat
  membership : Option Membership
  state : P
  deriving DecidableEq

structure HardState where
  currentTerm : Nat
  votedFor : Option NodeId
  deriving DecidableEq, Repr

/-- `HardState::default()`. -/
instance : Inhabited HardState := ⟨⟨0, none⟩⟩

def LogEntry.configChange? {V : Type} (e : LogEntry V) : Option Membership :=
  match e.command with
  | .configChange members => some members
  | _ => none

/-! ## The RPCs -/

structure RequestVoteArgs where
  term : Nat
  candidateId : NodeId
  lastLogIndex : Nat
  lastLogTerm : Nat
  deriving DecidableEq, Repr

structure RequestVoteReply where
  term : Nat
  voteGranted : Bool
  deriving DecidableEq, Repr

structure AppendEntriesArgs (V : Type) where
  term : Nat
  leaderId : NodeId
  prevLogIndex : Nat
  prevLogTerm : Nat
  entries : List (LogEntry V)
  leaderCommit : Nat

structure AppendEntriesReply where
  term : Nat
  success : Bool
  deriving DecidableEq, Repr

structure InstallSnapshotArgs (P : Type) where
  term : Nat
  leaderId : NodeId
  snapshot : Snapshot P

structure InstallSnapshotReply where
  term : Nat
  deriving DecidableEq, Repr

inductive RpcRequest (V P : Type) where
  | requestVote (args : RequestVoteArgs)
  | appendEntries (args : AppendEntriesArgs V)
  | preVote (args : RequestVoteArgs)
  | installSnapshot (args : InstallSnapshotArgs P)

inductive RpcResponse where
  | requestVote (reply : RequestVoteReply)
  | appendEntries (reply : AppendEntriesReply)
  | preVote (reply : RequestVoteReply)
  | installSnapshot (reply : InstallSnapshotReply)
  deriving DecidableEq, Repr

inductive TransportError where
  | unreachable (id : NodeId)
  | timeout
  deriving DecidableEq, Repr

end RustKV
