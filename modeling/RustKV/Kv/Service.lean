import RustKV.Kv.Store

/-!
# The service in front of the store (`kv.rs`, `api.rs`)

How the fate of a proposal or a read becomes what a client is told:
`KvNode::write` waits on the proposal's `committed` channel,
`KvNode::get_linearizable` on the read's `granted` channel, and the API turns
their errors into HTTP answers. The contract at the head of `api.rs` says that
503 responses are always safe to retry, and keeps 504 for writes whose outcome
is unknown.
-/

namespace RustKV

inductive WriteError where
  | notLeader (leaderHint : Option NodeId)
  | timeout
  | superseded
  | invalidConfig (reason : String)
  | shutdown
  deriving DecidableEq, Repr

inductive ReadError where
  | notLeader (leaderHint : Option NodeId)
  | timeout
  | retry
  | shutdown
  deriving DecidableEq, Repr

/-- How waiting on a oneshot channel ends. -/
inductive Awaited (α : Type) where
  | elapsed
  /-- The sender was dropped without sending. -/
  | closed
  | received (value : α)
  deriving DecidableEq, Repr

def ProposeError.toWriteError : ProposeError → WriteError
  | .notLeader hint => .notLeader hint
  | .invalidConfigChange reason => .invalidConfig reason
  | .shutdown => .shutdown

/-- `KvNode::write`, given what `propose` answered and how the wait for the
proposal ended. -/
def KvNode.write {α : Type} (proposal : Except ProposeError α)
    (committed : Awaited Bool) : Except WriteError Unit :=
  match proposal with
  | .error e => .error e.toWriteError
  | .ok _ =>
      match committed with
      | .elapsed => .error .timeout
      | .closed => .error .shutdown
      | .received true => .ok ()
      | .received false => .error .superseded

def ProposeError.toReadError : ProposeError → ReadError
  | .notLeader hint => .notLeader hint
  -- reads carry no configuration
  | .invalidConfigChange _ => .retry
  | .shutdown => .shutdown

/-- `KvNode::get_linearizable`, given what `read` answered, how the wait for
the ticket ended and the store as it is by then. -/
def KvNode.getLinearizable {α V : Type} (ticket : Except ProposeError α)
    (granted : Awaited Unit) (store : KvStore V) (key : String) :
    Except ReadError (Option V) :=
  match ticket with
  | .error e => .error e.toReadError
  | .ok _ =>
      match granted with
      | .elapsed => .error .timeout
      | .closed => .error .retry
      | .received () => .ok (store.get key)

/-- The parts of an HTTP answer this layer fills in. -/
structure Response where
  status : Nat
  location : Option String
  body : String
  deriving DecidableEq, Repr

/-! ## Cluster admin

Both handlers read the membership this node last published, edit their copy
and submit the whole of it; here is what they do up to the write. -/

/-- `put_member` up to the write, given the address in the body if it parses:
the answer it ends with, or the configuration it submits. -/
def putMember (addr : Option MemberAddr) (view : Membership) (id : NodeId) :
    Except Response Membership :=
  match addr with
  | none => .error ⟨400, none, "body must be \x7b\"raft\": \"host:port\", " ++
      "\"client\": \"http://host:port\"\x7d\n"⟩
  | some addr =>
      if view.containsKey id then
        .error ⟨409, none,
          "already a member (address changes are not supported)\n"⟩
      else .ok (view.insert id addr)

/-- `delete_member` up to the write. -/
def deleteMember (view : Membership) (id : NodeId) :
    Except Response Membership :=
  if view.containsKey id then .ok (view.remove id)
  else .error ⟨404, none, ""⟩

/-- A 307 to the leader's client URL, if both are known. -/
def redirectToLeader (peerUrls : NodeId → Option String) (path : String)
    (leaderHint : Option NodeId) : Option Response := do
  let leader ← leaderHint
  let base ← peerUrls leader
  return ⟨307, some (base ++ "/" ++ path), ""⟩

def writeErrorResponse (peerUrls : NodeId → Option String) (path : String) :
    WriteError → Response
  | .notLeader hint =>
      (redirectToLeader peerUrls path hint).getD
        ⟨503, none, "no leader known; retry shortly\n"⟩
  | .timeout => ⟨504, none,
      "write not confirmed: this node cannot reach a majority; " ++
        "the write may or may not commit later\n"⟩
  | .superseded => ⟨503, none,
      "leadership changed before the write committed; safe to retry\n"⟩
  | .invalidConfig reason => ⟨409, none, reason ++ "\n"⟩
  | .shutdown => ⟨503, none, "node shutting down\n"⟩

def readErrorResponse (peerUrls : NodeId → Option String) (key : String) :
    ReadError → Response
  | .notLeader hint =>
      (redirectToLeader peerUrls key hint).getD
        ⟨503, none, "no leader known; retry shortly\n"⟩
  | .timeout => ⟨504, none,
      "read not confirmed: this node cannot reach a majority; " ++
        "retry (or use ?stale=true for a possibly-stale local read)\n"⟩
  | .retry => ⟨503, none,
      "leadership changed during the read; safe to retry\n"⟩
  | .shutdown => ⟨503, none, "node shutting down\n"⟩

end RustKV
