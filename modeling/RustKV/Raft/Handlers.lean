import RustKV.Raft.Node
import Mathlib.Data.List.Sort

/-!
# The handlers of a Raft node (`raft/node.rs`)

One definition per method of `RaftNode`, in call order: what it checks,
what it changes, what it sends, where it would panic. The long methods are
cut where they read as separate steps, and each `while` or `for` of the
source is a recursion on what it consumes.

Storage operations are taken to succeed on I/O, so saving the hard state
cannot fail; the errors that are about the call itself (a hole in the log, a
boundary moving backwards) are kept, and reaching one is a panic.
-/

namespace RustKV

open Rust Prog NodeM

variable {V : Type} {M : StateMachine V}

/-! ## Membership -/

/-- What `adopt_membership` does to a leader's bookkeeping: newly added peers
start with fresh contact, dropped ones are owed their removal entry, and a
re-added one is owed nothing. -/
def LeaderState.adopt (l : LeaderState) (self : NodeId)
    (old new : Membership) (index : Nat) (now : Instant) : LeaderState :=
  { l with
    lastContact := fun id =>
      if new.containsKey id ∧ id ≠ self then
        some ((l.lastContact id).getD now)
      else l.lastContact id
    departing :=
      (old.entries.foldl
        (fun d x =>
          if x.1 ≠ self ∧ !new.containsKey x.1 then
            d.insert x.1 (index, x.2)
          else d)
        l.departing).retain fun id _ => !new.containsKey id }

def Role.departing : Role → BTreeMap NodeId (Nat × MemberAddr)
  | .leader l => l.departing
  | _ => BTreeMap.empty

def publishMembership : NodeM M Unit :=
  update fun n =>
    { n with membershipView :=
        ⟨n.members, n.role.departing.mapValues Prod.snd⟩ }

def adoptMembership (now : Instant) (members : Membership)
    (index : Nat) : NodeM M Unit := do
  update fun n =>
    { n with
      role :=
        match n.role with
        | .leader l =>
            .leader (l.adopt n.config.id n.members members index now)
        | role => role
      members := members
      membersIndex := index }
  publishMembership

def rescanMembership (now : Instant) : NodeM M Unit := do
  let n ← node
  let derived := deriveMembership n.storage n.config
  adoptMembership now derived.1 derived.2

/-! ## Role transitions -/

def Role.pendingReads : Role → List PendingRead
  | .leader l => l.pendingReads
  | _ => []

/-- Adopts `term` if it is newer and becomes a follower; a leader's pending
reads are dropped with the role. -/
def becomeFollower (term : Nat) (leaderId : Option NodeId) :
    NodeM M Unit := do
  let n ← node
  if term < n.currentTerm then panicWith .termMovedBackwards
  if term > n.currentTerm then
    update fun n =>
      { n with storage := n.storage.saveHardState ⟨term, none⟩ }
  emitAll (n.role.pendingReads.map fun r =>
    .readDropped n.currentTerm r.neededSeq)
  update fun n => { n with role := .follower, leaderId := leaderId }
  if !n.role.departing.isEmpty then publishMembership

/-! ## Proposal and read waiters -/

/-- What `resolve_pending` decides about one proposal. -/
def Node.verdict (n : Node M) (p : PendingProposal) : Option Bool :=
  if n.storage.term p.index ≠ some p.term then some false
  else if n.commitIndex ≥ p.index then some true
  else none

def resolvePending : NodeM M Unit := do
  let n ← node
  emitAll (n.pending.filterMap fun p =>
    (n.verdict p).map fun v => .committed p.term p.index v)
  update fun n =>
    { n with pending := n.pending.filter fun p => (n.verdict p).isNone }

/-- Acknowledgements of `seq` or later among the current members, the node
itself counted as one. -/
def Node.readAcks (n : Node M) (l : LeaderState) (seq : Nat) : Nat :=
  (if n.members.containsKey n.config.id then 1 else 0) +
    (n.peerIds.filter fun id =>
      (l.ackedSeq id).any fun acked => acked ≥ seq).length

def Node.grants (n : Node M) (l : LeaderState) (r : PendingRead) : Bool :=
  n.readAcks l r.neededSeq ≥ n.majority ∧ n.lastApplied ≥ r.readIndex

def resolveReads : NodeM M Unit := do
  let n ← node
  match n.role with
  | .leader l =>
      emitAll ((l.pendingReads.filter (n.grants l)).map fun r =>
        .granted n.currentTerm r.neededSeq n.lastApplied n.stateMachine)
      update fun n =>
        { n with
          role := .leader
            { l with
              pendingReads := l.pendingReads.filter fun r => !n.grants l r } }
  | _ => pure ()

/-! ## Applying and compacting -/

/-- The `while` of `apply_committed`, `k` rounds from its end. -/
def applyLoop : Nat → NodeM M Unit
  | 0 => pure ()
  | k + 1 => do
      update fun n => { n with lastApplied := n.lastApplied + 1 }
      let n ← node
      let entry ← unwrap (n.storage.entry n.lastApplied)
        (.missingCommittedEntry n.lastApplied)
      update fun n =>
        { n with stateMachine := M.apply n.stateMachine entry }
      emit (.applied entry)
      applyLoop k

/-- An installed snapshot may have overtaken the capture. -/
def discardStaged : NodeM M Unit :=
  update fun n =>
    { n with stagedSnapshot := n.stagedSnapshot.filter fun st =>
        n.storage.snapshotIndex < st.index }

/-- Captures the state once the applied prefix has outgrown `threshold`. -/
def stageSnapshot (threshold : Nat) : NodeM M Unit := do
  let n ← node
  if n.stagedSnapshot.isNone then
    let lag ← checkedSub n.lastApplied n.storage.snapshotIndex
    if lag ≥ max threshold 1 then
      update fun n =>
        { n with
          stagedSnapshot := some
            ⟨n.lastApplied, M.snapshot n.stateMachine,
              n.membershipAt n.lastApplied⟩ }

/-- Compacts to the capture once it is `snapshot_trailing` applies old. -/
def compactStaged : NodeM M Unit := do
  let n ← node
  match n.stagedSnapshot with
  | none => pure ()
  | some st =>
      let lag ← checkedSub n.lastApplied st.index
      if lag ≥ n.config.snapshotTrailing then
        let storage ← expect
          (n.storage.compactTo st.index st.state st.membership)
          (.storage "cannot write snapshot; fail-stop")
        update fun n =>
          { n with storage := storage, stagedSnapshot := none }

def maybeCompact : NodeM M Unit := do
  let n ← node
  match n.config.snapshotThreshold with
  | none => pure ()
  | some threshold =>
      discardStaged
      stageSnapshot threshold
      compactStaged

def applyCommitted : NodeM M Unit := do
  let n ← node
  applyLoop (n.commitIndex - n.lastApplied)
  resolvePending
  resolveReads
  maybeCompact

/-! ## Sending -/

def sendInstallSnapshot (peer : NodeId) : NodeM M Unit := do
  let n ← node
  let snapshot ← unwrap n.storage.snapshot .missingSnapshot
  emit (.send peer
    (.installSnapshot ⟨n.currentTerm, n.config.id, snapshot⟩)
    (.installSnapshot n.currentTerm snapshot.lastIncludedIndex))

/-- Everything from the peer's next index, or the snapshot if that has been
compacted away. Sends nothing outside the configuration, departing peers
excepted. -/
def sendAppend (peer : NodeId) : NodeM M Unit := do
  let n ← node
  if !n.members.containsKey peer ∧ !n.isDeparting peer then
    return
  match n.role with
  | .leader l =>
      let next := (l.nextIndex peer).getD (n.storage.lastIndex + 1)
      if next ≤ n.storage.snapshotIndex then
        sendInstallSnapshot peer
      else
        let prevLogIndex ← checkedSub next 1
        let prevLogTerm ← unwrap (n.storage.term prevLogIndex)
          (.nextIndexOutOfBounds next)
        let entries := n.storage.entriesFrom next
        emit (.send peer
          (.appendEntries ⟨n.currentTerm, n.config.id, prevLogIndex,
            prevLogTerm, entries, n.commitIndex⟩)
          (.append n.currentTerm prevLogIndex entries.length
            l.heartbeatSeq))
  | _ => pure ()

/-- The fan-out `for peer in … { self.send_append(peer) }`. -/
def sendAppends : List NodeId → NodeM M Unit
  | [] => pure ()
  | peer :: rest => do
      sendAppend peer
      sendAppends rest

/-- CheckQuorum: the members heard within the window, the node itself
counted as one. -/
def Node.heard (n : Node M) (l : LeaderState) (now : Instant) : Nat :=
  (if n.members.containsKey n.config.id then 1 else 0) +
    (n.peerIds.filter
      (Node.heardWithin l.lastContact n.config.electionTimeoutMax now)).length

def onHeartbeatTick (now : Instant) : NodeM M Unit := do
  let n ← node
  match n.role with
  | .leader l =>
      if n.heard l now < n.majority then
        becomeFollower n.currentTerm none
      else
        sendAppends n.replicationTargets
  | _ => sendAppends n.replicationTargets

/-! ## Commit -/

/-- What each counted member is known to hold: peers by `match_index`, the
node itself by its whole log, and only while it is a member. -/
def Node.replicated (n : Node M) (l : LeaderState) : List Nat :=
  n.peerIds.map (fun id => (l.matchIndex id).getD 0) ++
    (if n.members.containsKey n.config.id then [n.storage.lastIndex] else [])

/-- The index a majority of the members is known to hold. -/
def Node.commitCandidate (n : Node M) (l : LeaderState) : Nat :=
  let sorted := (n.replicated l).insertionSort (· ≤ ·)
  sorted.getD (sorted.length - n.majority) 0

/-- A leader that removed itself steps down once the removal commits. -/
def stepDownIfRemoved : NodeM M Unit := do
  let n ← node
  if n.isLeader ∧ !n.members.containsKey n.config.id ∧
      n.commitIndex ≥ n.membersIndex then
    becomeFollower n.currentTerm none

def maybeAdvanceCommit : NodeM M Unit := do
  let n ← node
  match n.role with
  | .leader l =>
      if (n.replicated l).length < n.majority then
        return
      let candidate := n.commitCandidate l
      if candidate > n.commitIndex ∧
          n.storage.term candidate = some n.currentTerm then
        update fun n => { n with commitIndex := candidate }
        emit (.commitAdvanced n.currentTerm candidate)
        applyCommitted
      stepDownIfRemoved
  | _ => pure ()

/-! ## Elections -/

/-- The bookkeeping of a fresh leader; `next` is where its no-op goes. -/
def LeaderState.fresh (peers : List NodeId) (next : Nat)
    (now : Instant) : LeaderState where
  nextIndex id := if id ∈ peers then some next else none
  matchIndex id := if id ∈ peers then some 0 else none
  termStartIndex := next
  heartbeatSeq := 0
  ackedSeq _ := none
  lastContact id := if id ∈ peers then some now else none
  departing := BTreeMap.empty
  pendingReads := []

def maybeBecomeLeader (now : Instant) : NodeM M Unit := do
  let n ← node
  match n.role with
  | .candidate votes =>
      if n.countMemberVotes votes < n.majority then
        return
      let next := n.storage.lastIndex + 1
      update fun n =>
        { n with
          role := .leader (.fresh n.peerIds next now)
          leaderId := some n.config.id }
      let storage ← expect
        (n.storage.append [⟨n.currentTerm, next, .noop⟩])
        (.storage "cannot persist leadership no-op; fail-stop")
      update fun n => { n with storage := storage }
      maybeAdvanceCommit
      onHeartbeatTick now
  | _ => pure ()

/-- What a campaign asks its peers, for the prospective or the real term. -/
def Node.voteArgs (n : Node M) (term : Nat) : RequestVoteArgs :=
  ⟨term, n.config.id, n.storage.lastIndex, n.storage.lastTerm⟩

/-- The real election: a durable term bump with a self-vote. -/
def startElection (now : Instant) : NodeM M Unit := do
  let n ← node
  let term := n.currentTerm + 1
  update fun n =>
    { n with
      storage := n.storage.saveHardState ⟨term, some n.config.id⟩
      role := .candidate {n.config.id}
      leaderId := none }
  emitAll (n.peerIds.map fun peer =>
    .send peer (.requestVote (n.voteArgs term)) (.vote term))
  maybeBecomeLeader now

def maybeStartElection (now : Instant) : NodeM M Unit := do
  let n ← node
  match n.role with
  | .preCandidate votes =>
      if n.countMemberVotes votes ≥ n.majority then
        startElection now
  | _ => pure ()

/-- Election timeout: a pre-campaign, unless the node is outside its own
configuration. -/
def onElectionTimeout (now : Instant) : NodeM M Unit := do
  let n ← node
  if !n.members.containsKey n.config.id then
    return
  let prospective := n.currentTerm + 1
  update fun n =>
    { n with role := .preCandidate {n.config.id}, leaderId := none }
  emitAll (n.peerIds.map fun peer =>
    .send peer (.preVote (n.voteArgs prospective)) (.preVote prospective))
  maybeStartElection now

/-! ## Client requests -/

def Node.validateCommand (n : Node M) (l : LeaderState) (now : Instant) :
    Command V → Except String Unit
  | .configChange members => n.validateConfigChange l now members
  | _ => .ok ()

/-- A configuration takes effect the moment it is appended. -/
def adoptCommand (now : Instant) (index : Nat) :
    Command V → NodeM M Unit
  | .configChange members => adoptMembership now members index
  | _ => pure ()

def handlePropose (now : Instant) (command : Command V) : NodeM M Unit := do
  let n ← node
  match n.role with
  | .leader l =>
      match n.validateCommand l now command with
      | .error reason =>
          emit (.proposeReply (.error (.invalidConfigChange reason)))
      | .ok () =>
          let term := n.currentTerm
          let index := n.storage.lastIndex + 1
          let storage ← expect (n.storage.append [⟨term, index, command⟩])
            (.storage "cannot persist proposal; fail-stop")
          update fun n => { n with storage := storage }
          adoptCommand now index command
          update fun n => { n with pending := n.pending ++ [⟨term, index⟩] }
          emit (.proposeReply (.ok (term, index)))
          maybeAdvanceCommit
          let n ← node
          sendAppends n.replicationTargets
  | _ => emit (.proposeReply (.error (.notLeader n.leaderId)))

def handleRead : NodeM M Unit := do
  let n ← node
  match n.role with
  | .leader l =>
      let read : PendingRead :=
        ⟨l.heartbeatSeq + 1, max n.commitIndex l.termStartIndex⟩
      update fun n =>
        { n with
          role := .leader
            { l with
              heartbeatSeq := l.heartbeatSeq + 1
              pendingReads := l.pendingReads ++ [read] } }
      emit (.readReply (.ok (n.currentTerm, read)))
      sendAppends n.peerIds
      resolveReads
  | _ => emit (.readReply (.error (.notLeader n.leaderId)))

/-! ## Inbound RPCs -/

/-- §5.4.1: compare last terms, then last indexes. -/
def Node.logUpToDate (n : Node M) (args : RequestVoteArgs) : Bool :=
  n.storage.lastTerm < args.lastLogTerm ∨
    (n.storage.lastTerm = args.lastLogTerm ∧
      n.storage.lastIndex ≤ args.lastLogIndex)

/-- The vote itself, once a newer term has been adopted. -/
def decideVote (args : RequestVoteArgs) : NodeM M RequestVoteReply := do
  let n ← node
  let term := n.currentTerm
  if args.term < term then
    return ⟨term, false⟩
  let votedFor := n.storage.hardState.votedFor
  if (votedFor = none ∨ votedFor = some args.candidateId) ∧
      n.logUpToDate args then
    update fun n =>
      { n with storage :=
          n.storage.saveHardState ⟨term, some args.candidateId⟩ }
    return ⟨term, true⟩
  else
    return ⟨term, false⟩

def handleRequestVote (args : RequestVoteArgs) :
    NodeM M RequestVoteReply := do
  let n ← node
  if args.term > n.currentTerm then
    becomeFollower args.term none
  decideVote args

/-- Leader stickiness: the node leads, or heard from a valid leader lately. -/
def Node.leaderIsLive (n : Node M) (now : Instant) : Bool :=
  n.isLeader || n.lastLeaderContact.any fun at_ =>
    now - at_ < n.config.electionTimeoutMin

def handlePreVote (now : Instant) (args : RequestVoteArgs) :
    NodeM M RequestVoteReply := do
  let n ← node
  return ⟨n.currentTerm, args.term > n.currentTerm ∧ n.logUpToDate args ∧
    !n.leaderIsLive now⟩

/-- Replaces everything up to the boundary. Proposals at or below it can no
longer be judged and lose their senders; those beyond it resolve normally. -/
def adoptSnapshot (now : Instant) (snapshot : Snapshot M.Payload) :
    NodeM M Unit := do
  let n ← node
  let boundary := snapshot.lastIncludedIndex
  let storage ← expect (n.storage.installSnapshot snapshot)
    (.storage "cannot persist snapshot; fail-stop")
  let state ← unwrap (M.restore snapshot.state) .malformedSnapshot
  update fun n =>
    { n with
      storage := storage
      stateMachine := state
      commitIndex := boundary
      lastApplied := boundary }
  rescanMembership now
  let n ← node
  emitAll ((n.pending.filter fun p => p.index ≤ boundary).map fun p =>
    .dropped p.term p.index)
  update fun n =>
    { n with pending := n.pending.filter fun p => p.index > boundary }
  resolvePending

def handleInstallSnapshot (now : Instant)
    (args : InstallSnapshotArgs M.Payload) :
    NodeM M InstallSnapshotReply := do
  let n ← node
  if args.term < n.currentTerm then
    return ⟨n.currentTerm⟩
  becomeFollower args.term (some args.leaderId)
  update fun n => { n with lastLeaderContact := some now }
  let n ← node
  let term := n.currentTerm
  -- everything through the boundary is committed here already
  if args.snapshot.lastIncludedIndex ≤ n.commitIndex then
    return ⟨term⟩
  adoptSnapshot now args.snapshot
  return ⟨term⟩

/-- The consistency check: an index below the boundary matches vacuously. -/
def Node.prevMatches (n : Node M) (args : AppendEntriesArgs V) : Bool :=
  match n.storage.term args.prevLogIndex with
  | some term => term = args.prevLogTerm
  | none => args.prevLogIndex < n.storage.snapshotIndex

/-- The walk over the batch: skip what is compacted or already held, cut the
log at the first conflict. Answers the index to append from and whether the
cut took the configuration in effect with it. -/
def walkEntries : List (LogEntry V) → NodeM M (Option Nat × Bool)
  | [] => return (none, false)
  | e :: rest => do
      let n ← node
      if e.index ≤ n.storage.snapshotIndex then
        walkEntries rest
      else
        match n.storage.term e.index with
        | some existing =>
            if existing = e.term then
              walkEntries rest
            else
              if e.index ≤ n.commitIndex then
                panicWith (.truncatesCommitted e.index)
              let storage ← expect (n.storage.truncateFrom e.index)
                (.storage "cannot truncate conflicting entries; fail-stop")
              update fun n => { n with storage := storage }
              resolvePending
              return (some e.index, e.index ≤ n.membersIndex)
        | none => return (some e.index, false)

def appendFrom (now : Instant) (args : AppendEntriesArgs V)
    (first : Nat) : NodeM M Unit := do
  let offset ← checkedSub first args.prevLogIndex
  let offset ← checkedSub offset 1
  if args.entries.length < offset then
    panicWith .sliceOutOfBounds
  let n ← node
  let storage ← expect (n.storage.append (args.entries.drop offset))
    (.storage "cannot append entries; fail-stop")
  update fun n => { n with storage := storage }
  match newestConfig (args.entries.drop offset) with
  | some adopted => adoptMembership now adopted.1 adopted.2
  | none => pure ()

/-- Brings the log in line with a batch whose predecessor matches. -/
def spliceEntries (now : Instant) (args : AppendEntriesArgs V) :
    NodeM M Unit := do
  let walked ← walkEntries args.entries
  if walked.2 then
    rescanMembership now
  match walked.1 with
  | some first => appendFrom now args first
  | none => pure ()

/-- Commit only what this RPC verified matches the leader. -/
def commitVerified (args : AppendEntriesArgs V) : NodeM M Unit := do
  let n ← node
  let newCommit := min args.leaderCommit
    (args.prevLogIndex + args.entries.length)
  if newCommit > n.commitIndex then
    update fun n => { n with commitIndex := newCommit }
    applyCommitted

def handleAppendEntries (now : Instant) (args : AppendEntriesArgs V) :
    NodeM M AppendEntriesReply := do
  let n ← node
  if args.term < n.currentTerm then
    return ⟨n.currentTerm, false⟩
  becomeFollower args.term (some args.leaderId)
  update fun n => { n with lastLeaderContact := some now }
  let n ← node
  let term := n.currentTerm
  if !n.prevMatches args then
    return ⟨term, false⟩
  spliceEntries now args
  commitVerified args
  return ⟨term, true⟩

def handleInbound (now : Instant) :
    RpcRequest V M.Payload → NodeM M RpcResponse
  | .requestVote args => do return .requestVote (← handleRequestVote args)
  | .appendEntries args => do
      return .appendEntries (← handleAppendEntries now args)
  | .preVote args => do return .preVote (← handlePreVote now args)
  | .installSnapshot args => do
      return .installSnapshot (← handleInstallSnapshot now args)

/-! ## Replies to outbound RPCs -/

def handlePreVoteReply (now : Instant) (sentTerm : Nat) (peer : NodeId)
    (reply : RequestVoteReply) : NodeM M Unit := do
  let n ← node
  if reply.term > n.currentTerm then
    becomeFollower reply.term none
    return
  if sentTerm ≠ n.currentTerm + 1 ∨ !reply.voteGranted then
    return
  match n.role with
  | .preCandidate votes =>
      update fun n => { n with role := .preCandidate (insert peer votes) }
      maybeStartElection now
  | _ => pure ()

def handleVoteReply (now : Instant) (sentTerm : Nat) (peer : NodeId)
    (reply : RequestVoteReply) : NodeM M Unit := do
  let n ← node
  if reply.term > n.currentTerm then
    becomeFollower reply.term none
    return
  if sentTerm ≠ n.currentTerm ∨ !reply.voteGranted then
    return
  match n.role with
  | .candidate votes =>
      update fun n => { n with role := .candidate (insert peer votes) }
      maybeBecomeLeader now
  | _ => pure ()

namespace LeaderState

/-- Any reply at our term acknowledges our authority as of its send, and is
contact. -/
def answered (l : LeaderState) (peer : NodeId) (seq : Nat) (now : Instant) :
    LeaderState :=
  { l with
    ackedSeq := Function.update l.ackedSeq peer
      (some (max ((l.ackedSeq peer).getD 0) seq))
    lastContact := Function.update l.lastContact peer (some now) }

/-- Whether the peer is departing and now known to hold its removal. -/
def departs (l : LeaderState) (peer : NodeId) (held : Nat) : Bool :=
  (l.departing.get peer).any fun x => held ≥ x.1

def depart (l : LeaderState) (peer : NodeId) : LeaderState :=
  { l with departing := l.departing.remove peer }

/-- The peer confirmed it matches us up to `confirmed`. -/
def confirm (l : LeaderState) (peer : NodeId) (confirmed : Nat) :
    LeaderState :=
  if confirmed > (l.matchIndex peer).getD 0 then
    { l with
      matchIndex := Function.update l.matchIndex peer (some confirmed)
      nextIndex := Function.update l.nextIndex peer (some (confirmed + 1)) }
  else
    { l with
      matchIndex := Function.update l.matchIndex peer
        (some ((l.matchIndex peer).getD 0)) }

/-- §5.3 backtracking below the refused `prev_log_index`. -/
def backtrack (l : LeaderState) (peer : NodeId) (sentPrev : Nat) :
    LeaderState :=
  { l with
    nextIndex := Function.update l.nextIndex peer
      (some (min ((l.nextIndex peer).getD 1) (max sentPrev 1))) }

/-- The peer holds everything through an installed boundary. -/
def installed (l : LeaderState) (peer : NodeId) (boundary : Nat)
    (now : Instant) : LeaderState :=
  { l with
    lastContact := Function.update l.lastContact peer (some now)
    matchIndex := Function.update l.matchIndex peer
      (some (max ((l.matchIndex peer).getD 0) boundary))
    nextIndex := Function.update l.nextIndex peer
      (some (max ((l.nextIndex peer).getD 1) (boundary + 1))) }

end LeaderState

def handleAppendReply (now : Instant) (sentTerm : Nat) (peer : NodeId)
    (sentPrevIndex : Nat) (sentEntries sentSeq : Nat)
    (reply : AppendEntriesReply) : NodeM M Unit := do
  let n ← node
  if reply.term > n.currentTerm then
    becomeFollower reply.term none
    return
  if sentTerm ≠ n.currentTerm then
    return
  match n.role with
  | .leader l =>
      let lastIndex := n.storage.lastIndex
      let l := l.answered peer sentSeq now
      if reply.success then
        let confirmed := sentPrevIndex + sentEntries
        let grew : Bool := confirmed > (l.matchIndex peer).getD 0
        let l := l.confirm peer confirmed
        let departed := l.departs peer ((l.matchIndex peer).getD 0)
        let l := if departed then l.depart peer else l
        update fun n => { n with role := .leader l }
        if departed then publishMembership
        maybeAdvanceCommit
        if grew ∧ confirmed < lastIndex ∧ !departed then sendAppend peer
      else
        let l := l.backtrack peer sentPrevIndex
        update fun n => { n with role := .leader l }
        sendAppend peer
      resolveReads
  | _ => pure ()

def handleInstallSnapshotReply (now : Instant) (sentTerm : Nat)
    (peer : NodeId) (lastIncludedIndex : Nat)
    (reply : InstallSnapshotReply) : NodeM M Unit := do
  let n ← node
  if reply.term > n.currentTerm then
    becomeFollower reply.term none
    return
  if sentTerm ≠ n.currentTerm then
    return
  match n.role with
  | .leader l =>
      let lastIndex := n.storage.lastIndex
      let l := l.installed peer lastIncludedIndex now
      let departed := l.departs peer lastIncludedIndex
      let l := if departed then l.depart peer else l
      update fun n => { n with role := .leader l }
      if departed then publishMembership
      maybeAdvanceCommit
      if lastIncludedIndex < lastIndex then sendAppend peer
  | _ => pure ()

/-- A mismatched or failed reply is ignored. -/
def handleEvent (now : Instant) : Event → NodeM M Unit
  | .preVoteReply sentTerm peer (.ok (.preVote reply)) =>
      handlePreVoteReply now sentTerm peer reply
  | .voteReply sentTerm peer (.ok (.requestVote reply)) =>
      handleVoteReply now sentTerm peer reply
  | .appendReply sentTerm peer prev len seq (.ok (.appendEntries reply)) =>
      handleAppendReply now sentTerm peer prev len seq reply
  | .installSnapshotReply sentTerm peer i (.ok (.installSnapshot reply)) =>
      handleInstallSnapshotReply now sentTerm peer i reply
  | _ => pure ()

end RustKV
