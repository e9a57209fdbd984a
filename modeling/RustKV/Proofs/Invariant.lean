import RustKV.Proofs.Membership

/-!
# What holds between events, and what one event may do

The system invariant has three kinds of parts. A node holds a log `F` of
which its storage keeps a snapshot and the rest, has applied exactly its
committed part, and stands in good order with the history (`NodeInv`). A
message says something true about the history (`RpcOk`, `ReplyOk`), and
since the history only grows it stays true for as long as the message is
around: late, duplicated and reordered deliveries cost nothing. And the
history itself is well formed (`Sound`).

The second half is the contract of an event. A handler starts at a node, a
log and a history (`Start`) and runs through intermediate states; `At` says
that such a state is a good one to stop in: the history grew by this node's
records only, the node is in good order with it, everything put out so far
is justified (`OutOk`), and the node has moved the way nodes move (`Moved`):
its term and its applied index did not go back, it leads only what it led or
has just won, and every entry it holds it held before, was sent, or has
created as a leader.
-/

namespace RustKV

open Rust Consensus History

variable {V : Type} {M : StateMachine V}

/-! ## One node -/

/-- A staged capture is the state after the prefix it is staged for. -/
structure Captured (M : StateMachine V) (F : List (LogEntry V))
    (st : StagedSnapshot M.Payload) : Prop where
  pos : 0 < st.index
  state : st.state = M.snapshot (M.replay (F.take st.index))
  membership : st.membership = lastConfig (F.take st.index)

/-- The log, what is applied of it, and what is kept of it on disk. -/
structure Body (D : Deployment) (n : NodeId) (F : List (LogEntry V))
    (x : Node M) : Prop where
  config : x.config = D.config n
  repr : Represents M x.storage F
  boundary_le : x.storage.snapshotIndex ≤ x.lastApplied
  applied_le : x.lastApplied ≤ x.commitIndex
  commit_le : x.commitIndex ≤ F.length
  state : x.stateMachine = M.replay (F.take x.lastApplied)
  staged : ∀ st, x.stagedSnapshot = some st →
    Captured M F st ∧ st.index ≤ x.lastApplied

structure MembersOk (D : Deployment) (n : NodeId) (F : List (LogEntry V))
    (x : Node M) : Prop where
  members : x.members = membersOf (D.config n) F
  index : Located F x.membersIndex x.storage.snapshotIndex

/-- What a leader of term `t` believes about others is recorded. -/
structure LeaderInv (D : Deployment) (H : Hist V) (n : NodeId)
    (F : List (LogEntry V)) (members : Membership) (t : Nat)
    (l : LeaderState) : Prop where
  members : members.keySet = (rules D).cfg F
  start : ∃ b, H.led t = some (n, b) ∧ l.termStartIndex = b.length + 1
  matched : ∀ p k, l.matchIndex p = some k → 0 < k → H.ack p t k
  next : ∀ p k, l.nextIndex p = some k → 1 ≤ k ∧ k ≤ F.length + 1
  seq : H.seq n t = l.heartbeatSeq
  acked : ∀ p q, l.ackedSeq p = some q → H.heard n t p q
  reads : ∀ r ∈ l.pendingReads,
    l.termStartIndex ≤ r.readIndex ∧ r.neededSeq ≤ l.heartbeatSeq

/-- A pre-campaign binds nobody. -/
def Role.part : Role → Part
  | .follower => .follower
  | .preCandidate _ => .follower
  | .candidate _ => .candidate
  | .leader _ => .leader

def RoleInv (D : Deployment) (H : Hist V) (n : NodeId)
    (F : List (LogEntry V)) (members : Membership) (t : Nat) : Role → Prop
  | .follower => True
  | .preCandidate _ => True
  | .candidate votes => ∀ v ∈ votes, ∃ K, H.vote v t = some (n, K)
  | .leader l => LeaderInv D H n F members t l

/-- A node as the consensus library sees a server. -/
def Node.replica (x : Node M) (F : List (LogEntry V)) :
    Replica NodeId (LogEntry V) :=
  ⟨x.currentTerm, x.storage.hardState.votedFor, F, x.commitIndex,
    x.role.part⟩

/-- A node whose commit index may have run ahead of what it applied. -/
structure Settling (D : Deployment) (H : Hist V) (n : NodeId)
    (F : List (LogEntry V)) (x : Node M) : Prop where
  body : Body D n F x
  members : MembersOk D n F x
  /-- Waiting proposals are still in the log. -/
  waiting : ∀ p ∈ x.pending,
    x.storage.snapshotIndex < p.index ∧ termAt F p.index = some p.term
  ok : (x.replica F).Ok (rules D) H n
  role : RoleInv D H n F x.members x.currentTerm x.role
  seq : ∀ t, (∀ b, H.led t ≠ some (n, b)) → H.seq n t = 0

/-- A node between two events: all that is committed is applied, and no
waiting proposal is committed. -/
structure NodeInv (D : Deployment) (H : Hist V) (n : NodeId)
    (F : List (LogEntry V)) (x : Node M) : Prop extends
    Settling D H n F x where
  applied : x.lastApplied = x.commitIndex
  uncommitted : ∀ p ∈ x.pending, x.commitIndex < p.index

/-- The history is well formed and its entries know their positions. -/
structure Sound (D : Deployment) (H : Hist V) : Prop where
  wf : H.Wf (rules D)
  indexed : ∀ t, Indexed (H.tlog t)

variable {D : Deployment} {H H' : Hist V} {n : NodeId}
  {F : List (LogEntry V)} {x : Node M}

/-- Growth by other nodes' records, or by ones a leader does not read. -/
theorem LeaderInv.mono {members : Membership} {t : Nat} {l : LeaderState}
    (h : LeaderInv D H n F members t l) (hle : Le H H')
    (hseq : H'.seq n t = H.seq n t) : LeaderInv D H' n F members t l where
  members := h.members
  start := by
    obtain ⟨b, hb, h1⟩ := h.start
    exact ⟨b, hle.led hb, h1⟩
  matched p k hp hk := hle.ack (h.matched p k hp hk)
  next := h.next
  seq := hseq.trans h.seq
  acked p q hp := hle.heard (h.acked p q hp)
  reads := h.reads

theorem RoleInv.mono {members : Membership} {t : Nat} {role : Role}
    (h : RoleInv D H n F members t role) (hle : Le H H')
    (hseq : H'.seq n t = H.seq n t) : RoleInv D H' n F members t role := by
  cases role with
  | follower => trivial
  | preCandidate votes => trivial
  | candidate votes =>
      intro v hv
      obtain ⟨K, hK⟩ := h v hv
      exact ⟨K, hle.vote hK⟩
  | leader l => exact LeaderInv.mono h hle hseq

/-- Nobody else's event disturbs a node. -/
theorem NodeInv.frame {m : NodeId} (h : NodeInv D H m F x) (hs : Sound D H)
    (hmn : m ≠ n) (hf : Frame n H H') : NodeInv D H' m F x where
  body := h.body
  applied := h.applied
  members := h.members
  waiting := h.waiting
  uncommitted := h.uncommitted
  ok := h.ok.frame hs.wf hmn hf
  role := h.role.mono hf.toLe (hf.seq_frame hmn)
  seq t ht := by
    rw [hf.seq_frame hmn]
    exact h.seq t fun b hb => ht b (hf.led hb)

/-! ## Messages -/

/-- An AppendEntries ships a slice of its leader's log, the entry in front
of it named correctly, and a commit index that is one. -/
structure AppendOk (H : Hist V) (src : NodeId) (a : AppendEntriesArgs V) :
    Prop where
  leaderId : a.leaderId = src
  led : ∃ b, H.led a.term = some (src, b)
  within : a.prevLogIndex + a.entries.length ≤ (H.tlog a.term).length
  entries : a.entries =
    ((H.tlog a.term).drop a.prevLogIndex).take a.entries.length
  prev : termAt (H.tlog a.term) a.prevLogIndex = some a.prevLogTerm
  commit_le : a.leaderCommit ≤ (H.tlog a.term).length
  committed : H.CommittedAt a.term ((H.tlog a.term).take a.leaderCommit)

/-- An InstallSnapshot ships the snapshot of a committed prefix. -/
structure InstallOk (M : StateMachine V) (H : Hist V) (src : NodeId)
    (a : InstallSnapshotArgs M.Payload) (P : List (LogEntry V)) : Prop where
  leaderId : a.leaderId = src
  led : ∃ b, H.led a.term = some (src, b)
  snapshot : IsSnapshot M a.snapshot P
  log : P <+: H.tlog a.term
  committed : H.CommittedAt a.term P

def RpcOk (D : Deployment) (H : Hist V) (src : NodeId) :
    RpcRequest V M.Payload → Tag → Prop
  | .requestVote a, tag => tag = .vote a.term ∧ a.candidateId = src ∧
      ∃ L, H.cand src a.term = some L ∧ a.lastLogIndex = L.length ∧
        a.lastLogTerm = (rules D).lastTerm L
  | .preVote a, tag => tag = .preVote a.term
  | .appendEntries a, tag => AppendOk H src a ∧ ∃ seq,
      tag = .append a.term a.prevLogIndex a.entries.length seq ∧
        seq ≤ H.seq src a.term
  | .installSnapshot a, tag => (∃ P, InstallOk M H src a P) ∧
      tag = .installSnapshot a.term a.snapshot.lastIncludedIndex

/-- What a reply promises its addressee. -/
def ReplyOk (H : Hist V) (r : Reply M) : Prop :=
  match r.rpc.request, r.response with
  | .requestVote a, .requestVote reply => reply.voteGranted = true →
      ∃ K, H.vote r.rpc.dst a.term = some (r.rpc.src, K)
  | .appendEntries a, .appendEntries reply => a.term ≤ reply.term ∧
      (reply.success = true →
        H.ack r.rpc.dst a.term (a.prevLogIndex + a.entries.length)) ∧
      (reply.term = a.term → ∀ prev len seq,
        r.rpc.tag = .append a.term prev len seq →
        H.heard r.rpc.src a.term r.rpc.dst seq)
  | .installSnapshot a, .installSnapshot reply => a.term ≤ reply.term ∧
      (reply.term = a.term →
        H.ack r.rpc.dst a.term a.snapshot.lastIncludedIndex)
  | _, _ => True

theorem AppendOk.mono {src : NodeId} {a : AppendEntriesArgs V}
    (h : AppendOk H src a) (hle : Le H H') : AppendOk H' src a where
  leaderId := h.leaderId
  led := by
    obtain ⟨b, hb⟩ := h.led
    exact ⟨b, hle.led hb⟩
  within := h.within.trans (hle.tlog _).length_le
  entries := by
    obtain ⟨K, hK⟩ := hle.tlog a.term
    have hw := h.within
    rw [← hK, List.drop_append_of_le_length (by omega),
      List.take_append_of_le_length (by rw [List.length_drop]; omega)]
    exact h.entries
  prev := by
    have hw := h.within
    rw [termAt_isPrefix (hle.tlog a.term) (by omega)]
    exact h.prev
  commit_le := h.commit_le.trans (hle.tlog _).length_le
  committed := by
    rw [hle.take_eq h.commit_le]
    exact h.committed.mono hle le_rfl

theorem InstallOk.mono {src : NodeId} {a : InstallSnapshotArgs M.Payload}
    {P : List (LogEntry V)} (h : InstallOk M H src a P) (hle : Le H H') :
    InstallOk M H' src a P where
  leaderId := h.leaderId
  led := by
    obtain ⟨b, hb⟩ := h.led
    exact ⟨b, hle.led hb⟩
  snapshot := h.snapshot
  log := h.log.trans (hle.tlog _)
  committed := h.committed.mono hle le_rfl

theorem RpcOk.mono {src : NodeId} {req : RpcRequest V M.Payload} {tag : Tag}
    (h : RpcOk D H src req tag) (hle : Le H H') : RpcOk D H' src req tag := by
  cases req with
  | requestVote a =>
      obtain ⟨h1, h2, L, hL, h3⟩ := h
      exact ⟨h1, h2, L, hle.cand hL, h3⟩
  | preVote a => exact h
  | appendEntries a =>
      obtain ⟨h1, seq, h2, h3⟩ := h
      exact ⟨h1.mono hle, seq, h2, h3.trans (hle.seq _ _)⟩
  | installSnapshot a =>
      obtain ⟨⟨P, hP⟩, h2⟩ := h
      exact ⟨⟨P, hP.mono hle⟩, h2⟩

theorem ReplyOk.mono {r : Reply M} (h : ReplyOk H r) (hle : Le H H') :
    ReplyOk H' r := by
  unfold ReplyOk at h ⊢
  split at h
  · intro hg
    obtain ⟨K, hK⟩ := h hg
    exact ⟨K, hle.vote hK⟩
  · exact ⟨h.1, fun hs => hle.ack (h.2.1 hs),
      fun ht p l q hq => hle.heard (h.2.2 ht p l q hq)⟩
  · exact ⟨h.1, fun ht => hle.ack (h.2 ht)⟩
  · trivial

/-! ## The cluster -/

/-- The invariant, with the log `L n` of every node `n`. -/
structure ClusterInv (D : Deployment) (H : Hist V)
    (L : NodeId → List (LogEntry V)) (c : Cluster M) : Prop where
  sound : Sound D H
  nodes : ∀ n, NodeInv D H n (L n) (c.nodes n)
  rpcs : ∀ r ∈ c.rpcs, RpcOk D H r.src r.request r.tag
  replies : ∀ r ∈ c.replies,
    RpcOk D H r.rpc.src r.rpc.request r.rpc.tag ∧ ReplyOk H r

/-! ## The contract of an event -/

/-- What an event is about: acting on a timer, a client or a reply; answering
an RPC; or dying and coming back. Only the first sends anything, and only the
second refuses proposals. -/
inductive EventKind where
  | acting
  | serving
  | restarting
  deriving DecidableEq

/-- Where an event starts: the node with its log, the history so far, and
the entries the event itself brings along. -/
structure Start (M : StateMachine V) where
  id : NodeId
  node : Node M
  hist : Hist V
  log : List (LogEntry V)
  kind : EventKind
  delivered : LogEntry V → Prop

/-- An entry held before, delivered, or created by this node as a leader. -/
def Start.Source (s : Start M) (H : Hist V) (e : LogEntry V) : Prop :=
  e ∈ s.log ∨ s.delivered e ∨
    ((∃ b, H.led e.term = some (s.id, b)) ∧
      (s.hist.tlog e.term).length < e.index)

/-- The node the event starts at leads `t` with a log of length `j`, and a
configuration `m` proposed now passes its gates. -/
def Start.Admits (s : Start M) (t j : Nat) (m : Membership) : Prop :=
  ∃ l now, s.node.role = .leader l ∧ s.node.currentTerm = t ∧
    s.log.length = j ∧ s.node.validateConfigChange l now m = .ok ()

/-- Every configuration a leader has created was there before, or was
proposed in this event and admitted. -/
def Start.Creates (s : Start M) (H : Hist V) (os : List (Output M)) :
    Prop :=
  ∀ e m j, (H.tlog e.term)[j]? = some e → e.configChange? = some m →
    (s.hist.tlog e.term)[j]? = some e ∨ (s.Admits e.term j m ∧
      Output.proposeReply (.ok (e.term, j + 1)) ∈ os)

def Committed (H : Hist V) (e : LogEntry V) : Prop :=
  ∃ t P, H.CommittedAt t P ∧ e ∈ P

/-- What a granted read rests on: a leadership that held before the event and
was confirmed by a majority of the configuration in effect, and a commit of
that leader's own term covering everything it had committed. -/
structure GrantOk (D : Deployment) (s : Start M) (H : Hist V)
    (t q applied : Nat) (state : M.State) : Prop where
  leader : s.node.isLeader = true ∧ s.node.currentTerm = t
  led : ∃ b, H.led t = some (s.id, b)
  applied_le : applied ≤ (H.tlog t).length
  commit : ∃ m, H.commit t applied m
  commit_max : ∀ k m, s.hist.commit t k m → k ≤ applied
  quorum : ∃ l Q, l ≤ (H.tlog t).length ∧
    s.hist.tlog t <+: (H.tlog t).take l ∧
    IsMajority Q ((rules D).cfg ((H.tlog t).take l)) ∧
    ∀ v ∈ Q, v = s.id ∨ ∃ q', q ≤ q' ∧ H.heard s.id t v q'
  state : state = M.replay ((H.tlog t).take applied)

/-- What an output means, the node's log now `F`. -/
def OutOk (D : Deployment) (s : Start M) (H : Hist V)
    (F : List (LogEntry V)) : Output M → Prop
  | .send _ req tag => s.kind = .acting ∧ RpcOk D H s.id req tag ∧
      (∀ a, req = .appendEntries a → ∀ e ∈ a.entries, s.Source H e) ∧
      ∀ a, req = .preVote a → a = s.node.voteArgs (s.node.currentTerm + 1)
  | .committed t i true => 0 < i ∧ ∃ u P, H.CommittedAt u P ∧
      termAt P i = some t
  | .committed t i false => s.kind = .serving ∧ ⟨t, i⟩ ∈ s.node.pending ∧
      termAt F i ≠ some t
  | .dropped t i => ⟨t, i⟩ ∈ s.node.pending ∧
      (s.kind = .restarting ∨ ∃ u P, s.hist.CommittedAt u P ∧ i ≤ P.length)
  | .granted t q applied state => GrantOk D s H t q applied state
  | .readDropped _ _ => True
  | .applied e => 0 < e.index ∧ ∃ u P, H.CommittedAt u P ∧
      P[e.index - 1]? = some e
  | .commitAdvanced t k => (∃ b, H.led t = some (s.id, b)) ∧
      ∃ m, H.commit t k m
  | .proposeReply (.ok (t, i)) => (∃ b, s.hist.led t = some (s.id, b)) ∧
      (s.hist.tlog t).length < i
  | .proposeReply (.error _) => True
  | .readReply (.ok (t, r)) => s.node.isLeader = true ∧
      s.node.currentTerm = t ∧ s.hist.seq s.id t < r.neededSeq
  | .readReply (.error _) => True

/-- The leaders of the terms from the node's own up to `t` all have `P`. -/
def Start.Shared (s : Start M) (P : List (LogEntry V)) (t : Nat) : Prop :=
  ∀ u y, s.node.currentTerm ≤ u → u ≤ t → s.hist.led u = some y →
    P <+: s.hist.tlog u

/-- How a node may move within an event. -/
structure Moved (s : Start M) (H : Hist V) (F : List (LogEntry V))
    (x : Node M) : Prop where
  term_le : s.node.currentTerm ≤ x.currentTerm
  applied_le : s.node.lastApplied ≤ x.lastApplied
  leader : x.role.part = .leader →
    (s.node.isLeader = true ∧ s.node.currentTerm = x.currentTerm) ∨
      s.hist.led x.currentTerm = none
  reads : x.role.pendingReads ≠ [] →
    s.node.isLeader = true ∧ s.node.currentTerm = x.currentTerm
  heard : ∀ {m t v q}, H.heard m t v q →
    s.hist.heard m t v q ∨ (v = s.id ∧ s.node.currentTerm ≤ t)
  log : ∀ e ∈ F, s.Source H e
  /-- What every leader since has, it still holds. -/
  kept : ∀ P, P <+: s.log → s.Shared P x.currentTerm → P <+: F

/-- What holds at every point of a handler started at `s`. -/
structure Underway (D : Deployment) (s : Start M) (H : Hist V)
    (F : List (LogEntry V)) (c : Ctx M) : Prop where
  frame : Frame s.id s.hist H
  sound : Sound D H
  moved : Moved s H F c.node
  created : s.Creates H c.out
  out : ∀ o ∈ c.out, OutOk D s H F o

/-- A state a handler started at `s` may stop in. -/
structure At (D : Deployment) (s : Start M) (H : Hist V)
    (F : List (LogEntry V)) (c : Ctx M) : Prop extends
    Underway D s H F c where
  inv : NodeInv D H s.id F c.node
  fresh : ∀ e, Committed H e →
    Committed s.hist e ∨ Output.applied e ∈ c.out

/-- A state that still has to apply up to its commit index. -/
structure Applying (D : Deployment) (s : Start M) (H : Hist V)
    (F : List (LogEntry V)) (c : Ctx M) : Prop extends
    Underway D s H F c where
  inv : Settling D H s.id F c.node
  fresh : ∀ e, Committed H e → Committed s.hist e ∨
    Output.applied e ∈ c.out ∨
      e ∈ (F.take c.node.commitIndex).drop c.node.lastApplied

theorem Start.Source.mono {s : Start M} {e : LogEntry V}
    (h : s.Source H e) (hle : Le H H') : s.Source H' e := by
  rcases h with h | h | ⟨⟨b, hb⟩, h⟩
  · exact .inl h
  · exact .inr (.inl h)
  · exact .inr (.inr ⟨⟨b, hle.led hb⟩, h⟩)

theorem Start.Creates.same {s : Start M} {os : List (Output M)}
    (h : s.Creates H os) (htl : H'.tlog = H.tlog) : s.Creates H' os := by
  unfold Start.Creates
  rw [htl]
  exact h

theorem Start.Creates.append {s : Start M} {os os' : List (Output M)}
    (h : s.Creates H os) : s.Creates H (os ++ os') := by
  intro e m j he hm
  rcases h e m j he hm with hold | ⟨hadm, ho⟩
  · exact .inl hold
  · exact .inr ⟨hadm, List.mem_append_left _ ho⟩

/-- A leader appends an entry, admitted if it carries a configuration. -/
theorem Start.Creates.extend {s : Start M} {os os' : List (Output M)}
    (h : s.Creates H os) {t : Nat} {e : LogEntry V} (ht : e.term = t)
    (hnew : ∀ m, e.configChange? = some m →
      s.Admits e.term (H.tlog t).length m ∧
        Output.proposeReply (.ok (e.term, (H.tlog t).length + 1)) ∈ os') :
    s.Creates (H.extend t e) (os ++ os') := by
  subst ht
  intro y m j hy hm
  simp only [History.extend] at hy
  split at hy
  · next heq =>
      rw [List.getElem?_append] at hy
      split at hy
      · exact h.append y m j (heq ▸ hy) hm
      · rw [List.getElem?_singleton] at hy
        split at hy
        · cases hy
          rw [show j = (H.tlog e.term).length by omega]
          exact .inr ((hnew m hm).imp_right (List.mem_append_right _))
        · cases hy
  · exact h.append y m j hy hm

/-- A log taken over at an election is older than the term. -/
theorem Start.Creates.elect {s : Start M} {os : List (Output M)}
    (h : s.Creates H os) {t : Nat} {n : NodeId}
    (hold : ∀ e ∈ F, e.term ≠ t) : s.Creates (H.elect t n F) os := by
  intro y m j hy hm
  simp only [History.elect] at hy
  split at hy
  · next heq => exact absurd heq (hold y (List.mem_of_getElem? hy))
  · exact h y m j hy hm

theorem GrantOk.mono {s : Start M} {t q applied : Nat} {state : M.State}
    (h : GrantOk D s H t q applied state) (hle : Le H H') :
    GrantOk D s H' t q applied state where
  leader := h.leader
  led := by
    obtain ⟨b, hb⟩ := h.led
    exact ⟨b, hle.led hb⟩
  applied_le := h.applied_le.trans (hle.tlog t).length_le
  commit := by
    obtain ⟨m, hm⟩ := h.commit
    exact ⟨m, hle.commit hm⟩
  commit_max := h.commit_max
  quorum := by
    obtain ⟨l, Q, hl, hpre, hQ, hv⟩ := h.quorum
    refine ⟨l, Q, hl.trans (hle.tlog t).length_le, ?_, ?_, fun v hvQ => ?_⟩
    · rwa [hle.take_eq hl]
    · rwa [hle.take_eq hl]
    · rcases hv v hvQ with rfl | ⟨q', hq, hh⟩
      · exact .inl rfl
      · exact .inr ⟨q', hq, hle.heard hh⟩
  state := by rw [hle.take_eq h.applied_le]; exact h.state

theorem OutOk.mono {s : Start M} {o : Output M} (h : OutOk D s H F o)
    (hle : Le H H') : OutOk D s H' F o := by
  unfold OutOk at h ⊢
  split at h
  · exact ⟨h.1, h.2.1.mono hle,
      fun a ha e he => (h.2.2.1 a ha e he).mono hle, h.2.2.2⟩
  · obtain ⟨hi, u, P, hP, ht⟩ := h
    exact ⟨hi, u, P, hP.mono hle le_rfl, ht⟩
  · exact h
  · exact h
  · exact GrantOk.mono h hle
  · trivial
  · obtain ⟨hi, u, P, hP, ht⟩ := h
    exact ⟨hi, u, P, hP.mono hle le_rfl, ht⟩
  · obtain ⟨⟨b, hb⟩, m, hm⟩ := h
    exact ⟨⟨b, hle.led hb⟩, m, hle.commit hm⟩
  · exact h
  · trivial
  · exact h
  · trivial

theorem OutOk.relog {s : Start M} {o : Output M} {F' : List (LogEntry V)}
    (h : OutOk D s H F o)
    (hr : ∀ t i, o = .committed t i false → termAt F' i ≠ some t) :
    OutOk D s H F' o := by
  unfold OutOk at h ⊢
  split at h
  · exact h
  · exact h
  · exact ⟨h.1, h.2.1, hr _ _ rfl⟩
  · exact h
  · exact h
  · trivial
  · exact h
  · exact h
  · exact h
  · trivial
  · exact h
  · trivial

/-- Growth without a commit commits nothing new: a commit index never
reaches past the leader's log as it was. -/
theorem Committed.of_le {e : LogEntry V} (h : Committed H' e)
    (hs : Sound D H) (hle : Le H H')
    (hc : ∀ t k m, H'.commit t k m → H.commit t k m) : Committed H e := by
  obtain ⟨t, P, rfl | ⟨t₀, k, m, ht, hcm, hp⟩, he⟩ := h
  · cases he
  · have hcm₀ := hc t₀ k m hcm
    obtain ⟨-, -, hk, -⟩ := hs.wf.commit_last hcm₀
    rw [hle.take_eq hk] at hp
    exact ⟨t, P, .inr ⟨t₀, k, m, ht, hcm₀, hp⟩, he⟩

end RustKV
