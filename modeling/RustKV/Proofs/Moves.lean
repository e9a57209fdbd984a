import RustKV.Proofs.Storage
import RustKV.Raft.Cluster

/-!
# A node as a machine of guarded moves

A handler is a page of code; what it can do to the role, the term, the
membership and the bookkeeping of its node is one of a few moves. `Move` lists
them, each with the guard the code has checked by then, and `Moves` strings
them together, with everything put out on the way.

What is true of a node at all times can be shown of one move at a time from
here on. What a move leaves open is the log and all that goes with it
(`Quiet`): that is the other half, in `Proofs/Deeds.lean`. That every handler
is such a string is shown for both halves at once in `Proofs/Acts.lean`.

The specifications are in the partial form, `wlp`: that nothing panics is
known already and is not needed again.
-/

namespace RustKV

open Rust Prog NodeM

variable {V : Type} {M : StateMachine V}

/-! ## Moves -/

inductive Cause (M : StateMachine V) where
  | timeout
  | heartbeat
  | propose (command : Command V)
  | read
  | inbound (request : RpcRequest V M.Payload)
  | reply (event : Event)

/-- The event is a message in which `n` claims to lead term `t`. -/
def Cause.Announces (t : Nat) (n : NodeId) : Cause M → Prop
  | .inbound (.appendEntries a) => a.term = t ∧ a.leaderId = n
  | .inbound (.installSnapshot a) => a.term = t ∧ a.leaderId = n
  | _ => False

/-- The event may end in an election. -/
def Cause.Campaigns : Cause M → Prop
  | .timeout => True
  | .reply _ => True
  | _ => False

/-- Outputs that answer nobody's request: verdicts, refusals, notes. -/
def Output.plain : Output M → Bool
  | .send _ _ _ => false
  | .proposeReply (.ok _) => false
  | .readReply (.ok _) => false
  | _ => true

def Role.setReads (rs : List PendingRead) : Role → Role
  | .leader l => .leader { l with pendingReads := rs }
  | r => r

/-- Only the log, the snapshot, the commit index, the applied state and the
waiters moved. -/
structure Quiet (x x' : Node M) : Prop where
  config : x'.config = x.config
  hardState : x'.storage.hardState = x.storage.hardState
  role : ∃ rs, (∀ r ∈ rs, r ∈ x.role.pendingReads) ∧
    x'.role = x.role.setReads rs
  leaderId : x'.leaderId = x.leaderId
  members : x'.members = x.members
  membersIndex : x'.membersIndex = x.membersIndex
  membershipView : x'.membershipView = x.membershipView
  lastLeaderContact : x'.lastLeaderContact = x.lastLeaderContact

namespace Node

/-- `become_follower`, as one change. -/
def follow (x : Node M) (t : Nat) (hint : Option NodeId) : Node M :=
  { x with
    storage := if x.currentTerm < t then x.storage.saveHardState ⟨t, none⟩
      else x.storage
    role := .follower
    leaderId := hint
    membershipView := if x.role.departing.isEmpty then x.membershipView
      else ⟨x.members, BTreeMap.empty⟩ }

/-- The node leads although it is no longer a member, and the entry that
removed it is committed. -/
def Outvoted (x : Node M) : Prop :=
  x.members.containsKey x.config.id = false ∧ x.membersIndex ≤ x.commitIndex

/-- A leader's append of a proposal, with all that goes with it. -/
def accepted (x : Node M) (l : LeaderState) (now : Instant)
    (storage : Storage V M.Payload) : Command V → Node M
  | .configChange new =>
      { x with
        storage := storage
        role := .leader
          (l.adopt x.config.id x.members new (x.storage.lastIndex + 1) now)
        members := new
        membersIndex := x.storage.lastIndex + 1
        membershipView := ⟨new, (l.adopt x.config.id x.members new
          (x.storage.lastIndex + 1) now).departing.mapValues Prod.snd⟩
        pending := x.pending ++ [⟨x.currentTerm, x.storage.lastIndex + 1⟩] }
  | _ =>
      { x with
        storage := storage
        pending := x.pending ++ [⟨x.currentTerm, x.storage.lastIndex + 1⟩] }

theorem config_accepted (x : Node M) (l : LeaderState) (now : Instant)
    (S : Storage V M.Payload) (cmd : Command V) :
    (x.accepted l now S cmd).config = x.config := by
  cases cmd <;> rfl

theorem storage_accepted (x : Node M) (l : LeaderState) (now : Instant)
    (S : Storage V M.Payload) (cmd : Command V) :
    (x.accepted l now S cmd).storage = S := by
  cases cmd <;> rfl

theorem pending_accepted (x : Node M) (l : LeaderState) (now : Instant)
    (S : Storage V M.Payload) (cmd : Command V) :
    (x.accepted l now S cmd).pending =
      x.pending ++ [⟨x.currentTerm, x.storage.lastIndex + 1⟩] := by
  cases cmd <;> rfl

theorem currentTerm_accepted {x : Node M} {S : Storage V M.Payload}
    (h : S.hardState = x.storage.hardState) (l : LeaderState)
    (now : Instant) (cmd : Command V) :
    (x.accepted l now S cmd).currentTerm = x.currentTerm := by
  cases cmd <;> simp only [accepted, currentTerm, h]

/-- New bookkeeping after an answer; a departing peer that is known to hold
`held` may be done. -/
def book (x : Node M) (l : LeaderState) (peer : NodeId) (held : Nat) :
    Node M :=
  { x with
    role := .leader (if l.departs peer held then l.depart peer else l)
    membershipView := if l.departs peer held then
        ⟨x.members, (l.depart peer).departing.mapValues Prod.snd⟩
      else x.membershipView }

def Ships (x : Node M) (l : LeaderState) :
    RpcRequest V M.Payload → Tag → Prop
  | .appendEntries a, tag => a.term = x.currentTerm ∧
      a.leaderId = x.config.id ∧ tag = .append x.currentTerm a.prevLogIndex
        a.entries.length l.heartbeatSeq
  | .installSnapshot a, tag => a.term = x.currentTerm ∧
      a.leaderId = x.config.id ∧ tag = .installSnapshot x.currentTerm
        a.snapshot.lastIncludedIndex
  | _, _ => False

end Node

/-- One change of a node, what it puts out, and what was checked before. -/
inductive Move (now : Instant) (cause : Cause M) :
    Node M → Node M → List (Output M) → Prop
  | quiet {x x' : Node M} {os : List (Output M)} (h : Quiet x x')
      (hos : ∀ o ∈ os, o.plain = true)
      (hstay : x.isLeader = true →
        x'.commitIndex = x.commitIndex ∨ ¬ x'.Outvoted) :
      Move now cause x x' os
  /-- A leader commits its own removal and steps down. -/
  | retire {x x' : Node M} {os : List (Output M)} (h : Quiet x x')
      (hos : ∀ o ∈ os, o.plain = true) (hl : x.isLeader = true)
      (hout : x'.Outvoted) :
      Move now cause x (x'.follow x'.currentTerm none) os
  | follow {x : Node M} {os : List (Output M)} (t : Nat)
      (hint : Option NodeId) (hos : ∀ o ∈ os, o.plain = true)
      (ht : x.currentTerm ≤ t)
      (hhint : ∀ n, hint = some n → cause.Announces t n) :
      Move now cause x (x.follow t hint) os
  | contact {x : Node M} :
      Move now cause x { x with lastLeaderContact := some now } []
  | grant {x : Node M} (a : RequestVoteArgs)
      (hc : cause = .inbound (.requestVote a)) (ht : x.currentTerm = a.term)
      (hv : x.storage.hardState.votedFor = none ∨
        x.storage.hardState.votedFor = some a.candidateId) :
      Move now cause x
        { x with
          storage := x.storage.saveHardState
            ⟨x.currentTerm, some a.candidateId⟩ } []
  | adopt {x : Node M} (members : Membership) (index : Nat)
      (hc : ∃ req, cause = .inbound req) (hr : x.role = .follower) :
      Move now cause x
        { x with
          role := .follower
          members := members
          membersIndex := index
          membershipView := ⟨members, BTreeMap.empty⟩ } []
  | accept {x : Node M} {l : LeaderState} {S : Storage V M.Payload}
      (cmd : Command V) (hc : cause = .propose cmd)
      (hl : x.role = .leader l) (hv : x.validateCommand l now cmd = .ok ())
      (hS : x.storage.append
        [⟨x.currentTerm, x.storage.lastIndex + 1, cmd⟩] = .ok S) :
      Move now cause x (x.accepted l now S cmd)
        [.proposeReply (.ok (x.currentTerm, x.storage.lastIndex + 1))]
  | preCampaign {x : Node M} (hc : cause = .timeout)
      (hl : x.isLeader = false)
      (hm : x.members.containsKey x.config.id = true) :
      Move now cause x
        { x with role := .preCandidate {x.config.id}, leaderId := none }
        (x.peerIds.map fun peer => .send peer
          (.preVote (x.voteArgs (x.currentTerm + 1)))
          (.preVote (x.currentTerm + 1)))
  | campaign {x : Node M} {votes : Finset NodeId} (hc : cause.Campaigns)
      (hr : x.role = .preCandidate votes)
      (hv : x.majority ≤ x.countMemberVotes votes) :
      Move now cause x
        { x with
          storage := x.storage.saveHardState
            ⟨x.currentTerm + 1, some x.config.id⟩
          role := .candidate {x.config.id}
          leaderId := none }
        (x.peerIds.map fun peer => .send peer
          (.requestVote (x.voteArgs (x.currentTerm + 1)))
          (.vote (x.currentTerm + 1)))
  | win {x : Node M} {votes : Finset NodeId} {S : Storage V M.Payload}
      (hc : cause.Campaigns) (hr : x.role = .candidate votes)
      (hv : x.majority ≤ x.countMemberVotes votes)
      (hS : x.storage.append
        [⟨x.currentTerm, x.storage.lastIndex + 1, .noop⟩] = .ok S) :
      Move now cause x
        { x with
          storage := S
          role := .leader
            (.fresh x.peerIds (x.storage.lastIndex + 1) now)
          leaderId := some x.config.id } []
  | preVoted {x : Node M} {votes : Finset NodeId} (peer : NodeId)
      (reply : RequestVoteReply)
      (hc : cause = .reply (.preVoteReply (x.currentTerm + 1) peer
        (.ok (.preVote reply)))) (hg : reply.voteGranted = true)
      (hr : x.role = .preCandidate votes) :
      Move now cause x { x with role := .preCandidate (insert peer votes) } []
  | voted {x : Node M} {votes : Finset NodeId} (peer : NodeId)
      (reply : RequestVoteReply)
      (hc : cause = .reply (.voteReply x.currentTerm peer
        (.ok (.requestVote reply)))) (hg : reply.voteGranted = true)
      (hr : x.role = .candidate votes) :
      Move now cause x { x with role := .candidate (insert peer votes) } []
  | register {x : Node M} {l : LeaderState} (r : PendingRead)
      (hc : cause = .read)
      (hr : r = ⟨l.heartbeatSeq + 1, max x.commitIndex l.termStartIndex⟩)
      (hl : x.role = .leader l) :
      Move now cause x
        { x with
          role := .leader
            { l with
              heartbeatSeq := l.heartbeatSeq + 1
              pendingReads := l.pendingReads ++ [r] } }
        [.readReply (.ok (x.currentTerm, r))]
  | confirmed {x : Node M} {l : LeaderState} (peer : NodeId)
      (prev len seq : Nat) (reply : AppendEntriesReply)
      (hc : cause = .reply (.appendReply x.currentTerm peer prev len seq
        (.ok (.appendEntries reply)))) (hl : x.role = .leader l)
      (hs : reply.success = true) :
      Move now cause x
        (x.book ((l.answered peer seq now).confirm peer (prev + len)) peer
          ((((l.answered peer seq now).confirm peer
            (prev + len)).matchIndex peer).getD 0)) []
  | refused {x : Node M} {l : LeaderState} (peer : NodeId)
      (prev len seq : Nat) (reply : AppendEntriesReply)
      (hc : cause = .reply (.appendReply x.currentTerm peer prev len seq
        (.ok (.appendEntries reply)))) (hl : x.role = .leader l)
      (hs : reply.success = false) :
      Move now cause x
        { x with
          role := .leader
            ((l.answered peer seq now).backtrack peer prev) } []
  | installed {x : Node M} {l : LeaderState} (peer : NodeId)
      (boundary : Nat) (reply : InstallSnapshotReply)
      (hc : cause = .reply (.installSnapshotReply x.currentTerm peer boundary
        (.ok (.installSnapshot reply)))) (hl : x.role = .leader l) :
      Move now cause x
        (x.book (l.installed peer boundary now) peer boundary) []
  | ship {x : Node M} {l : LeaderState} (peer : NodeId)
      (req : RpcRequest V M.Payload) (tag : Tag) (hl : x.role = .leader l)
      (hto : x.members.containsKey peer = true ∨
        l.departing.containsKey peer = true)
      (hreq : x.Ships l req tag) :
      Move now cause x x [.send peer req tag]

inductive Moves (now : Instant) (cause : Cause M) (x : Node M) :
    Node M → List (Output M) → Prop
  | refl : Moves now cause x x []
  | step {y z : Node M} {os os' : List (Output M)}
      (h : Moves now cause x y os) (hm : Move now cause y z os') :
      Moves now cause x z (os ++ os')

variable {now : Instant} {cause : Cause M} {x y z : Node M}
  {os os' : List (Output M)} {c c₁ c' : Ctx M}

theorem Move.single (h : Move now cause x y os) : Moves now cause x y os :=
  .step .refl h

/-! ## Changes the moves leave open -/

@[simp] theorem Role.pendingReads_setReads_le {rs : List PendingRead}
    {r : Role} : ∀ q ∈ (r.setReads rs).pendingReads, q ∈ rs := by
  cases r <;> simp [setReads, pendingReads]

theorem Role.setReads_self (r : Role) : r.setReads r.pendingReads = r := by
  cases r <;> rfl

theorem Role.setReads_setReads (r : Role) (rs rs' : List PendingRead) :
    (r.setReads rs).setReads rs' = r.setReads rs' := by
  cases r <;> rfl

namespace Quiet

theorem refl (x : Node M) : Quiet x x :=
  ⟨rfl, rfl, ⟨x.role.pendingReads, fun _ hr => hr,
    x.role.setReads_self.symm⟩, rfl, rfl, rfl, rfl, rfl⟩

theorem trans (h : Quiet x y) (h' : Quiet y z) : Quiet x z where
  config := h'.config.trans h.config
  hardState := h'.hardState.trans h.hardState
  role := by
    obtain ⟨rs, hrs, hr⟩ := h.role
    obtain ⟨rs', hrs', hr'⟩ := h'.role
    refine ⟨rs', fun q hq => hrs q ?_, ?_⟩
    · have := hrs' q hq
      rw [hr] at this
      exact Role.pendingReads_setReads_le q this
    · rw [hr', hr, Role.setReads_setReads]
  leaderId := h'.leaderId.trans h.leaderId
  members := h'.members.trans h.members
  membersIndex := h'.membersIndex.trans h.membersIndex
  membershipView := h'.membershipView.trans h.membershipView
  lastLeaderContact := h'.lastLeaderContact.trans h.lastLeaderContact

theorem isLeader (h : Quiet x y) : y.isLeader = x.isLeader := by
  obtain ⟨rs, -, hr⟩ := h.role
  rw [Node.isLeader, Node.isLeader, hr]
  cases x.role <;> rfl

theorem body (x : Node M) {S : Storage V M.Payload}
    (hS : S.hardState = x.storage.hardState) (sm : M.State)
    (commit applied : Nat) (pending : List PendingProposal)
    (staged : Option (StagedSnapshot M.Payload)) :
    Quiet x { x with
      storage := S
      stateMachine := sm
      commitIndex := commit
      lastApplied := applied
      pending := pending
      stagedSnapshot := staged } :=
  ⟨rfl, hS, ⟨x.role.pendingReads, fun _ hr => hr,
    x.role.setReads_self.symm⟩, rfl, rfl, rfl, rfl, rfl⟩

end Quiet

/-- A handler moved only what `Quiet` allows and put out nothing that
answers. -/
def Calm (c c' : Ctx M) : Prop :=
  Quiet c.node c'.node ∧
    ∃ os, c'.out = c.out ++ os ∧ ∀ o ∈ os, o.plain = true

namespace Calm

theorem refl (c : Ctx M) : Calm c c :=
  ⟨.refl _, [], (List.append_nil _).symm, List.forall_mem_nil _⟩

theorem trans (h : Calm c c₁) (h' : Calm c₁ c') : Calm c c' := by
  obtain ⟨hq, os, ho, hp⟩ := h
  obtain ⟨hq', os', ho', hp'⟩ := h'
  refine ⟨hq.trans hq', os ++ os', by rw [ho', ho, List.append_assoc], ?_⟩
  exact List.forall_mem_append.mpr ⟨hp, hp'⟩

theorem node (h : Quiet c.node x) : Calm c ⟨x, c.out⟩ :=
  ⟨h, [], (List.append_nil _).symm, List.forall_mem_nil _⟩

theorem emit (h : ∀ o ∈ os, o.plain = true) :
    Calm c ⟨c.node, c.out ++ os⟩ := ⟨.refl _, os, rfl, h⟩

theorem then_ {α : Type} {p : NodeM M α} (h : Calm c c₁)
    (hp : wlp p (fun _ c' => Calm c₁ c') c₁) :
    wlp p (fun _ c' => Calm c c') c₁ :=
  wlp_mono hp fun _ _ h' => h.trans h'

end Calm

theorem resolvePending_calm (c : Ctx M) :
    wlp resolvePending (fun _ c' => Calm c c' ∧
      c'.node.commitIndex = c.node.commitIndex) c := by
  simp only [resolvePending, wlp_bind, wlp_node, wlp_emitAll, wlp_update]
  refine ⟨.trans (.emit fun o ho => ?_) (.node
    (Quiet.body c.node rfl _ _ _ _ _)), trivial⟩
  obtain ⟨p, -, hp⟩ := List.mem_filterMap.mp ho
  obtain ⟨v, -, rfl⟩ := Option.map_eq_some_iff.mp hp
  rfl

theorem resolveReads_calm (c : Ctx M) :
    wlp resolveReads (fun _ c' => Calm c c' ∧
      c'.node.commitIndex = c.node.commitIndex) c := by
  simp only [resolveReads, wlp_bind, wlp_node]
  cases hl : c.node.role with
  | follower => simpa using Calm.refl c
  | preCandidate votes => simpa using Calm.refl c
  | candidate votes => simpa using Calm.refl c
  | leader l =>
      simp only [wlp_bind, wlp_emitAll, wlp_update]
      refine ⟨.trans (.emit fun o ho => ?_) (.node ⟨rfl, rfl,
        ⟨l.pendingReads.filter fun r => !c.node.grants l r, ?_, ?_⟩,
        rfl, rfl, rfl, rfl, rfl⟩), trivial⟩
      · obtain ⟨r, -, rfl⟩ := List.mem_map.mp ho
        rfl
      · intro r hr
        rw [hl]
        exact List.mem_of_mem_filter hr
      · simp only [hl, Role.setReads]

theorem applyLoop_calm (k : Nat) (c : Ctx M) :
    wlp (applyLoop k) (fun _ c' => Calm c c') c := by
  induction k generalizing c with
  | zero => exact wlp_pure.mpr (Calm.refl c)
  | succ k ih =>
      simp only [applyLoop, wlp_bind, wlp_update, wlp_node, wlp_unwrap,
        wlp_emit]
      intro entry _
      refine Calm.then_ ?_ (ih _)
      exact .trans (.node (Quiet.body c.node rfl _ _ _ _ _))
        (.emit (List.forall_mem_singleton.mpr rfl))

theorem Storage.compactTo_hardState {P : Type} {S S' : Storage V P}
    {i : Nat} {state : P} {membership : Option Membership}
    (h : S.compactTo i state membership = .ok S') :
    S'.hardState = S.hardState := by
  obtain ⟨e, -, rfl⟩ := compactTo_eq_ok.mp h
  rfl

theorem maybeCompact_calm (c : Ctx M) :
    wlp maybeCompact (fun _ c' => Calm c c') c := by
  simp only [maybeCompact, wlp_bind, wlp_node]
  cases c.node.config.snapshotThreshold with
  | none => exact wlp_pure.mpr (Calm.refl c)
  | some threshold =>
      have hstage : ∀ c₁ : Ctx M,
          wlp (stageSnapshot threshold) (fun _ c' => Calm c₁ c') c₁ := by
        intro c₁
        simp only [stageSnapshot, wlp_bind, wlp_node, wlp_ite, wlp_pure,
          wlp_checkedSub, wlp_update]
        refine ⟨fun _ _ => ⟨fun _ => ?_, fun _ => .refl c₁⟩,
          fun _ => .refl c₁⟩
        exact .node (Quiet.body c₁.node rfl _ _ _ _ _)
      have hcompact : ∀ c₁ : Ctx M,
          wlp compactStaged (fun _ c' => Calm c₁ c') c₁ := by
        intro c₁
        simp only [compactStaged, wlp_bind, wlp_node]
        cases c₁.node.stagedSnapshot with
        | none => exact wlp_pure.mpr (Calm.refl c₁)
        | some st =>
            simp only [wlp_bind, wlp_checkedSub, wlp_ite, wlp_expect,
              wlp_update, wlp_pure]
            refine fun _ => ⟨fun _ S hS => ?_, fun _ => .refl c₁⟩
            exact .node (Quiet.body c₁.node
              (Storage.compactTo_hardState hS) _ _ _ _ _)
      simp only [discardStaged, wlp_bind, wlp_update]
      refine wlp_mono (hstage _) fun _ c₂ h₂ => ?_
      exact (Calm.trans (.node (Quiet.body c.node rfl _ _ _ _ _)) h₂).then_
        (hcompact c₂)

theorem applyCommitted_calm (c : Ctx M) :
    wlp applyCommitted (fun _ c' => Calm c c') c := by
  simp only [applyCommitted, wlp_bind, wlp_node]
  refine wlp_mono (applyLoop_calm _ c) fun _ c₁ h₁ => ?_
  refine wlp_mono (resolvePending_calm c₁) fun _ c₂ h₂ => ?_
  refine wlp_mono (resolveReads_calm c₂) fun _ c₃ h₃ => ?_
  exact ((h₁.trans h₂.1).trans h₃.1).then_ (maybeCompact_calm c₃)

/-! ## Roles and sends -/

theorem becomeFollower_wlp {Q : Unit → Ctx M → Prop} {t : Nat}
    {hint : Option NodeId} {c : Ctx M}
    (h : c.node.currentTerm ≤ t → Q () ⟨c.node.follow t hint,
      c.out ++ c.node.role.pendingReads.map fun r =>
        .readDropped c.node.currentTerm r.neededSeq⟩) :
    wlp (becomeFollower t hint) Q c := by
  simp only [becomeFollower, publishMembership, wlp_bind, wlp_node, wlp_ite,
    wlp_panicWith, wlp_pure, wlp_update, wlp_emitAll]
  refine ⟨fun _ => trivial, fun hle => ?_⟩
  have hq := h (Nat.le_of_not_lt hle)
  rw [Node.follow] at hq
  -- the view is published again only if someone was departing
  refine ⟨fun hgt => ⟨fun hd => ?_, fun hd => ?_⟩,
    fun hgt => ⟨fun hd => ?_, fun hd => ?_⟩⟩
  · rw [if_pos hgt, if_neg (by simpa using hd)] at hq
    exact hq
  · rw [if_pos hgt, if_pos (by simpa using hd)] at hq
    exact hq
  · rw [if_neg hgt, if_neg (by simpa using hd)] at hq
    exact hq
  · rw [if_neg hgt, if_pos (by simpa using hd)] at hq
    exact hq

theorem Node.currentTerm_follow {t : Nat} {hint : Option NodeId}
    (ht : x.currentTerm ≤ t) : (x.follow t hint).currentTerm = t := by
  rw [Node.follow, Node.currentTerm]
  split
  · rfl
  · exact Nat.le_antisymm ht (Nat.le_of_not_lt ‹_›)

theorem plain_readDropped (x : Node M) :
    ∀ o ∈ x.role.pendingReads.map fun r =>
      (Output.readDropped x.currentTerm r.neededSeq : Output M),
      o.plain = true := by
  intro o ho
  obtain ⟨r, -, rfl⟩ := List.mem_map.mp ho
  rfl

theorem Quiet.follower (h : Quiet x y) (hr : x.role = .follower) :
    y.role = .follower := by
  obtain ⟨rs, -, hy⟩ := h.role
  rw [hy, hr]
  rfl

theorem isLeader_of_follower (hr : x.role = .follower) :
    x.isLeader = false := by
  rw [Node.isLeader, hr]

theorem Storage.installSnapshot_hardState {P : Type} {S S' : Storage V P}
    {snap : Snapshot P} (h : S.installSnapshot snap = .ok S') :
    S'.hardState = S.hardState := by
  obtain ⟨-, rfl⟩ := installSnapshot_eq_ok.mp h
  rfl

theorem Storage.truncateFrom_hardState {P : Type} {S S' : Storage V P}
    {i : Nat} (h : S.truncateFrom i = .ok S') :
    S'.hardState = S.hardState := by
  obtain ⟨-, rfl⟩ := truncateFrom_eq_ok.mp h
  rfl

theorem Storage.append_hardState {P : Type} {S S' : Storage V P}
    {es : List (LogEntry V)} (h : S.append es = .ok S') :
    S'.hardState = S.hardState := by
  obtain ⟨-, rfl⟩ := append_eq_ok.mp h
  rfl

end RustKV
