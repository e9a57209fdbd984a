import RustKV.Proofs.Redelivery
import RustKV.Proofs.Removal

/-!
# Where terms come from

A node's term changes in three ways: it adopts the one a message carries, it
votes and keeps it, or it stands for election and moves one beyond. The last
is the only source of new terms, and it takes a pre-vote majority. What an
event does to the hard state is said once, handler by handler
(`TermChange`), and carried over runs.

Who grants a pre-vote has by then no leader to lose: it does not lead, and it
has not heard from a leader for as long as an election timeout lasts at least
(`Run.Concedes`). So every term there ever is was opened by a node that a
majority of its configuration had conceded to (`term_opened`), and as long as
the nodes that hear their leader in time meet every majority, no term is
(`leader_undisturbed`).
-/

namespace RustKV

open Rust Prog NodeM

variable {V : Type} {M : StateMachine V} {D : Deployment} {run : Run D M}
  {now : Instant} {cause : Cause M} {x y : Node M} {c : Ctx M}

/-! ## What an event does to the term -/

/-- The request carries a term that its receiver adopts if it is newer. What a
probe carries is only prospective. -/
def RpcRequest.Carries {P : Type} (t : Nat) : RpcRequest V P → Prop
  | .requestVote a => a.term = t
  | .appendEntries a => a.term = t
  | .installSnapshot a => a.term = t
  | .preVote _ => False

def RpcResponse.term : RpcResponse → Nat
  | .requestVote reply => reply.term
  | .appendEntries reply => reply.term
  | .preVote reply => reply.term
  | .installSnapshot reply => reply.term

def Event.result : Event → RpcResult
  | .preVoteReply _ _ result => result
  | .voteReply _ _ result => result
  | .appendReply _ _ _ _ _ result => result
  | .installSnapshotReply _ _ _ result => result

def Cause.Carries (t : Nat) : Cause M → Prop
  | .inbound req => req.Carries t
  | .reply event => ∃ response, event.result = .ok response ∧
      response.term = t
  | _ => False

/-- What becomes of a node's term in an event. Who adopts another term sends
nothing. -/
inductive TermChange (cause : Cause M) (c c' : Ctx M) : Prop
  | kept (h : c'.node.currentTerm = c.node.currentTerm)
  | adopted (h : cause.Carries c'.node.currentTerm)
      (hout : ∃ os, c'.out = c.out ++ os ∧ ∀ o ∈ os, o.plain = true)
  | opened (votes : Finset NodeId)
      (hc : cause = .timeout ∨ ∃ old, c.node.role = .preCandidate old)
      (hmaj : c.node.majority ≤ c.node.countMemberVotes votes)
      (hv : ∀ v ∈ votes, v = c.node.config.id ∨
        ∃ old, c.node.role = .preCandidate old ∧
          (v ∈ old ∨ cause.Grants c.node.currentTerm v))
      (h : c'.node.storage.hardState =
        ⟨c.node.currentTerm + 1, some c.node.config.id⟩)

def SameVote (c c' : Ctx M) : Prop :=
  c'.node.storage.hardState = c.node.storage.hardState

theorem SameVote.terms {c' : Ctx M} (h : SameVote c c') :
    TermChange cause c c' :=
  .kept (congrArg HardState.currentTerm h)

theorem sendAppend_node (peer : NodeId) (c : Ctx M) :
    wlp (sendAppend peer) (fun _ c' => c'.node = c.node) c := by
  simp only [sendAppend, wlp_bind, wlp_node, wlp_ite, wlp_pure]
  refine ⟨fun _ => trivial, fun _ => ?_⟩
  cases c.node.role with
  | leader l =>
      simp only [sendInstallSnapshot, wlp_bind, wlp_node, wlp_ite, wlp_unwrap,
        wlp_emit, wlp_checkedSub]
      exact ⟨fun _ _ _ => trivial, fun _ _ _ _ => trivial⟩
  | _ => exact wlp_pure.mpr rfl

theorem sendAppends_node (peers : List NodeId) (c : Ctx M) :
    wlp (sendAppends peers) (fun _ c' => c'.node = c.node) c := by
  induction peers generalizing c with
  | nil => exact wlp_pure.mpr rfl
  | cons peer rest ih =>
      simp only [sendAppends, wlp_bind]
      refine wlp_mono (sendAppend_node peer c) fun _ c₁ h₁ => ?_
      exact wlp_mono (ih c₁) fun _ _ h₂ => h₂.trans h₁

theorem Node.hardState_follow (hint : Option NodeId) :
    (x.follow x.currentTerm hint).storage.hardState =
      x.storage.hardState := by
  rw [Node.follow, if_neg (Nat.lt_irrefl _)]

theorem onHeartbeatTick_sameVote (c : Ctx M) :
    wlp (onHeartbeatTick now) (fun _ c' => SameVote c c') c := by
  have hsend : wlp (sendAppends c.node.replicationTargets)
      (fun _ c' => SameVote c c') c :=
    wlp_mono (sendAppends_node _ c) fun _ c' h => by rw [SameVote, h]
  simp only [onHeartbeatTick, wlp_bind, wlp_node]
  cases c.node.role with
  | leader l =>
      simp only [wlp_ite]
      exact ⟨fun _ => becomeFollower_wlp fun _ => Node.hardState_follow _,
        fun _ => hsend⟩
  | _ => exact hsend

theorem maybeAdvanceCommit_sameVote (c : Ctx M) :
    wlp maybeAdvanceCommit (fun _ c' => SameVote c c') c := by
  have hdown : ∀ c₁ : Ctx M, SameVote c c₁ →
      wlp stepDownIfRemoved (fun _ c' => SameVote c c') c₁ := by
    intro c₁ h₁
    simp only [stepDownIfRemoved, wlp_bind, wlp_node, wlp_ite, wlp_pure]
    exact ⟨fun _ => becomeFollower_wlp fun _ =>
      (Node.hardState_follow _).trans h₁, fun _ => h₁⟩
  simp only [maybeAdvanceCommit, wlp_bind, wlp_node]
  cases c.node.role with
  | leader l =>
      simp only [wlp_ite, wlp_pure, wlp_bind, wlp_update, wlp_emit]
      refine ⟨fun _ => rfl, fun _ => ⟨fun _ => ?_, fun _ => hdown c rfl⟩⟩
      exact wlp_mono (applyCommitted_calm _) fun _ c₁ h₁ =>
        hdown c₁ h₁.1.hardState
  | _ => exact wlp_pure.mpr rfl

theorem maybeBecomeLeader_sameVote (c : Ctx M) :
    wlp (maybeBecomeLeader now) (fun _ c' => SameVote c c') c := by
  simp only [maybeBecomeLeader, wlp_bind, wlp_node]
  cases c.node.role with
  | candidate votes =>
      simp only [wlp_ite, wlp_pure, wlp_bind, wlp_update, wlp_expect]
      refine ⟨fun _ => rfl, fun _ S hS => ?_⟩
      refine wlp_mono (maybeAdvanceCommit_sameVote _) fun _ c₁ h₁ => ?_
      refine wlp_mono (onHeartbeatTick_sameVote c₁) fun _ _ h₂ => ?_
      exact (h₂.trans h₁).trans (Storage.append_hardState hS)
  | _ => exact wlp_pure.mpr rfl

theorem startElection_opens (c : Ctx M) :
    wlp (startElection now) (fun _ c' => c'.node.storage.hardState =
      ⟨c.node.currentTerm + 1, some c.node.config.id⟩) c := by
  simp only [startElection, wlp_bind, wlp_node, wlp_update, wlp_emitAll]
  exact maybeBecomeLeader_sameVote _

theorem maybeStartElection_opens (c : Ctx M) :
    wlp (maybeStartElection now) (fun _ c' => SameVote c c' ∨
      ∃ votes, c.node.role = .preCandidate votes ∧
        c.node.majority ≤ c.node.countMemberVotes votes ∧
        c'.node.storage.hardState =
          ⟨c.node.currentTerm + 1, some c.node.config.id⟩) c := by
  simp only [maybeStartElection, wlp_bind, wlp_node]
  cases hr : c.node.role with
  | preCandidate votes =>
      simp only [wlp_ite, wlp_pure]
      refine ⟨fun hmaj => ?_, fun _ => .inl rfl⟩
      exact wlp_mono (startElection_opens c) fun _ c' h =>
        .inr ⟨votes, rfl, hmaj, h⟩
  | _ => exact wlp_pure.mpr (.inl rfl)

theorem onElectionTimeout_terms (c : Ctx M) :
    wlp (onElectionTimeout now) (fun _ c' => TermChange .timeout c c') c := by
  simp only [onElectionTimeout, wlp_bind, wlp_node, wlp_ite, wlp_pure,
    wlp_update, wlp_emitAll]
  refine ⟨fun _ => .kept rfl, fun _ => ?_⟩
  refine wlp_mono (maybeStartElection_opens _) fun _ c' h => ?_
  rcases h with h | ⟨votes, hr, hmaj, h⟩
  · exact SameVote.terms h
  · cases hr
    exact .opened {c.node.config.id} (.inl rfl) hmaj
      (fun v hv => .inl (Finset.mem_singleton.mp hv)) h

theorem handlePropose_sameVote (command : Command V) (c : Ctx M) :
    wlp (handlePropose now command) (fun _ c' => SameVote c c') c := by
  simp only [handlePropose, wlp_bind, wlp_node]
  have hrefuse : ∀ err, wlp (emit (.proposeReply (.error err)))
      (fun _ c' => SameVote c c') c := fun err => wlp_emit.mpr rfl
  cases c.node.role with
  | leader l =>
      simp only
      cases c.node.validateCommand l now command with
      | error reason => exact hrefuse _
      | ok u =>
          simp only [wlp_bind, wlp_expect, wlp_update, wlp_emit, wlp_node]
          intro S hS
          have hrest : ∀ c₁ : Ctx M, SameVote c c₁ →
              wlp maybeAdvanceCommit (fun _ c₂ =>
                wlp (sendAppends c₂.node.replicationTargets)
                  (fun _ c' => SameVote c c') c₂) c₁ := by
            intro c₁ h₁
            refine wlp_mono (maybeAdvanceCommit_sameVote c₁)
              fun _ c₂ h₂ => ?_
            refine wlp_mono (sendAppends_node _ c₂) fun _ c₃ h₃ => ?_
            rw [SameVote, h₃]
            exact h₂.trans h₁
          have hS' : S.hardState = c.node.storage.hardState :=
            Storage.append_hardState hS
          cases command with
          | configChange members =>
              simp only [adoptCommand, adoptMembership, publishMembership,
                wlp_bind, wlp_update]
              exact hrest _ hS'
          | _ => exact wlp_pure.mpr (hrest _ hS')
  | _ => exact hrefuse _

theorem resolveReads_sameVote (c : Ctx M) :
    wlp resolveReads (fun _ c' => SameVote c c') c :=
  wlp_mono (resolveReads_calm c) fun _ _ h => h.1.1.hardState

theorem handleRead_sameVote (c : Ctx M) :
    wlp handleRead (fun _ c' => SameVote c c') c := by
  simp only [handleRead, wlp_bind, wlp_node]
  cases c.node.role with
  | leader l =>
      simp only [wlp_bind, wlp_update, wlp_emit]
      refine wlp_mono (sendAppends_node _ _) fun _ c₁ h₁ => ?_
      refine wlp_mono (resolveReads_sameVote c₁) fun _ _ h₂ => ?_
      rw [SameVote, h₁] at h₂
      exact h₂
  | _ => exact wlp_emit.mpr rfl

/-! ## Messages -/

theorem handleRequestVote_terms (a : RequestVoteArgs) (c : Ctx M) :
    wlp (handleRequestVote a) (fun r c' =>
      TermChange (.inbound (.requestVote a)) c c' ∧
        r.term = c'.node.currentTerm) c := by
  -- the vote itself changes no term
  have hdecide : ∀ c₁ : Ctx M, (∀ y : Node M,
        y.currentTerm = c₁.node.currentTerm →
        TermChange (.inbound (.requestVote a)) c ⟨y, c₁.out⟩) →
      wlp (decideVote a) (fun r c' =>
        TermChange (.inbound (.requestVote a)) c c' ∧
          r.term = c'.node.currentTerm) c₁ := by
    intro c₁ h₁
    simp only [decideVote, wlp_bind, wlp_node, wlp_ite, wlp_pure, wlp_update]
    exact ⟨fun _ => ⟨h₁ _ rfl, trivial⟩, fun _ => ⟨fun _ => ⟨h₁ _ rfl, rfl⟩,
      fun _ => ⟨h₁ _ rfl, trivial⟩⟩⟩
  simp only [handleRequestVote, wlp_bind, wlp_node, wlp_ite]
  refine ⟨fun _ => becomeFollower_wlp fun ht => hdecide _ fun y hy => ?_,
    fun _ => hdecide c fun y hy => .kept hy⟩
  have hterm := @Node.currentTerm_follow _ _ c.node a.term none ht
  exact .adopted (hy.trans hterm).symm ⟨_, rfl, plain_readDropped _⟩

theorem handleAppendEntries_terms (a : AppendEntriesArgs V) (c : Ctx M) :
    wlp (handleAppendEntries now a) (fun r c' =>
      TermChange (.inbound (.appendEntries a)) c c' ∧
        r.term = c'.node.currentTerm) c := by
  rcases Nat.lt_or_ge a.term c.node.currentTerm with hlt | hge
  · simp only [handleAppendEntries, wlp_bind, wlp_node, wlp_ite, wlp_pure]
    exact ⟨fun _ => ⟨.kept rfl, trivial⟩, fun h => absurd hlt h⟩
  · refine wlp_mono (handleAppendEntries_heeds a c) fun r c' h => ?_
    obtain ⟨hob, rfl⟩ := h.1 hge
    exact ⟨.adopted hob.obeys.term.symm hob.out, hob.obeys.term.symm⟩

theorem handleInstallSnapshot_terms (a : InstallSnapshotArgs M.Payload)
    (c : Ctx M) :
    wlp (handleInstallSnapshot now a) (fun r c' =>
      TermChange (.inbound (.installSnapshot a)) c c' ∧
        r.term = c'.node.currentTerm) c := by
  rcases Nat.lt_or_ge a.term c.node.currentTerm with hlt | hge
  · simp only [handleInstallSnapshot, wlp_bind, wlp_node, wlp_ite, wlp_pure]
    exact ⟨fun _ => ⟨.kept rfl, trivial⟩, fun h => absurd hlt h⟩
  · refine wlp_mono (handleInstallSnapshot_heeds a c) fun r c' h => ?_
    obtain ⟨hob, rfl⟩ := h.1 hge
    exact ⟨.adopted hob.obeys.term.symm hob.out, hob.obeys.term.symm⟩

theorem handleInbound_terms (req : RpcRequest V M.Payload) (c : Ctx M) :
    wlp (handleInbound now req) (fun response c' =>
      TermChange (.inbound req) c c' ∧
        response.term = c'.node.currentTerm) c := by
  cases req with
  | requestVote a =>
      simp only [handleInbound, wlp_bind, wlp_pure]
      exact handleRequestVote_terms a c
  | appendEntries a =>
      simp only [handleInbound, wlp_bind, wlp_pure]
      exact handleAppendEntries_terms a c
  | preVote a =>
      simp only [handleInbound, handlePreVote, wlp_bind, wlp_node, wlp_pure]
      exact ⟨.kept rfl, rfl⟩
  | installSnapshot a =>
      simp only [handleInbound, wlp_bind, wlp_pure]
      exact handleInstallSnapshot_terms a c

/-! ## Replies -/

theorem outdated_terms (c : Ctx M) {t : Nat} (hc : cause.Carries t) :
    wlp (becomeFollower t none) (fun _ c' => TermChange cause c c') c :=
  becomeFollower_wlp fun ht => .adopted
    ((@Node.currentTerm_follow _ _ c.node t none ht).symm ▸ hc)
    ⟨_, rfl, plain_readDropped _⟩

theorem handlePreVoteReply_terms (sentTerm : Nat) (peer : NodeId)
    (reply : RequestVoteReply) (c : Ctx M) :
    wlp (handlePreVoteReply now sentTerm peer reply) (fun _ c' =>
      TermChange (.reply (.preVoteReply sentTerm peer (.ok (.preVote reply))))
        c c') c := by
  simp only [handlePreVoteReply, wlp_bind, wlp_node, wlp_ite, wlp_pure]
  refine ⟨fun _ => outdated_terms c ⟨_, rfl, rfl⟩,
    fun _ => ⟨fun _ => .kept rfl, fun hok => ?_⟩⟩
  cases hr : c.node.role with
  | preCandidate votes =>
      simp only [ne_eq, Bool.not_eq_true', not_or, not_not,
        Bool.not_eq_false] at hok
      obtain ⟨rfl, hg⟩ := hok
      simp only [wlp_bind, wlp_update]
      refine wlp_mono (maybeStartElection_opens _) fun _ c' h => ?_
      rcases h with h | ⟨votes', hr', hmaj, h⟩
      · exact SameVote.terms h
      · cases hr'
        refine .opened (insert peer votes) (.inr ⟨votes, hr⟩) hmaj
          (fun v hv => .inr ?_) h
        refine ⟨votes, hr, ?_⟩
        rcases Finset.mem_insert.mp hv with rfl | hv
        · exact .inr ⟨reply, rfl, hg⟩
        · exact .inl hv
  | _ => exact wlp_pure.mpr (.kept rfl)

theorem handleVoteReply_terms (sentTerm : Nat) (peer : NodeId)
    (reply : RequestVoteReply) (c : Ctx M) :
    wlp (handleVoteReply now sentTerm peer reply) (fun _ c' =>
      TermChange (.reply (.voteReply sentTerm peer (.ok (.requestVote reply))))
        c c') c := by
  simp only [handleVoteReply, wlp_bind, wlp_node, wlp_ite, wlp_pure]
  refine ⟨fun _ => outdated_terms c ⟨_, rfl, rfl⟩,
    fun _ => ⟨fun _ => .kept rfl, fun _ => ?_⟩⟩
  cases c.node.role with
  | candidate votes =>
      simp only [wlp_bind, wlp_update]
      exact wlp_mono (maybeBecomeLeader_sameVote _) fun _ _ h => SameVote.terms h
  | _ => exact wlp_pure.mpr (.kept rfl)

theorem advanceAndSend_sameVote {c₁ : Ctx M} (h : SameVote c c₁)
    (peer : NodeId) {P : Prop} {Q : Unit → Ctx M → Prop}
    (hQ : ∀ c', SameVote c c' → Q () c') :
    wlp maybeAdvanceCommit (fun _ c' =>
      (P → wlp (sendAppend peer) Q c') ∧ (¬ P → Q () c')) c₁ := by
  refine wlp_mono (maybeAdvanceCommit_sameVote c₁) fun _ c₂ h₂ => ?_
  refine ⟨fun _ => ?_, fun _ => hQ c₂ (h₂.trans h)⟩
  refine wlp_mono (sendAppend_node peer c₂) fun _ c₃ h₃ => hQ c₃ ?_
  rw [SameVote, h₃]
  exact h₂.trans h

theorem handleAppendReply_terms (sentTerm : Nat) (peer : NodeId)
    (prev len seq : Nat) (reply : AppendEntriesReply) (c : Ctx M) :
    wlp (handleAppendReply now sentTerm peer prev len seq reply) (fun _ c' =>
      TermChange (.reply (.appendReply sentTerm peer prev len seq
        (.ok (.appendEntries reply)))) c c') c := by
  simp only [handleAppendReply, wlp_bind, wlp_node, wlp_ite, wlp_pure]
  refine ⟨fun _ => outdated_terms c ⟨_, rfl, rfl⟩,
    fun _ => ⟨fun _ => .kept rfl, fun _ => ?_⟩⟩
  cases c.node.role with
  | leader l =>
      have hres : ∀ c₁, SameVote c c₁ → wlp resolveReads (fun _ c' =>
          TermChange (.reply (.appendReply sentTerm peer prev len seq
            (.ok (.appendEntries reply)))) c c') c₁ := by
        intro c₁ h₁
        exact wlp_mono (resolveReads_sameVote c₁) fun _ _ h₂ =>
          SameVote.terms (h₂.trans h₁)
      simp only [wlp_ite, wlp_bind, wlp_update, publishMembership]
      refine ⟨fun _ => ⟨fun _ => ?_, fun _ => ?_⟩, fun _ => ?_⟩
      · exact advanceAndSend_sameVote rfl peer hres
      · exact advanceAndSend_sameVote rfl peer hres
      · refine wlp_mono (sendAppend_node peer _) fun _ c₁ h₁ => hres c₁ ?_
        rw [SameVote, h₁]
  | _ => exact wlp_pure.mpr (.kept rfl)

theorem handleInstallSnapshotReply_terms (sentTerm : Nat) (peer : NodeId)
    (i : Nat) (reply : InstallSnapshotReply) (c : Ctx M) :
    wlp (handleInstallSnapshotReply now sentTerm peer i reply) (fun _ c' =>
      TermChange (.reply (.installSnapshotReply sentTerm peer i
        (.ok (.installSnapshot reply)))) c c') c := by
  simp only [handleInstallSnapshotReply, wlp_bind, wlp_node, wlp_ite,
    wlp_pure]
  refine ⟨fun _ => outdated_terms c ⟨_, rfl, rfl⟩,
    fun _ => ⟨fun _ => .kept rfl, fun _ => ?_⟩⟩
  cases c.node.role with
  | leader l =>
      simp only [wlp_ite, wlp_bind, wlp_update, wlp_pure, publishMembership]
      refine ⟨fun _ => ?_, fun _ => ?_⟩
      · exact advanceAndSend_sameVote rfl peer fun _ h => SameVote.terms h
      · exact advanceAndSend_sameVote rfl peer fun _ h => SameVote.terms h
  | _ => exact wlp_pure.mpr (.kept rfl)

theorem handleEvent_terms (event : Event) (c : Ctx M) :
    wlp (handleEvent now event) (fun _ c' =>
      TermChange (.reply event) c c') c := by
  unfold handleEvent
  split
  · exact handlePreVoteReply_terms _ _ _ c
  · exact handleVoteReply_terms _ _ _ c
  · exact handleAppendReply_terms _ _ _ _ _ _ c
  · exact handleInstallSnapshotReply_terms _ _ _ _ c
  · exact wlp_pure.mpr (.kept rfl)

/-! ## Along a run -/

namespace Cluster

variable {cl cl' : Cluster M} {a : Action V} {eff : Effect M} {n : NodeId}

/-- What a step did to the term of `n`, and the term it answered in. -/
def Terms (cl : Cluster M) (cause : Cause M) (n : NodeId) (cl' : Cluster M)
    (eff : Effect M) : Prop :=
  TermChange cause ⟨cl.nodes n, []⟩ ⟨cl'.nodes n, eff.outputs⟩ ∧
    ∀ r ∈ cl'.replies, r ∈ cl.replies ∨
      r.response.term = (cl'.nodes n).currentTerm

theorem exec_terms {body : NodeM M (List (Reply M))}
    (h : cl.exec n body = .ok (cl', eff))
    (hb : wlp body (fun answers c₁ => TermChange cause ⟨cl.nodes n, []⟩ c₁ ∧
      ∀ r ∈ answers, r.response.term = c₁.node.currentTerm)
        ⟨cl.nodes n, []⟩) : cl.Terms cause n cl' eff := by
  rw [exec] at h
  split at h
  · cases h
  · next answers c₁ hx =>
      cases h
      obtain ⟨hterm, hans⟩ := hb answers c₁ hx
      simp only [Terms, Function.update_self]
      exact ⟨hterm, fun r hr => (List.mem_append.mp hr).imp_right (hans r)⟩

theorem silently_terms {body : NodeM M Unit}
    (h : cl.exec n (silently body) = .ok (cl', eff))
    (hb : wlp body (fun _ c₁ => TermChange cause ⟨cl.nodes n, []⟩ c₁)
      ⟨cl.nodes n, []⟩) : cl.Terms cause n cl' eff := by
  refine exec_terms h ?_
  simp only [silently, wlp_bind, wlp_pure]
  exact wlp_mono hb fun _ _ h₁ => ⟨h₁, List.forall_mem_nil _⟩

theorem step_terms (h : cl.step a = some (.ok (cl', eff)))
    (hc : cl.Causes a n now cause) : cl.Terms cause n cl' eff := by
  cases hc with
  | timeout hl =>
      simp only [step, hl, Bool.false_eq_true, if_false] at h
      exact silently_terms (Option.some.inj h) (onElectionTimeout_terms _)
  | heartbeat hl =>
      simp only [step, hl, if_true] at h
      exact silently_terms (Option.some.inj h)
        (wlp_mono (onHeartbeatTick_sameVote _) fun _ _ h₁ => h₁.terms)
  | propose =>
      exact silently_terms (Option.some.inj h)
        (wlp_mono (handlePropose_sameVote _ _) fun _ _ h₁ => h₁.terms)
  | read =>
      exact silently_terms (Option.some.inj h)
        (wlp_mono (handleRead_sameVote _) fun _ _ h₁ => h₁.terms)
  | deliver hr =>
      simp only [step, hr, Option.map_some] at h
      refine exec_terms (Option.some.inj h) ?_
      simp only [serve, wlp_bind, wlp_pure]
      exact wlp_mono (handleInbound_terms _ _) fun _ _ h₁ =>
        ⟨h₁.1, List.forall_mem_singleton.mpr h₁.2⟩
  | reply hget he =>
      simp only [step, hget, Option.bind_some, settle, if_pos he] at h
      exact silently_terms (Option.some.inj h) (handleEvent_terms _ _)
  | fail hget he =>
      simp only [step, hget, Option.bind_some, settle, if_pos he] at h
      exact silently_terms (Option.some.inj h) (handleEvent_terms _ _)

end Cluster

theorem Moves.carries {os : List (Output M)} {peer : NodeId}
    {req : RpcRequest V M.Payload} {tag : Tag} {t : Nat}
    (h : Moves now cause x y os) (ho : Output.send peer req tag ∈ os)
    (ht : req.Carries t) : x.currentTerm ≤ t ∧ t ≤ y.currentTerm := by
  obtain ⟨z, z', os₁, os', os₂, h₁, hm, ho', h₂⟩ := h.split ho
  have hle := h₁.term_le
  have hle' := h₂.term_le
  suffices hmid : z.currentTerm ≤ t ∧ t ≤ z'.currentTerm by omega
  cases hm with
  | quiet _ hos => cases hos _ ho'
  | retire _ hos => cases hos _ ho'
  | follow _ _ hos => cases hos _ ho'
  | preCampaign =>
      obtain ⟨p, -, heq⟩ := List.mem_map.mp ho'
      cases heq
      exact ht.elim
  | campaign =>
      obtain ⟨p, -, heq⟩ := List.mem_map.mp ho'
      cases heq
      cases (show z.currentTerm + 1 = t from ht)
      exact ⟨Nat.le_succ _, le_rfl⟩
  | @ship l _ _ _ hl _ hreq =>
      cases List.mem_singleton.mp ho'
      cases req with
      | appendEntries a =>
          cases (show a.term = t from ht)
          rw [hreq.1]
          exact ⟨le_rfl, le_rfl⟩
      | installSnapshot a =>
          cases (show a.term = t from ht)
          rw [hreq.1]
          exact ⟨le_rfl, le_rfl⟩
      | _ => exact hreq.elim
  | _ => simp at ho'

/-- Every answer there is was given in one step. -/
theorem Run.reply_given (run : Run D M) {i : ℕ} {r : Reply M}
    (hr : r ∈ (run.state i).replies) :
    ∃ g k now, g < i ∧ run.action g = .deliver k now ∧
      (run.state g).rpcs[k]? = some r.rpc ∧
      (run.state (g + 1)).replies = (run.state g).replies ++ [r] := by
  induction i with
  | zero =>
      rw [run.init] at hr
      cases hr
  | succ i ih =>
      have hold : r ∈ (run.state i).replies → ∃ g k now, g < i + 1 ∧
          run.action g = .deliver k now ∧
          (run.state g).rpcs[k]? = some r.rpc ∧
          (run.state (g + 1)).replies = (run.state g).replies ++ [r] := by
        intro hr
        obtain ⟨g, k, now, hg, hrest⟩ := ih hr
        exact ⟨g, k, now, Nat.lt_succ_of_lt hg, hrest⟩
      cases run.did i with
      | idle hc =>
          rw [hc] at hr
          exact hold hr
      | restart h =>
          rw [h.replies] at hr
          exact hold hr
      | turn now cause h =>
          obtain ⟨answers, hreplies, hans⟩ := h.replies
          rw [hreplies] at hr
          rcases List.mem_append.mp hr with hr | hr
          · exact hold hr
          · cases hact : run.action i with
            | deliver k now =>
                rw [hact] at hans
                obtain ⟨rpc, response, hrpc, rfl⟩ := hans
                cases List.mem_singleton.mp hr
                exact ⟨i, k, now, Nat.lt_succ_self i, hact, hrpc, hreplies⟩
            | _ =>
                rw [hact] at hans
                cases hans
                cases hr

/-- A grant that reaches a node was given before, to a probe of its own for
the term after the one it asked in. -/
theorem Run.grants_given (run : Run D M) {i t : ℕ} {v : NodeId}
    (h : (run.state i).Turn (run.action i) (run.state (i + 1))
      (run.effect i) now cause) (hg : cause.Grants t v) :
    ∃ g args, g < i ∧ run.GrantsProbe g (run.effect i).node v args ∧
      args.term = t + 1 := by
  obtain ⟨reply, hcause, hgr⟩ := hg
  have hc := h.causes
  rw [hcause] at hc
  generalize hev : Event.preVoteReply _ v (.ok (.preVote reply)) = ev at hc
  generalize run.action i = a at hc
  generalize (run.effect i).node = n at hc ⊢
  cases hc with
  | fail =>
      obtain ⟨-, -, hres⟩ := Tag.preVote_of_event hev.symm
      cases hres
  | @reply q now' r hq hep =>
      obtain ⟨htag, hdst, hres⟩ := Tag.preVote_of_event hev.symm
      have hmem := List.mem_of_getElem? hq
      obtain ⟨T⟩ := run.exists_trace
      have hok := (T.inv i).rpcs r.rpc (run.replies_sent i r hmem)
      obtain ⟨g, k, now'', hlt, hact, hrpc, hreplies⟩ := run.reply_given hmem
      obtain ⟨rpc, response⟩ := r
      cases Except.ok.inj hres
      cases hreq : rpc.request with
      | preVote args =>
          rw [hreq] at hok
          refine ⟨g, args, hlt, ⟨k, now'', rpc, reply, hact, hrpc, rfl, hdst,
            hreq, hreplies, hgr⟩, ?_⟩
          exact Tag.preVote.inj (hok.symm.trans htag)
      | requestVote a =>
          rw [hreq] at hok
          cases hok.1.symm.trans htag
      | appendEntries a =>
          rw [hreq] at hok
          obtain ⟨-, _, heq, -⟩ := hok
          cases heq.symm.trans htag
      | installSnapshot a =>
          rw [hreq] at hok
          cases hok.2.symm.trans htag

/-- The votes of a pre-campaign were all granted to this node, for the term
after its own. -/
theorem Run.conceded (run : Run D M) (n : NodeId) {i : ℕ}
    {votes : Finset NodeId}
    (hr : ((run.state i).nodes n).role = .preCandidate votes) :
    ∀ v ∈ votes, v = n ∨ ∃ g args, g < i ∧ run.GrantsProbe g n v args ∧
      args.term = ((run.state i).nodes n).currentTerm + 1 := by
  induction i generalizing votes with
  | zero =>
      rw [run.init] at hr
      cases hr
  | succ i ih =>
      -- votes that were there before, in the same term
      have hold : ∀ {old : Finset NodeId},
          ((run.state i).nodes n).role = .preCandidate old →
          ((run.state (i + 1)).nodes n).currentTerm =
            ((run.state i).nodes n).currentTerm → ∀ v ∈ old, v = n ∨
          ∃ g args, g < i + 1 ∧ run.GrantsProbe g n v args ∧ args.term =
            ((run.state (i + 1)).nodes n).currentTerm + 1 := by
        intro old hx ht v hv
        refine (ih hx v hv).imp_right ?_
        rintro ⟨g, args, hg, hgr, hterm⟩
        exact ⟨g, args, Nat.lt_succ_of_lt hg, hgr, ht ▸ hterm⟩
      cases run.did i with
      | idle hc =>
          rw [hc] at hr
          exact hold hr (by rw [hc])
      | restart h =>
          by_cases hn : n = (run.effect i).node
          · subst hn
            rw [Node.role_of_spawn h.node] at hr
            cases hr
          · rw [h.others n hn] at hr
            exact hold hr (by rw [h.others n hn])
      | turn now cause h =>
          by_cases hn : n = (run.effect i).node
          · subst hn
            intro v hin
            cases h.moves.polled hr with
            | fresh _ _ hv => exact .inl ((hv v hin).trans (run.id_eq i _))
            | kept _ hx ht hv =>
                rcases hv v hin with hin | hg
                · exact hold hx ht v hin
                · obtain ⟨g, args, hlt, hgr, hterm⟩ := run.grants_given h hg
                  exact .inr ⟨g, args, Nat.lt_succ_of_lt hlt, hgr,
                    ht ▸ hterm⟩
          · rw [h.others n hn] at hr
            exact hold hr (by rw [h.others n hn])

/-! ## Every term was opened by a majority -/

/-- At step `g` node `v` concedes term `t` to `m`: it grants a probe of `m` for
that term. It is in an earlier term itself, its log is no newer than what the
probe says, it does not lead, and if it ever heard from a leader, that is an
election timeout ago. -/
structure Run.Concedes (run : Run D M) (g : ℕ) (m v : NodeId) (t : ℕ) :
    Prop where
  grants : ∃ k now r args, run.action g = .deliver k now ∧
    (run.state g).rpcs[k]? = some r ∧ r.src = m ∧ r.dst = v ∧
    r.request = .preVote args ∧ args.term = t ∧
    ((run.state g).nodes v).logUpToDate args = true ∧
    ∀ heard, ((run.state g).nodes v).lastLeaderContact = some heard →
      (D.config v).electionTimeoutMin ≤ now - heard
  behind : ((run.state g).nodes v).currentTerm < t
  leads : ((run.state g).nodes v).isLeader = false

theorem Run.GrantsProbe.concedes {g : ℕ} {m v : NodeId}
    {args : RequestVoteArgs} (h : run.GrantsProbe g m v args) :
    run.Concedes g m v args.term := by
  obtain ⟨k, now, r, hact, hr, hsrc, hdst, hreq, hterm, hlog, hlive⟩ :=
    Run.grantsProbe_iff.mp h
  rw [Node.leaderIsLive, Bool.or_eq_false_iff] at hlive
  refine ⟨⟨k, now, r, args, hact, hr, hsrc, hdst, hreq, rfl, hlog,
    fun heard hheard => ?_⟩, hterm, hlive.1⟩
  have hnot := hlive.2
  rw [hheard, run.config_eq] at hnot
  simpa using hnot

/-- Step `j` opens term `t`: node `m`, in a pre-campaign or starting one and
one term short of `t`, votes for itself in it, and a majority of its
configuration is behind that, each of them `m` or a node that has conceded the
term. -/
structure Run.Opens (run : Run D M) (j : ℕ) (m : NodeId) (t : ℕ) : Prop where
  campaigns : (∃ now, run.action j = .timeout m now) ∨
    ∃ votes, ((run.state j).nodes m).role = .preCandidate votes
  before : ((run.state j).nodes m).currentTerm + 1 = t
  after : ((run.state (j + 1)).nodes m).storage.hardState = ⟨t, some m⟩
  conceded : ∃ Q ⊆ ((run.state j).nodes m).members.keySet,
    ((run.state j).nodes m).majority ≤ Q.card ∧
    ∀ v ∈ Q, v = m ∨ ∃ g < j, run.Concedes g m v t

/-- There has been no such term yet, or it has been opened. -/
def Run.Opened (run : Run D M) (i t : ℕ) : Prop :=
  t = 0 ∨ ∃ j m, j < i ∧ run.Opens j m t

theorem Run.Opened.succ {i t : ℕ} (h : run.Opened i t) :
    run.Opened (i + 1) t := by
  refine h.imp_right ?_
  rintro ⟨j, m, hj, ho⟩
  exact ⟨j, m, Nat.lt_succ_of_lt hj, ho⟩

/-- The terms of all nodes and all messages have been opened. -/
structure Run.AllOpened (run : Run D M) (i : ℕ) : Prop where
  nodes : ∀ n, run.Opened i ((run.state i).nodes n).currentTerm
  rpcs : ∀ r ∈ (run.state i).rpcs, ∀ t, r.request.Carries t → run.Opened i t
  replies : ∀ r ∈ (run.state i).replies, run.Opened i r.response.term

theorem Tag.result_event (tag : Tag) (dst : NodeId) (result : RpcResult) :
    (tag.event dst result).result = result := by
  cases tag <;> rfl

theorem Run.AllOpened.carried {i t : ℕ} {a : Action V} {n : NodeId}
    (h : run.AllOpened i) (hc : (run.state i).Causes a n now cause)
    (ht : cause.Carries t) : run.Opened i t := by
  cases hc with
  | deliver hr => exact h.rpcs _ (List.mem_of_getElem? hr) t ht
  | reply hr =>
      obtain ⟨response, hres, rfl⟩ := ht
      cases (Tag.result_event _ _ _).symm.trans hres
      exact h.replies _ (List.mem_of_getElem? hr)
  | fail hr =>
      obtain ⟨response, hres, -⟩ := ht
      cases (Tag.result_event _ _ _).symm.trans hres
  | _ => exact ht.elim

theorem Run.opens (run : Run D M) {j : ℕ} {votes : Finset NodeId}
    (h : (run.state j).Turn (run.action j) (run.state (j + 1))
      (run.effect j) now cause)
    (hc : cause = .timeout ∨ ∃ old,
      ((run.state j).nodes (run.effect j).node).role = .preCandidate old)
    (hmaj : ((run.state j).nodes (run.effect j).node).majority ≤
      ((run.state j).nodes (run.effect j).node).countMemberVotes votes)
    (hv : ∀ v ∈ votes,
      v = ((run.state j).nodes (run.effect j).node).config.id ∨ ∃ old,
        ((run.state j).nodes (run.effect j).node).role =
          .preCandidate old ∧ (v ∈ old ∨ cause.Grants
            ((run.state j).nodes (run.effect j).node).currentTerm v))
    (hs : ((run.state (j + 1)).nodes
        (run.effect j).node).storage.hardState =
      ⟨((run.state j).nodes (run.effect j).node).currentTerm + 1,
        some ((run.state j).nodes (run.effect j).node).config.id⟩) :
    run.Opens j (run.effect j).node
      (((run.state j).nodes (run.effect j).node).currentTerm + 1) where
  campaigns := hc.imp_left fun hc => ⟨now, h.causes.timeout_eq hc⟩
  before := rfl
  after := by rw [hs, run.id_eq]
  conceded := by
    refine ⟨votes.filter fun id => ((run.state j).nodes
      (run.effect j).node).members.containsKey id = true, ?_, hmaj, ?_⟩
    · intro v hin
      exact BTreeMap.containsKey_iff.mp (Finset.mem_filter.mp hin).2
    · intro v hin
      rcases hv v (Finset.mem_filter.mp hin).1 with hid | ⟨old, hr, hold⟩
      · exact .inl (hid.trans (run.id_eq j _))
      rcases hold with hold | hg
      · refine (run.conceded _ hr v hold).imp_right ?_
        rintro ⟨g, args, hlt, hgr, hterm⟩
        exact ⟨g, hlt, hterm ▸ hgr.concedes⟩
      · obtain ⟨g, args, hlt, hgr, hterm⟩ := run.grants_given h hg
        exact .inr ⟨g, hlt, hterm ▸ hgr.concedes⟩

theorem Run.AllOpened.after {i : ℕ} (h : run.AllOpened i)
    (ht : (run.state i).Turn (run.action i) (run.state (i + 1))
      (run.effect i) now cause) :
    run.Opened (i + 1)
      ((run.state (i + 1)).nodes (run.effect i).node).currentTerm := by
  cases (Cluster.step_terms (run.step i) ht.causes).1 with
  | kept hsame =>
      have := (h.nodes (run.effect i).node).succ
      rwa [← hsame] at this
  | adopted hc => exact (h.carried ht.causes hc).succ
  | opened votes hc hmaj hv hs =>
      have hterm : ((run.state (i + 1)).nodes
          (run.effect i).node).currentTerm =
            ((run.state i).nodes (run.effect i).node).currentTerm + 1 :=
        congrArg HardState.currentTerm hs
      rw [hterm]
      exact .inr ⟨i, _, Nat.lt_succ_self i, run.opens ht hc hmaj hv hs⟩

theorem Run.AllOpened.sent {i t : ℕ} (h : run.AllOpened i)
    (ht : (run.state i).Turn (run.action i) (run.state (i + 1))
      (run.effect i) now cause) {peer : NodeId}
    {req : RpcRequest V M.Payload} {tag : Tag}
    (ho : Output.send peer req tag ∈ (run.effect i).outputs)
    (hreq : req.Carries t) : run.Opened (i + 1) t := by
  obtain ⟨hle, hle'⟩ := ht.moves.carries ho hreq
  have hbefore := (h.nodes (run.effect i).node).succ
  have hafter := h.after ht
  cases (Cluster.step_terms (run.step i) ht.causes).1 with
  | kept hsame =>
      rwa [show t = _ from Nat.le_antisymm (hle'.trans hsame.le) hle]
  | adopted _ hout =>
      obtain ⟨os, heq, hplain⟩ := hout
      rw [show (run.effect i).outputs = os from heq] at ho
      cases hplain _ ho
  | opened votes _ _ _ hs =>
      have hterm : ((run.state (i + 1)).nodes
          (run.effect i).node).currentTerm =
            ((run.state i).nodes (run.effect i).node).currentTerm + 1 :=
        congrArg HardState.currentTerm hs
      rcases Nat.lt_or_eq_of_le hle' with hlt | rfl
      · rwa [show t = _ from Nat.le_antisymm (by omega) hle]
      · exact hafter

theorem Run.allOpened (run : Run D M) (i : ℕ) : run.AllOpened i := by
  induction i with
  | zero =>
      refine ⟨fun n => .inl ?_, ?_, ?_⟩
      · rw [run.init]
        rfl
      · rw [run.init]
        exact List.forall_mem_nil _
      · rw [run.init]
        exact List.forall_mem_nil _
  | succ i h =>
      cases run.did i with
      | idle hc =>
          refine ⟨fun n => ?_, ?_, ?_⟩
          · rw [hc]
            exact (h.nodes n).succ
          · rw [hc]
            exact fun r hr t ht => (h.rpcs r hr t ht).succ
          · rw [hc]
            exact fun r hr => (h.replies r hr).succ
      | restart hb =>
          refine ⟨fun n => ?_, ?_, ?_⟩
          · by_cases hn : n = (run.effect i).node
            · subst hn
              obtain ⟨state, hboot⟩ := Node.eq_boot_of_spawn hb.node
              rw [hboot]
              exact (h.nodes (run.effect i).node).succ
            · rw [hb.others n hn]
              exact (h.nodes n).succ
          · rw [hb.rpcs]
            exact fun r hr t ht => (h.rpcs r hr t ht).succ
          · rw [hb.replies]
            exact fun r hr => (h.replies r hr).succ
      | turn now cause ht =>
          refine ⟨fun n => ?_, fun r hr t hreq => ?_, fun r hr => ?_⟩
          · by_cases hn : n = (run.effect i).node
            · subst hn
              exact h.after ht
            · rw [ht.others n hn]
              exact (h.nodes n).succ
          · rw [ht.rpcs] at hr
            rcases List.mem_append.mp hr with hr | hr
            · exact (h.rpcs r hr t hreq).succ
            · exact h.sent ht (mem_filterMap_sent hr).2.2 hreq
          · rcases (Cluster.step_terms (run.step i) ht.causes).2 r hr
              with hr | hterm
            · exact (h.replies r hr).succ
            · rw [hterm]
              exact h.after ht

theorem Run.no_preCampaign (run : Run D M) {s k : ℕ} {v : NodeId}
    (hsk : s ≤ k) (hrole : ((run.state s).nodes v).role.preVotes = none)
    (hquiet : ∀ j, s ≤ j → j < k → ∀ now, run.action j ≠ .timeout v now) :
    ((run.state k).nodes v).role.preVotes = none := by
  induction k, hsk using Nat.le_induction with
  | base => exact hrole
  | succ k hsk ih =>
      have hprev := ih fun j hj hjk => hquiet j hj (Nat.lt_succ_of_lt hjk)
      cases run.did k with
      | idle hc => rwa [hc]
      | restart h =>
          by_cases hn : v = (run.effect k).node
          · subst hn
            rw [Node.role_of_spawn h.node]
            rfl
          · rwa [h.others v hn]
      | turn now cause h =>
          by_cases hn : v = (run.effect k).node
          · subst hn
            by_contra hsome
            obtain ⟨votes, hvotes⟩ := Option.ne_none_iff_exists'.mp hsome
            cases h.moves.polled (Role.preVotes_eq_some.mp hvotes) with
            | fresh _ hc =>
                exact hquiet k hsk (Nat.lt_succ_self k) now
                  (h.causes.timeout_eq hc)
            | kept _ hr =>
                rw [Role.preVotes_eq_some.mpr hr] at hprev
                cases hprev
          · rwa [h.others v hn]

/-- Let every majority of every configuration meet `S`, whose members lead or
hear from a leader in time whenever they are probed, do not run into an
election timeout, and had conceded no later term before. Then no node goes
beyond term `t`. -/
theorem leader_undisturbed (run : Run D M) {s e t : ℕ} (S : Finset NodeId)
    (hterm : ∀ n, ((run.state s).nodes n).currentTerm ≤ t)
    (hrole : ∀ v ∈ S, ((run.state s).nodes v).role.preVotes = none)
    (hpast : ∀ g < s, ∀ m, ∀ v ∈ S, ∀ u, t < u → ¬ run.Concedes g m v u)
    (hquiet : ∀ k, s ≤ k → k < e → ∀ v ∈ S, ∀ now,
      run.action k ≠ .timeout v now)
    (hheard : ∀ k, s ≤ k → k < e → ∀ i now r args,
      run.action k = .deliver i now → (run.state k).rpcs[i]? = some r →
      r.request = .preVote args → r.dst ∈ S →
      ((run.state k).nodes r.dst).leaderIsLive now = true)
    (hmaj : ∀ k, s ≤ k → k < e → ∀ m,
      ∀ Q ⊆ ((run.state k).nodes m).members.keySet,
      ((run.state k).nodes m).majority ≤ Q.card → ∃ v ∈ Q, v ∈ S) :
    ∀ k, s ≤ k → k ≤ e → ∀ n, ((run.state k).nodes n).currentTerm ≤ t := by
  intro k hsk hke n
  by_contra hgt
  obtain ⟨T⟩ := run.exists_trace
  rcases (run.allOpened k).nodes n with hzero | ⟨j, m, hjk, hopen⟩
  · omega
  have hafter : ((run.state (j + 1)).nodes m).currentTerm =
      ((run.state k).nodes n).currentTerm := by
    rw [Node.currentTerm, hopen.after]
  -- a term opened before `s` would have been there at `s`
  have hsj : s ≤ j := by
    by_contra hlt
    have hmono := T.term_le (show j + 1 ≤ s by omega) m
    have := hterm m
    omega
  have hje : j < e := by omega
  obtain ⟨Q, hsub, hcard, hQ⟩ := hopen.conceded
  obtain ⟨v, hvQ, hvS⟩ := hmaj j hsj hje m Q hsub hcard
  rcases hQ v hvQ with rfl | ⟨g, hgj, hcon⟩
  · -- the campaigner itself is in `S`
    rcases hopen.campaigns with ⟨now, hact⟩ | ⟨votes, hr⟩
    · exact hquiet j hsj hje v hvS now hact
    · have hnone := run.no_preCampaign hsj (hrole v hvS) fun i hi hij =>
        hquiet i hi (hij.trans hje) v hvS
      rw [Role.preVotes_eq_some.mpr hr] at hnone
      cases hnone
  · rcases Nat.lt_or_ge g s with hgs | hsg
    · exact hpast g hgs m v hvS _ (by omega) hcon
    obtain ⟨i, now, r, args, hact, hrpc, -, rfl, hreq, -, -, hold⟩ :=
      hcon.grants
    have hlive := hheard g hsg (hgj.trans hje) i now r args hact hrpc hreq hvS
    rw [Node.leaderIsLive, hcon.leads, Bool.false_or] at hlive
    cases hc : ((run.state g).nodes r.dst).lastLeaderContact with
    | none =>
        rw [hc] at hlive
        cases hlive
    | some heard =>
        rw [hc, run.config_eq] at hlive
        have hlt : now - heard < (D.config r.dst).electionTimeoutMin := by
          simpa using hlive
        exact absurd hlt (Nat.not_lt.mpr (hold heard hc))

/-- Node 1 leads three nodes and is heard by node 2. Node 3, which has heard
nothing, keeps asking both of them for its election. -/
def partedRun : Run (Deployment.ofIds [1, 2, 3] none) (KvStore.machine Nat) :=
  Run.ofActions _ _ [.timeout 1 0, .deliver 0 0, .reply 0 0, .deliver 2 0,
    .reply 1 0, .deliver 4 10, .timeout 3 100, .deliver 6 110, .deliver 7 120,
    .reply 3 130, .reply 4 140, .timeout 3 400, .deliver 8 410]
    (by decide +kernel)

theorem Run.untouched (run : Run D M) {i : ℕ} {n : NodeId}
    (h : ∀ j < i, (run.effect j).node ≠ n) :
    (run.state i).nodes n = (run.state 0).nodes n := by
  induction i with
  | zero => rfl
  | succ i ih =>
      have hprev := ih fun j hj => h j (Nat.lt_succ_of_lt hj)
      have hne := (h i (Nat.lt_succ_self i)).symm
      cases run.did i with
      | idle hc => rw [hc, hprev]
      | restart hb => rw [hb.others n hne, hprev]
      | turn now cause ht => rw [ht.others n hne, hprev]

/-- The probe a step hands over, with its addressee and the time. -/
def Cluster.probed (cl : Cluster M) :
    Action V → Option (NodeId × RequestVoteArgs × Instant)
  | .deliver k now =>
      match cl.rpcs[k]? with
      | some ⟨_, _, dst, .preVote args, _⟩ => some (dst, args, now)
      | _ => none
  | _ => none

theorem Cluster.probed_eq {cl : Cluster M} {a : Action V} {k : Nat}
    {r : Rpc M} {args : RequestVoteArgs} (ha : a = .deliver k now)
    (hr : cl.rpcs[k]? = some r) (hreq : r.request = .preVote args) :
    cl.probed a = some (r.dst, args, now) := by
  obtain ⟨src, epoch, dst, request, tag⟩ := r
  cases hreq
  rw [ha, probed, hr]

theorem partedRun_other {i : ℕ} (hi : i ≤ 13) {m : NodeId} (hm : 3 < m) :
    (partedRun.state i).nodes m =
      Node.boot (Deployment.ofIds [1, 2, 3] none |>.config m) Storage.empty
        (KvStore.machine Nat).new := by
  have hall : ∀ j < 13, (partedRun.effect j).node ≤ 3 := by decide +kernel
  exact partedRun.untouched fun j hj =>
    ((hall j (hj.trans_le hi)).trans_lt hm).ne

theorem partedRun_members {i : ℕ} (hi : i ≤ 13) (m : NodeId) :
    ((partedRun.state i).nodes m).members.keySet ⊆ {1, 2, 3} ∧
      (((partedRun.state i).nodes m).members.keySet = ∅ ∨
        ((partedRun.state i).nodes m).majority = 2) := by
  rcases Nat.lt_or_ge 3 m with hm | hm
  · have hempty : ((partedRun.state i).nodes m).members.keySet = ∅ := by
      have hjoin : m ∉ [1, 2, 3] := fun hin => by
        have hall : ∀ id ∈ [1, 2, 3], id ≤ 3 := by decide
        exact absurd hm (Nat.not_lt.mpr (hall m hin))
      rw [partedRun_other hi hm]
      have hboot : ((Deployment.ofIds [1, 2, 3] none).config
          m).bootMembership = BTreeMap.empty := if_pos (decide_eq_true hjoin)
      exact congrArg BTreeMap.keySet hboot
    rw [hempty]
    exact ⟨Finset.empty_subset _, .inl rfl⟩
  · have hall : ∀ i ≤ 13, ∀ m ≤ 3,
        ((partedRun.state i).nodes m).members.keySet ⊆ {1, 2, 3} ∧
          (((partedRun.state i).nodes m).members.keySet = ∅ ∨
            ((partedRun.state i).nodes m).majority = 2) := by
      decide +kernel
    exact hall i hi m hm

theorem leader_undisturbed_parted :
    ((partedRun.state 6).nodes 1).isLeader = true ∧
      ∀ k, 6 ≤ k → k ≤ 13 → ∀ n,
        ((partedRun.state k).nodes n).currentTerm ≤ 1 := by
  refine ⟨by decide +kernel, leader_undisturbed partedRun {1, 2}
    (fun n => ?_) (by decide +kernel) (fun g hg m v hv u hu hcon => ?_)
    (fun k hk hke v hv now hact => ?_)
    (fun k hk hke i now r args hact hr hreq hdst => ?_)
    fun k hk hke m Q hsub hcard => ?_⟩
  · rcases Nat.lt_or_ge 3 n with hn | hn
    · rw [partedRun_other (by omega) hn]
      exact Nat.zero_le 1
    · have hall : ∀ n ≤ 3, ((partedRun.state 6).nodes n).currentTerm ≤ 1 := by
        decide +kernel
      exact hall n hn
  · obtain ⟨i, now, r, args, hact, hr, -, -, hreq, rfl, -⟩ := hcon.grants
    have hall : ∀ g < 6, ((partedRun.state g).probed
        (partedRun.action g)).all (fun p => p.2.1.term ≤ 1) = true := by
      decide +kernel
    have := hall g hg
    rw [Cluster.probed_eq hact hr hreq] at this
    have hle : args.term ≤ 1 := of_decide_eq_true this
    omega
  · have hall : ∀ k < 13, (match partedRun.action k with
        | .timeout v _ => decide (6 ≤ k → v ∉ ({1, 2} : Finset NodeId))
        | _ => true) = true := by decide +kernel
    have := hall k hke
    rw [hact] at this
    exact of_decide_eq_true this hk hv
  · have hall : ∀ k < 13, ((partedRun.state k).probed
        (partedRun.action k)).all (fun p => decide (6 ≤ k →
          p.1 ∈ ({1, 2} : Finset NodeId) →
          ((partedRun.state k).nodes p.1).leaderIsLive p.2.2 = true)) =
        true := by
      decide +kernel
    have := hall k hke
    rw [Cluster.probed_eq hact hr hreq] at this
    exact of_decide_eq_true this hk hdst
  · obtain ⟨hthree, hmem⟩ := partedRun_members hke.le m
    rcases hmem with hmem | hmem
    · rw [hmem, Finset.subset_empty] at hsub
      rw [hsub, Node.majority] at hcard
      simp at hcard
    · rw [hmem] at hcard
      by_contra hnone
      have hthird : Q ⊆ {3} := fun v hv => by
        have := hthree (hsub hv)
        simp only [Finset.mem_insert, Finset.mem_singleton] at this hnone ⊢
        exact (this.resolve_left fun h => hnone ⟨v, hv, .inl h⟩).resolve_left
          fun h => hnone ⟨v, hv, .inr h⟩
      exact absurd (hcard.trans (Finset.card_le_card hthird)) (by decide)

end RustKV
