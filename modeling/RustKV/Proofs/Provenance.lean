import RustKV.Proofs.Tickets

/-!
# Nothing is made up

A replicated log could satisfy every safety property and still be of no use,
if the nodes agreed on commands nobody asked for. Here an entry has one of two
origins: a leader puts a no-op into its log when it is elected, and a command
when a client proposes it and is told the term and index it got.

Everything else a handler does with entries is to pass them on. So fix a
supply of entries and look at what a handler leaves behind: if the log it
starts from and the request it answers are of the supply, then so are the log
it ends with, what it applies and what it sends (`Ctx.From`). A run keeps its
logs and its network within the entries of known origin step by step. The same
walk through the handlers shows that a read is granted for a state its node
has reached and does not fall behind again.
-/

namespace RustKV

open Rust Prog NodeM

variable {V : Type} {M : StateMachine V} {D : Deployment}

/-! ## Within one handler -/

def RpcRequest.cargo {P : Type} : RpcRequest V P → List (LogEntry V)
  | .appendEntries a => a.entries
  | _ => []

/-- The entries an output tells of or sends are of the supply, and a read is
granted for no more than `k` applied entries. -/
def Output.Carries (src : LogEntry V → Prop) (k : Nat) : Output M → Prop
  | .applied e => src e
  | .send _ req _ => ∀ e ∈ req.cargo, src e
  | .granted _ _ seen _ => seen ≤ k
  | _ => True

/-- The log and all outputs so far are of the supply, and what reads were
granted for is applied. -/
structure Ctx.From (src : LogEntry V → Prop) (c : Ctx M) : Prop where
  log : ∀ e ∈ c.node.storage.log, src e
  out : ∀ o ∈ c.out, o.Carries src c.node.lastApplied

variable {src : LogEntry V → Prop} {c : Ctx M} {x : Node M}
  {os : List (Output M)} {now : Instant}

theorem Output.Carries.mono {src' : LogEntry V → Prop} {k k' : Nat}
    {o : Output M} (h : o.Carries src k) (hs : ∀ e, src e → src' e)
    (hk : k ≤ k') : o.Carries src' k' := by
  unfold Output.Carries at h ⊢
  split at h
  · exact hs _ h
  · exact fun e he => hs e (h e he)
  · exact h.trans hk
  · trivial

namespace Ctx.From

theorem mono {src' : LogEntry V → Prop} (h : c.From src)
    (hs : ∀ e, src e → src' e) : c.From src' :=
  ⟨fun e he => hs e (h.log e he), fun o ho => (h.out o ho).mono hs le_rfl⟩

theorem step (h : c.From src) (hlog : x.storage.log ⊆ c.node.storage.log)
    (hle : c.node.lastApplied ≤ x.lastApplied)
    (hos : ∀ o ∈ os, o.Carries src x.lastApplied) :
    Ctx.From src ⟨x, c.out ++ os⟩ :=
  ⟨fun e he => h.log e (hlog he), List.forall_mem_append.mpr
    ⟨fun o ho => (h.out o ho).mono (fun _ => id) hle, hos⟩⟩

theorem node (h : c.From src) (hlog : x.storage.log ⊆ c.node.storage.log)
    (hle : c.node.lastApplied ≤ x.lastApplied) :
    Ctx.From src ⟨x, c.out⟩ :=
  ⟨fun e he => h.log e (hlog he),
    fun o ho => (h.out o ho).mono (fun _ => id) hle⟩

/-- As `step`, for a node that keeps its log and what it has applied. -/
theorem tell (h : c.From src) (hlog : x.storage.log = c.node.storage.log)
    (happ : x.lastApplied = c.node.lastApplied)
    (hos : ∀ o ∈ os, o.Carries src x.lastApplied) :
    Ctx.From src ⟨x, c.out ++ os⟩ :=
  h.step (fun _ he => hlog ▸ he) happ.ge hos

theorem keep (h : c.From src) (hlog : x.storage.log = c.node.storage.log)
    (happ : x.lastApplied = c.node.lastApplied) :
    Ctx.From src ⟨x, c.out⟩ :=
  h.node (fun _ he => hlog ▸ he) happ.ge

theorem entry (h : c.From src) {i : Nat} {e : LogEntry V}
    (he : c.node.storage.entry i = some e) : src e := by
  obtain ⟨p, -, hp⟩ := Option.bind_eq_some_iff.mp he
  exact h.log e (List.mem_of_getElem? hp)

theorem append (h : c.From src) {es : List (LogEntry V)}
    {S : Storage V M.Payload} (hS : c.node.storage.append es = .ok S)
    (hes : ∀ e ∈ es, src e) (hx : x.storage = S)
    (hle : c.node.lastApplied ≤ x.lastApplied) :
    Ctx.From src ⟨x, c.out⟩ := by
  refine ⟨fun e he => ?_, fun o ho => (h.out o ho).mono (fun _ => id) hle⟩
  obtain ⟨-, rfl⟩ := Storage.append_eq_ok.mp hS
  rw [hx] at he
  rcases List.mem_append.mp he with he | he
  · exact h.log e he
  · exact hes e he

theorem follow (h : c.From src) (t : Nat) (hint : Option NodeId) :
    Ctx.From src ⟨c.node.follow t hint, c.out ++
      c.node.role.pendingReads.map fun r =>
        .readDropped c.node.currentTerm r.neededSeq⟩ := by
  refine h.step ?_ le_rfl fun o ho => ?_
  · rw [show (c.node.follow t hint).storage.log = c.node.storage.log by
      simp only [Node.follow, apply_ite Storage.log, Storage.saveHardState,
        ite_self]]
    exact List.Subset.refl _
  · obtain ⟨r, -, rfl⟩ := List.mem_map.mp ho
    trivial

end Ctx.From

theorem becomeFollower_from (h : c.From src) (t : Nat)
    (hint : Option NodeId) :
    wlp (becomeFollower t hint) (fun _ c' => c'.From src) c :=
  becomeFollower_wlp fun _ => h.follow t hint

theorem resolvePending_from (h : c.From src) :
    wlp resolvePending (fun _ c' => c'.From src) c := by
  refine wlp_resolvePending.mpr
    (h.tell rfl rfl fun o ho => ?_)
  obtain ⟨p, v, -, -, rfl⟩ := Node.of_mem_verdicts ho
  trivial

theorem resolveReads_from (h : c.From src) :
    wlp resolveReads (fun _ c' => c'.From src) c := by
  simp only [resolveReads, wlp_bind, wlp_node]
  cases c.node.role with
  | leader l =>
      simp only [wlp_bind, wlp_emitAll, wlp_update]
      refine h.tell rfl rfl fun o ho => ?_
      obtain ⟨r, -, rfl⟩ := List.mem_map.mp ho
      exact Nat.le_refl _
  | _ => exact wlp_pure.mpr h

theorem applyLoop_from (k : Nat) (h : c.From src) :
    wlp (applyLoop k) (fun _ c' => c'.From src) c := by
  induction k generalizing c with
  | zero => exact wlp_pure.mpr h
  | succ k ih =>
      simp only [applyLoop, wlp_bind, wlp_update, wlp_node, wlp_unwrap,
        wlp_emit]
      intro e he
      refine ih (h.step (List.Subset.refl _) (Nat.le_succ _) ?_)
      exact List.forall_mem_singleton.mpr (h.entry he)

theorem Compacts.log_subset {y : Node M} (h : Compacts x y) :
    y.storage.log ⊆ x.storage.log := by
  cases h with
  | off => exact List.Subset.refl _
  | wait => exact List.Subset.refl _
  | done _ _ _ hS =>
      obtain ⟨e, -, rfl⟩ := Storage.compactTo_eq_ok.mp hS
      exact List.drop_subset _ _

theorem maybeCompact_from (h : c.From src) :
    wlp maybeCompact (fun _ c' => c'.From src) c := by
  refine wlp_mono (maybeCompact_compacts c) fun _ c' hc => ?_
  have hfrom := h.node hc.1.log_subset hc.1.lastApplied.ge
  rw [← hc.2] at hfrom
  exact hfrom

theorem applyCommitted_from (h : c.From src) :
    wlp applyCommitted (fun _ c' => c'.From src) c := by
  simp only [applyCommitted, wlp_bind, wlp_node]
  refine wlp_mono (applyLoop_from _ h) fun _ c₁ h₁ => ?_
  refine wlp_mono (resolvePending_from h₁) fun _ c₂ h₂ => ?_
  refine wlp_mono (resolveReads_from h₂) fun _ c₃ h₃ => ?_
  exact maybeCompact_from h₃

theorem sendAppend_from (peer : NodeId) (h : c.From src) :
    wlp (sendAppend peer) (fun _ c' => c'.From src) c := by
  simp only [sendAppend, wlp_bind, wlp_node, wlp_ite, wlp_pure]
  refine ⟨fun _ => h, fun _ => ?_⟩
  cases c.node.role with
  | leader l =>
      simp only [sendInstallSnapshot, wlp_ite, wlp_bind, wlp_node,
        wlp_unwrap, wlp_emit, wlp_checkedSub]
      refine ⟨fun _ snap _ => h.tell rfl rfl ?_,
        fun _ _ t _ => h.tell rfl rfl ?_⟩
      · exact List.forall_mem_singleton.mpr (List.forall_mem_nil _)
      · refine List.forall_mem_singleton.mpr fun e he => h.log e ?_
        exact List.mem_of_mem_drop he
  | _ => exact wlp_pure.mpr h

theorem sendAppends_from (peers : List NodeId) (h : c.From src) :
    wlp (sendAppends peers) (fun _ c' => c'.From src) c := by
  induction peers generalizing c with
  | nil => exact wlp_pure.mpr h
  | cons peer rest ih =>
      simp only [sendAppends, wlp_bind]
      exact wlp_mono (sendAppend_from peer h) fun _ c₁ h₁ => ih h₁

theorem onHeartbeatTick_from (h : c.From src) :
    wlp (onHeartbeatTick now) (fun _ c' => c'.From src) c := by
  simp only [onHeartbeatTick, wlp_bind, wlp_node]
  cases c.node.role with
  | leader l =>
      simp only [wlp_ite]
      exact ⟨fun _ => becomeFollower_from h _ _,
        fun _ => sendAppends_from _ h⟩
  | _ => exact sendAppends_from _ h

theorem maybeAdvanceCommit_from (h : c.From src) :
    wlp maybeAdvanceCommit (fun _ c' => c'.From src) c := by
  have hdown : ∀ c₁ : Ctx M, c₁.From src →
      wlp stepDownIfRemoved (fun _ c' => c'.From src) c₁ := by
    intro c₁ h₁
    simp only [stepDownIfRemoved, wlp_bind, wlp_node, wlp_ite, wlp_pure]
    exact ⟨fun _ => becomeFollower_from h₁ _ _, fun _ => h₁⟩
  simp only [maybeAdvanceCommit, wlp_bind, wlp_node]
  cases c.node.role with
  | leader l =>
      simp only [wlp_ite, wlp_bind, wlp_pure, wlp_update, wlp_emit]
      refine ⟨fun _ => h, fun _ => ⟨fun _ => ?_, fun _ => hdown c h⟩⟩
      refine wlp_mono (applyCommitted_from (h.tell rfl rfl ?_))
        fun _ c₁ h₁ => hdown c₁ h₁
      exact List.forall_mem_singleton.mpr trivial
  | _ => exact wlp_pure.mpr h

/-! ## Elections and replies -/

section Elections

variable (hnoop : ∀ t i, src ⟨t, i, .noop⟩)
include hnoop

theorem maybeBecomeLeader_from (h : c.From src) :
    wlp (maybeBecomeLeader now) (fun _ c' => c'.From src) c := by
  simp only [maybeBecomeLeader, wlp_bind, wlp_node]
  cases c.node.role with
  | candidate votes =>
      simp only [wlp_ite, wlp_bind, wlp_pure, wlp_update, wlp_expect]
      refine ⟨fun _ => h, fun _ S hS => ?_⟩
      refine wlp_mono (maybeAdvanceCommit_from (h.append hS
        (List.forall_mem_singleton.mpr (hnoop _ _)) rfl le_rfl))
        fun _ c₁ h₁ => ?_
      exact onHeartbeatTick_from h₁
  | _ => exact wlp_pure.mpr h

theorem maybeStartElection_from (h : c.From src) :
    wlp (maybeStartElection now) (fun _ c' => c'.From src) c := by
  simp only [maybeStartElection, startElection, wlp_bind, wlp_node]
  cases c.node.role with
  | preCandidate votes =>
      simp only [wlp_ite, wlp_bind, wlp_node, wlp_pure, wlp_update,
        wlp_emitAll]
      refine ⟨fun _ => maybeBecomeLeader_from hnoop
        (h.tell rfl rfl fun o ho => ?_), fun _ => h⟩
      obtain ⟨p, -, rfl⟩ := List.mem_map.mp ho
      exact List.forall_mem_nil _
  | _ => exact wlp_pure.mpr h

theorem onElectionTimeout_from (h : c.From src) :
    wlp (onElectionTimeout now) (fun _ c' => c'.From src) c := by
  simp only [onElectionTimeout, wlp_bind, wlp_node, wlp_ite, wlp_pure,
    wlp_update, wlp_emitAll]
  refine ⟨fun _ => h, fun _ => maybeStartElection_from hnoop
    (h.tell rfl rfl fun o ho => ?_)⟩
  obtain ⟨p, -, rfl⟩ := List.mem_map.mp ho
  exact List.forall_mem_nil _

theorem handlePreVoteReply_from (sentTerm : Nat) (peer : NodeId)
    (reply : RequestVoteReply) (h : c.From src) :
    wlp (handlePreVoteReply now sentTerm peer reply)
      (fun _ c' => c'.From src) c := by
  simp only [handlePreVoteReply, wlp_bind, wlp_node, wlp_ite, wlp_pure]
  refine ⟨fun _ => becomeFollower_from h _ _, fun _ => ⟨fun _ => h,
    fun _ => ?_⟩⟩
  cases c.node.role with
  | preCandidate votes =>
      simp only [wlp_bind, wlp_update]
      exact maybeStartElection_from hnoop (h.keep rfl rfl)
  | _ => exact wlp_pure.mpr h

theorem handleVoteReply_from (sentTerm : Nat) (peer : NodeId)
    (reply : RequestVoteReply) (h : c.From src) :
    wlp (handleVoteReply now sentTerm peer reply)
      (fun _ c' => c'.From src) c := by
  simp only [handleVoteReply, wlp_bind, wlp_node, wlp_ite, wlp_pure]
  refine ⟨fun _ => becomeFollower_from h _ _, fun _ => ⟨fun _ => h,
    fun _ => ?_⟩⟩
  cases c.node.role with
  | candidate votes =>
      simp only [wlp_bind, wlp_update]
      exact maybeBecomeLeader_from hnoop (h.keep rfl rfl)
  | _ => exact wlp_pure.mpr h

end Elections

theorem advanceAndSend_from (h : c.From src) (peer : NodeId) {P : Prop}
    {Q : Unit → Ctx M → Prop} (hQ : ∀ c', c'.From src → Q () c') :
    wlp maybeAdvanceCommit (fun _ c' =>
      (P → wlp (sendAppend peer) Q c') ∧ (¬ P → Q () c')) c := by
  refine wlp_mono (maybeAdvanceCommit_from h) fun _ c₁ h₁ => ?_
  exact ⟨fun _ => wlp_mono (sendAppend_from peer h₁) fun _ c₂ h₂ => hQ c₂ h₂,
    fun _ => hQ c₁ h₁⟩

theorem handleAppendReply_from (sentTerm : Nat) (peer : NodeId)
    (prev len seq : Nat) (reply : AppendEntriesReply) (h : c.From src) :
    wlp (handleAppendReply now sentTerm peer prev len seq reply)
      (fun _ c' => c'.From src) c := by
  have hnode : ∀ (role : Role) (view : MembershipView),
      Ctx.From src ⟨{ c.node with role := role, membershipView := view },
        c.out⟩ := fun _ _ => h.keep rfl rfl
  simp only [handleAppendReply, publishMembership, wlp_bind, wlp_node,
    wlp_ite, wlp_pure]
  refine ⟨fun _ => becomeFollower_from h _ _, fun _ => ⟨fun _ => h,
    fun _ => ?_⟩⟩
  cases c.node.role with
  | leader l =>
      simp only [wlp_ite, wlp_bind, wlp_update]
      refine ⟨fun _ => ⟨fun _ => ?_, fun _ => ?_⟩, fun _ => ?_⟩
      · exact advanceAndSend_from (hnode _ _) peer fun c' h' =>
          resolveReads_from h'
      · exact advanceAndSend_from (hnode _ _) peer fun c' h' =>
          resolveReads_from h'
      · exact wlp_mono (sendAppend_from peer (hnode _ _)) fun _ c₁ h₁ =>
          resolveReads_from h₁
  | _ => exact wlp_pure.mpr h

theorem handleInstallSnapshotReply_from (sentTerm : Nat) (peer : NodeId)
    (i : Nat) (reply : InstallSnapshotReply) (h : c.From src) :
    wlp (handleInstallSnapshotReply now sentTerm peer i reply)
      (fun _ c' => c'.From src) c := by
  have hnode : ∀ (role : Role) (view : MembershipView),
      Ctx.From src ⟨{ c.node with role := role, membershipView := view },
        c.out⟩ := fun _ _ => h.keep rfl rfl
  simp only [handleInstallSnapshotReply, publishMembership, wlp_bind,
    wlp_node, wlp_ite, wlp_pure]
  refine ⟨fun _ => becomeFollower_from h _ _, fun _ => ⟨fun _ => h,
    fun _ => ?_⟩⟩
  cases c.node.role with
  | leader l =>
      simp only [wlp_ite, wlp_bind, wlp_update, wlp_pure]
      exact ⟨fun _ => advanceAndSend_from (hnode _ _) peer fun _ h' => h',
        fun _ => advanceAndSend_from (hnode _ _) peer fun _ h' => h'⟩
  | _ => exact wlp_pure.mpr h

theorem handleEvent_from (hnoop : ∀ t i, src ⟨t, i, .noop⟩) (event : Event)
    (h : c.From src) :
    wlp (handleEvent now event) (fun _ c' => c'.From src) c := by
  unfold handleEvent
  split
  · exact handlePreVoteReply_from hnoop _ _ _ h
  · exact handleVoteReply_from hnoop _ _ _ h
  · exact handleAppendReply_from _ _ _ _ _ _ h
  · exact handleInstallSnapshotReply_from _ _ _ _ h
  · exact wlp_pure.mpr h

/-! ## Requests -/

theorem adoptMembership_from (members : Membership) (index : Nat)
    (h : c.From src) :
    wlp (adoptMembership now members index) (fun _ c' => c'.From src) c := by
  simp only [adoptMembership, publishMembership, wlp_bind, wlp_update]
  exact h.keep rfl rfl

theorem adoptSnapshot_from (snap : Snapshot M.Payload) (h : c.From src)
    (hle : c.node.lastApplied ≤ snap.lastIncludedIndex) :
    wlp (adoptSnapshot now snap) (fun _ c' => c'.From src) c := by
  simp only [adoptSnapshot, rescanMembership, wlp_bind, wlp_node, wlp_expect,
    wlp_unwrap, wlp_update, wlp_emitAll]
  intro S hS state _
  have hlog : S.log ⊆ c.node.storage.log := by
    obtain ⟨-, rfl⟩ := Storage.installSnapshot_eq_ok.mp hS
    dsimp only
    split
    · exact List.drop_subset _ _
    · exact List.nil_subset _
  refine wlp_mono (adoptMembership_from _ _ (h.node hlog hle)) fun _ c₁ h₁ => ?_
  refine resolvePending_from (h₁.tell rfl rfl fun o ho => ?_)
  obtain ⟨p, -, rfl⟩ := List.mem_map.mp ho
  trivial

theorem walkEntries_from (es : List (LogEntry V)) (h : c.From src) :
    wlp (walkEntries es) (fun _ c' => c'.From src) c := by
  induction es with
  | nil => exact wlp_pure.mpr h
  | cons e rest ih =>
      simp only [walkEntries, wlp_bind, wlp_node, wlp_ite]
      refine ⟨fun _ => ih, fun _ => ?_⟩
      cases c.node.storage.term e.index with
      | none => exact wlp_pure.mpr h
      | some existing =>
          simp only [wlp_ite, wlp_bind, wlp_panicWith, wlp_pure, wlp_expect,
            wlp_update]
          refine ⟨fun _ => ih, fun _ => ⟨fun _ => trivial, fun _ S hS => ?_⟩⟩
          refine resolvePending_from (h.node ?_ le_rfl)
          obtain ⟨-, rfl⟩ := Storage.truncateFrom_eq_ok.mp hS
          exact List.take_subset _ _

theorem spliceEntries_from (a : AppendEntriesArgs V)
    (ha : ∀ e ∈ a.entries, src e) (h : c.From src) :
    wlp (spliceEntries now a) (fun _ c' => c'.From src) c := by
  have happend : ∀ (first : Nat) (c₁ : Ctx M), c₁.From src →
      wlp (appendFrom now a first) (fun _ c' => c'.From src) c₁ := by
    intro first c₁ h₁
    simp only [appendFrom, wlp_bind, wlp_checkedSub, wlp_ite, wlp_panicWith,
      wlp_node, wlp_expect, wlp_update]
    intro _ _
    refine ⟨fun _ => trivial, fun _ S hS => ?_⟩
    have h₂ := h₁.append (x := { c₁.node with storage := S }) hS
      (fun e he => ha e (List.mem_of_mem_drop he)) rfl le_rfl
    split
    · exact adoptMembership_from _ _ h₂
    · exact wlp_pure.mpr h₂
  simp only [spliceEntries, wlp_bind]
  refine wlp_mono (walkEntries_from a.entries h) fun walked c₁ h₁ => ?_
  simp only [wlp_ite, rescanMembership, wlp_bind, wlp_node]
  have hadopt : wlp (adoptMembership now
      (deriveMembership c₁.node.storage c₁.node.config).1
      (deriveMembership c₁.node.storage c₁.node.config).2)
      (fun _ c' => c'.From src) c₁ := adoptMembership_from _ _ h₁
  cases walked.1 with
  | none =>
      simp only [wlp_pure]
      exact ⟨fun _ => hadopt, fun _ => h₁⟩
  | some first =>
      exact ⟨fun _ => wlp_mono hadopt fun _ c₂ h₂ => happend first c₂ h₂,
        fun _ => happend first c₁ h₁⟩

theorem handleInbound_from (req : RpcRequest V M.Payload)
    (hreq : ∀ e ∈ req.cargo, src e) (h : c.From src)
    (hle : c.node.lastApplied ≤ c.node.commitIndex) :
    wlp (handleInbound now req) (fun _ c' => c'.From src) c := by
  cases req with
  | requestVote a =>
      have hdecide : ∀ c₁ : Ctx M, c₁.From src →
          wlp (decideVote a) (fun _ c' => c'.From src) c₁ := by
        intro c₁ h₁
        simp only [decideVote, wlp_bind, wlp_node, wlp_ite, wlp_pure,
          wlp_update]
        exact ⟨fun _ => h₁, fun _ => ⟨fun _ => h₁.keep rfl rfl,
          fun _ => h₁⟩⟩
      simp only [handleInbound, handleRequestVote, wlp_bind, wlp_node,
        wlp_ite, wlp_pure]
      exact ⟨fun _ => wlp_mono (becomeFollower_from h _ _) fun _ c₁ h₁ =>
        hdecide c₁ h₁, fun _ => hdecide c h⟩
  | preVote a => exact wlp_pure.mpr h
  | appendEntries a =>
      simp only [handleInbound, handleAppendEntries, commitVerified, wlp_bind,
        wlp_node, wlp_ite, wlp_pure, wlp_update]
      refine ⟨fun _ => h, fun _ => wlp_mono (becomeFollower_from h _ _)
        fun _ c₁ h₁ => ?_⟩
      have h₁' := h₁.keep
        (x := { c₁.node with lastLeaderContact := some now }) rfl rfl
      refine ⟨fun _ => h₁', fun _ => wlp_mono (spliceEntries_from a hreq h₁')
        fun _ c₂ h₂ => ⟨fun _ => ?_, fun _ => h₂⟩⟩
      exact applyCommitted_from (h₂.keep rfl rfl)
  | installSnapshot a =>
      simp only [handleInbound, handleInstallSnapshot, wlp_bind, wlp_node,
        wlp_ite, wlp_pure, wlp_update]
      refine ⟨fun _ => h, fun _ => becomeFollower_wlp fun _ => ?_⟩
      have h₁ := (h.follow a.term (some a.leaderId)).keep
        (x := { c.node.follow a.term (some a.leaderId) with
          lastLeaderContact := some now }) rfl rfl
      exact ⟨fun _ => h₁, fun hlt => adoptSnapshot_from _ h₁
        (hle.trans (Nat.le_of_not_le hlt))⟩

/-! ## Clients -/

theorem handleRead_from (h : c.From src) :
    wlp handleRead (fun _ c' => c'.From src) c := by
  simp only [handleRead, wlp_bind, wlp_node]
  cases c.node.role with
  | leader l =>
      simp only [wlp_bind, wlp_update, wlp_emit]
      refine wlp_mono (sendAppends_from _ (h.tell rfl rfl ?_))
        fun _ c₁ h₁ => resolveReads_from h₁
      exact List.forall_mem_singleton.mpr trivial
  | _ =>
      refine wlp_emit.mpr (h.tell rfl rfl ?_)
      exact List.forall_mem_singleton.mpr trivial

/-- The supply, and what a proposal of `cmd` was promised a place for. -/
def Admitted (src : LogEntry V → Prop) (cmd : Command V)
    (os : List (Output M)) (e : LogEntry V) : Prop :=
  src e ∨ (e.command = cmd ∧
    Output.proposeReply (.ok (e.term, e.index)) ∈ os)

theorem handlePropose_from (cmd : Command V) (h : c.From src) :
    wlp (handlePropose now cmd)
      (fun _ c' => c'.From (Admitted src cmd c'.out)) c := by
  have hrefused : ∀ err, Ctx.From (Admitted src cmd (c.out ++
      [.proposeReply (.error err)])) ⟨c.node, c.out ++
        [.proposeReply (.error err)]⟩ := fun err =>
    (h.tell rfl rfl (fun o ho => by
      rw [List.mem_singleton.mp ho]
      trivial)).mono fun _ => .inl
  -- with the entry in place and its promise out, the rest passes entries on
  have hrest : ∀ (c₁ : Ctx M) (t i : Nat),
      Output.proposeReply (.ok (t, i)) ∈ c₁.out →
      c₁.From (fun e => src e ∨ e = ⟨t, i, cmd⟩) →
      wlp maybeAdvanceCommit (fun _ c₂ =>
        wlp (sendAppends c₂.node.replicationTargets) (fun _ c' =>
          c'.From (Admitted src cmd c'.out)) c₂) c₁ := by
    intro c₁ t i ho h₁
    refine wlp_mono (wlp_and (maybeAdvanceCommit_from h₁)
      (maybeAdvanceCommit_acts now (.heartbeat : Cause M) c₁))
      fun _ c₂ h₂ => ?_
    refine wlp_mono (wlp_and (sendAppends_from _ h₂.1)
      (sendAppends_acts now (.heartbeat : Cause M) _ c₂)) fun _ c₃ h₃ => ?_
    obtain ⟨os, hos, -⟩ := h₂.2
    obtain ⟨os', hos', -⟩ := h₃.2.1
    refine h₃.1.mono fun e he => he.imp_right fun heq => ?_
    subst heq
    rw [hos', hos]
    exact ⟨rfl, List.mem_append_left _ (List.mem_append_left _ ho)⟩
  simp only [handlePropose, wlp_bind, wlp_node]
  cases hl : c.node.role with
  | leader l =>
      simp only
      cases c.node.validateCommand l now cmd with
      | error reason => exact wlp_emit.mpr (hrefused _)
      | ok u =>
          simp only [wlp_bind, wlp_expect, wlp_update, wlp_emit, wlp_node]
          intro S hS
          have hput : Ctx.From (fun e => src e ∨ e = ⟨c.node.currentTerm,
              c.node.storage.lastIndex + 1, cmd⟩)
              ⟨{ c.node with storage := S }, c.out⟩ :=
            (h.mono fun _ => .inl).append hS
              (List.forall_mem_singleton.mpr (.inr rfl)) rfl le_rfl
          have hadopt : wlp (adoptCommand now (c.node.storage.lastIndex + 1)
              cmd) (fun _ c₁ => c₁.From (fun e => src e ∨ e =
                ⟨c.node.currentTerm, c.node.storage.lastIndex + 1, cmd⟩))
              ⟨{ c.node with storage := S }, c.out⟩ := by
            cases cmd with
            | configChange m => exact adoptMembership_from _ _ hput
            | _ => exact wlp_pure.mpr hput
          refine wlp_mono hadopt fun _ c₁ h₁ => hrest _ _ _ ?_
            (h₁.tell rfl rfl ?_)
          · exact List.mem_append_right _ (List.mem_singleton.mpr rfl)
          · exact List.forall_mem_singleton.mpr trivial
  | _ => exact wlp_emit.mpr (hrefused _)

/-! ## Along a run -/

/-- By step `k` the entry has been put into a log for a reason: it is a no-op,
or a client proposed its command and was promised its place. -/
def Run.Sourced (run : Run D M) (k : ℕ) (e : LogEntry V) : Prop :=
  e.command = .noop ∨
    ∃ j n, j < k ∧ run.Accepted j n e.term e.index e.command

theorem Run.Sourced.mono {run : Run D M} {k k' : ℕ} {e : LogEntry V}
    (h : run.Sourced k e) (hk : k ≤ k') : run.Sourced k' e := by
  rcases h with h | ⟨j, n, hj, hacc⟩
  · exact .inl h
  · exact .inr ⟨j, n, hj.trans_le hk, hacc⟩

theorem Run.from_turn (run : Run D M) {k : ℕ} {n : NodeId}
    {cause : Cause M}
    (hc : (run.state k).Causes (run.action k) n now cause)
    (hn : (run.effect k).node = n)
    (hlog : ∀ e ∈ ((run.state k).nodes n).storage.log, run.Sourced k e)
    (hrpcs : ∀ r ∈ (run.state k).rpcs, ∀ e ∈ r.request.cargo,
      run.Sourced k e) :
    Ctx.From (run.Sourced (k + 1))
      ⟨(run.state (k + 1)).nodes n, (run.effect k).outputs⟩ := by
  have hstart : Ctx.From (run.Sourced (k + 1))
      (⟨(run.state k).nodes n, []⟩ : Ctx M) :=
    ⟨fun e he => (hlog e he).mono (Nat.le_succ k), List.forall_mem_nil _⟩
  have hnoop : ∀ t i, run.Sourced (k + 1) ⟨t, i, .noop⟩ := fun _ _ => .inl rfl
  by_cases hp : ∃ cmd, cause = .propose cmd
  · obtain ⟨cmd, rfl⟩ := hp
    have hfrom := run.handled (Q := fun y os => Ctx.From
      (Admitted (run.Sourced (k + 1)) cmd os) ⟨y, os⟩) hc
      (handlePropose_from cmd hstart)
    refine hfrom.mono fun e he => he.elim id fun ⟨hcmd, ho⟩ => .inr
      ⟨k, n, Nat.lt_succ_self k, ⟨now, ?_⟩, hn, ho⟩
    rw [hcmd]
    exact hc.propose_eq rfl
  · refine run.handled (Q := fun y os => Ctx.From _ ⟨y, os⟩) hc ?_
    generalize run.action k = a at hc
    cases hc with
    | timeout => exact onElectionTimeout_from hnoop hstart
    | heartbeat => exact onHeartbeatTick_from hstart
    | propose => exact absurd ⟨_, rfl⟩ hp
    | read => exact handleRead_from hstart
    | deliver hr =>
        simp only [Cause.handler, wlp_bind, wlp_pure]
        exact handleInbound_from _ (fun e he => (hrpcs _
          (List.mem_of_getElem? hr) e he).mono (Nat.le_succ k)) hstart
          (run.orderly k _).applied.le
    | reply => exact handleEvent_from hnoop _ hstart
    | fail => exact handleEvent_from hnoop _ hstart

/-- Whatever the nodes hold and the network carries is sourced. -/
theorem Run.sourced (run : Run D M) (k : ℕ) :
    (∀ n, ∀ e ∈ ((run.state k).nodes n).storage.log, run.Sourced k e) ∧
      ∀ r ∈ (run.state k).rpcs, ∀ e ∈ r.request.cargo, run.Sourced k e := by
  induction k with
  | zero =>
      rw [run.init]
      exact ⟨fun n e he => (by cases he), fun r hr => (by cases hr)⟩
  | succ k ih =>
      have hold := fun n e he => (ih.1 n e he).mono (Nat.le_succ k)
      have hnet := fun r hr e he => (ih.2 r hr e he).mono (Nat.le_succ k)
      cases run.did k with
      | idle hc =>
          rw [hc]
          exact ⟨hold, hnet⟩
      | restart h =>
          refine ⟨fun n e he => ?_, fun r hr => ?_⟩
          · by_cases hn : n = (run.effect k).node
            · subst hn
              obtain ⟨state, hboot⟩ := Node.eq_boot_of_spawn h.node
              rw [hboot] at he
              exact hold _ e he
            · rw [h.others n hn] at he
              exact hold n e he
          · rw [h.rpcs] at hr
            exact hnet r hr
      | turn now cause h =>
          have hfrom := run.from_turn h.causes rfl (ih.1 _) ih.2
          refine ⟨fun n e he => ?_, fun r hr e he => ?_⟩
          · by_cases hn : n = (run.effect k).node
            · subst hn
              exact hfrom.log e he
            · rw [h.others n hn] at he
              exact hold n e he
          · rw [h.rpcs] at hr
            rcases List.mem_append.mp hr with hr | hr
            · exact hnet r hr e he
            · obtain ⟨-, -, ho⟩ := mem_filterMap_sent hr
              exact hfrom.out _ ho e he

/-- What the outputs of a step say of the log and the state is so. -/
theorem Run.carries (run : Run D M) {k : ℕ} {o : Output M}
    (h : o ∈ (run.effect k).outputs) : o.Carries (run.Sourced (k + 1))
      ((run.state (k + 1)).nodes (run.effect k).node).lastApplied := by
  cases run.did k with
  | idle _ ho =>
      rw [ho] at h
      cases h
  | restart hr =>
      obtain ⟨_, _, rfl⟩ | ⟨_, _, rfl⟩ := hr.drops (run.step k) h
      · trivial
      · trivial
  | turn now cause ht =>
      exact (run.from_turn ht.causes rfl ((run.sourced k).1 _)
        (run.sourced k).2).out _ h

theorem Run.Accepted.unique {run : Run D M} {j j' t i : ℕ} {n n' : NodeId}
    {cmd cmd' : Command V} (h : run.Accepted j n t i cmd)
    (h' : run.Accepted j' n' t i cmd') : j = j' ∧ n = n' ∧ cmd = cmd' := by
  obtain ⟨T⟩ := run.exists_trace
  have hpos : ∀ {j n cmd}, run.Accepted j n t i cmd →
      0 < RustKV.promised t i (run.effect j).outputs := fun h =>
    List.countP_pos_iff.mpr ⟨_, h.2.2, decide_eq_true rfl⟩
  have hnot : ∀ {j j' n n' cmd cmd'}, run.Accepted j n t i cmd →
      run.Accepted j' n' t i cmd' → ¬ j < j' := by
    intro j j' n n' cmd cmd' h h' hlt
    have hzero := T.promised_later hlt (hpos h)
    exact absurd (hpos h') (by rw [hzero]; exact Nat.lt_irrefl 0)
  obtain rfl : j = j' :=
    Nat.le_antisymm (Nat.not_lt.mp (hnot h' h)) (Nat.not_lt.mp (hnot h h'))
  obtain ⟨⟨now, ha⟩, -⟩ := h
  obtain ⟨⟨now', ha'⟩, -⟩ := h'
  rw [ha] at ha'
  cases ha'
  exact ⟨rfl, rfl, rfl⟩

/-- Nothing is made up: every entry that a node holds, that is on its way to
one or that a node applies is a no-op or the command of a client, who was
promised this place in the log for it before, and nobody else was. -/
theorem nothing_invented (run : Run D M) (k : ℕ) (e : LogEntry V)
    (h : (∃ n, e ∈ ((run.state k).nodes n).storage.log) ∨
      (∃ r ∈ (run.state k).rpcs, e ∈ r.request.cargo) ∨
      ∃ i, i < k ∧ Output.applied e ∈ (run.effect i).outputs) :
    e.command = .noop ∨
      ∃ j n, j < k ∧ run.Accepted j n e.term e.index e.command ∧
        ∀ j' n' cmd, run.Accepted j' n' e.term e.index cmd →
          j' = j ∧ n' = n ∧ cmd = e.command := by
  have hsrc : run.Sourced k e := by
    rcases h with ⟨n, he⟩ | ⟨r, hr, he⟩ | ⟨i, hi, he⟩
    · exact (run.sourced k).1 n e he
    · exact (run.sourced k).2 r hr e he
    · exact Run.Sourced.mono (run.carries he) hi
  refine hsrc.imp_right fun ⟨j, n, hj, hacc⟩ => ⟨j, n, hj, hacc, ?_⟩
  intro j' n' cmd hacc'
  exact hacc'.unique hacc

theorem nothing_invented_overwritten :
    ⟨1, 2, .put "x" 7 none⟩ ∈
        ((overwrittenRun.state 6).nodes 1).storage.log ∧
      ∃ j n, j < 6 ∧ overwrittenRun.Accepted j n 1 2 (.put "x" 7 none) := by
  have hheld : ⟨1, 2, .put "x" 7 none⟩ ∈
      ((overwrittenRun.state 6).nodes 1).storage.log := by decide +kernel
  obtain ⟨j, n, hj, hacc, -⟩ := (nothing_invented overwrittenRun 6 _
    (.inl ⟨1, hheld⟩)).resolve_left nofun
  exact ⟨hheld, j, n, hj, hacc⟩

end RustKV
