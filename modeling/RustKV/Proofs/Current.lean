import RustKV.Proofs.CommitRule
import RustKV.Proofs.Redelivery
import RustKV.Proofs.Tickets

/-!
# The commit index is never behind

`maybe_advance_commit` follows Raft's rule when it is called. That it is
called often enough is another matter: whatever a leader learns, appends or is
elected with may make an index committable, and nothing looks again until the
next event. So it has to be called wherever one of the things the rule looks
at has changed.

It is: in every state between two events, a leader has nothing left to commit
(`commit_never_behind`).
-/

namespace RustKV

open Rust Prog NodeM Consensus

variable {V : Type} {M : StateMachine V} {D : Deployment} {run : Run D M}
  {now : Instant} {x y : Node M} {c : Ctx M} {l l' : LeaderState}

/-- A leader with nothing left to commit. -/
def Node.Current (x : Node M) : Prop :=
  ∀ l, x.role = .leader l → ∀ i, x.commitIndex < i → ¬ x.Committable l i

theorem Node.Current.of_isLeader (h : x.isLeader = false) : x.Current := by
  intro l hl
  rw [Node.isLeader, hl] at h
  cases h

/-! ## What the rule looks at -/

/-- Beyond the commit index of `y`, what the rule looks at is in `y` what it
is in `x`. -/
structure Alike (x y : Node M) (l l' : LeaderState) : Prop where
  config : y.config = x.config
  term : y.currentTerm = x.currentTerm
  members : y.members = x.members
  last : y.storage.lastIndex = x.storage.lastIndex
  terms : ∀ i, y.commitIndex < i → y.storage.term i = x.storage.term i
  matched : l'.matchIndex = l.matchIndex

theorem Alike.committable (h : Alike x y l l') {i : ℕ}
    (hi : y.commitIndex < i) (hc : y.Committable l' i) :
    x.Committable l i := by
  obtain ⟨ht, hm⟩ := hc
  rw [h.terms i hi, h.term] at ht
  have hholds : ∀ v, y.holds l' v = x.holds l v := fun v => by
    rw [Node.holds, Node.holds, h.config, h.last, h.matched]
  simp only [h.members, hholds] at hm
  exact ⟨ht, hm⟩

theorem Node.Current.alike (h : x.Current) (hl : x.role = .leader l)
    (hc : x.commitIndex ≤ y.commitIndex)
    (ha : ∀ l', y.role = .leader l' → Alike x y l l') : y.Current :=
  fun l' hl' i hi hcom => h l hl i (hc.trans_lt hi)
    ((ha l' hl').committable hi hcom)

theorem Node.NextCommit.current (h : x.NextCommit l y.commitIndex)
    (ha : ∀ l', y.role = .leader l' → Alike x y l l') : y.Current := by
  intro l' hl' i hi hcom
  have hx := (ha l' hl').committable hi hcom
  rcases h with h | ⟨heq, hnone⟩
  · have hlt : x.commitIndex < y.commitIndex := h.1.1
    have hle := h.2 ⟨hlt.trans hi, hx⟩
    omega
  · exact hnone i (heq ▸ hi) hx

theorem Alike.of_quiet (h : Quiet x y) (hl : x.role = .leader l)
    (hl' : y.role = .leader l')
    (hlast : y.storage.lastIndex = x.storage.lastIndex)
    (hterms : ∀ i, y.commitIndex < i → y.storage.term i = x.storage.term i) :
    Alike x y l l' := by
  obtain ⟨l₀, rs, hl₀, rfl⟩ := h.leader hl'
  obtain rfl : l = l₀ := Role.leader.inj (hl.symm.trans hl₀)
  exact ⟨h.config, h.currentTerm, h.members, hlast, hterms, rfl⟩

theorem Unmoved.term (h : Unmoved x y) (i : ℕ) :
    y.storage.term i = x.storage.term i := by
  have hb := Storage.snapshotIndex_congr h.snapshot
  simp only [Storage.term, Storage.entry, Storage.pos, Storage.snapshotTerm,
    hb, h.snapshot, h.log]

/-! ## Advancing -/

theorem applyCommitted_terms (ho : x.Orderly) {k : ℕ}
    (hk : x.commitIndex < k) (out : List (Output M)) :
    wlp applyCommitted (fun _ c' => ∀ i, k < i →
      c'.node.storage.term i = x.storage.term i)
      ⟨{ x with commitIndex := k }, out⟩ := by
  simp only [applyCommitted, wlp_bind, wlp_node]
  refine wlp_mono (applyLoop_advances _ _) fun _ c₁ h₁ => ?_
  obtain ⟨es, hlen, hes, rfl⟩ := h₁
  refine wlp_resolvePending.mpr ?_
  refine wlp_mono (resolveReads_unmoved _) fun _ c₂ h₂ => ?_
  refine wlp_mono (maybeCompact_compacts c₂) fun _ c₃ h₃ i hi => ?_
  have ho₂ := (ho.advanced hk hlen hes).unmoved h₂.1
  have hcommit : c₂.node.commitIndex = k := h₂.1.commitIndex
  have hb₂ := ho₂.boundary_le
  have hb₃ := (h₃.1.orderly ho₂).boundary_le
  rw [h₃.1.commitIndex] at hb₃
  rw [Storage.term_of_lt (by omega), h₃.1.entry ho₂ (by omega),
    ← Storage.term_of_lt (by omega), h₂.1.term]
  rfl

theorem maybeAdvanceCommit_alike (hl : x.role = .leader l) (ho : x.Orderly)
    (out : List (Output M)) :
    wlp maybeAdvanceCommit (fun _ c' => ∀ l', c'.node.role = .leader l' →
      Alike x c'.node l l') ⟨x, out⟩ := by
  have hdown : ∀ c₁ : Ctx M, (∀ l', c₁.node.role = .leader l' →
      Alike x c₁.node l l') → wlp stepDownIfRemoved (fun _ c' =>
        ∀ l', c'.node.role = .leader l' → Alike x c'.node l l') c₁ := by
    intro c₁ h₁
    simp only [stepDownIfRemoved, wlp_bind, wlp_node, wlp_ite, wlp_pure]
    refine ⟨fun _ => becomeFollower_wlp fun _ l' hl' => ?_, fun _ => h₁⟩
    cases hl'
  have hsame : ∀ l', x.role = .leader l' → Alike x x l l' := by
    intro l' hl'
    obtain rfl : l = l' := Role.leader.inj (hl.symm.trans hl')
    exact ⟨rfl, rfl, rfl, rfl, fun _ _ => rfl, rfl⟩
  simp only [maybeAdvanceCommit, wlp_bind, wlp_node]
  rw [hl]
  simp only [wlp_ite, wlp_bind, wlp_pure, wlp_update, wlp_emit]
  refine ⟨fun _ => hsame, fun _ => ⟨fun hadv => ?_, fun _ => hdown _ hsame⟩⟩
  refine wlp_mono (wlp_and (applyCommitted_calm _) (wlp_and
    (applyCommitted_keeps _) (applyCommitted_terms ho hadv.1 _)))
    fun _ c₁ h₁ => hdown c₁ fun l' hl' => ?_
  obtain ⟨hcalm, ⟨hcommit, hlast⟩, hterms⟩ := h₁
  refine .of_quiet (.trans (Quiet.body x rfl _ _ _ _ _) hcalm.1) hl hl' hlast
    fun i hi => hterms i ?_
  rwa [hcommit] at hi

theorem maybeAdvanceCommit_current (hl : x.role = .leader l) (ho : x.Orderly)
    (hb : x.Bounded) (ha : x.Ascending) (out : List (Output M)) :
    wlp maybeAdvanceCommit (fun _ c' => c'.node.Current) ⟨x, out⟩ :=
  wlp_mono (wlp_and (maybeAdvanceCommit_rule hl ho hb ha out).wlp
    (maybeAdvanceCommit_alike hl ho out)) fun _ _ h => h.1.current h.2

/-! ## After the call -/

theorem resolveReads_current (h : c.node.Current) :
    wlp resolveReads (fun _ c' => c'.node.Current) c := by
  refine wlp_mono (wlp_and (resolveReads_calm c) (resolveReads_unmoved c))
    fun _ c' h' => ?_
  obtain ⟨⟨hcalm, hcommit⟩, hun, -⟩ := h'
  intro l' hl'
  obtain ⟨l, rs, hl, -⟩ := hcalm.1.leader hl'
  exact h.alike hl hcommit.ge (fun l' hl' => .of_quiet hcalm.1 hl hl'
    hun.lastIndex fun i _ => hun.term i) l' hl'

theorem onHeartbeatTick_current (h : c.node.Current) :
    wlp (onHeartbeatTick now) (fun _ c' => c'.node.Current) c := by
  have hsend : wlp (sendAppends c.node.replicationTargets)
      (fun _ c' => c'.node.Current) c :=
    wlp_mono (sendAppends_acts now (.heartbeat : Cause M) _ c)
      fun _ _ h' => h'.2.symm ▸ h
  simp only [onHeartbeatTick, wlp_bind, wlp_node]
  cases c.node.role with
  | leader l =>
      simp only [wlp_ite]
      exact ⟨fun _ => becomeFollower_wlp fun _ => .of_isLeader rfl,
        fun _ => hsend⟩
  | _ => exact hsend

structure Node.Fit (x : Node M) : Prop where
  orderly : x.Orderly
  bounded : x.Bounded
  ascending : x.Ascending

/-! ## The events -/

theorem maybeBecomeLeader_current (h : c.node.Fit) (hc : c.node.Current) :
    wlp (maybeBecomeLeader now) (fun _ c' => c'.node.Current) c := by
  simp only [maybeBecomeLeader, wlp_bind, wlp_node]
  cases hr : c.node.role with
  | candidate votes =>
      simp only [wlp_ite, wlp_pure, wlp_bind, wlp_update, wlp_expect]
      refine ⟨fun _ => hc, fun _ S hS => ?_⟩
      refine wlp_mono (maybeAdvanceCommit_current (x := { c.node with
          storage := S
          role := .leader (.fresh c.node.peerIds
            (c.node.storage.lastIndex + 1) now)
          leaderId := some c.node.config.id }) rfl
        ((h.orderly.append hS).unmoved ⟨rfl, rfl, rfl, rfl, rfl, rfl, rfl,
          rfl⟩) (fun l hl p => ?_) (h.ascending.append hS rfl rfl) _)
        fun _ c₁ h₁ => onHeartbeatTick_current h₁
      rw [← Role.leader.inj hl, LeaderState.fresh]
      simp only
      split <;> exact Nat.zero_le _
  | _ => exact wlp_pure.mpr hc

theorem Node.Fit.of_isLeader (ho : x.Orderly) (ha : x.Ascending)
    (hl : x.isLeader = false) : x.Fit where
  orderly := ho
  bounded l h := by
    rw [Node.isLeader, h] at hl
    cases hl
  ascending := ha

theorem startElection_current (h : c.node.Fit) :
    wlp (startElection now) (fun _ c' => c'.node.Current) c := by
  simp only [startElection, wlp_bind, wlp_node, wlp_update, wlp_emitAll]
  refine maybeBecomeLeader_current (.of_isLeader (h.orderly.unmoved
    ⟨rfl, rfl, rfl, rfl, rfl, rfl, rfl, rfl⟩) ?_ rfl) (.of_isLeader rfl)
  exact h.ascending.of_storage rfl (Nat.le_succ _)

theorem maybeStartElection_current (h : c.node.Fit) (hc : c.node.Current) :
    wlp (maybeStartElection now) (fun _ c' => c'.node.Current) c := by
  simp only [maybeStartElection, wlp_bind, wlp_node]
  cases c.node.role with
  | preCandidate votes =>
      simp only [wlp_ite, wlp_pure]
      exact ⟨fun _ => startElection_current h, fun _ => hc⟩
  | _ => exact wlp_pure.mpr hc

theorem onElectionTimeout_current (h : c.node.Fit) (hc : c.node.Current) :
    wlp (onElectionTimeout now) (fun _ c' => c'.node.Current) c := by
  simp only [onElectionTimeout, wlp_bind, wlp_node, wlp_ite, wlp_pure,
    wlp_update, wlp_emitAll]
  refine ⟨fun _ => hc, fun _ => maybeStartElection_current
    (.of_isLeader (h.orderly.unmoved ⟨rfl, rfl, rfl, rfl, rfl, rfl, rfl,
      rfl⟩) ?_ rfl) (.of_isLeader rfl)⟩
  exact h.ascending.of_storage rfl le_rfl

theorem advanceAndSend_current {P : Prop} {Q : Unit → Ctx M → Prop}
    (hl : c.node.role = .leader l) (h : c.node.Fit) (peer : NodeId)
    (hQ : ∀ c', c'.node.Current → Q () c') :
    wlp maybeAdvanceCommit (fun _ c' =>
      (P → wlp (sendAppend peer) Q c') ∧ (¬ P → Q () c')) c := by
  refine wlp_mono (maybeAdvanceCommit_current hl h.orderly h.bounded
    h.ascending c.out) fun _ c₁ h₁ => ⟨fun _ => ?_, fun _ => hQ c₁ h₁⟩
  exact wlp_mono (sendAppend_acts 0 (.heartbeat : Cause M) peer c₁)
    fun _ c₂ h₂ => hQ c₂ (h₂.2.symm ▸ h₁)

/-- A leader's answer does not change what was known, or is booked before the
call. -/
theorem handleAppendReply_current (sentTerm : ℕ) (peer : NodeId)
    (prev len seq : ℕ) (reply : AppendEntriesReply) (hc : c.node.Current)
    (hfit : ∀ l, c.node.role = .leader l → sentTerm = c.node.currentTerm →
      reply.success = true → (c.node.book
        ((l.answered peer seq now).confirm peer (prev + len)) peer
        ((((l.answered peer seq now).confirm peer
          (prev + len)).matchIndex peer).getD 0)).Fit) :
    wlp (handleAppendReply now sentTerm peer prev len seq reply)
      (fun _ c' => c'.node.Current) c := by
  simp only [handleAppendReply, wlp_bind, wlp_node, wlp_ite, wlp_pure]
  refine ⟨fun _ => becomeFollower_wlp fun _ => .of_isLeader rfl,
    fun _ => ⟨fun _ => hc, fun heq => ?_⟩⟩
  rw [not_not] at heq
  cases hl : c.node.role with
  | leader l =>
      simp only [wlp_ite, wlp_bind, wlp_update, publishMembership]
      refine ⟨fun hs => ?_, fun _ => ?_⟩
      · have hfit := hfit l hl heq hs
        rw [Node.book] at hfit
        refine ⟨fun hd => ?_, fun hd => ?_⟩
        · rw [if_pos hd, if_pos hd] at hfit
          rw [if_pos hd]
          exact advanceAndSend_current rfl hfit peer
            fun c' h => resolveReads_current h
        · rw [if_neg hd, if_neg hd] at hfit
          rw [if_neg hd]
          exact advanceAndSend_current rfl hfit peer
            fun c' h => resolveReads_current h
      · refine wlp_mono (sendAppend_acts now (.heartbeat : Cause M) peer _)
          fun _ c₁ h₁ => resolveReads_current ?_
        rw [h₁.2]
        refine hc.alike hl le_rfl fun l' hl' => ?_
        rw [← Role.leader.inj hl']
        exact ⟨rfl, rfl, rfl, rfl, fun _ _ => rfl, rfl⟩
  | _ => exact wlp_pure.mpr hc

theorem handleInstallSnapshotReply_current (sentTerm : ℕ) (peer : NodeId)
    (boundary : ℕ) (reply : InstallSnapshotReply) (hc : c.node.Current)
    (hfit : ∀ l, c.node.role = .leader l → sentTerm = c.node.currentTerm →
      (c.node.book (l.installed peer boundary now) peer boundary).Fit) :
    wlp (handleInstallSnapshotReply now sentTerm peer boundary reply)
      (fun _ c' => c'.node.Current) c := by
  simp only [handleInstallSnapshotReply, wlp_bind, wlp_node, wlp_ite,
    wlp_pure]
  refine ⟨fun _ => becomeFollower_wlp fun _ => .of_isLeader rfl,
    fun _ => ⟨fun _ => hc, fun heq => ?_⟩⟩
  rw [not_not] at heq
  cases hl : c.node.role with
  | leader l =>
      have hfit := hfit l hl heq
      rw [Node.book] at hfit
      simp only [wlp_ite, wlp_bind, wlp_update, wlp_pure, publishMembership]
      refine ⟨fun hd => ?_, fun hd => ?_⟩
      · rw [if_pos hd, if_pos hd] at hfit
        rw [if_pos hd]
        exact advanceAndSend_current rfl hfit peer fun _ h => h
      · rw [if_neg hd, if_neg hd] at hfit
        rw [if_neg hd]
        exact advanceAndSend_current rfl hfit peer fun _ h => h
  | _ => exact wlp_pure.mpr hc

theorem handlePreVoteReply_current (sentTerm : ℕ) (peer : NodeId)
    (reply : RequestVoteReply) (h : c.node.Fit) (hc : c.node.Current) :
    wlp (handlePreVoteReply now sentTerm peer reply)
      (fun _ c' => c'.node.Current) c := by
  simp only [handlePreVoteReply, wlp_bind, wlp_node, wlp_ite, wlp_pure]
  refine ⟨fun _ => becomeFollower_wlp fun _ => .of_isLeader rfl,
    fun _ => ⟨fun _ => hc, fun _ => ?_⟩⟩
  cases c.node.role with
  | preCandidate votes =>
      simp only [wlp_bind, wlp_update]
      exact maybeStartElection_current (.of_isLeader (h.orderly.unmoved
        ⟨rfl, rfl, rfl, rfl, rfl, rfl, rfl, rfl⟩)
        (h.ascending.of_storage rfl le_rfl) rfl) (.of_isLeader rfl)
  | _ => exact wlp_pure.mpr hc

theorem handleVoteReply_current (sentTerm : ℕ) (peer : NodeId)
    (reply : RequestVoteReply) (h : c.node.Fit) (hc : c.node.Current) :
    wlp (handleVoteReply now sentTerm peer reply)
      (fun _ c' => c'.node.Current) c := by
  simp only [handleVoteReply, wlp_bind, wlp_node, wlp_ite, wlp_pure]
  refine ⟨fun _ => becomeFollower_wlp fun _ => .of_isLeader rfl,
    fun _ => ⟨fun _ => hc, fun _ => ?_⟩⟩
  cases c.node.role with
  | candidate votes =>
      simp only [wlp_bind, wlp_update]
      exact maybeBecomeLeader_current (.of_isLeader (h.orderly.unmoved
        ⟨rfl, rfl, rfl, rfl, rfl, rfl, rfl, rfl⟩)
        (h.ascending.of_storage rfl le_rfl) rfl) (.of_isLeader rfl)
  | _ => exact wlp_pure.mpr hc

theorem handlePropose_current (cmd : Command V) (hc : c.node.Current)
    (hfit : ∀ l S, c.node.role = .leader l →
      c.node.validateCommand l now cmd = .ok () →
      c.node.storage.append [⟨c.node.currentTerm,
        c.node.storage.lastIndex + 1, cmd⟩] = .ok S →
      (∃ l', (c.node.accepted l now S cmd).role = .leader l') ∧
        (c.node.accepted l now S cmd).Fit) :
    wlp (handlePropose now cmd) (fun _ c' => c'.node.Current) c := by
  simp only [handlePropose, wlp_bind, wlp_node]
  cases hl : c.node.role with
  | leader l =>
      simp only
      cases hv : c.node.validateCommand l now cmd with
      | error reason => exact wlp_emit.mpr hc
      | ok u =>
          simp only [wlp_bind, wlp_expect, wlp_update, wlp_emit, wlp_node]
          intro S hS
          obtain ⟨⟨l', hl'⟩, hfit⟩ := hfit l S hl hv hS
          have hrest : ∀ out, wlp maybeAdvanceCommit (fun _ c₂ =>
              wlp (sendAppends c₂.node.replicationTargets)
                (fun _ c' => c'.node.Current) c₂)
              ⟨c.node.accepted l now S cmd, out⟩ := by
            intro out
            refine wlp_mono (maybeAdvanceCommit_current hl' hfit.orderly
              hfit.bounded hfit.ascending out) fun _ c₂ h₂ => ?_
            exact wlp_mono (sendAppends_acts now (.heartbeat : Cause M) _ c₂)
              fun _ c₃ h₃ => h₃.2.symm ▸ h₂
          cases cmd with
          | configChange m =>
              simp only [adoptCommand, adoptMembership, publishMembership,
                wlp_bind, wlp_update, hl]
              exact hrest _
          | _ => exact wlp_pure.mpr (hrest _)
  | _ => exact wlp_emit.mpr hc

theorem handleRead_current (hc : c.node.Current) :
    wlp handleRead (fun _ c' => c'.node.Current) c := by
  simp only [handleRead, wlp_bind, wlp_node]
  cases hl : c.node.role with
  | leader l =>
      simp only [wlp_bind, wlp_update, wlp_emit]
      refine wlp_mono (sendAppends_acts 0 (.heartbeat : Cause M) _ _)
        fun _ c₁ h₁ => resolveReads_current ?_
      rw [h₁.2]
      refine hc.alike hl le_rfl fun l' hl' => ?_
      rw [← Role.leader.inj hl']
      exact ⟨rfl, rfl, rfl, rfl, fun _ _ => rfl, rfl⟩
  | _ => exact wlp_emit.mpr hc

/-- A vote leaves everything the rule looks at alone, and so does a newer term
that ends a leadership. -/
theorem handleInbound_current (req : RpcRequest V M.Payload)
    (hc : c.node.Current) :
    wlp (handleInbound now req) (fun _ c' => c'.node.Current) c := by
  have hfollow : ∀ (t : ℕ) (hint : Option NodeId),
      (c.node.follow t hint).Current := fun _ _ => .of_isLeader rfl
  cases req with
  | preVote a =>
      simp only [handleInbound, handlePreVote, wlp_bind, wlp_node, wlp_pure]
      exact hc
  | requestVote a =>
      have hdecide : ∀ c₁ : Ctx M, c₁.node.Current →
          wlp (decideVote a) (fun _ c' => c'.node.Current) c₁ := by
        intro c₁ h₁
        simp only [decideVote, wlp_bind, wlp_node, wlp_ite, wlp_pure,
          wlp_update]
        refine ⟨fun _ => h₁, fun _ => ⟨fun _ => ?_, fun _ => h₁⟩⟩
        intro l hl
        refine h₁.alike hl le_rfl (fun l' hl' => ?_) l hl
        obtain rfl : l = l' := Role.leader.inj (hl.symm.trans hl')
        exact ⟨rfl, rfl, rfl, rfl, fun _ _ => rfl, rfl⟩
      simp only [handleInbound, handleRequestVote, wlp_bind, wlp_node,
        wlp_ite, wlp_pure]
      exact ⟨fun _ => becomeFollower_wlp fun _ => hdecide _ (hfollow _ _),
        fun _ => hdecide c hc⟩
  | appendEntries a =>
      by_cases hle : c.node.currentTerm ≤ a.term
      · simp only [handleInbound, wlp_bind, wlp_pure]
        refine wlp_mono (handleAppendEntries_heeds a c) fun _ c' h => ?_
        exact .of_isLeader (by rw [Node.isLeader, (h.1 hle).1.obeys.role])
      · simp only [handleInbound, handleAppendEntries, wlp_bind, wlp_node,
          wlp_ite, wlp_pure]
        exact ⟨fun _ => hc, fun h => absurd (Nat.le_of_not_lt h) hle⟩
  | installSnapshot a =>
      by_cases hle : c.node.currentTerm ≤ a.term
      · simp only [handleInbound, wlp_bind, wlp_pure]
        refine wlp_mono (handleInstallSnapshot_heeds a c) fun _ c' h => ?_
        exact .of_isLeader (by rw [Node.isLeader, (h.1 hle).1.obeys.role])
      · simp only [handleInbound, handleInstallSnapshot, wlp_bind, wlp_node,
          wlp_ite, wlp_pure]
        exact ⟨fun _ => hc, fun h => absurd (Nat.le_of_not_lt h) hle⟩

/-! ## Every run -/

theorem Run.fit (run : Run D M) (i : ℕ) (n : NodeId) :
    ((run.state i).nodes n).Fit := by
  obtain ⟨T⟩ := run.exists_trace
  exact ⟨run.orderly i n, T.bounded i n, run.ascending i n⟩

theorem Run.handleEvent_current (run : Run D M) {i k : ℕ} {r : Reply M}
    (hr : (run.state i).replies[k]? = some r)
    (hc : ((run.state i).nodes r.rpc.src).Current) :
    wlp (handleEvent now (r.rpc.tag.event r.rpc.dst (.ok r.response)))
      (fun _ c' => c'.node.Current)
      ⟨(run.state i).nodes r.rpc.src, []⟩ := by
  have hmem := List.mem_of_getElem? hr
  have hfit := run.fit i r.rpc.src
  unfold handleEvent
  split
  · exact handlePreVoteReply_current _ _ _ hfit hc
  · exact handleVoteReply_current _ _ _ hfit hc
  · next sentTerm peer prev len seq reply heq =>
      refine handleAppendReply_current _ _ _ _ _ _ hc
        fun l hl ht hs => ?_
      cases htag : r.rpc.tag with
      | append t' p' l' s' =>
          rw [htag] at heq
          obtain ⟨rfl, rfl, rfl, rfl, rfl, hres⟩ := Event.appendReply.inj heq
          rw [ht] at htag
          obtain ⟨_, _, ho, hb, ha⟩ := run.commitCall (.confirmed now hmem
            htag (Except.ok.inj hres) hs hl)
          exact ⟨ho, hb, ha⟩
      | _ => rw [htag] at heq; cases heq
  · next sentTerm peer boundary reply heq =>
      refine handleInstallSnapshotReply_current _ _ _ _ hc
        fun l hl ht => ?_
      cases htag : r.rpc.tag with
      | installSnapshot t' b' =>
          rw [htag] at heq
          obtain ⟨rfl, rfl, rfl, -⟩ := Event.installSnapshotReply.inj heq
          rw [ht] at htag
          obtain ⟨_, _, ho, hb, ha⟩ := run.commitCall (.installed now hmem
            htag hl)
          exact ⟨ho, hb, ha⟩
      | _ => rw [htag] at heq; cases heq
  · exact wlp_pure.mpr hc

/-- Between events no leader has an entry of its own term beyond its commit
index that a majority of its members is known to hold. -/
theorem Run.current (run : Run D M) (i : ℕ) (n : NodeId) :
    ((run.state i).nodes n).Current := by
  induction i with
  | zero =>
      rw [run.init]
      exact .of_isLeader rfl
  | succ i ih =>
      cases run.did i with
      | idle hc => rwa [hc]
      | restart h =>
          by_cases hn : n = (run.effect i).node
          · subst hn
            exact .of_isLeader (by
              rw [Node.isLeader, Node.role_of_spawn h.node])
          · rwa [h.others n hn]
      | turn now cause h =>
          by_cases hn : n = (run.effect i).node
          · have hc := h.causes
            rw [← hn] at hc
            refine run.handled (Q := fun y _ => y.Current) hc ?_
            generalize run.action i = a at hc
            have hfit := run.fit i n
            cases hc with
            | timeout => exact onElectionTimeout_current hfit ih
            | heartbeat => exact onHeartbeatTick_current ih
            | propose =>
                refine handlePropose_current _ ih fun l S hl hv hS => ?_
                obtain ⟨l', hl', ho, hb, ha⟩ :=
                  run.commitCall (.proposed _ _ hl hv hS)
                exact ⟨⟨l', hl'⟩, ho, hb, ha⟩
            | read => exact handleRead_current ih
            | deliver =>
                simp only [Cause.handler, wlp_bind, wlp_pure]
                exact handleInbound_current _ ih
            | reply hr => exact run.handleEvent_current hr ih
            | @fail _ _ _ rpc =>
                generalize rpc.tag = tag
                cases tag <;> exact wlp_pure.mpr ih
          · rwa [h.others n hn]

theorem Run.committed_of_held (run : Run D M) {i k : ℕ} {n : NodeId}
    {Q : Finset NodeId} (hl : ((run.state i).nodes n).role = .leader l)
    (hQ : IsMajority Q ((run.state i).nodes n).members.keySet)
    (hold : ∀ v ∈ Q, k ≤ ((run.state i).nodes n).holds l v)
    (ht : ((run.state i).nodes n).storage.term k =
      some ((run.state i).nodes n).currentTerm) :
    k ≤ ((run.state i).nodes n).commitIndex := by
  refine Nat.le_of_not_lt fun hlt => run.current i n l hl k hlt ⟨ht, ?_⟩
  rw [← BTreeMap.card_keySet]
  refine hQ.2.trans (Finset.card_le_card fun v hv => ?_)
  exact Finset.mem_filter.mpr ⟨hQ.1 hv, hold v hv⟩

/-- Between any two events, an entry of a leader's own term that it has not
committed is one that too few of its members are known to hold. -/
theorem commit_never_behind (run : Run D M) {i k : ℕ} {n : NodeId}
    (hl : ((run.state i).nodes n).role = .leader l)
    (hk : ((run.state i).nodes n).commitIndex < k)
    (ht : ((run.state i).nodes n).storage.term k =
      some ((run.state i).nodes n).currentTerm) :
    ¬ IsMajority (((run.state i).nodes n).members.keySet.filter fun v =>
        k ≤ ((run.state i).nodes n).holds l v)
      ((run.state i).nodes n).members.keySet := fun hQ =>
  Nat.not_le_of_lt hk (run.committed_of_held hl hQ
    (fun _ hv => (Finset.mem_filter.mp hv).2) ht)

theorem commit_never_behind_overtaken : ∃ l,
    ((overtakenRun.state 7).nodes 1).role = .leader l ∧
      ((overtakenRun.state 7).nodes 1).commitIndex < 2 ∧
      ¬ IsMajority (((overtakenRun.state 7).nodes 1).members.keySet.filter
          fun v => 2 ≤ ((overtakenRun.state 7).nodes 1).holds l v)
        ((overtakenRun.state 7).nodes 1).members.keySet := by
  have hlead : ((overtakenRun.state 7).nodes 1).isLeader = true := by
    decide +kernel
  have hk : ((overtakenRun.state 7).nodes 1).commitIndex < 2 := by
    decide +kernel
  obtain ⟨l, hl⟩ := Node.isLeader_iff.mp hlead
  exact ⟨l, hl, hk, commit_never_behind overtakenRun hl hk
    (by decide +kernel)⟩

end RustKV
