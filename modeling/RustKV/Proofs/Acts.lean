import RustKV.Proofs.Deeds

/-!
# The handlers as acts

One lemma per handler of `Raft/Handlers.lean`, in its order: whatever the
handler does, it does by moves of the node and changes of its log, in the same
links. The last section lifts this to the steps of the cluster, which is the
form the rest of the development uses: a step is a turn of one node, a
restart, or nothing.
-/

namespace RustKV

open Rust Prog NodeM

variable {V : Type} {M : StateMachine V}

variable {now : Instant} {cause : Cause M} {x y z : Node M}
  {os os' : List (Output M)} {c c₁ c' : Ctx M}

/-- A handler's part made one change of the log. -/
def Does (cause : Cause M) (c c' : Ctx M) : Prop :=
  ∃ os, c'.out = c.out ++ os ∧ Deed cause c.node c'.node os

theorem Does.none (h : Unmoved c.node x) : Does cause c ⟨x, c.out⟩ :=
  ⟨[], (List.append_nil _).symm, .none h .nil⟩

theorem Does.emit (hos : Silent os) : Does cause c ⟨c.node, c.out ++ os⟩ :=
  ⟨os, rfl, .none (.refl _) hos⟩

theorem Performs.quiet (h : Calm c c') (hd : Does cause c c')
    (hstay : c.node.isLeader = true →
      c'.node.commitIndex = c.node.commitIndex ∨ ¬ c'.node.Outvoted) :
    Performs now cause c c' := by
  obtain ⟨hq, os, ho, hp⟩ := h
  obtain ⟨os', ho', hdeed⟩ := hd
  obtain rfl : os = os' := List.append_cancel_left (ho.symm.trans ho')
  exact ⟨os, ho, .single (.quiet hq hp hstay) hdeed⟩

theorem Performs.follower (h : Calm c c') (hd : Does cause c c')
    (hr : c.node.role = .follower) : Performs now cause c c' := by
  refine .quiet h hd fun hl => ?_
  rw [isLeader_of_follower hr] at hl
  cases hl

theorem Performs.steady (h : Calm c c') (hd : Does cause c c')
    (hc : c'.node.commitIndex = c.node.commitIndex) :
    Performs now cause c c' :=
  .quiet h hd fun _ => .inl hc

theorem silent_readDropped (x : Node M) :
    Silent (x.role.pendingReads.map fun r =>
      (Output.readDropped x.currentTerm r.neededSeq : Output M)) := by
  intro o ho
  obtain ⟨r, -, rfl⟩ := List.mem_map.mp ho
  rfl

theorem silent_singleton {o : Output M} (h : o.tells = false) :
    Silent [o] := List.forall_mem_singleton.mpr h

variable (now cause)

/-! ## Roles and sends -/

theorem becomeFollower_acts (c : Ctx M) {t : Nat} {hint : Option NodeId}
    (hhint : ∀ n, hint = some n → cause.Announces t n) :
    wlp (becomeFollower t hint) (fun _ c' => Performs now cause c c' ∧
      c'.node = c.node.follow t hint) c :=
  becomeFollower_wlp fun ht =>
    ⟨.act (.follow t hint (plain_readDropped _) ht hhint)
      (.none (.follow _ _ _) (silent_readDropped _)), rfl⟩

theorem resolveReads_acts (c : Ctx M) :
    wlp resolveReads (fun _ c' => Performs now cause c c') c := by
  refine wlp_mono (wlp_and (resolveReads_calm c) (resolveReads_unmoved c))
    fun _ c₁ h => ?_
  obtain ⟨⟨hcalm, hc⟩, hun, os, ho, hsil⟩ := h
  exact .steady hcalm ⟨os, ho, .none hun hsil⟩ hc

theorem Storage.lastIndex_le_entriesFrom {P : Type} (S : Storage V P)
    {next : Nat} (h : S.snapshotIndex < next) :
    S.lastIndex ≤ next - 1 + (S.entriesFrom next).length := by
  have hpos : S.pos next = some (next - (S.snapshotIndex + 1)) := by
    rw [pos, if_pos (by omega)]
  rw [entriesFrom, hpos, Option.getD_some, List.length_drop, lastIndex]
  omega

theorem sendAppend_acts (peer : NodeId) (c : Ctx M) :
    wlp (sendAppend peer) (fun _ c' => Performs now cause c c' ∧
      c'.node = c.node) c := by
  simp only [sendAppend, wlp_bind, wlp_node, wlp_ite, wlp_pure]
  refine ⟨fun _ => ⟨.refl c, trivial⟩, fun hto => ?_⟩
  cases hl : c.node.role with
  | follower => exact wlp_pure.mpr ⟨.refl c, rfl⟩
  | preCandidate votes => exact wlp_pure.mpr ⟨.refl c, rfl⟩
  | candidate votes => exact wlp_pure.mpr ⟨.refl c, rfl⟩
  | leader l =>
      have hto' : c.node.members.containsKey peer = true ∨
          l.departing.containsKey peer = true := by
        rw [Node.isDeparting, hl] at hto
        by_contra hnot
        rw [not_or, Bool.not_eq_true, Bool.not_eq_true] at hnot
        exact hto (by simp [hnot.1, hnot.2])
      simp only [sendInstallSnapshot, wlp_ite, wlp_bind, wlp_node,
        wlp_unwrap, wlp_emit, wlp_checkedSub]
      refine ⟨fun _ snap hsnap => ⟨.act (.ship peer _ _ hl hto' ?_)
          (.exact_ (.ship peer _ _ hl ?_) rfl), trivial⟩,
        fun hlow hpos t _ => ⟨.act (.ship peer _ _ hl hto' ?_)
          (.exact_ (.ship peer _ _ hl ?_) rfl), trivial⟩⟩
      · exact ⟨rfl, rfl, rfl⟩
      · exact hsnap
      · exact ⟨rfl, rfl, rfl⟩
      · exact ⟨rfl, Storage.lastIndex_le_entriesFrom _ (Nat.lt_of_not_le hlow)⟩

theorem sendAppends_acts (peers : List NodeId) (c : Ctx M) :
    wlp (sendAppends peers) (fun _ c' => Performs now cause c c' ∧
      c'.node = c.node) c := by
  induction peers generalizing c with
  | nil => exact wlp_pure.mpr ⟨.refl c, rfl⟩
  | cons peer rest ih =>
      simp only [sendAppends, wlp_bind]
      refine wlp_mono (sendAppend_acts now cause peer c) fun _ c₁ h₁ => ?_
      exact wlp_mono (ih c₁) fun _ c₂ h₂ =>
        ⟨h₁.1.trans h₂.1, h₂.2.trans h₁.2⟩

theorem onHeartbeatTick_acts (c : Ctx M) :
    wlp (onHeartbeatTick now) (fun _ c' => Performs now cause c c') c := by
  have hsend : wlp (sendAppends c.node.replicationTargets)
      (fun _ c' => Performs now cause c c') c :=
    wlp_mono (sendAppends_acts now cause _ c) fun _ _ h => h.1
  simp only [onHeartbeatTick, wlp_bind, wlp_node]
  cases hl : c.node.role with
  | follower => exact hsend
  | preCandidate votes => exact hsend
  | candidate votes => exact hsend
  | leader l =>
      simp only [wlp_ite]
      refine ⟨fun _ => ?_, fun _ => hsend⟩
      exact wlp_mono (becomeFollower_acts now cause c fun n hn => by cases hn)
        fun _ _ h => h.1

/-- The end of `maybe_advance_commit`, after anything calm: the leader steps
down, or has no reason to. -/
theorem stepDownIfRemoved_acts (h : Calm c c₁) (hd : Does cause c c₁)
    (hl : c.node.isLeader = true) :
    wlp stepDownIfRemoved (fun _ c' => Performs now cause c c') c₁ := by
  have hl₁ : c₁.node.isLeader = true := h.1.isLeader.trans hl
  simp only [stepDownIfRemoved, wlp_bind, wlp_node, wlp_ite, wlp_pure]
  refine ⟨fun hgone => becomeFollower_wlp fun _ => ?_, fun hstay => ?_⟩
  · obtain ⟨hq, os, ho, hp⟩ := h
    obtain ⟨os', ho', hdeed⟩ := hd
    obtain rfl : os = os' := List.append_cancel_left (ho.symm.trans ho')
    refine ⟨os ++ _, by rw [ho, List.append_assoc], .single
      (.retire hq ?_ hl ⟨by simpa using hgone.2.1, hgone.2.2⟩) ?_⟩
    · exact List.forall_mem_append.mpr ⟨hp, plain_readDropped _⟩
    · exact hdeed.after (.follow _ _ _) (silent_readDropped _)
  · refine .quiet h hd fun _ => .inr fun hout => ?_
    exact hstay ⟨hl₁, by simpa using hout.1, hout.2⟩

theorem maybeAdvanceCommit_acts (c : Ctx M) :
    wlp maybeAdvanceCommit (fun _ c' => Performs now cause c c') c := by
  simp only [maybeAdvanceCommit, wlp_bind, wlp_node]
  cases hl : c.node.role with
  | follower => exact wlp_pure.mpr (.refl c)
  | preCandidate votes => exact wlp_pure.mpr (.refl c)
  | candidate votes => exact wlp_pure.mpr (.refl c)
  | leader l =>
      have hlead : c.node.isLeader = true := by rw [Node.isLeader, hl]
      simp only [wlp_ite, wlp_bind, wlp_pure, wlp_update, wlp_emit]
      refine ⟨fun _ => .refl c, fun _ => ⟨fun hadv => ?_, fun _ => ?_⟩⟩
      · refine wlp_mono (wlp_and (applyCommitted_calm _)
          (applyCommitted_deed cause hadv.1 _)) fun _ c₁ h₁ => ?_
        obtain ⟨hcalm, os, ho, hdeed⟩ := h₁
        have hnote : Silent [(.commitAdvanced c.node.currentTerm
            (c.node.commitCandidate l) : Output M)] := silent_singleton rfl
        refine stepDownIfRemoved_acts now cause (.trans ?_ hcalm)
          ⟨_, by rw [ho, List.append_assoc], hdeed.before hnote⟩ hlead
        exact .trans (.node (Quiet.body c.node rfl _ _ _ _ _))
          (.emit (List.forall_mem_singleton.mpr rfl))
      · exact stepDownIfRemoved_acts now cause (.refl c)
          (.none (.refl _)) hlead

/-! ## Elections -/

theorem maybeBecomeLeader_acts (hc : cause.Campaigns) (c : Ctx M) :
    wlp (maybeBecomeLeader now) (fun _ c' => Performs now cause c c') c := by
  simp only [maybeBecomeLeader, wlp_bind, wlp_node]
  cases hr : c.node.role with
  | follower => exact wlp_pure.mpr (.refl c)
  | preCandidate votes => exact wlp_pure.mpr (.refl c)
  | leader l => exact wlp_pure.mpr (.refl c)
  | candidate votes =>
      simp only [wlp_ite, wlp_bind, wlp_pure, wlp_update, wlp_expect]
      refine ⟨fun _ => .refl c, fun hv S hS => ?_⟩
      have hwin : Performs now cause c ⟨{ c.node with
          storage := S
          role := .leader
            (.fresh c.node.peerIds (c.node.storage.lastIndex + 1) now)
          leaderId := some c.node.config.id }, c.out⟩ :=
        .silent (.win hc hr (Nat.le_of_not_lt hv) hS)
          ⟨_, .append _ hS, rfl, rfl, rfl, rfl, rfl, rfl, rfl, rfl⟩
      refine wlp_mono (maybeAdvanceCommit_acts now cause _) fun _ c₁ h₁ => ?_
      exact (hwin.trans h₁).then_ (onHeartbeatTick_acts now cause c₁)

theorem silent_sends (peers : List NodeId)
    (req : RpcRequest V M.Payload) (tag : Tag)
    (h : ∀ peer, (Output.send peer req tag : Output M).tells = false) :
    Silent (peers.map fun peer => (Output.send peer req tag : Output M)) := by
  intro o ho
  obtain ⟨peer, -, rfl⟩ := List.mem_map.mp ho
  exact h peer

theorem maybeStartElection_acts (hc : cause.Campaigns) (c : Ctx M) :
    wlp (maybeStartElection now) (fun _ c' => Performs now cause c c') c := by
  simp only [maybeStartElection, wlp_bind, wlp_node]
  cases hr : c.node.role with
  | follower => exact wlp_pure.mpr (.refl c)
  | leader l => exact wlp_pure.mpr (.refl c)
  | candidate votes => exact wlp_pure.mpr (.refl c)
  | preCandidate votes =>
      simp only [startElection, wlp_ite, wlp_bind, wlp_node, wlp_pure,
        wlp_update, wlp_emitAll]
      refine ⟨fun hv => ?_, fun _ => .refl c⟩
      refine (Performs.act (.campaign hc hr hv) (.none ?_ ?_)).then_
        (maybeBecomeLeader_acts now cause hc _)
      · exact ⟨rfl, rfl, rfl, rfl, rfl, rfl, rfl, rfl⟩
      · exact silent_sends _ _ _ fun _ => rfl

theorem onElectionTimeout_acts (c : Ctx M)
    (hl : c.node.isLeader = false) :
    wlp (onElectionTimeout now)
      (fun _ c' => Performs now .timeout c c') c := by
  simp only [onElectionTimeout, wlp_bind, wlp_node, wlp_ite, wlp_pure,
    wlp_update, wlp_emitAll]
  refine ⟨fun _ => .refl c, fun hm => ?_⟩
  refine (Performs.act (.preCampaign rfl hl (by simpa using hm))
    (.none ?_ ?_)).then_ (maybeStartElection_acts now .timeout trivial _)
  · exact ⟨rfl, rfl, rfl, rfl, rfl, rfl, rfl, rfl⟩
  · exact silent_sends _ _ _ fun _ => rfl

/-! ## Client requests -/

theorem handlePropose_acts (cmd : Command V) (c : Ctx M) :
    wlp (handlePropose now cmd)
      (fun _ c' => Performs now (.propose cmd) c c') c := by
  have hrefuse : ∀ err, Performs now (.propose cmd) c
      ⟨c.node, c.out ++ [.proposeReply (.error err)]⟩ := fun err =>
    .steady (.emit (List.forall_mem_singleton.mpr rfl))
      (.emit (silent_singleton rfl)) rfl
  simp only [handlePropose, wlp_bind, wlp_node]
  cases hl : c.node.role with
  | follower => exact wlp_emit.mpr (hrefuse _)
  | preCandidate votes => exact wlp_emit.mpr (hrefuse _)
  | candidate votes => exact wlp_emit.mpr (hrefuse _)
  | leader l =>
      simp only
      cases hv : c.node.validateCommand l now cmd with
      | error reason => exact wlp_emit.mpr (hrefuse _)
      | ok u =>
          simp only [wlp_bind, wlp_expect, wlp_update, wlp_emit, wlp_node]
          intro S hS
          have hdeed : Deed (.propose cmd) c.node (c.node.accepted l now S cmd)
              [.proposeReply (.ok (c.node.currentTerm,
                c.node.storage.lastIndex + 1))] := by
            refine ⟨_, .propose _ hS, ?_⟩
            cases cmd <;> exact ⟨rfl, rfl, rfl, rfl, rfl, rfl, rfl, rfl⟩
          have hacc := Performs.act (.accept cmd rfl hl hv hS) hdeed
          have hrest : ∀ c₁ : Ctx M, Performs now (.propose cmd) c c₁ →
              wlp maybeAdvanceCommit (fun _ c₂ =>
                wlp (sendAppends c₂.node.replicationTargets) (fun _ c' =>
                  Performs now (.propose cmd) c c') c₂) c₁ := by
            intro c₁ h₁
            refine wlp_mono (maybeAdvanceCommit_acts now (.propose cmd) c₁)
              fun _ c₂ h₂ => ?_
            exact (h₁.trans h₂).then_ (wlp_mono
              (sendAppends_acts now (.propose cmd) _ c₂) fun _ _ h₃ => h₃.1)
          cases cmd with
          | put key value session => exact wlp_pure.mpr (hrest _ hacc)
          | delete key session => exact wlp_pure.mpr (hrest _ hacc)
          | noop => exact wlp_pure.mpr (hrest _ hacc)
          | configChange new =>
              simp only [adoptCommand, adoptMembership, publishMembership,
                wlp_bind, wlp_update, hl]
              exact hrest _ hacc

theorem handleRead_acts (c : Ctx M) :
    wlp handleRead (fun _ c' => Performs now .read c c') c := by
  have hrefuse : ∀ err, Performs now .read c
      ⟨c.node, c.out ++ [.readReply (.error err)]⟩ := fun err =>
    .steady (.emit (List.forall_mem_singleton.mpr rfl))
      (.emit (silent_singleton rfl)) rfl
  simp only [handleRead, wlp_bind, wlp_node]
  cases hl : c.node.role with
  | follower => exact wlp_emit.mpr (hrefuse _)
  | preCandidate votes => exact wlp_emit.mpr (hrefuse _)
  | candidate votes => exact wlp_emit.mpr (hrefuse _)
  | leader l =>
      simp only [wlp_bind, wlp_update, wlp_emit]
      have hreg : Performs now .read c _ := .act (.register _ rfl rfl hl)
        (.none ⟨rfl, rfl, rfl, rfl, rfl, rfl, rfl, rfl⟩
          (silent_singleton rfl))
      refine wlp_mono (sendAppends_acts now .read _ _) fun _ c₁ h₁ => ?_
      exact (hreg.trans h₁.1).then_ (resolveReads_acts now .read c₁)

/-! ## Inbound RPCs -/

theorem handleRequestVote_acts (a : RequestVoteArgs) (c : Ctx M) :
    wlp (handleRequestVote a)
      (fun _ c' => Performs now (.inbound (.requestVote a)) c c') c := by
  have hdecide : ∀ c₁ : Ctx M, a.term ≤ c₁.node.currentTerm →
      wlp (decideVote a)
        (fun _ c' => Performs now (.inbound (.requestVote a)) c₁ c') c₁ := by
    intro c₁ hle
    simp only [decideVote, wlp_bind, wlp_node, wlp_ite, wlp_pure, wlp_update]
    refine ⟨fun _ => .refl c₁, fun hge => ⟨fun hg => ?_, fun _ => .refl c₁⟩⟩
    exact .silent (.grant a rfl (by omega) hg.1)
      (.none ⟨rfl, rfl, rfl, rfl, rfl, rfl, rfl, rfl⟩ .nil)
  simp only [handleRequestVote, wlp_bind, wlp_node, wlp_ite]
  refine ⟨fun _ => ?_, fun hle => hdecide c (Nat.le_of_not_lt hle)⟩
  refine becomeFollower_wlp fun ht => ?_
  refine Performs.then_ ?_ (hdecide _ (Node.currentTerm_follow ht).ge)
  exact .act (.follow a.term none (plain_readDropped _) ht
    fun n hn => by cases hn) (.none (.follow _ _ _) (silent_readDropped _))

theorem follow_contact {t : Nat} {n : NodeId}
    (ht : c.node.currentTerm ≤ t) (ha : cause.Announces t n) :
    Performs now cause c ⟨{ c.node.follow t (some n) with
        lastLeaderContact := some now },
      c.out ++ c.node.role.pendingReads.map fun r =>
        .readDropped c.node.currentTerm r.neededSeq⟩ := by
  refine Performs.trans (.act (.follow t (some n) (plain_readDropped _) ht
    fun m hm => ?_) (.none (.follow _ _ _) (silent_readDropped _)))
    (.silent .contact (.none ⟨rfl, rfl, rfl, rfl, rfl, rfl, rfl, rfl⟩ .nil))
  cases hm
  exact ha

theorem adoptMembership_acts {members : Membership} {index : Nat}
    (hc : ∃ req, cause = .inbound req) (hr : c.node.role = .follower) :
    wlp (adoptMembership now members index)
      (fun _ c' => Performs now cause c c' ∧ c'.node.role = .follower) c := by
  simp only [adoptMembership, publishMembership, wlp_bind, wlp_update, hr]
  exact ⟨.silent (.adopt members index hc hr)
    (.none ⟨rfl, rfl, rfl, rfl, rfl, rfl, rfl, rfl⟩ .nil), trivial⟩

/-- The waiters are let go before the membership is derived again here, after
it in the code; neither looks at the other. -/
theorem adoptSnapshot_acts (snap : Snapshot M.Payload)
    (hc : ∃ a, cause = .inbound (.installSnapshot a) ∧ a.snapshot = snap)
    (hr : c.node.role = .follower)
    (hlt : c.node.commitIndex < snap.lastIncludedIndex) :
    wlp (adoptSnapshot now snap) (fun _ c' => Performs now cause c c') c := by
  simp only [adoptSnapshot, rescanMembership, adoptMembership,
    publishMembership, wlp_bind, wlp_node, wlp_expect, wlp_unwrap, wlp_update,
    wlp_emitAll, wlp_resolvePending, hr]
  intro S hS state hstate
  have hquiet : Quiet c.node
      (c.node.replaced S state snap.lastIncludedIndex).settled :=
    Quiet.body c.node (Storage.installSnapshot_hardState hS) _ _ _ _ _
  have hplain : ∀ o ∈ (c.node.pending.filter fun p =>
      p.index ≤ snap.lastIncludedIndex).map
        (fun p => (Output.dropped p.term p.index : Output M)) ++
      (c.node.replaced S state snap.lastIncludedIndex).verdicts,
      o.plain = true ∧ o.tells = true := by
    intro o ho
    rcases List.mem_append.mp ho with ho | ho
    · obtain ⟨p, -, rfl⟩ := List.mem_map.mp ho
      exact ⟨rfl, rfl⟩
    · obtain ⟨p, -, hp⟩ := List.mem_filterMap.mp ho
      obtain ⟨v, -, rfl⟩ := Option.map_eq_some_iff.mp hp
      exact ⟨rfl, rfl⟩
  have hinstall : Performs now cause c _ := .act
    (.quiet hquiet (fun o ho => (hplain o ho).1) fun hl => by
      rw [isLeader_of_follower hr] at hl
      cases hl)
    (.exact_ (.install snap hc hr hlt hS hstate)
      (List.filter_eq_self.mpr fun o ho => (hplain o ho).2))
  rw [← List.append_assoc] at hinstall
  obtain ⟨a, hc, -⟩ := hc
  exact hinstall.trans (.silent (.adopt _ _ ⟨_, hc⟩ (hquiet.follower hr))
    (.none ⟨rfl, rfl, rfl, rfl, rfl, rfl, rfl, rfl⟩ .nil))

theorem handleInstallSnapshot_acts
    (a : InstallSnapshotArgs M.Payload) (c : Ctx M) :
    wlp (handleInstallSnapshot now a)
      (fun _ c' => Performs now (.inbound (.installSnapshot a)) c c') c := by
  simp only [handleInstallSnapshot, wlp_bind, wlp_node, wlp_ite, wlp_pure,
    wlp_update]
  refine ⟨fun _ => .refl c, fun _ => becomeFollower_wlp fun ht => ?_⟩
  have h₁ := follow_contact now (.inbound (.installSnapshot a))
    (c := c) (n := a.leaderId) ht ⟨rfl, rfl⟩
  refine ⟨fun _ => h₁, fun hlt => ?_⟩
  exact h₁.then_ (adoptSnapshot_acts now _ a.snapshot ⟨a, rfl, rfl⟩ rfl
    (Nat.lt_of_not_le hlt))

theorem walkEntries_acts (es : List (LogEntry V))
    (hr : c.node.role = .follower) :
    wlp (walkEntries es) (fun _ c' => Performs now cause c c' ∧
      c'.node.role = .follower) c := by
  have hrefl : Performs now cause c c ∧ c.node.role = .follower :=
    ⟨.refl c, hr⟩
  induction es with
  | nil => exact wlp_pure.mpr hrefl
  | cons e rest ih =>
      simp only [walkEntries, wlp_bind, wlp_node, wlp_ite]
      refine ⟨fun _ => ih, fun _ => ?_⟩
      cases c.node.storage.term e.index with
      | none => exact wlp_pure.mpr hrefl
      | some existing =>
          simp only [wlp_ite, wlp_bind, wlp_panicWith, wlp_pure, wlp_expect,
            wlp_update, wlp_resolvePending]
          refine ⟨fun _ => ih,
            fun _ => ⟨fun _ => trivial, fun hi S hS => ⟨?_, hr⟩⟩⟩
          have hcalm := resolvePending_calm
            (⟨{ c.node with storage := S }, c.out⟩ : Ctx M)
          refine .follower (.trans (.node (Quiet.body c.node
            (Storage.truncateFrom_hardState hS) _ _ _ _ _))
            (wlp_resolvePending.mp hcalm).1) ⟨_, rfl, ?_⟩ hr
          exact .exact_ (.cut e.index hr (Nat.lt_of_not_le hi) hS)
            (filter_tells_verdicts _)

theorem appendFrom_acts (a : AppendEntriesArgs V) (first : Nat)
    (hc : ∃ req, cause = .inbound req) (hr : c.node.role = .follower) :
    wlp (appendFrom now a first) (fun _ c' => Performs now cause c c' ∧
      c'.node.role = .follower) c := by
  simp only [appendFrom, wlp_bind, wlp_checkedSub, wlp_ite, wlp_panicWith,
    wlp_node, wlp_expect, wlp_update]
  intro _ _
  refine ⟨fun _ => trivial, fun _ S hS => ?_⟩
  have hd : Performs now cause c ⟨{ c.node with storage := S }, c.out⟩ :=
    .follower (.node (Quiet.body c.node (Storage.append_hardState hS) _ _ _
      _ _)) ⟨[], (List.append_nil _).symm, _, .append _ hS, .refl _⟩ hr
  cases newestConfig (a.entries.drop (first - a.prevLogIndex - 1)) with
  | none => exact wlp_pure.mpr ⟨hd, hr⟩
  | some adopted =>
      exact wlp_mono (adoptMembership_acts now cause hc hr)
        fun _ c₂ h₂ => ⟨hd.trans h₂.1, h₂.2⟩

theorem spliceEntries_acts (a : AppendEntriesArgs V)
    (hc : ∃ req, cause = .inbound req) (hr : c.node.role = .follower) :
    wlp (spliceEntries now a) (fun _ c' => Performs now cause c c' ∧
      c'.node.role = .follower) c := by
  simp only [spliceEntries, wlp_bind]
  refine wlp_mono (walkEntries_acts now cause a.entries hr)
    fun walked c₁ h₁ => ?_
  obtain ⟨hd₁, hr₁⟩ := h₁
  simp only [wlp_ite, rescanMembership, wlp_bind, wlp_node]
  cases walked.1 with
  | none =>
      simp only [wlp_pure]
      refine ⟨fun _ => ?_, fun _ => ⟨hd₁, hr₁⟩⟩
      exact wlp_mono (adoptMembership_acts now cause hc hr₁)
        fun _ c₂ h₂ => ⟨hd₁.trans h₂.1, h₂.2⟩
  | some first =>
      have hrest : ∀ c₂ : Ctx M, Performs now cause c c₂ →
          c₂.node.role = .follower → wlp (appendFrom now a first)
            (fun _ c' => Performs now cause c c' ∧
              c'.node.role = .follower) c₂ := fun c₂ h₂ hr₂ =>
        wlp_mono (appendFrom_acts now cause a first hc hr₂)
          fun _ c₃ h₃ => ⟨h₂.trans h₃.1, h₃.2⟩
      refine ⟨fun _ => ?_, fun _ => hrest c₁ hd₁ hr₁⟩
      exact wlp_mono (adoptMembership_acts now cause hc hr₁)
        fun _ c₂ h₂ => hrest c₂ (hd₁.trans h₂.1) h₂.2

theorem commitVerified_acts (a : AppendEntriesArgs V)
    (hr : c.node.role = .follower) :
    wlp (commitVerified a) (fun _ c' => Performs now cause c c') c := by
  simp only [commitVerified, wlp_bind, wlp_node, wlp_ite, wlp_pure,
    wlp_update]
  refine ⟨fun hk => ?_, fun _ => .refl c⟩
  refine wlp_mono (wlp_and (applyCommitted_calm _)
    (applyCommitted_deed cause hk _)) fun _ c₁ h₁ => ?_
  exact .follower (.trans (.node (Quiet.body c.node rfl _ _ _ _ _)) h₁.1)
    h₁.2 hr

theorem handleAppendEntries_acts (a : AppendEntriesArgs V) (c : Ctx M) :
    wlp (handleAppendEntries now a)
      (fun _ c' => Performs now (.inbound (.appendEntries a)) c c') c := by
  simp only [handleAppendEntries, wlp_bind, wlp_node, wlp_ite, wlp_pure,
    wlp_update]
  refine ⟨fun _ => .refl c, fun _ => becomeFollower_wlp fun ht => ?_⟩
  have h₁ := follow_contact now (.inbound (.appendEntries a))
    (c := c) (n := a.leaderId) ht ⟨rfl, rfl⟩
  refine ⟨fun _ => h₁, fun _ => ?_⟩
  refine wlp_mono (spliceEntries_acts now (.inbound (.appendEntries a)) a
    ⟨_, rfl⟩ rfl) fun _ c₂ h₂ => ?_
  exact (h₁.trans h₂.1).then_ (commitVerified_acts now _ a h₂.2)

theorem handleInbound_acts (req : RpcRequest V M.Payload) (c : Ctx M) :
    wlp (handleInbound now req)
      (fun _ c' => Performs now (.inbound req) c c') c := by
  cases req with
  | requestVote a =>
      simp only [handleInbound, wlp_bind, wlp_pure]
      exact handleRequestVote_acts now a c
  | appendEntries a =>
      simp only [handleInbound, wlp_bind, wlp_pure]
      exact handleAppendEntries_acts now a c
  | preVote a =>
      simp only [handleInbound, handlePreVote, wlp_bind, wlp_pure, wlp_node]
      exact .refl c
  | installSnapshot a =>
      simp only [handleInbound, wlp_bind, wlp_pure]
      exact handleInstallSnapshot_acts now a c

/-! ## Replies -/

theorem outdated_acts (c : Ctx M) (t : Nat) :
    wlp (becomeFollower t none) (fun _ c' => Performs now cause c c') c :=
  wlp_mono (becomeFollower_acts now cause c fun n hn => by cases hn)
    fun _ _ h => h.1

theorem handlePreVoteReply_acts (sentTerm : Nat) (peer : NodeId)
    (reply : RequestVoteReply) (c : Ctx M) :
    wlp (handlePreVoteReply now sentTerm peer reply)
      (fun _ c' => Performs now (.reply (.preVoteReply sentTerm peer
        (.ok (.preVote reply)))) c c') c := by
  simp only [handlePreVoteReply, wlp_bind, wlp_node, wlp_ite, wlp_pure]
  refine ⟨fun _ => outdated_acts now _ c _,
    fun _ => ⟨fun _ => .refl c, fun hok => ?_⟩⟩
  cases hr : c.node.role with
  | follower => exact wlp_pure.mpr (.refl c)
  | leader l => exact wlp_pure.mpr (.refl c)
  | candidate votes => exact wlp_pure.mpr (.refl c)
  | preCandidate votes =>
      simp only [ne_eq, Bool.not_eq_true', not_or, not_not,
        Bool.not_eq_false] at hok
      obtain ⟨rfl, hg⟩ := hok
      simp only [wlp_bind, wlp_update]
      exact (Performs.silent (.preVoted peer reply rfl hg hr)
        (.none ⟨rfl, rfl, rfl, rfl, rfl, rfl, rfl, rfl⟩ .nil)).then_
        (maybeStartElection_acts now (.reply _) trivial _)

theorem handleVoteReply_acts (sentTerm : Nat) (peer : NodeId)
    (reply : RequestVoteReply) (c : Ctx M) :
    wlp (handleVoteReply now sentTerm peer reply)
      (fun _ c' => Performs now (.reply (.voteReply sentTerm peer
        (.ok (.requestVote reply)))) c c') c := by
  simp only [handleVoteReply, wlp_bind, wlp_node, wlp_ite, wlp_pure]
  refine ⟨fun _ => outdated_acts now _ c _,
    fun _ => ⟨fun _ => .refl c, fun hok => ?_⟩⟩
  cases hr : c.node.role with
  | follower => exact wlp_pure.mpr (.refl c)
  | leader l => exact wlp_pure.mpr (.refl c)
  | preCandidate votes => exact wlp_pure.mpr (.refl c)
  | candidate votes =>
      simp only [ne_eq, Bool.not_eq_true', not_or, not_not,
        Bool.not_eq_false] at hok
      obtain ⟨rfl, hg⟩ := hok
      simp only [wlp_bind, wlp_update]
      exact (Performs.silent (.voted peer reply rfl hg hr)
        (.none ⟨rfl, rfl, rfl, rfl, rfl, rfl, rfl, rfl⟩ .nil)).then_
        (maybeBecomeLeader_acts now (.reply _) trivial _)

theorem advanceAndSend_acts (h : Performs now cause c c₁) (peer : NodeId)
    {P : Prop} {Q : Unit → Ctx M → Prop}
    (hQ : ∀ c', Performs now cause c c' → Q () c') :
    wlp maybeAdvanceCommit (fun _ c' =>
      (P → wlp (sendAppend peer) Q c') ∧ (¬ P → Q () c')) c₁ := by
  refine wlp_mono (maybeAdvanceCommit_acts now cause c₁) fun _ c₂ h₂ => ?_
  refine ⟨fun _ => ?_, fun _ => hQ c₂ (h.trans h₂)⟩
  exact wlp_mono (sendAppend_acts now cause peer c₂) fun _ c₃ h₃ =>
    hQ c₃ ((h.trans h₂).trans h₃.1)

theorem handleAppendReply_acts (sentTerm : Nat) (peer : NodeId)
    (prev len seq : Nat) (reply : AppendEntriesReply) (c : Ctx M) :
    wlp (handleAppendReply now sentTerm peer prev len seq reply)
      (fun _ c' => Performs now (.reply (.appendReply sentTerm peer prev len
        seq (.ok (.appendEntries reply)))) c c') c := by
  simp only [handleAppendReply, wlp_bind, wlp_node, wlp_ite, wlp_pure]
  refine ⟨fun _ => outdated_acts now _ c _,
    fun _ => ⟨fun _ => .refl c, fun heq => ?_⟩⟩
  rw [not_not] at heq
  subst heq
  cases hl : c.node.role with
  | follower => exact wlp_pure.mpr (.refl c)
  | preCandidate votes => exact wlp_pure.mpr (.refl c)
  | candidate votes => exact wlp_pure.mpr (.refl c)
  | leader l =>
      have hres : ∀ c₁, Performs now (.reply (.appendReply c.node.currentTerm
          peer prev len seq (.ok (.appendEntries reply)))) c c₁ →
          wlp resolveReads (fun _ c' => Performs now (.reply (.appendReply
            c.node.currentTerm peer prev len seq
            (.ok (.appendEntries reply)))) c c') c₁ := fun c₁ h₁ =>
        h₁.then_ (resolveReads_acts now _ c₁)
      simp only [wlp_ite, wlp_bind, wlp_update, publishMembership]
      refine ⟨fun hs => ?_, fun hs => ?_⟩
      · have hbook : Performs now _ c _ :=
          .silent (.confirmed peer prev len seq reply rfl hl hs)
            (.none ⟨rfl, rfl, rfl, rfl, rfl, rfl, rfl, rfl⟩ .nil)
        rw [Node.book] at hbook
        refine ⟨fun hd => ?_, fun hd => ?_⟩
        · rw [if_pos hd, if_pos hd] at hbook
          rw [if_pos hd]
          exact advanceAndSend_acts now _ hbook peer hres
        · rw [if_neg hd, if_neg hd] at hbook
          rw [if_neg hd]
          exact advanceAndSend_acts now _ hbook peer hres
      · have hbook : Performs now _ c _ := .silent (.refused peer prev len seq
          reply rfl hl (by simpa using hs))
          (.none ⟨rfl, rfl, rfl, rfl, rfl, rfl, rfl, rfl⟩ .nil)
        exact wlp_mono (sendAppend_acts now _ peer _) fun _ c₁ h₁ =>
          hres c₁ (hbook.trans h₁.1)

theorem handleInstallSnapshotReply_acts (sentTerm : Nat) (peer : NodeId)
    (i : Nat) (reply : InstallSnapshotReply) (c : Ctx M) :
    wlp (handleInstallSnapshotReply now sentTerm peer i reply)
      (fun _ c' => Performs now (.reply (.installSnapshotReply sentTerm peer i
        (.ok (.installSnapshot reply)))) c c') c := by
  simp only [handleInstallSnapshotReply, wlp_bind, wlp_node, wlp_ite,
    wlp_pure]
  refine ⟨fun _ => outdated_acts now _ c _,
    fun _ => ⟨fun _ => .refl c, fun heq => ?_⟩⟩
  rw [not_not] at heq
  subst heq
  cases hl : c.node.role with
  | follower => exact wlp_pure.mpr (.refl c)
  | preCandidate votes => exact wlp_pure.mpr (.refl c)
  | candidate votes => exact wlp_pure.mpr (.refl c)
  | leader l =>
      have hbook : Performs now _ c _ :=
        .silent (.installed peer i reply rfl hl)
          (.none ⟨rfl, rfl, rfl, rfl, rfl, rfl, rfl, rfl⟩ .nil)
      rw [Node.book] at hbook
      simp only [wlp_ite, wlp_bind, wlp_update, wlp_pure, publishMembership]
      refine ⟨fun hd => ?_, fun hd => ?_⟩
      · rw [if_pos hd, if_pos hd] at hbook
        rw [if_pos hd]
        exact advanceAndSend_acts now _ hbook peer fun _ h => h
      · rw [if_neg hd, if_neg hd] at hbook
        rw [if_neg hd]
        exact advanceAndSend_acts now _ hbook peer fun _ h => h

theorem handleEvent_acts (event : Event) (c : Ctx M) :
    wlp (handleEvent now event)
      (fun _ c' => Performs now (.reply event) c c') c := by
  unfold handleEvent
  split
  · exact handlePreVoteReply_acts now _ _ _ c
  · exact handleVoteReply_acts now _ _ _ c
  · exact handleAppendReply_acts now _ _ _ _ _ _ c
  · exact handleInstallSnapshotReply_acts now _ _ _ _ c
  · exact wlp_pure.mpr (.refl c)

/-! ## Steps of the cluster -/

/-- What the scheduler's choice `a` means for the node `n` it is about. -/
inductive Cluster.Causes (c : Cluster M) :
    Action V → NodeId → Instant → Cause M → Prop
  | timeout {n : NodeId} {now : Instant}
      (hl : (c.nodes n).isLeader = false) :
      Causes c (.timeout n now) n now .timeout
  | heartbeat {n : NodeId} {now : Instant}
      (hl : (c.nodes n).isLeader = true) :
      Causes c (.heartbeat n now) n now .heartbeat
  | propose {n : NodeId} {cmd : Command V} {now : Instant} :
      Causes c (.propose n cmd now) n now (.propose cmd)
  | read {n : NodeId} : Causes c (.read n) n 0 .read
  | deliver {i : Nat} {now : Instant} {rpc : Rpc M}
      (hr : c.rpcs[i]? = some rpc) :
      Causes c (.deliver i now) rpc.dst now (.inbound rpc.request)
  | reply {i : Nat} {now : Instant} {r : Reply M}
      (hr : c.replies[i]? = some r)
      (he : r.rpc.epoch = c.epochs r.rpc.src) :
      Causes c (.reply i now) r.rpc.src now
        (.reply (r.rpc.tag.event r.rpc.dst (.ok r.response)))
  | fail {i : Nat} {error : TransportError} {now : Instant} {rpc : Rpc M}
      (hr : c.rpcs[i]? = some rpc) (he : rpc.epoch = c.epochs rpc.src) :
      Causes c (.fail i error now) rpc.src now
        (.reply (rpc.tag.event rpc.dst (.error error)))

/-- What an event answers: a delivery is answered once, and nothing else
is. -/
def Cluster.Answered (c : Cluster M) (answers : List (Reply M)) :
    Action V → Prop
  | .deliver k _ => ∃ rpc response, c.rpcs[k]? = some rpc ∧
      answers = [⟨rpc, response⟩]
  | _ => answers = []

/-- One node took a turn. -/
structure Cluster.Turn (c : Cluster M) (a : Action V) (c' : Cluster M)
    (eff : Effect M) (now : Instant) (cause : Cause M) : Prop where
  causes : c.Causes a eff.node now cause
  moves : Moves now cause (c.nodes eff.node) (c'.nodes eff.node) eff.outputs
  others : ∀ m, m ≠ eff.node → c'.nodes m = c.nodes m
  epochs : c'.epochs = c.epochs
  rpcs : c'.rpcs = c.rpcs ++
    eff.outputs.filterMap (Cluster.sent eff.node (c.epochs eff.node))
  replies : ∃ answers, c'.replies = c.replies ++ answers ∧
    c.Answered answers a

/-- One node lost everything but its storage and came back. -/
structure Cluster.Rebirth (c : Cluster M) (a : Action V) (c' : Cluster M)
    (eff : Effect M) : Prop where
  action : a = .restart eff.node
  node : Node.spawn (c.nodes eff.node).config (c.nodes eff.node).storage =
    .ok (c'.nodes eff.node)
  outputs : ∀ o ∈ eff.outputs, o.plain = true
  others : ∀ m, m ≠ eff.node → c'.nodes m = c.nodes m
  rpcs : c'.rpcs = c.rpcs
  replies : c'.replies = c.replies

/-- What a step of the cluster did. -/
inductive Cluster.Did (c : Cluster M) (a : Action V) (c' : Cluster M)
    (eff : Effect M) : Prop
  | idle (hc : c' = c) (ho : eff.outputs = []) (ha : a = .idle)
  | turn (now : Instant) (cause : Cause M) (h : c.Turn a c' eff now cause)
  | restart (h : c.Rebirth a c' eff)

/-- The same, with what the turn did to the log. -/
inductive Cluster.Acted (c : Cluster M) (a : Action V) (c' : Cluster M)
    (eff : Effect M) : Prop
  | idle (hc : c' = c) (ho : eff.outputs = []) (ha : a = .idle)
  | turn (now : Instant) (cause : Cause M) (h : c.Turn a c' eff now cause)
      (ha : Acts now cause (c.nodes eff.node) (c'.nodes eff.node)
        eff.outputs)
  | restart (h : c.Rebirth a c' eff)

namespace Cluster

variable {cl cl' : Cluster M} {a : Action V} {eff : Effect M} {n : NodeId}

theorem exec_turn {body : NodeM M (List (Reply M))}
    (hc : cl.Causes a n now cause)
    (hb : wlp body (fun answers c₁ =>
      Performs now cause ⟨cl.nodes n, []⟩ c₁ ∧ cl.Answered answers a)
        ⟨cl.nodes n, []⟩)
    (h : cl.exec n body = .ok (cl', eff)) : cl.Acted a cl' eff := by
  rw [exec] at h
  split at h
  · cases h
  · next answers c₁ hx =>
      obtain ⟨⟨os, ho, ha⟩, hr⟩ := hb answers c₁ hx
      rw [List.nil_append] at ho
      cases h
      have hacts : Acts now cause (cl.nodes n)
          (Function.update cl.nodes n c₁.node n) c₁.out := by
        rw [Function.update_self, ho]
        exact ha
      exact .turn now cause ⟨hc, hacts.moves,
        fun m hne => Function.update_of_ne hne _ _, rfl, rfl,
        answers, rfl, hr⟩ hacts

theorem silently_turn {body : NodeM M Unit} (hc : cl.Causes a n now cause)
    (ha : cl.Answered [] a)
    (hb : wlp body (fun _ c₁ => Performs now cause ⟨cl.nodes n, []⟩ c₁)
      ⟨cl.nodes n, []⟩)
    (h : cl.exec n (silently body) = .ok (cl', eff)) :
    cl.Acted a cl' eff := by
  refine exec_turn now cause hc ?_ h
  simp only [silently, wlp_bind, wlp_pure]
  exact wlp_mono hb fun _ c₁ h₁ => ⟨h₁, ha⟩

theorem serve_turn {rpc : Rpc M} {i : Nat} (hr : cl.rpcs[i]? = some rpc)
    (h : cl.exec rpc.dst (serve now rpc) = .ok (cl', eff)) :
    cl.Acted (.deliver i now) cl' eff := by
  refine exec_turn now _ (.deliver hr) ?_ h
  simp only [serve, wlp_bind, wlp_pure]
  refine wlp_mono (handleInbound_acts now rpc.request _) fun _ c₁ h₁ => ?_
  exact ⟨h₁, rpc, _, hr, rfl⟩

theorem plain_lost (x : Node M) : ∀ o ∈ lost x, o.plain = true := by
  intro o ho
  rcases List.mem_append.mp ho with ho | ho
  · obtain ⟨p, -, rfl⟩ := List.mem_map.mp ho
    rfl
  · obtain ⟨r, -, rfl⟩ := List.mem_map.mp ho
    rfl

theorem reborn_rebirth (h : cl.reborn n = .ok (cl', eff)) :
    cl.Rebirth (.restart n) cl' eff := by
  rw [reborn] at h
  split at h
  · cases h
  · next x hx =>
      cases h
      refine ⟨rfl, ?_, plain_lost _,
        fun m hne => Function.update_of_ne hne _ _, rfl, rfl⟩
      simp only [Function.update_self]
      exact hx

/-- Every step of the cluster is a turn of one node, a restart, or
nothing. -/
theorem step_acted (h : cl.step a = some (.ok (cl', eff))) :
    cl.Acted a cl' eff := by
  cases a with
  | idle =>
      cases h
      exact .idle rfl rfl rfl
  | timeout n now =>
      simp only [step] at h
      split at h
      · cases h
      · next hl =>
          rw [Bool.not_eq_true] at hl
          exact silently_turn now _ (.timeout hl) rfl
            (onElectionTimeout_acts now _ hl) (Option.some.inj h)
  | heartbeat n now =>
      simp only [step] at h
      split at h
      · next hl =>
          exact silently_turn now _ (.heartbeat hl) rfl
            (onHeartbeatTick_acts now _ _) (Option.some.inj h)
      · cases h
  | propose n cmd now =>
      exact silently_turn now _ .propose rfl (handlePropose_acts now cmd _)
        (Option.some.inj h)
  | read n =>
      exact silently_turn 0 _ .read rfl (handleRead_acts 0 _)
        (Option.some.inj h)
  | deliver i now =>
      obtain ⟨rpc, hrpc, hx⟩ := Option.map_eq_some_iff.mp h
      exact serve_turn now hrpc hx
  | reply i now =>
      obtain ⟨r, hr, hset⟩ := Option.bind_eq_some_iff.mp h
      simp only [settle] at hset
      split at hset
      · next he =>
          exact silently_turn now _ (.reply hr he) rfl
            (handleEvent_acts now _ _) (Option.some.inj hset)
      · cases hset
  | fail i error now =>
      obtain ⟨rpc, hr, hset⟩ := Option.bind_eq_some_iff.mp h
      simp only [settle] at hset
      split at hset
      · next he =>
          exact silently_turn now _ (.fail hr he) rfl
            (handleEvent_acts now _ _) (Option.some.inj hset)
      · cases hset
  | restart n => exact .restart (reborn_rebirth (Option.some.inj h))

theorem step_did (h : cl.step a = some (.ok (cl', eff))) :
    cl.Did a cl' eff := by
  cases step_acted h with
  | idle hc ho ha => exact .idle hc ho ha
  | turn now cause h => exact .turn now cause h
  | restart h => exact .restart h

variable {now cause}

theorem Answered.sent {answers : List (Reply M)}
    (h : cl.Answered answers a) : ∀ r ∈ answers, r.rpc ∈ cl.rpcs := by
  cases a with
  | deliver k now =>
      obtain ⟨rpc, response, hr, rfl⟩ := h
      exact List.forall_mem_singleton.mpr (List.mem_of_getElem? hr)
  | _ =>
      cases h
      exact List.forall_mem_nil _

theorem Causes.propose_eq {cmd : Command V} (h : cl.Causes a n now cause)
    (hc : cause = .propose cmd) : a = .propose n cmd now := by
  cases h <;> cases hc
  rfl

theorem Causes.of_inbound {req : RpcRequest V M.Payload}
    (h : cl.Causes a n now cause) (hc : cause = .inbound req) :
    ∃ k rpc, a = .deliver k now ∧ cl.rpcs[k]? = some rpc ∧
      rpc.request = req ∧ rpc.dst = n := by
  cases h with
  | deliver hr =>
      cases hc
      exact ⟨_, _, rfl, hr, rfl, rfl⟩
  | _ => cases hc

end Cluster

end RustKV
