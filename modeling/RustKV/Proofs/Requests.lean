import RustKV.Proofs.Replication

/-!
# Campaigning, proposals, reads, replies

What a node does on its own account: it campaigns and takes a term over, and
as a leader it accepts proposals and reads and digests what its peers answer.

The two gates of `validate_config_change` turn out to give exactly the two
facts a configuration entry is recorded with. `exactly one member` makes the
new membership a neighbour of the old one. The other two checks say that this
leader has committed its own no-op and everything up to the membership in
effect, so one of its commits lies above every earlier configuration.
-/

namespace RustKV

open Rust Prog NodeM Consensus History

variable {V : Type} {M : StateMachine V} {D : Deployment}
  {H H' : Hist V} {F F' : List (LogEntry V)} {s : Start M} {c : Ctx M}

def Ends (D : Deployment) (s : Start M) (c : Ctx M) : Prop :=
  ∃ H F, At D s H F c

/-! ## Appending as a leader -/

theorem keySet_membersOf_append {n : NodeId} (e : LogEntry V)
    (h : (membersOf (D.config n) F).keySet = (rules D).cfg F) :
    (membersOf (D.config n) (F ++ [e])).keySet =
      (rules D).cfg (F ++ [e]) := by
  rw [membersOf_append_singleton, Rules.cfg_append_singleton, ← h]
  simp only [rules]
  cases e.configChange? <;> rfl

theorem LeaderInv.append {n : NodeId} {members members' : Membership}
    {t : Nat} {l : LeaderState} {e : LogEntry V}
    (h : LeaderInv D H n F members t l) (hle : Le H H')
    (hseq : H'.seq n t = H.seq n t)
    (hmem : members'.keySet = (rules D).cfg (F ++ [e])) :
    LeaderInv D H' n (F ++ [e]) members' t l :=
  { h.mono hle hseq with
    members := hmem
    next := fun p k hp => by
      have := h.next p k hp
      rw [List.length_append, List.length_singleton]
      omega }

theorem LeaderInv.adopt {n self : NodeId} {members old new : Membership}
    {t i : Nat} {l : LeaderState} {now : Instant}
    (h : LeaderInv D H n F members t l) :
    LeaderInv D H n F members t (l.adopt self old new i now) :=
  ⟨h.members, h.start, h.matched, h.next, h.seq, h.acked, h.reads⟩

theorem At.append (h : At D s H F c) (hq : s.kind = .acting)
    {l : LeaderState} (hl : c.node.role = .leader l) {e : LogEntry V}
    (ht : e.term = c.node.currentTerm) (hi : e.index = F.length + 1)
    (hcfg : ∀ C, (rules D).config e = some C →
      Near ((rules D).cfg F) C ∧ ∃ k m, H.commit c.node.currentTerm k m ∧
        ∀ i y, F[i]? = some y → (rules D).config y ≠ none → i < k) :
    ∃ S', c.node.storage.append [e] = .ok S' ∧
      ∀ l' index' pending' view (os : List (Output M)),
        LeaderInv D (H.extend c.node.currentTerm e) s.id (F ++ [e])
          (membersOf (D.config s.id) (F ++ [e])) c.node.currentTerm l' →
        l'.pendingReads = l.pendingReads →
        (e.configChange? = none ∧ index' = c.node.membersIndex ∨
          e.configChange? ≠ none ∧ index' = e.index) →
        (∀ p ∈ pending', p ∈ c.node.pending ∨ p = ⟨e.term, e.index⟩) →
        (∀ m, e.configChange? = some m → s.Admits e.term F.length m ∧
          Output.proposeReply (.ok (e.term, F.length + 1)) ∈ os) →
        (∀ o ∈ os, OutOk D s (H.extend c.node.currentTerm e)
          (F ++ [e]) o) →
        At D s (H.extend c.node.currentTerm e) (F ++ [e]) ⟨{ c.node with
          storage := S'
          role := .leader l'
          members := membersOf (D.config s.id) (F ++ [e])
          membersIndex := index'
          membershipView := view
          pending := pending' }, c.out ++ os⟩ := by
  obtain ⟨hf, hs, S', happ, hhs, hinv⟩ :=
    h.inv.append h.sound hl ht hi hcfg
  obtain ⟨b, hb, -⟩ := (h.leaderInv hl).start
  refine ⟨S', happ, ?_⟩
  intro l' index' pending' view os hlead hreads hindex hpend hadm hos
  refine h.next hf hs (fun _ _ _ hk => hk)
    (hinv l' _ index' pending' view hlead rfl hindex hpend) ?_
    (h.created.extend ht (by rwa [h.tlog_eq hl]))
    (fun t i ho => absurd (h.out _ ho).1 (by rw [hq]; nofun)) hos
  have hterm : Node.currentTerm { c.node with
      storage := S'
      role := .leader l'
      members := membersOf (D.config s.id) (F ++ [e])
      membersIndex := index'
      membershipView := view
      pending := pending' } = c.node.currentTerm := by
    simp only [Node.currentTerm, hhs]
  refine h.moved.next hf.toLe hterm.ge le_rfl
    (fun _ => .inl ⟨by rw [hl]; rfl, hterm.symm⟩)
    (fun hp => .inl ⟨?_, hterm.symm⟩) (fun _ _ _ _ hq => .inl hq)
    (fun y hy => ?_) (fun P hp _ => hp.trans (List.prefix_append _ _))
  · rw [hl]
    simp only [Role.pendingReads, hreads] at hp ⊢
    exact hp
  · rcases List.mem_append.mp hy with hy | hy
    · exact .inl hy
    · right
      rw [List.mem_singleton.mp hy]
      -- created now: the term's log was no longer than this when we started
      refine .inr (.inr ⟨⟨b, ?_⟩, ?_⟩)
      · rw [ht]
        exact hf.led hb
      · have := (h.frame.tlog c.node.currentTerm).length_le
        rw [h.tlog_eq hl] at this
        rw [ht, hi]
        omega

/-! ## Elections -/

theorem At.win (h : At D s H F c) {votes : Finset NodeId}
    (hl : c.node.role = .candidate votes)
    (hmaj : c.node.majority ≤ c.node.countMemberVotes votes)
    (peers : List NodeId) (now : Instant) (leaderId : Option NodeId) :
    At D s (H.elect c.node.currentTerm s.id F) F ⟨{ c.node with
      role := .leader (.fresh peers (F.length + 1) now)
      leaderId := leaderId }, c.out⟩ := by
  obtain ⟨hnone, hs, hinv⟩ := h.inv.win h.sound hl hmaj peers now leaderId
  have hf : Frame s.id H (H.elect c.node.currentTerm s.id F) :=
    elect_frame h.sound.wf hnone
  have hold : ∀ e ∈ F, e.term ≠ c.node.currentTerm := by
    intro e he heq
    obtain ⟨i, hi⟩ := List.getElem?_of_mem he
    obtain ⟨m, b, hled, -⟩ := h.inv.ok.valid i e hi
    change H.led e.term = _ at hled
    rw [heq, hnone] at hled
    cases hled
  refine h.quiet hf hs (fun _ _ _ hk => hk) hinv ?_ (h.created.elect hold)
  refine h.moved.stay hf.toLe rfl le_rfl le_rfl (fun _ => .inr ?_)
    (fun hp => absurd rfl hp)
  show s.hist.led c.node.currentTerm = none
  cases hled : s.hist.led c.node.currentTerm with
  | none => rfl
  | some y =>
      have := h.frame.led hled
      rw [hnone] at this
      cases this

theorem maybeBecomeLeader_spec (h : At D s H F c) (hq : s.kind = .acting)
    (now : Instant) :
    wp (maybeBecomeLeader now) (fun _ c' => Ends D s c') c := by
  simp only [maybeBecomeLeader, wp_bind, wp_node]
  cases hl : c.node.role with
  | follower => exact ⟨H, F, h⟩
  | preCandidate votes => exact ⟨H, F, h⟩
  | leader l => exact ⟨H, F, h⟩
  | candidate votes =>
      simp only [wp_ite, wp_bind, wp_pure, wp_update]
      refine ⟨fun _ => ⟨H, F, h⟩, fun hmaj => ?_⟩
      have hlast := h.inv.body.repr.lastIndex
      have hwin := h.win hl (Nat.le_of_not_lt hmaj) c.node.peerIds now
        (some c.node.config.id)
      have hlead := hwin.leaderInv rfl
      obtain ⟨S', happ, hat⟩ := hwin.append hq
        (e := ⟨c.node.currentTerm, F.length + 1, .noop⟩) rfl rfl rfl
        (fun C hC => by cases hC)
      have happ' : c.node.storage.append
          [⟨c.node.currentTerm, F.length + 1, .noop⟩] = .ok S' := happ
      simp only [hlast, wp_expect happ']
      have hmem := hwin.inv.members.members
      have hnext := hat _ c.node.membersIndex c.node.pending
        c.node.membershipView []
        (hlead.append (extend_frame (hlead.start.choose_spec.1)).toLe rfl
          (keySet_membersOf_append _ (by rw [← hmem]; exact hlead.members)))
        rfl (.inl ⟨rfl, rfl⟩) (fun p hp => .inl hp) (fun m hm => by cases hm)
        (by simp)
      have hsame : membersOf (D.config s.id)
          (F ++ [⟨c.node.currentTerm, F.length + 1, .noop⟩]) =
          c.node.members := by
        rw [membersOf_append_singleton]
        exact hmem.symm
      rw [hsame, List.append_nil] at hnext
      refine wp_mono (maybeAdvanceCommit_spec hnext) fun _ c₁ h₁ => ?_
      obtain ⟨H₁, h₁⟩ := h₁
      exact wp_mono (onHeartbeatTick_spec h₁ hq now)
        fun _ c₂ h₂ => ⟨_, _, h₂⟩

/-- What a campaign asks for names the candidate's log. -/
theorem At.campaign (h : At D s H F c) (hq : s.kind = .acting)
    (os : List (Output M)) (hos : ∀ o ∈ os, ∃ peer, o = .send peer
      (.requestVote (c.node.voteArgs (c.node.currentTerm + 1)))
      (.vote (c.node.currentTerm + 1))) :
    ∃ H', At D s H' F ⟨{ c.node with
      storage := c.node.storage.saveHardState
        ⟨c.node.currentTerm + 1, some s.id⟩
      role := .candidate {s.id}
      leaderId := none }, c.out ++ os⟩ := by
  obtain ⟨H', hf, hs, hsame, hcand, hinv⟩ := h.inv.campaign h.sound
  have hrepr := h.inv.body.repr
  refine ⟨H', h.next hf hs (fun t k m hk => by rwa [hsame.commit] at hk)
    hinv ?_ (h.created.same hsame.tlog).append h.refused ?_⟩
  · exact h.moved.stay hf.toLe hsame.heard (Nat.le_succ _) le_rfl
      (fun hp => by cases hp) (fun hp => absurd rfl hp)
  · intro o ho
    obtain ⟨peer, rfl⟩ := hos o ho
    exact ⟨hq, ⟨rfl, h.id_eq, F, hcand, hrepr.lastIndex,
      hrepr.lastTerm (D := D)⟩, (fun a ha => by cases ha),
      fun a ha => by cases ha⟩

theorem startElection_spec (h : At D s H F c) (hq : s.kind = .acting)
    (now : Instant) :
    wp (startElection now) (fun _ c' => Ends D s c') c := by
  simp only [startElection, wp_bind, wp_node, wp_update, wp_emitAll]
  obtain ⟨H', h'⟩ := h.campaign hq
    (c.node.peerIds.map fun peer => .send peer
      (.requestVote (c.node.voteArgs (c.node.currentTerm + 1)))
      (.vote (c.node.currentTerm + 1)))
    (fun o ho => by
      obtain ⟨peer, -, rfl⟩ := List.mem_map.mp ho
      exact ⟨peer, rfl⟩)
  rw [h.id_eq]
  exact maybeBecomeLeader_spec h' hq now

theorem maybeStartElection_spec (h : At D s H F c) (hq : s.kind = .acting)
    (now : Instant) :
    wp (maybeStartElection now) (fun _ c' => Ends D s c') c := by
  simp only [maybeStartElection, wp_bind, wp_node]
  cases hl : c.node.role with
  | follower => exact ⟨H, F, h⟩
  | leader l => exact ⟨H, F, h⟩
  | candidate votes => exact ⟨H, F, h⟩
  | preCandidate votes =>
      simp only [wp_ite, wp_pure]
      exact ⟨fun _ => startElection_spec h hq now, fun _ => ⟨H, F, h⟩⟩

/-- A pre-campaign binds nobody: neither the node nor the history. -/
theorem At.preCampaign (h : At D s H F c) (votes : Finset NodeId)
    (leaderId : Option NodeId) {os : List (Output M)}
    (hos : ∀ o ∈ os, OutOk D s H F o) :
    At D s H F ⟨{ c.node with
      role := .preCandidate votes
      leaderId := leaderId }, c.out ++ os⟩ := by
  have hx := h.inv
  refine h.still ?_ ?_ hos
  · exact hx.rerole _ _ _ hx.ok.stepDown trivial hx.seq
  · exact h.moved.stay (Le.refl H) rfl le_rfl le_rfl
      (fun hp => by cases hp) (fun hp => absurd rfl hp)

theorem onElectionTimeout_spec (h : At D s H F c) (hq : s.kind = .acting)
    (hc : c.node = s.node) (now : Instant) :
    wp (onElectionTimeout now) (fun _ c' => Ends D s c') c := by
  simp only [onElectionTimeout, wp_bind, wp_node, wp_ite, wp_pure,
    wp_update, wp_emitAll]
  refine ⟨fun _ => ⟨H, F, h⟩, fun _ => ?_⟩
  refine maybeStartElection_spec (h.preCampaign _ none fun o ho => ?_) hq now
  obtain ⟨peer, -, rfl⟩ := List.mem_map.mp ho
  refine ⟨hq, rfl, (fun a ha => by cases ha), fun a ha => ?_⟩
  cases ha
  rw [hc]

/-! ## Proposals -/

theorem length_keys_filter_not_containsKey (m m' : Membership) :
    (m.keys.filter fun id => !m'.containsKey id).length =
      (m.keySet \ m'.keySet).card := by
  rw [BTreeMap.length_keys_filter]
  congr 1
  ext id
  simp [← BTreeMap.containsKey_iff]

theorem validateConfigChange_single {x : Node M} {l : LeaderState}
    {now : Instant} {new : Membership}
    (h : x.validateConfigChange l now new = .ok ()) :
    new.keySet.Nonempty ∧ (x.members.keySet \ new.keySet).card +
      (new.keySet \ x.members.keySet).card = 1 := by
  simp only [Node.validateConfigChange] at h
  split at h
  · cases h
  split at h
  · cases h
  split at h
  · cases h
  split at h
  · cases h
  · next h1 h2 h3 h4 =>
      rw [length_keys_filter_not_containsKey,
        length_keys_filter_not_containsKey] at h4
      refine ⟨?_, by omega⟩
      rwa [BTreeMap.isEmpty_iff, ← ne_eq,
        ← Finset.nonempty_iff_ne_empty] at h3

theorem validateConfigChange_gates {x : Node M} {l : LeaderState}
    {now : Instant} {new : Membership}
    (hg : x.config.testDisableReconfigGates = false)
    (h : x.validateConfigChange l now new = .ok ()) :
    l.termStartIndex ≤ x.commitIndex ∧ x.membersIndex ≤ x.commitIndex := by
  simp only [Node.validateConfigChange, hg, Bool.not_false, true_and] at h
  split at h
  · cases h
  split at h
  · cases h
  · next h1 h2 => exact ⟨Nat.le_of_not_lt h1, Nat.le_of_not_lt h2⟩

theorem At.configOk (h : At D s H F c) {l : LeaderState}
    (hl : c.node.role = .leader l) {now : Instant} {new : Membership}
    (hv : c.node.validateConfigChange l now new = .ok ()) :
    Near ((rules D).cfg F) new.keySet ∧
      ∃ k m, H.commit c.node.currentTerm k m ∧
        ∀ i y, F[i]? = some y → (rules D).config y ≠ none → i < k := by
  have hx := h.inv
  have hlead := h.leaderInv hl
  obtain ⟨b, hb, hstart⟩ := hlead.start
  obtain ⟨h1, h2⟩ := validateConfigChange_gates
    (by rw [hx.body.config]; exact D.gated s.id) hv
  have hnear := (validateConfigChange_single hv).2.le
  rw [hlead.members] at hnear
  obtain ⟨m, hm⟩ := hx.ok.commit_own (by rw [Node.replica, hl]; rfl) b hb
    (show b.length < c.node.commitIndex by omega)
  refine ⟨hnear, c.node.commitIndex, m, hm, fun i y hy hc => ?_⟩
  have hidx := hx.body.repr.indexed i y hy
  have hle := hx.members.index.le y (List.mem_of_getElem? hy)
    (fun hnone => hc (by simp only [rules, hnone]; rfl))
  have hb1 := hx.body.boundary_le
  have hb2 := hx.body.applied_le
  rcases le_max_iff.mp hle with hle | hle <;> omega

/-- What `handle_propose` leaves before it looks at the commit index. -/
theorem appendProposal_spec (h : At D s s.hist s.log c)
    (hq : s.kind = .acting) (hc : c.node = s.node) {l : LeaderState}
    (hl : c.node.role = .leader l) {now : Instant} {cmd : Command V}
    (hv : c.node.validateCommand l now cmd = .ok ()) :
    ∃ S', c.node.storage.append
        [⟨c.node.currentTerm, s.log.length + 1, cmd⟩] = .ok S' ∧
      wp (do
        adoptCommand now (s.log.length + 1) cmd
        update fun n => { n with
          pending := n.pending ++ [⟨c.node.currentTerm, s.log.length + 1⟩] }
        emit (.proposeReply (.ok (c.node.currentTerm, s.log.length + 1))))
        (fun _ c' => Ends D s c')
        ⟨{ c.node with storage := S' }, c.out⟩ := by
  have hlead := h.leaderInv hl
  have hmem := h.inv.members.members
  obtain ⟨b, hb, -⟩ := hlead.start
  obtain ⟨S', happ, hat⟩ := h.append hq hl
    (e := ⟨c.node.currentTerm, s.log.length + 1, cmd⟩) rfl rfl (by
      intro C hC
      cases cmd with
      | configChange new =>
          cases hC
          exact h.configOk hl hv
      | put key value session => cases hC
      | delete key session => cases hC
      | noop => cases hC)
  refine ⟨S', happ, ?_⟩
  have hlead' : ∀ {l' : LeaderState},
      LeaderInv D s.hist s.id s.log c.node.members c.node.currentTerm l' →
      LeaderInv D (s.hist.extend c.node.currentTerm
          ⟨c.node.currentTerm, s.log.length + 1, cmd⟩) s.id
        (s.log ++ [⟨c.node.currentTerm, s.log.length + 1, cmd⟩])
        (membersOf (D.config s.id)
          (s.log ++ [⟨c.node.currentTerm, s.log.length + 1, cmd⟩]))
        c.node.currentTerm l' := fun hl' =>
    hl'.append (extend_frame hb).toLe rfl
      (keySet_membersOf_append _ (by rw [← hmem]; exact hlead.members))
  have hpend : ∀ p ∈ c.node.pending ++
      [(⟨c.node.currentTerm, s.log.length + 1⟩ : PendingProposal)],
      p ∈ c.node.pending ∨ p = ⟨c.node.currentTerm, s.log.length + 1⟩ :=
    fun p hp => (List.mem_append.mp hp).imp id List.mem_singleton.mp
  have hout : ∀ o ∈ [(Output.proposeReply
      (.ok (c.node.currentTerm, s.log.length + 1)) : Output M)],
      OutOk D s (s.hist.extend c.node.currentTerm
        ⟨c.node.currentTerm, s.log.length + 1, cmd⟩)
        (s.log ++ [⟨c.node.currentTerm, s.log.length + 1, cmd⟩]) o := by
    intro o ho
    rw [List.mem_singleton.mp ho]
    refine ⟨⟨b, hb⟩, ?_⟩
    rw [h.tlog_eq hl]
    omega
  -- only a configuration changes more than the log
  have hplain : (LogEntry.mk c.node.currentTerm (s.log.length + 1)
        cmd).configChange? = none →
      Ends D s ⟨{ c.node with
        storage := S'
        pending := c.node.pending ++ [⟨c.node.currentTerm, s.log.length + 1⟩] },
        c.out ++ [.proposeReply
          (.ok (c.node.currentTerm, s.log.length + 1))]⟩ := by
    intro hnone
    have hnext := hat l c.node.membersIndex _ c.node.membershipView _
      (hlead' hlead) rfl (.inl ⟨hnone, rfl⟩) hpend
      (fun m hm => by rw [hnone] at hm; cases hm) hout
    rw [membersOf_append_singleton, hnone, Option.getD_none, ← hmem,
      ← hl] at hnext
    exact ⟨_, _, hnext⟩
  cases cmd with
  | put key value session => exact hplain rfl
  | delete key session => exact hplain rfl
  | noop => exact hplain rfl
  | configChange new =>
      simp only [adoptCommand, adoptMembership, publishMembership, wp_bind,
        wp_update, wp_emit, hl]
      have hnext := hat (l.adopt c.node.config.id c.node.members new
        (s.log.length + 1) now) (s.log.length + 1) _ ⟨new, (l.adopt
          c.node.config.id c.node.members new (s.log.length + 1)
          now).departing.mapValues Prod.snd⟩ _
        (hlead' hlead.adopt) rfl (.inr ⟨Option.some_ne_none _, rfl⟩) hpend
        (fun m hm => by
          cases hm
          refine ⟨⟨l, now, hc ▸ hl, hc ▸ rfl, rfl, hc ▸ hv⟩, ?_⟩
          exact List.mem_singleton.mpr rfl) hout
      rw [membersOf_append_singleton] at hnext
      exact ⟨_, _, hnext⟩

theorem handlePropose_spec (h : At D s s.hist s.log c)
    (hq : s.kind = .acting) (hc : c.node = s.node) (now : Instant)
    (cmd : Command V) :
    wp (handlePropose now cmd) (fun _ c' => Ends D s c') c := by
  have hrefuse : ∀ err, Ends D s
      ⟨c.node, c.out ++ [.proposeReply (.error err)]⟩ := by
    intro err
    refine ⟨_, _, h.emit fun o ho => ?_⟩
    rw [List.mem_singleton.mp ho]
    trivial
  simp only [handlePropose, wp_bind, wp_node]
  cases hl : c.node.role with
  | follower => exact hrefuse _
  | preCandidate votes => exact hrefuse _
  | candidate votes => exact hrefuse _
  | leader l =>
      simp only
      cases hv : c.node.validateCommand l now cmd with
      | error reason => exact hrefuse _
      | ok u =>
          obtain ⟨S', happ, hrest⟩ := appendProposal_spec h hq hc hl hv
          simp only [wp_bind, h.inv.body.repr.lastIndex, wp_expect happ,
            wp_update, wp_emit] at hrest ⊢
          refine wp_mono hrest fun _ c₁ h₁ => ?_
          obtain ⟨H₁, F₁, h₁⟩ := h₁
          refine wp_mono (maybeAdvanceCommit_spec h₁) fun _ c₂ h₂ => ?_
          obtain ⟨H₂, h₂⟩ := h₂
          simp only [wp_node]
          exact wp_mono (sendAppends_spec _ h₂ hq)
            fun _ c₃ h₃ => ⟨_, _, h₃.1⟩

/-! ## Reads -/

/-- A read registered: the node tags its messages with a new number from now
on, so an answer to it can only be to a message sent later. -/
theorem At.register (h : At D s s.hist F c) (hc : c.node = s.node)
    {l : LeaderState} (hl : c.node.role = .leader l) {r : PendingRead}
    (hr : r = ⟨l.heartbeatSeq + 1,
      max c.node.commitIndex l.termStartIndex⟩) :
    ∃ H', At D s H' F ⟨{ c.node with
      role := .leader { l with
        heartbeatSeq := l.heartbeatSeq + 1
        pendingReads := l.pendingReads ++ [r] } },
      c.out ++ [.readReply (.ok (c.node.currentTerm, r))]⟩ := by
  have hx := h.inv
  have hlead := h.leaderInv hl
  have hleads : s.node.isLeader = true := by
    rw [← hc, Node.isLeader, hl]
  set t := c.node.currentTerm with ht
  have hf : Frame s.id s.hist (s.hist.setSeq s.id t (l.heartbeatSeq + 1)) :=
    setSeq_frame
  have hseq : (s.hist.setSeq s.id t (l.heartbeatSeq + 1)).seq s.id t =
      l.heartbeatSeq + 1 := by
    simp only [setSeq, and_self, if_true, hlead.seq]
    omega
  refine ⟨_, h.next hf ⟨h.sound.wf.setSeq _ _ _, h.sound.indexed⟩
    (fun _ _ _ hk => hk) ?_ ?_ (h.created.same rfl).append h.refused ?_⟩
  · have hok := hx.ok.setSeq t (l.heartbeatSeq + 1)
    rw [Node.replica, hl] at hok
    refine hx.rerole _ _ _ hok
      ⟨hlead.members, hlead.start, hlead.matched, hlead.next, hseq,
        hlead.acked, fun r' hr' => ?_⟩ fun u hu => ?_
    · rcases List.mem_append.mp hr' with hr' | hr'
      · obtain ⟨h1, h2⟩ := hlead.reads r' hr'
        exact ⟨h1, h2.trans (Nat.le_succ _)⟩
      · rw [List.mem_singleton.mp hr', hr]
        exact ⟨le_max_right _ _, le_rfl⟩
    · obtain ⟨b, hb, -⟩ := hlead.start
      have hne : u ≠ t := by
        rintro rfl
        exact hu b hb
      simp only [setSeq, hne, and_false, if_false]
      exact hx.seq u hu
  · exact h.moved.stay hf.toLe rfl le_rfl le_rfl
      (fun _ => .inl ⟨by rw [hl]; rfl, rfl⟩)
      (fun _ => .inr ⟨hleads, by rw [← hc]; rfl⟩)
  · intro o ho
    rw [List.mem_singleton.mp ho]
    refine ⟨hleads, by rw [← hc], ?_⟩
    rw [hlead.seq, hr]
    exact Nat.lt_succ_self _

theorem handleRead_spec (h : At D s s.hist F c) (hq : s.kind = .acting)
    (hc : c.node = s.node) :
    wp handleRead (fun _ c' => Ends D s c') c := by
  have hrefuse : ∀ err, Ends D s
      ⟨c.node, c.out ++ [.readReply (.error err)]⟩ := by
    intro err
    refine ⟨_, _, h.emit fun o ho => ?_⟩
    rw [List.mem_singleton.mp ho]
    trivial
  simp only [handleRead, wp_bind, wp_node]
  cases hl : c.node.role with
  | follower => exact hrefuse _
  | preCandidate votes => exact hrefuse _
  | candidate votes => exact hrefuse _
  | leader l =>
      obtain ⟨H', h'⟩ := h.register hc hl rfl
      simp only [wp_bind, wp_update, wp_emit]
      refine wp_mono (sendAppends_spec _ h' hq) fun _ c₁ h₁ => ?_
      exact wp_mono (resolveReads_spec h₁.1) fun _ c₂ h₂ => ⟨_, _, h₂⟩

/-! ## Replies -/

theorem handlePreVoteReply_spec (h : At D s H F c)
    (hq : s.kind = .acting) (now : Instant) (sentTerm : Nat)
    (peer : NodeId) (reply : RequestVoteReply) :
    wp (handlePreVoteReply now sentTerm peer reply)
      (fun _ c' => Ends D s c') c := by
  simp only [handlePreVoteReply, wp_bind, wp_node, wp_ite, wp_pure]
  refine ⟨fun hgt => ?_, fun _ => ⟨fun _ => ⟨H, F, h⟩, fun _ => ?_⟩⟩
  · exact wp_mono (becomeFollower_spec h hgt.le)
      fun _ c₁ h₁ => ⟨H, F, h₁.1⟩
  · cases c.node.role with
    | follower => exact ⟨H, F, h⟩
    | leader l => exact ⟨H, F, h⟩
    | candidate votes => exact ⟨H, F, h⟩
    | preCandidate votes =>
        simp only [wp_bind, wp_update]
        have hpre := h.preCampaign (insert peer votes) c.node.leaderId
          (List.forall_mem_nil _)
        rw [List.append_nil] at hpre
        exact maybeStartElection_spec hpre hq now

theorem At.vote (h : At D s H F c) {votes : Finset NodeId}
    (hl : c.node.role = .candidate votes) {peer : NodeId}
    (hv : ∃ K, H.vote peer c.node.currentTerm = some (s.id, K)) :
    At D s H F ⟨{ c.node with
      role := .candidate (insert peer votes) }, c.out⟩ := by
  have hx := h.inv
  have hrole : ∀ v ∈ votes,
      ∃ K, H.vote v c.node.currentTerm = some (s.id, K) := by
    have := hx.role
    rwa [hl] at this
  refine h.quiet (Frame.refl _ _) h.sound (fun _ _ _ hk => hk) ?_ ?_
    h.created
  · have hok := hx.ok
    rw [Node.replica, hl] at hok
    refine hx.rerole _ _ _ hok (fun v hv' => ?_) hx.seq
    rcases Finset.mem_insert.mp hv' with rfl | hv'
    · exact hv
    · exact hrole v hv'
  · exact h.moved.stay (Le.refl H) rfl le_rfl le_rfl
      (fun hp => by cases hp) (fun hp => absurd rfl hp)

theorem handleVoteReply_spec (h : At D s H F c) (hq : s.kind = .acting)
    (now : Instant) {sentTerm : Nat} {peer : NodeId} {reply : RequestVoteReply}
    (hv : reply.voteGranted = true →
      ∃ K, H.vote peer sentTerm = some (s.id, K)) :
    wp (handleVoteReply now sentTerm peer reply)
      (fun _ c' => Ends D s c') c := by
  simp only [handleVoteReply, wp_bind, wp_node, wp_ite, wp_pure]
  refine ⟨fun hgt => ?_, fun _ => ⟨fun _ => ⟨H, F, h⟩, fun hok => ?_⟩⟩
  · exact wp_mono (becomeFollower_spec h hgt.le)
      fun _ c₁ h₁ => ⟨H, F, h₁.1⟩
  · cases hl : c.node.role with
    | follower => exact ⟨H, F, h⟩
    | leader l => exact ⟨H, F, h⟩
    | preCandidate votes => exact ⟨H, F, h⟩
    | candidate votes =>
        simp only [wp_bind, wp_update]
        simp only [ne_eq, Bool.not_eq_true', not_or, not_not,
          Bool.not_eq_false] at hok
        rw [hok.1] at hv
        exact maybeBecomeLeader_spec (h.vote hl (hv hok.2)) hq now

namespace LeaderInv

variable {n peer : NodeId} {members : Membership} {t k : Nat}
  {l : LeaderState}

theorem answered {q : Nat} (h : LeaderInv D H n F members t l)
    (hq : H.heard n t peer q) (now : Instant) :
    LeaderInv D H n F members t (l.answered peer q now) :=
  { h with
    acked := fun p q' hp => by
      simp only [LeaderState.answered, Function.update_apply] at hp
      split at hp
      · next heq =>
          cases hp
          rw [heq]
          cases ha : l.ackedSeq peer with
          | none => simpa using hq
          | some q₀ =>
              rcases max_choice q₀ q with hm | hm
              · rw [Option.getD_some, hm]
                exact h.acked peer q₀ ha
              · rw [Option.getD_some, hm]
                exact hq
      · exact h.acked p q' hp }

theorem depart (h : LeaderInv D H n F members t l) :
    LeaderInv D H n F members t (l.depart peer) :=
  ⟨h.members, h.start, h.matched, h.next, h.seq, h.acked, h.reads⟩

theorem confirm (h : LeaderInv D H n F members t l)
    (hk : H.ack peer t k) (hF : k ≤ F.length) :
    LeaderInv D H n F members t (l.confirm peer k) := by
  rw [LeaderState.confirm]
  split
  · refine { h with matched := fun p j hp hj => ?_, next := fun p j hp => ?_ }
    · simp only [Function.update_apply] at hp
      split at hp
      · next heq =>
          cases hp
          rw [heq]
          exact hk
      · exact h.matched p j hp hj
    · simp only [Function.update_apply] at hp
      split at hp
      · cases hp
        omega
      · exact h.next p j hp
  · refine { h with matched := fun p j hp hj => ?_ }
    simp only [Function.update_apply] at hp
    split at hp
    · next heq =>
        cases hp
        rw [heq]
        cases hm : l.matchIndex peer with
        | none => simp [hm] at hj
        | some i => exact h.matched peer i hm (by simpa [hm] using hj)
    · exact h.matched p j hp hj

theorem backtrack {prev : Nat} (h : LeaderInv D H n F members t l) :
    LeaderInv D H n F members t (l.backtrack peer prev) := by
  refine { h with next := fun p j hp => ?_ }
  simp only [LeaderState.backtrack, Function.update_apply] at hp
  split at hp
  · cases hp
    have hrange : 1 ≤ (l.nextIndex peer).getD 1 ∧
        (l.nextIndex peer).getD 1 ≤ F.length + 1 := by
      cases hm : l.nextIndex peer with
      | none => simp
      | some i => exact h.next peer i hm
    omega
  · exact h.next p j hp

theorem installed (h : LeaderInv D H n F members t l)
    (hk : H.ack peer t k) (hF : k ≤ F.length) (now : Instant) :
    LeaderInv D H n F members t (l.installed peer k now) := by
  refine { h with matched := fun p j hp hj => ?_, next := fun p j hp => ?_ }
  · simp only [LeaderState.installed, Function.update_apply] at hp
    split at hp
    · next heq =>
        cases hp
        rw [heq]
        rcases max_choice ((l.matchIndex peer).getD 0) k with hm | hm
        · rw [hm] at hj ⊢
          cases ha : l.matchIndex peer with
          | none => simp [ha] at hj
          | some i => exact h.matched peer i ha (by simpa [ha] using hj)
        · rw [hm]
          exact hk
    · exact h.matched p j hp hj
  · simp only [LeaderState.installed, Function.update_apply] at hp
    split at hp
    · cases hp
      have hrange : (l.nextIndex peer).getD 1 ≤ F.length + 1 := by
        cases hm : l.nextIndex peer with
        | none => simp
        | some i => exact (h.next peer i hm).2
      omega
    · exact h.next p j hp

end LeaderInv

theorem At.rebook (h : At D s H F c) {l l' : LeaderState}
    (hl : c.node.role = .leader l)
    (hinv : LeaderInv D H s.id F c.node.members c.node.currentTerm l')
    (hreads : l'.pendingReads = l.pendingReads) (view : MembershipView) :
    At D s H F ⟨{ c.node with
      role := .leader l'
      membershipView := view }, c.out⟩ := by
  have hnext := h.bookkeeping hl hinv (fun hne => by rwa [← hreads])
    (List.forall_mem_nil _)
  rw [List.append_nil] at hnext
  exact hnext.cosmetic c.node.leaderId view c.node.lastLeaderContact

theorem LeaderState.confirm_pendingReads (l : LeaderState) (peer : NodeId)
    (k : Nat) : (l.confirm peer k).pendingReads = l.pendingReads := by
  rw [confirm]
  split <;> rfl

/-- The tail both replication replies share: look at the commit index, and
send what is missing. -/
theorem advanceAndSend_spec (h : At D s H F c) (hq : s.kind = .acting)
    (peer : NodeId) {P : Prop} {Q : Unit → Ctx M → Prop}
    (hQ : ∀ H c', At D s H F c' → Q () c') :
    wp maybeAdvanceCommit (fun _ c' =>
      (P → wp (sendAppend peer) Q c') ∧ (¬ P → Q () c')) c := by
  refine wp_mono (maybeAdvanceCommit_spec h) fun _ c₁ h₁ => ?_
  obtain ⟨H₁, h₁⟩ := h₁
  refine ⟨fun _ => ?_, fun _ => hQ H₁ c₁ h₁⟩
  exact wp_mono (sendAppend_spec h₁ hq peer) fun _ c₂ h₂ => hQ H₁ c₂ h₂.1

theorem handleAppendReply_spec (h : At D s H F c)
    (hq : s.kind = .acting) (now : Instant)
    {sentTerm prev len seq : Nat} {peer : NodeId}
    {reply : AppendEntriesReply} (ht : sentTerm ≤ reply.term)
    (hs : reply.success = true → H.ack peer sentTerm (prev + len))
    (hh : reply.term = sentTerm → H.heard s.id sentTerm peer seq) :
    wp (handleAppendReply now sentTerm peer prev len seq reply)
      (fun _ c' => Ends D s c') c := by
  simp only [handleAppendReply, wp_bind, wp_node, wp_ite, wp_pure]
  refine ⟨fun hgt => ?_, fun hle => ⟨fun _ => ⟨H, F, h⟩, fun heq => ?_⟩⟩
  · exact wp_mono (becomeFollower_spec h hgt.le)
      fun _ c₁ h₁ => ⟨H, F, h₁.1⟩
  rw [not_not] at heq
  subst heq
  cases hl : c.node.role with
  | follower => exact ⟨H, F, h⟩
  | preCandidate votes => exact ⟨H, F, h⟩
  | candidate votes => exact ⟨H, F, h⟩
  | leader l =>
      have hans := (h.leaderInv hl).answered (hh (by omega)) now
      have hres : ∀ H c', At D s H F c' →
          wp resolveReads (fun _ c'' => Ends D s c'') c' := fun _ _ h' =>
        wp_mono (resolveReads_spec h') fun _ _ h'' => ⟨_, _, h''⟩
      simp only [wp_ite, wp_bind, wp_update, publishMembership]
      refine ⟨fun hsucc => ?_, fun _ => ?_⟩
      · have hbound := (h.sound.wf.ack_led (hs hsucc)).1
        rw [h.tlog_eq hl] at hbound
        have hconf := hans.confirm (hs hsucc) hbound
        have hreads := LeaderState.confirm_pendingReads
          (l.answered peer seq now) peer (prev + len)
        refine ⟨fun hd => ?_, fun hd => ?_⟩
        · rw [if_pos hd]
          exact advanceAndSend_spec (h.rebook hl hconf.depart hreads _) hq peer
            hres
        · rw [if_neg hd]
          exact advanceAndSend_spec (h.rebook hl hconf hreads _) hq peer hres
      · refine wp_mono (sendAppend_spec
          (h.rebook hl hans.backtrack rfl _) hq peer) fun _ c₁ h₁ => ?_
        exact hres H c₁ h₁.1

theorem handleInstallSnapshotReply_spec (h : At D s H F c)
    (hq : s.kind = .acting) (now : Instant) {sentTerm i : Nat}
    {peer : NodeId} {reply : InstallSnapshotReply} (ht : sentTerm ≤ reply.term)
    (ha : reply.term = sentTerm → H.ack peer sentTerm i) :
    wp (handleInstallSnapshotReply now sentTerm peer i reply)
      (fun _ c' => Ends D s c') c := by
  simp only [handleInstallSnapshotReply, wp_bind, wp_node, wp_ite, wp_pure]
  refine ⟨fun hgt => ?_, fun hle => ⟨fun _ => ⟨H, F, h⟩, fun heq => ?_⟩⟩
  · exact wp_mono (becomeFollower_spec h hgt.le)
      fun _ c₁ h₁ => ⟨H, F, h₁.1⟩
  rw [not_not] at heq
  subst heq
  cases hl : c.node.role with
  | follower => exact ⟨H, F, h⟩
  | preCandidate votes => exact ⟨H, F, h⟩
  | candidate votes => exact ⟨H, F, h⟩
  | leader l =>
      have hack := ha (by omega)
      have hbound := (h.sound.wf.ack_led hack).1
      rw [h.tlog_eq hl] at hbound
      have hinst := (h.leaderInv hl).installed hack hbound now
      simp only [wp_ite, wp_bind, wp_update, wp_pure, publishMembership]
      refine ⟨fun hd => ?_, fun hd => ?_⟩
      · rw [if_pos hd]
        exact advanceAndSend_spec (h.rebook hl hinst.depart rfl _) hq peer
          fun _ _ h' => ⟨_, _, h'⟩
      · rw [if_neg hd]
        exact advanceAndSend_spec (h.rebook hl hinst rfl _) hq peer
          fun _ _ h' => ⟨_, _, h'⟩

end RustKV
