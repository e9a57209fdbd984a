import RustKV.Proofs.Invariant

/-!
# The moves of a node

One lemma for each change a handler makes to its node, with the history the
change leaves behind: following a term, granting a vote, campaigning, winning,
appending as a leader, taking over a leader's log, installing a snapshot,
moving the commit index. Each rests on the step of the same name in the
consensus library; what is added here is the storage, the applied state, the
memberships and the bookkeeping.

`At.next` is how a handler proof uses them: a good state, a move and the
outputs that go with it make a good state.
-/

namespace RustKV

open Rust Consensus History

variable {V : Type} {M : StateMachine V} {D : Deployment}
  {H H' : Hist V} {n : NodeId} {F F' : List (LogEntry V)} {x x' : Node M}
  {s : Start M} {c : Ctx M}

/-! ## Carrying the contract along -/

theorem Sound.same (h : Sound D H) (hW : H'.Wf (rules D))
    (hs : SameLeaders H H') : Sound D H' where
  wf := hW
  indexed t := by rw [hs.tlog]; exact h.indexed t

theorem Moved.next (h : Moved s H F x) (hle : Le H H')
    (ht : x.currentTerm ≤ x'.currentTerm)
    (ha : x.lastApplied ≤ x'.lastApplied)
    (hl : x'.role.part = .leader →
      (x.role.part = .leader ∧ x.currentTerm = x'.currentTerm) ∨
        s.hist.led x'.currentTerm = none)
    (hr : x'.role.pendingReads ≠ [] →
      (x.role.pendingReads ≠ [] ∧ x.currentTerm = x'.currentTerm) ∨
        (s.node.isLeader = true ∧ s.node.currentTerm = x'.currentTerm))
    (hh : ∀ m t v q, H'.heard m t v q →
      H.heard m t v q ∨ (v = s.id ∧ s.node.currentTerm ≤ t))
    (hlog : ∀ e ∈ F', e ∈ F ∨ s.Source H' e)
    (hkept : ∀ P, P <+: F → s.Shared P x'.currentTerm → P <+: F') :
    Moved s H' F' x' where
  term_le := h.term_le.trans ht
  applied_le := h.applied_le.trans ha
  leader hp := by
    rcases hl hp with ⟨hp', heq⟩ | hnone
    · rw [← heq]
      exact h.leader hp'
    · exact .inr hnone
  reads hp := by
    rcases hr hp with ⟨hp', heq⟩ | hs
    · rw [← heq]
      exact h.reads hp'
    · exact hs
  heard hq := by
    rcases hh _ _ _ _ hq with hq | hq
    · exact h.heard hq
    · exact .inr hq
  log e he := by
    rcases hlog e he with he | he
    · exact (h.log e he).mono hle
    · exact he
  kept P hp hP := hkept P (h.kept P hp fun u y hu hut =>
    hP u y hu (hut.trans ht)) hP

/-- A move that leaves the log alone and answers nobody. -/
theorem Moved.stay (h : Moved s H F x) (hle : Le H H')
    (hheard : H'.heard = H.heard)
    (ht : x.currentTerm ≤ x'.currentTerm)
    (ha : x.lastApplied ≤ x'.lastApplied)
    (hl : x'.role.part = .leader →
      (x.role.part = .leader ∧ x.currentTerm = x'.currentTerm) ∨
        s.hist.led x'.currentTerm = none)
    (hr : x'.role.pendingReads ≠ [] →
      (x.role.pendingReads ≠ [] ∧ x.currentTerm = x'.currentTerm) ∨
        (s.node.isLeader = true ∧ s.node.currentTerm = x'.currentTerm)) :
    Moved s H' F x' :=
  h.next hle ht ha hl hr (fun m t v q hq => .inl (by rwa [hheard] at hq))
    (fun _ he => .inl he) fun _ hp _ => hp

/-- A move that commits nothing. -/
theorem At.next {os : List (Output M)} (h : At D s H F c)
    (hf : Frame s.id H H') (hs : Sound D H')
    (hc : ∀ t k m, H'.commit t k m → H.commit t k m)
    (hinv : NodeInv D H' s.id F' x') (hm : Moved s H' F' x')
    (hcr : s.Creates H' (c.out ++ os))
    (hold : ∀ t i, Output.committed t i false ∈ c.out →
      termAt F' i ≠ some t)
    (hout : ∀ o ∈ os, OutOk D s H' F' o) :
    At D s H' F' ⟨x', c.out ++ os⟩ where
  frame := h.frame.trans hf
  sound := hs
  inv := hinv
  moved := hm
  created := hcr
  out o ho := by
    rcases List.mem_append.mp ho with ho | ho
    · exact ((h.out o ho).mono hf.toLe).relog
        fun t i heq => hold t i (heq ▸ ho)
    · exact hout o ho
  fresh e he := by
    rcases h.fresh e (he.of_le h.sound hf.toLe hc) with he | he
    · exact .inl he
    · exact .inr (List.mem_append_left _ he)

/-- Refused proposals are not in the log. -/
theorem At.refused (h : At D s H F c) (t i : Nat)
    (ho : Output.committed t i false ∈ c.out) : termAt F i ≠ some t :=
  (h.out _ ho).2.2

theorem At.quiet (h : At D s H F c) (hf : Frame s.id H H')
    (hs : Sound D H') (hc : ∀ t k m, H'.commit t k m → H.commit t k m)
    (hinv : NodeInv D H' s.id F x') (hm : Moved s H' F x')
    (hcr : s.Creates H' c.out) : At D s H' F ⟨x', c.out⟩ := by
  have := h.next hf hs hc hinv hm hcr.append h.refused (List.forall_mem_nil _)
  rwa [List.append_nil] at this

theorem At.still {os : List (Output M)} (h : At D s H F c)
    (hinv : NodeInv D H s.id F x') (hm : Moved s H F x')
    (hout : ∀ o ∈ os, OutOk D s H F o) : At D s H F ⟨x', c.out ++ os⟩ :=
  h.next (Frame.refl _ _) h.sound (fun _ _ _ hk => hk) hinv hm
    h.created.append h.refused hout

theorem At.emit {os : List (Output M)} (h : At D s H F c)
    (hout : ∀ o ∈ os, OutOk D s H F o) :
    At D s H F ⟨c.node, c.out ++ os⟩ :=
  h.still h.inv h.moved hout

/-! ## Fields the log does not depend on -/

/-- A node that votes, changes its role, or learns something that binds
nobody: its log, what is applied of it and its proposals stay. -/
theorem NodeInv.rerole (h : NodeInv D H n F x) {hs : HardState} {role : Role}
    (leaderId : Option NodeId) (view : MembershipView)
    (contact : Option Instant)
    (hok : Replica.Ok (rules D) H' n
      ⟨hs.currentTerm, hs.votedFor, F, x.commitIndex, role.part⟩)
    (hrole : RoleInv D H' n F x.members hs.currentTerm role)
    (hseq : ∀ t, (∀ b, H'.led t ≠ some (n, b)) → H'.seq n t = 0) :
    NodeInv D H' n F { x with
      storage := x.storage.saveHardState hs
      role := role
      leaderId := leaderId
      membershipView := view
      lastLeaderContact := contact } where
  body := ⟨h.body.config, h.body.repr.saveHardState hs, h.body.boundary_le,
    h.body.applied_le, h.body.commit_le, h.body.state, h.body.staged⟩
  applied := h.applied
  members := ⟨h.members.members, h.members.index⟩
  waiting := h.waiting
  uncommitted := h.uncommitted
  ok := hok
  role := hrole
  seq := hseq

theorem NodeInv.cosmetic (h : NodeInv D H n F x) (leaderId : Option NodeId)
    (view : MembershipView) (contact : Option Instant) :
    NodeInv D H n F { x with
      leaderId := leaderId
      membershipView := view
      lastLeaderContact := contact } :=
  h.rerole _ _ _ h.ok h.role h.seq

theorem Moved.cosmetic (h : Moved s H F x) (leaderId : Option NodeId)
    (view : MembershipView) (contact : Option Instant) :
    Moved s H F { x with
      leaderId := leaderId
      membershipView := view
      lastLeaderContact := contact } :=
  ⟨h.term_le, h.applied_le, h.leader, h.reads, h.heard, h.log, h.kept⟩

theorem At.cosmetic (h : At D s H F c) (leaderId : Option NodeId)
    (view : MembershipView) (contact : Option Instant) :
    At D s H F ⟨{ c.node with
      leaderId := leaderId
      membershipView := view
      lastLeaderContact := contact }, c.out⟩ :=
  h.quiet (Frame.refl _ _) h.sound (fun _ _ _ hk => hk)
    (h.inv.cosmetic leaderId view contact)
    (h.moved.cosmetic leaderId view contact) h.created

/-! ## Terms and votes -/

theorem NodeInv.follow (h : NodeInv D H n F x) {t : Nat}
    {storage : Storage V M.Payload} {l : Option NodeId}
    {view : MembershipView}
    (hst : (storage = x.storage ∧ t = x.currentTerm) ∨
      (storage = x.storage.saveHardState ⟨t, none⟩ ∧ x.currentTerm < t)) :
    NodeInv D H n F { x with
      storage := storage
      role := .follower
      leaderId := l
      membershipView := view } := by
  rcases hst with ⟨rfl, -⟩ | ⟨rfl, ht⟩
  · exact h.rerole _ _ _ h.ok.stepDown trivial h.seq
  · exact h.rerole _ _ _ (h.ok.adoptTerm ht) trivial h.seq

/-- Voting for `candidate`, who campaigned with the log `L`. -/
theorem NodeInv.grant (h : NodeInv D H n F x) (hs : Sound D H)
    {candidate : NodeId} {L : List (LogEntry V)}
    (hc : H.cand candidate x.currentTerm = some L)
    (hup : (rules D).UpToDate L F)
    (hv : x.storage.hardState.votedFor = none ∨
      x.storage.hardState.votedFor = some candidate) :
    ∃ H', Frame n H H' ∧ Sound D H' ∧ SameLeaders H H' ∧
      (∃ K, H'.vote n x.currentTerm = some (candidate, K)) ∧
      NodeInv D H' n F { x with
        storage := x.storage.saveHardState
          ⟨x.currentTerm, some candidate⟩ } := by
  obtain ⟨H', hf, hW, hsame, hvote, hok⟩ := h.ok.grant hs.wf hc hup hv
  refine ⟨H', hf, hs.same hW hsame, hsame, hvote,
    h.rerole _ _ _ hok (h.role.mono hf.toLe (by rw [hsame.seq])) ?_⟩
  rw [hsame.seq, hsame.led]
  exact h.seq

theorem NodeInv.campaign (h : NodeInv D H n F x) (hs : Sound D H) :
    ∃ H', Frame n H H' ∧ Sound D H' ∧ SameLeaders H H' ∧
      H'.cand n (x.currentTerm + 1) = some F ∧
      NodeInv D H' n F { x with
        storage := x.storage.saveHardState ⟨x.currentTerm + 1, some n⟩
        role := .candidate {n}
        leaderId := none } := by
  obtain ⟨H', hf, hW, hsame, hvote, hok⟩ := h.ok.campaign hs.wf
  refine ⟨H', hf, hs.same hW hsame, hsame, (hok.candidate rfl).1,
    h.rerole _ _ _ hok (fun v hv => ?_) ?_⟩
  · rw [Finset.mem_singleton.mp hv]
    exact ⟨F, hvote⟩
  · rw [hsame.seq, hsame.led]
    exact h.seq

theorem NodeInv.win (h : NodeInv D H n F x) (hs : Sound D H)
    {votes : Finset NodeId} (hl : x.role = .candidate votes)
    (hmaj : x.majority ≤ x.countMemberVotes votes) (peers : List NodeId)
    (now : Instant) (leaderId : Option NodeId) :
    H.led x.currentTerm = none ∧
      Sound D (H.elect x.currentTerm n F) ∧
      NodeInv D (H.elect x.currentTerm n F) n F { x with
        role := .leader (.fresh peers (F.length + 1) now)
        leaderId := leaderId } := by
  have hrole : ∀ v ∈ votes, ∃ K, H.vote v x.currentTerm = some (n, K) := by
    have := h.role
    rwa [hl] at this
  set Q := votes.filter fun id => x.members.containsKey id with hQ
  have hQcard : x.members.keySet.card / 2 + 1 ≤ Q.card := by
    rw [BTreeMap.card_keySet]
    exact hmaj
  have hQsub : Q ⊆ x.members.keySet := by
    intro v hv
    rw [hQ, Finset.mem_filter, BTreeMap.containsKey_iff] at hv
    exact hv.2
  -- an empty membership has no majority, so the configuration is the log's
  have hkeys : x.members.keySet = (rules D).cfg F := by
    rcases membersOf_keySet D n F with hk | hk
    · rw [h.members.members, hk]
    · rw [← h.members.members] at hk
      rw [hk] at hQsub hQcard
      have := Finset.card_le_card hQsub
      simp only [Finset.card_empty] at this hQcard
      omega
  rw [hkeys] at hQsub hQcard
  obtain ⟨hnone, hW, hok⟩ := h.ok.win hs.wf (by rw [Node.replica, hl]; rfl)
    (Q := Q) ⟨hQsub, hQcard⟩
    (fun v hv => hrole v (Finset.mem_filter.mp hv).1)
  have hseq : H.seq n x.currentTerm = 0 :=
    h.seq _ fun b hb => by
      have hnone' : H.led x.currentTerm = none := hnone
      rw [hnone'] at hb
      cases hb
  refine ⟨hnone, ⟨hW, fun t => ?_⟩, ?_⟩
  · simp only [elect]
    split
    · exact h.body.repr.indexed
    · exact hs.indexed t
  · refine h.rerole _ _ _ hok ?_ fun t ht => h.seq t fun b hb => ht b
      ((elect_frame (n := n) hs.wf hnone).toLe.led hb)
    exact
      { members := hkeys
        start := ⟨F, if_pos rfl, rfl⟩
        matched := fun p k hp hk => by
          simp only [LeaderState.fresh] at hp
          split at hp
          · cases hp
            exact absurd hk (lt_irrefl 0)
          · cases hp
        next := fun p k hp => by
          simp only [LeaderState.fresh] at hp
          split at hp
          · cases hp
            omega
          · cases hp
        seq := hseq
        acked := fun p q hp => by cases hp
        reads := fun r hr => by cases hr }

/-! ## Appending as a leader -/

theorem Sound.extend (hs : Sound D H) {t : Nat} {e : LogEntry V}
    (hW : (H.extend t e).Wf (rules D))
    (hi : e.index = (H.tlog t).length + 1) : Sound D (H.extend t e) where
  wf := hW
  indexed u := by
    simp only [History.extend]
    split
    · exact (hs.indexed t).append_singleton hi
    · exact hs.indexed u

theorem membersOf_append_singleton (config : RaftConfig) (e : LogEntry V) :
    membersOf config (F ++ [e]) =
      e.configChange?.getD (membersOf config F) := by
  rw [membersOf, lastConfig_append, lastConfig_singleton]
  cases e.configChange? <;> rfl

/-- A leader appends an entry of its term and puts what it carries in
effect; a proposal for it may start waiting. -/
theorem NodeInv.append (h : NodeInv D H n F x) (hs : Sound D H)
    {l : LeaderState} (hl : x.role = .leader l) {e : LogEntry V}
    (ht : e.term = x.currentTerm) (hi : e.index = F.length + 1)
    (hcfg : ∀ C, (rules D).config e = some C →
      Near ((rules D).cfg F) C ∧ ∃ k m, H.commit x.currentTerm k m ∧
        ∀ i y, F[i]? = some y → (rules D).config y ≠ none → i < k) :
    Frame n H (H.extend x.currentTerm e) ∧
      Sound D (H.extend x.currentTerm e) ∧
      ∃ S', x.storage.append [e] = .ok S' ∧
        S'.hardState = x.storage.hardState ∧
        ∀ l' members' index' pending' view,
          LeaderInv D (H.extend x.currentTerm e) n (F ++ [e]) members'
            x.currentTerm l' →
          members' = membersOf (D.config n) (F ++ [e]) →
          (e.configChange? = none ∧ index' = x.membersIndex ∨
            e.configChange? ≠ none ∧ index' = e.index) →
          (∀ p ∈ pending', p ∈ x.pending ∨ p = ⟨e.term, e.index⟩) →
          NodeInv D (H.extend x.currentTerm e) n (F ++ [e]) { x with
            storage := S'
            role := .leader l'
            members := members'
            membersIndex := index'
            membershipView := view
            pending := pending' } := by
  have hpart : (x.replica F).part = .leader := by rw [Node.replica, hl]; rfl
  obtain ⟨hf, hW, hok⟩ := h.ok.append hs.wf hpart ht hcfg
  obtain ⟨b, -, htl⟩ := h.ok.leader hpart
  have htl' : H.tlog x.currentTerm = F := htl
  have hidx := h.body.repr.indexed.append_singleton hi
  obtain ⟨S', happ, hrepr, hhs, hsnap⟩ := h.body.repr.append hidx
  have hbound := Storage.snapshotIndex_congr hsnap
  have hpre : F <+: F ++ [e] := List.prefix_append _ _
  refine ⟨hf, hs.extend hW (by rw [htl', hi]), S', happ, hhs, ?_⟩
  intro l' members' index' pending' view hlead hmem hindex hpend
  have hcommit := h.body.commit_le
  have happlied := h.body.applied_le
  have htake : ∀ k, k ≤ F.length → (F ++ [e]).take k = F.take k :=
    fun k hk => List.take_append_of_le_length hk
  refine
    { body := ⟨h.body.config, hrepr, by rw [hbound]; exact h.body.boundary_le,
        h.body.applied_le, by simp only [List.length_append]; omega,
        by rw [htake _ (by simp only; omega)]; exact h.body.state, ?_⟩
      applied := h.applied
      members := ⟨hmem, ?_⟩
      waiting := ?_
      uncommitted := ?_
      ok := ?_
      role := ?_
      seq := ?_ }
  · intro st hst
    obtain ⟨⟨h1, h2, h3⟩, hle⟩ := h.body.staged st hst
    refine ⟨⟨h1, ?_, ?_⟩, hle⟩ <;> rw [htake _ (by omega)] <;> assumption
  · show Located (F ++ [e]) index' S'.snapshotIndex
    rw [hbound]
    rcases hindex with ⟨hnone, rfl⟩ | ⟨hcfg, rfl⟩
    · exact h.members.index.append_none (List.forall_mem_singleton.mpr hnone)
    · exact .append_self h.body.repr.indexed hi hcfg
  · intro p hp
    rw [hbound]
    rcases hpend p hp with hp | rfl
    · obtain ⟨h1, h2⟩ := h.waiting p hp
      exact ⟨h1, (termAt_isPrefix hpre (le_length_of_termAt h2)).trans h2⟩
    · have := h.body.boundary_le
      refine ⟨by simp only; omega, ?_⟩
      simp only [hi, termAt_succ, List.getElem?_concat_length]
      rfl
  · have hok' : Replica.Ok (rules D) (H.extend x.currentTerm e) n
        ⟨x.currentTerm, x.storage.hardState.votedFor, F ++ [e],
          x.commitIndex, .leader⟩ := by
      simpa only [Node.replica, hl, Role.part] using hok
    simp only [Node.replica, Node.currentTerm, hhs, Role.part]
    exact hok'
  · simp only [Node.currentTerm, hhs]
    exact hlead
  · exact h.seq
  · intro p hp
    rcases hpend p hp with hp | rfl
    · exact h.uncommitted p hp
    · simp only
      omega

/-! ## Taking over a leader's log -/

/-- Captures at or below a part two logs share are captures of both. -/
theorem Captured.of_take_eq {st : StagedSnapshot M.Payload} {k : Nat}
    (h : Captured M F st) (hk : st.index ≤ k) (heq : F'.take k = F.take k) :
    Captured M F' st := by
  have htake : F'.take st.index = F.take st.index := by
    have := congrArg (List.take st.index) heq
    rwa [List.take_take, List.take_take, Nat.min_eq_left hk] at this
  exact ⟨h.pos, by rw [htake]; exact h.state,
    by rw [htake]; exact h.membership⟩

theorem Sound.addAck (hs : Sound D H) {t k : Nat}
    (hW : (H.addAck n t k).Wf (rules D)) : Sound D (H.addAck n t k) :=
  ⟨hW, hs.indexed⟩

/-- A follower in the term of a leader ends up with the first `j` entries of
that leader's log, whichever way its storage got there. -/
theorem NodeInv.accept (h : NodeInv D H n F x) (hs : Sound D H)
    (hr : x.role = .follower) {y : NodeId × List (LogEntry V)}
    (hl : H.led x.currentTerm = some y) {j : Nat}
    (hj : j ≤ (H.tlog x.currentTerm).length)
    (hF' : F' = spliced ((H.tlog x.currentTerm).take j) F) :
    Sound D (H.addAck n x.currentTerm j) ∧
      F'.take x.commitIndex = F.take x.commitIndex ∧
      ∀ S' members' index' pending' view,
        Represents M S' F' → S'.hardState = x.storage.hardState →
        S'.snapshotIndex = x.storage.snapshotIndex →
        members' = membersOf (D.config n) F' →
        Located F' index' x.storage.snapshotIndex →
        (∀ p ∈ pending', p ∈ x.pending ∧
          termAt F' p.index = some p.term) →
        NodeInv D (H.addAck n x.currentTerm j) n F' { x with
          storage := S'
          members := members'
          membersIndex := index'
          membershipView := view
          pending := pending' } := by
  have hpart : (x.replica F).part = .follower := by rw [Node.replica, hr]; rfl
  obtain ⟨hW, hkeep, hok⟩ := h.ok.accept hs.wf hpart hl hj
  have hkeep' : F'.take x.commitIndex = F.take x.commitIndex := by
    rw [hF']
    exact hkeep
  refine ⟨hs.addAck hW, hkeep', ?_⟩
  intro S' members' index' pending' view hrepr hhs hbound hmem hindex hpend
  have happ := h.applied
  refine
    { body := ⟨h.body.config, hrepr, by rw [hbound]; exact h.body.boundary_le,
        h.body.applied_le, ?_, ?_, ?_⟩
      applied := h.applied
      members := ⟨hmem, by rw [hbound]; exact hindex⟩
      waiting := fun p hp => by
        rw [hbound]
        exact ⟨(h.waiting p (hpend p hp).1).1, (hpend p hp).2⟩
      uncommitted := fun p hp => h.uncommitted p (hpend p hp).1
      ok := ?_
      role := by simp only [hr]; trivial
      seq := h.seq }
  · have := hok.commit_le
    rw [hF']
    exact this
  · simp only [happ, hkeep']
    rw [← happ]
    exact h.body.state
  · intro st hst
    obtain ⟨hcap, hle⟩ := h.body.staged st hst
    exact ⟨hcap.of_take_eq (hle.trans happ.le) hkeep', hle⟩
  · simp only [Node.replica, Node.currentTerm, hhs, hr, Role.part] at hok ⊢
    rw [hF']
    exact hok

/-- Installing the snapshot of a committed part of the leader's log. -/
theorem NodeInv.install (h : NodeInv D H n F x) (hs : Sound D H)
    (hr : x.role = .follower) {y : NodeId × List (LogEntry V)}
    (hl : H.led x.currentTerm = some y) {P : List (LogEntry V)}
    (hP : P <+: H.tlog x.currentTerm) (hc : H.CommittedAt x.currentTerm P)
    (hlt : x.commitIndex < P.length) (hF' : F' = spliced P F) :
    Sound D (H.addAck n x.currentTerm P.length) ∧
      ∀ S' members' index' pending' view,
        Represents M S' F' → S'.hardState = x.storage.hardState →
        S'.snapshotIndex = P.length →
        members' = membersOf (D.config n) F' →
        Located F' index' P.length →
        (∀ p ∈ pending', p ∈ x.pending ∧ P.length < p.index ∧
          termAt F' p.index = some p.term) →
        NodeInv D (H.addAck n x.currentTerm P.length) n F' { x with
          storage := S'
          stateMachine := M.replay P
          commitIndex := P.length
          lastApplied := P.length
          members := members'
          membersIndex := index'
          membershipView := view
          pending := pending' } := by
  have hpart : (x.replica F).part = .follower := by rw [Node.replica, hr]; rfl
  have htake : (H.tlog x.currentTerm).take P.length = P := by
    rw [take_eq_of_isPrefix hP le_rfl, List.take_length]
  obtain ⟨hW, hkeep, hok⟩ := h.ok.accept hs.wf hpart hl hP.length_le
  have hPF : P <+: F' := by
    rw [hF']
    exact isPrefix_spliced _ _
  have hF'take : F'.take P.length = P := by
    rw [take_eq_of_isPrefix hPF le_rfl, List.take_length]
  have hspl : spliced ((H.tlog x.currentTerm).take P.length) F = F' := by
    rw [htake, hF']
  have hkeep' : F'.take x.commitIndex = F.take x.commitIndex := by
    rw [← hspl]
    exact hkeep
  have hok' := hok.learn (k := P.length) (by rw [hpart]; decide)
    (by
      show P.length ≤ (spliced ((H.tlog x.currentTerm).take P.length) F).length
      rw [hspl]
      exact hPF.length_le)
    (by
      show (H.addAck n x.currentTerm P.length).CommittedAt x.currentTerm
        ((spliced ((H.tlog x.currentTerm).take P.length) F).take P.length)
      rw [hspl, hF'take]
      exact hc)
  refine ⟨hs.addAck hW, ?_⟩
  intro S' members' index' pending' view hrepr hhs hbound hmem hindex hpend
  have happ := h.applied
  refine
    { body := ⟨h.body.config, hrepr, hbound.le, le_rfl, hPF.length_le,
        by rw [hF'take], ?_⟩
      applied := rfl
      members := ⟨hmem, by rw [hbound]; exact hindex⟩
      waiting := fun p hp => by
        rw [hbound]
        exact (hpend p hp).2
      uncommitted := fun p hp => (hpend p hp).2.1
      ok := ?_
      role := by simp only [hr]; trivial
      seq := h.seq }
  · intro st hst
    obtain ⟨hcap, hle⟩ := h.body.staged st hst
    have hst' : st.index ≤ x.commitIndex := hle.trans happ.le
    exact ⟨hcap.of_take_eq hst' hkeep', hst'.trans hlt.le⟩
  · simp only [Node.replica, Node.currentTerm, hhs, hr, Role.part]
      at hok' hspl ⊢
    rw [← hspl]
    exact hok'

/-! ## Moving the commit index -/

/-- A leader counts a majority of its configuration behind an entry of its
own term. -/
theorem NodeInv.commitOwn (h : NodeInv D H n F x) (hs : Sound D H)
    {l : LeaderState} (hl : x.role = .leader l) {k : Nat} {e : LogEntry V}
    (hk : x.commitIndex < k) (he : F[k - 1]? = some e)
    (ht : e.term = x.currentTerm) {Q : Finset NodeId}
    (hQ : IsMajority Q ((rules D).cfg F))
    (hack : ∀ v ∈ Q, v ≠ n → H.ack v x.currentTerm k)
    (hH' : H' = (H.addAck n x.currentTerm F.length).addCommit
      x.currentTerm k F.length) :
    Frame n H H' ∧ Sound D H' ∧
      Settling D H' n F { x with commitIndex := k } := by
  have hpart : (x.replica F).part = .leader := by rw [Node.replica, hl]; rfl
  obtain ⟨hf, hW, hok⟩ := h.ok.commitOwn hs.wf hpart hk he ht hQ hack
  subst hH'
  have hkF := lt_length_of_getElem? he
  refine ⟨hf, ⟨hW, hs.indexed⟩, ?_⟩
  exact
    { body := ⟨h.body.config, h.body.repr, h.body.boundary_le,
        h.body.applied_le.trans hk.le, by simp only; omega, h.body.state,
        h.body.staged⟩
      members := ⟨h.members.members, h.members.index⟩
      waiting := h.waiting
      ok := hok
      role := h.role.mono hf.toLe rfl
      seq := h.seq }

theorem NodeInv.learn (h : NodeInv D H n F x) (hp : x.role.part ≠ .leader)
    {k : Nat} (hk : x.commitIndex < k) (hkF : k ≤ F.length)
    (hc : H.CommittedAt x.currentTerm (F.take k)) :
    Settling D H n F { x with commitIndex := k } where
  body := ⟨h.body.config, h.body.repr, h.body.boundary_le,
    h.body.applied_le.trans hk.le, hkF, h.body.state, h.body.staged⟩
  members := ⟨h.members.members, h.members.index⟩
  waiting := h.waiting
  ok := h.ok.learn hp hkF hc
  role := h.role
  seq := h.seq

end RustKV
