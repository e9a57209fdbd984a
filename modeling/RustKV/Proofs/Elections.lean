import RustKV.Proofs.CatchUp
import RustKV.Proofs.Leaders
import RustKV.Proofs.Schedules
import Mathlib.Data.Finset.Lattice.Fold
import Mathlib.Data.Finset.Max
import Mathlib.Data.Prod.Lex

/-!
# A majority can elect a leader

From whatever state the cluster has got into, the nodes of a set `Q` that is a
majority in the eyes of each of them can get one of their own elected, without
anybody else. Late enough for all contact to have lapsed, it goes like this.

Whoever leads steps down at its next heartbeat, for want of a quorum. The node
with the most up-to-date log asks a node of the highest term for a pre-vote; it
is refused, but learns the term. At its next timeout it asks everybody, and now
nobody has a reason to refuse: no leader was heard lately, its log is as good
as theirs, and the term it asks for is beyond theirs. The same holds for the
votes. Before each of these timers there is a pause, for which nothing
happens; it only makes what was late later.
-/

namespace RustKV

open Rust Prog NodeM Consensus

variable {V : Type} {M : StateMachine V} {D : Deployment}
  {cl cl' : Cluster M} {Q S votes : Finset NodeId} {w : Duration}
  {now now' : Instant}
  {n p : NodeId} {x y : Node M} {c c' : Ctx M} {l : LeaderState}

/-! ## What the candidate does -/

/-- `y` leads term `t`, in the configuration `x` was in. -/
structure Node.Crowned (x y : Node M) (t : ℕ) : Prop where
  leads : y.isLeader = true
  term : y.currentTerm = t
  members : y.members = x.members

def Node.asking (x : Node M) (votes : Finset NodeId) : Node M :=
  { x with role := .preCandidate votes, leaderId := none }

def Node.standing (x : Node M) (votes : Finset NodeId) : Node M :=
  { x with
    storage := x.storage.saveHardState
      ⟨x.currentTerm + 1, some x.config.id⟩
    role := .candidate votes
    leaderId := none }

theorem Node.majority_le_heard (hself : x.config.id ∈ x.members.keySet)
    (hmax : 0 < x.config.electionTimeoutMax)
    (hc : ∀ p ∈ x.peerIds, l.lastContact p = some now) :
    x.majority ≤ x.heard l now := by
  have hall : (x.members.keySet.filter fun p => p = x.config.id ∨
      Node.heardWithin l.lastContact x.config.electionTimeoutMax now p =
        true) = x.members.keySet := by
    refine Finset.filter_true_of_mem fun p hp => ?_
    by_cases hid : p = x.config.id
    · exact .inl hid
    · right
      rw [Node.heardWithin, hc p (Node.mem_peerIds.mpr ⟨hp, hid⟩)]
      simpa using hmax
  have hpos : 0 < x.members.keySet.card := Finset.card_pos.mpr ⟨_, hself⟩
  rw [Node.heard_eq, hall, Node.majority, ← BTreeMap.card_keySet]
  omega

theorem onHeartbeatTick_stays (hl : c.node.role = .leader l)
    (hq : c.node.majority ≤ c.node.heard l now) :
    wlp (onHeartbeatTick now) (fun _ c' => c'.node = c.node) c := by
  simp only [onHeartbeatTick, wlp_bind, wlp_node]
  rw [hl]
  simp only [wlp_ite]
  exact ⟨fun hlt => absurd hq (Nat.not_le.mpr hlt), fun _ =>
    wlp_mono (sendAppends_acts now (.heartbeat : Cause M) _ c)
      fun _ _ h => h.2⟩

/-- What is taken of a node that is to campaign. -/
structure Node.Eligible (x : Node M) : Prop where
  member : x.config.id ∈ x.members.keySet
  window : 0 < x.config.electionTimeoutMax

theorem maybeBecomeLeader_wins (votes : Finset NodeId)
    (hx : c.node.Eligible) (hr : c.node.role = .candidate votes) :
    wlp (maybeBecomeLeader now) (fun _ c' =>
      (c.node.countMemberVotes votes < c.node.majority → c' = c) ∧
      (c.node.majority ≤ c.node.countMemberVotes votes →
        c.node.Crowned c'.node c.node.currentTerm)) c := by
  have hself := BTreeMap.containsKey_iff.mpr hx.member
  simp only [maybeBecomeLeader, wlp_bind, wlp_node]
  rw [hr]
  simp only [wlp_ite, wlp_pure, wlp_bind, wlp_update, wlp_expect]
  refine ⟨fun hlt => ⟨fun _ => trivial, fun hle => absurd hle
    (Nat.not_le.mpr hlt)⟩, fun hge S hS => ?_⟩
  -- it is its own peer here, for what a leader that serves keeps
  have hserves : ({ c.node with
      storage := S
      role := .leader (.fresh c.node.peerIds
        (c.node.storage.lastIndex + 1) now)
      leaderId := some c.node.config.id } : Node M).Serves c.node.config.id
        c.node.currentTerm S.lastIndex _ :=
    ⟨rfl, congrArg HardState.currentTerm (Storage.append_hardState hS), rfl,
      hself, hself, rfl⟩
  refine wlp_mono (maybeAdvanceCommit_keeps hserves) fun _ c₁ h₁ => ?_
  obtain ⟨rs, hs⟩ := h₁.serves hserves
  have hmem : c₁.node.members = c.node.members := h₁.calm.1.members
  have hconf : c₁.node.config = c.node.config := h₁.calm.1.config
  have hpeers : c₁.node.peerIds = c.node.peerIds := by
    rw [Node.peerIds, hmem, hconf, Node.peerIds]
  refine wlp_mono (onHeartbeatTick_stays hs.role (Node.majority_le_heard
    (by rw [hmem, hconf]; exact hx.member) (by rw [hconf]; exact hx.window)
    fun p hp => ?_)) fun _ c₂ h₂ => ⟨fun hlt => absurd hlt hge, fun _ => ?_⟩
  · rw [hpeers] at hp
    exact if_pos hp
  · rw [h₂]
    exact ⟨Node.isLeader_iff.mpr ⟨_, hs.role⟩, hs.term, hmem⟩

/-- What a pre-campaign of `x` with `votes` has come to: nothing yet, or a
campaign, or, for a node on its own, already its end. -/
structure Canvassed (x : Node M) (votes : Finset NodeId) (c c' : Ctx M) :
    Prop where
  short : x.countMemberVotes votes < x.majority → c' = c
  enough : x.majority ≤ x.countMemberVotes votes →
    (c'.node = x.standing {x.config.id} ∧
      x.countMemberVotes {x.config.id} < x.majority ∧
      ∀ q ∈ x.peerIds, .send q
        (.requestVote (x.voteArgs (x.currentTerm + 1)))
        (.vote (x.currentTerm + 1)) ∈ c'.out) ∨
    x.Crowned c'.node (x.currentTerm + 1)

theorem maybeStartElection_canvassed (hx : x.Eligible)
    (hc : c.node = x.asking votes) :
    wlp (maybeStartElection now) (fun _ c' => Canvassed x votes c c') c := by
  simp only [maybeStartElection, wlp_bind, wlp_node, hc, Node.asking,
    wlp_ite, wlp_pure, startElection, wlp_update, wlp_emitAll]
  refine ⟨fun hge => ?_, fun hlt => ⟨fun _ => rfl, fun hle =>
    absurd hle hlt⟩⟩
  refine wlp_mono (maybeBecomeLeader_wins {x.config.id}
    ⟨hx.member, hx.window⟩ rfl) fun _ c' h => ⟨fun hlt => absurd hge
      (Nat.not_le.mpr hlt), fun _ => ?_⟩
  rcases Nat.lt_or_ge (x.countMemberVotes {x.config.id}) x.majority
    with hlt | hge'
  · left
    rw [h.1 hlt]
    exact ⟨rfl, hlt, fun q hq => List.mem_append_right _
      (List.mem_map_of_mem hq)⟩
  · right
    have hwon := h.2 hge'
    exact ⟨hwon.leads, hwon.term, hwon.members⟩

def Node.probes (x : Node M) : List (Output M) :=
  x.peerIds.map fun peer => .send peer
    (.preVote (x.voteArgs (x.currentTerm + 1))) (.preVote (x.currentTerm + 1))

theorem onElectionTimeout_canvassed (now : Instant) (hx : x.Eligible) :
    wlp (onElectionTimeout now) (fun _ c' => Canvassed x {x.config.id}
      ⟨x.asking {x.config.id}, x.probes⟩ c') ⟨x, []⟩ := by
  have hself := BTreeMap.containsKey_iff.mpr hx.member
  simp only [onElectionTimeout, wlp_bind, wlp_node, wlp_ite, wlp_pure,
    wlp_update, wlp_emitAll]
  refine ⟨fun h => ?_, fun _ => maybeStartElection_canvassed
    (c := ⟨x.asking {x.config.id}, x.probes⟩) hx rfl⟩
  rw [hself] at h
  cases h

theorem handlePreVoteReply_canvassed (hx : x.Eligible) {t : ℕ}
    (ht : t ≤ x.currentTerm) (p : NodeId) :
    wlp (handlePreVoteReply now (x.currentTerm + 1) p ⟨t, true⟩)
      (fun _ c' => Canvassed x (insert p votes)
        ⟨x.asking (insert p votes), []⟩ c') ⟨x.asking votes, []⟩ := by
  simp only [handlePreVoteReply, wlp_bind, wlp_node, wlp_ite, wlp_pure]
  refine ⟨fun hgt => absurd hgt (Nat.not_lt.mpr ht), fun _ =>
    ⟨fun hno => hno.elim (fun hne => absurd rfl hne) fun hf => ?_,
      fun _ => ?_⟩⟩
  · cases hf
  · rw [Node.asking]
    simp only [wlp_bind, wlp_update]
    exact maybeStartElection_canvassed
      (c := ⟨x.asking (insert p votes), []⟩) hx rfl

theorem handleVoteReply_wins (hx : x.Eligible) (p : NodeId) :
    wlp (handleVoteReply now (x.currentTerm + 1) p
        ⟨x.currentTerm + 1, true⟩)
      (fun _ c' =>
        (x.countMemberVotes (insert p votes) < x.majority →
          c' = ⟨x.standing (insert p votes), []⟩) ∧
        (x.majority ≤ x.countMemberVotes (insert p votes) →
          x.Crowned c'.node (x.currentTerm + 1))) ⟨x.standing votes, []⟩ := by
  simp only [handleVoteReply, wlp_bind, wlp_node, wlp_ite, wlp_pure]
  refine ⟨fun hgt => absurd hgt (Nat.lt_irrefl _), fun _ =>
    ⟨fun hno => hno.elim (fun hne => absurd rfl hne) fun hf => ?_,
      fun _ => ?_⟩⟩
  · cases hf
  · rw [Node.standing]
    simp only [wlp_bind, wlp_update]
    refine wlp_mono (maybeBecomeLeader_wins (insert p votes)
      ⟨hx.member, hx.window⟩ rfl) fun _ c' h => ⟨h.1, fun hge => ?_⟩
    have hwon := h.2 hge
    exact ⟨hwon.leads, hwon.term, hwon.members⟩

/-! ## What the voters do -/

/-- A node that has nothing against `x` as a leader of the next term. -/
structure Node.Favours (y x : Node M) (now : Instant) : Prop where
  behind : y.currentTerm ≤ x.currentTerm
  log : ∀ t, y.logUpToDate (x.voteArgs t) = true
  quiet : y.leaderIsLive now = false

theorem handlePreVote_grants (h : c.node.Favours x now) :
    wlp (handlePreVote now (x.voteArgs (x.currentTerm + 1)))
      (fun r c' => r = ⟨c.node.currentTerm, true⟩ ∧ c' = c) c := by
  simp only [handlePreVote, wlp_bind, wlp_node, wlp_pure]
  refine ⟨congrArg _ (decide_eq_true ⟨Nat.lt_succ_of_le h.behind, h.log _, ?_⟩),
    trivial⟩
  rw [h.quiet]
  rfl

theorem decideVote_grants {a : RequestVoteArgs}
    (ht : c.node.currentTerm = a.term)
    (hv : c.node.storage.hardState.votedFor = none)
    (hlog : c.node.logUpToDate a = true) :
    wlp (decideVote a) (fun r c' => r = ⟨a.term, true⟩ ∧
      c'.node.currentTerm = a.term) c := by
  simp only [decideVote, wlp_bind, wlp_node, wlp_ite, wlp_pure, wlp_update,
    ht]
  exact ⟨fun hold => absurd hold (Nat.lt_irrefl _), fun _ =>
    ⟨fun _ => ⟨trivial, rfl⟩, fun hno => absurd ⟨.inl hv, hlog⟩ hno⟩⟩

theorem handleRequestVote_grants (h : c.node.Favours x now) :
    wlp (handleRequestVote (x.voteArgs (x.currentTerm + 1)))
      (fun r c' => r = ⟨x.currentTerm + 1, true⟩ ∧
        c'.node.currentTerm = x.currentTerm + 1) c := by
  have hlt : c.node.currentTerm < x.currentTerm + 1 :=
    Nat.lt_succ_of_le h.behind
  have hstorage : (c.node.follow (x.currentTerm + 1) none).storage =
      c.node.storage.saveHardState ⟨x.currentTerm + 1, none⟩ := if_pos hlt
  simp only [handleRequestVote, wlp_bind, wlp_node, wlp_ite]
  refine ⟨fun _ => becomeFollower_wlp fun _ => decideVote_grants
    (Node.currentTerm_follow hlt.le) ?_ ?_, fun hno => absurd hlt hno⟩
  · exact congrArg (fun S => S.hardState.votedFor) hstorage
  · have hlog := h.log (x.currentTerm + 1)
    rw [Node.logUpToDate] at hlog ⊢
    exact hstorage ▸ hlog

/-! ## The campaign -/

/-- Node `n`, which was `x` before its campaign, stands, with the votes of `S`
at least, and has asked everybody; or it leads. -/
inductive Cluster.Ballot (cl : Cluster M) (n : NodeId) (x : Node M)
    (S : Finset NodeId) : Prop
  | stands {votes : Finset NodeId} (node : cl.nodes n = x.standing votes)
      (hS : S ⊆ votes) (short : x.countMemberVotes votes < x.majority)
      (posted : ∀ q ∈ x.peerIds, cl.Posted n q
        (.requestVote (x.voteArgs (x.currentTerm + 1)))
        (.vote (x.currentTerm + 1)))
  | leads (h : x.Crowned (cl.nodes n) (x.currentTerm + 1))

/-- The same for its pre-campaign. -/
inductive Cluster.Canvass (cl : Cluster M) (n : NodeId) (x : Node M)
    (S : Finset NodeId) : Prop
  | asks {votes : Finset NodeId} (node : cl.nodes n = x.asking votes)
      (hS : S ⊆ votes) (short : x.countMemberVotes votes < x.majority)
      (posted : ∀ q ∈ x.peerIds, cl.Posted n q
        (.preVote (x.voteArgs (x.currentTerm + 1)))
        (.preVote (x.currentTerm + 1)))
  | done (h : cl.Ballot n x {n})

/-- `x` is node `n` of `Q`, which is a majority of its configuration. -/
structure Node.Contends (x : Node M) (Q : Finset NodeId) (n : NodeId) :
    Prop where
  mem : n ∈ Q
  id : x.config.id = n
  window : 0 < x.config.electionTimeoutMax
  quorum : IsMajority Q x.members.keySet

namespace Node.Contends

theorem eligible (h : x.Contends Q n) : x.Eligible :=
  ⟨by rw [h.id]; exact h.quorum.1 h.mem, h.window⟩

theorem mem_peerIds (h : x.Contends Q n) (hp : p ∈ Q) (hne : p ≠ n) :
    p ∈ x.peerIds :=
  Node.mem_peerIds.mpr ⟨h.quorum.1 hp, by rwa [h.id]⟩

theorem majority_le (h : x.Contends Q n)
    (hv : insert n (Q.erase n) ⊆ votes) :
    x.majority ≤ x.countMemberVotes votes := by
  rw [Finset.insert_erase h.mem] at hv
  rw [Node.majority, ← BTreeMap.card_keySet]
  refine h.quorum.2.trans (Finset.card_le_card fun p hp => ?_)
  exact Finset.mem_filter.mpr
    ⟨hv hp, BTreeMap.containsKey_iff.mpr (h.quorum.1 hp)⟩

theorem canvass_of (h : x.Contends Q n) {os : List (Output M)}
    (hc : Canvassed x votes ⟨x.asking votes, os⟩ c)
    (hnode : cl.nodes n = c.node)
    (hposted : ∀ q req tag, .send q req tag ∈ c.out →
      cl.Posted n q req tag) (hS : S ⊆ votes)
    (hprobes : c.out = os → ∀ q ∈ x.peerIds, cl.Posted n q
      (.preVote (x.voteArgs (x.currentTerm + 1)))
      (.preVote (x.currentTerm + 1))) : cl.Canvass n x S := by
  rcases Nat.lt_or_ge (x.countMemberVotes votes) x.majority with hlt | hge
  · have heq := hc.short hlt
    subst heq
    exact .asks hnode hS hlt (hprobes rfl)
  · rcases hc.enough hge with ⟨hstand, hshort, hsent⟩ | hwon
    · rw [h.id] at hstand hshort
      exact .done (.stands (hnode.trans hstand) subset_rfl hshort
        fun q hq => hposted _ _ _ (hsent q hq))
    · exact .done (.leads (hnode ▸ hwon))

theorem canvass_visit (h : x.Contends Q n) (hr : cl.Reached D) (hp : p ∈ Q)
    (hne : p ≠ n) (hf : (cl.nodes p).Favours x now)
    (hc : cl.Canvass n x (insert n S)) :
    ∃ cl', cl.Path Q now cl' ∧ cl'.Canvass n x (insert n (insert p S)) ∧
      ∀ q, q ≠ n → cl'.nodes q = cl.nodes q := by
  cases hc with
  | done hb => exact ⟨cl, .refl cl, .done hb, fun _ _ => rfl⟩
  | @asks votes node hS short posted =>
      have hin : wlp (handleInbound now
          (.preVote (x.voteArgs (x.currentTerm + 1))))
          (fun r y => r = .preVote ⟨(cl.nodes p).currentTerm, true⟩ ∧
            y = ⟨cl.nodes p, []⟩) ⟨cl.nodes p, []⟩ := by
        simp only [handleInbound, wlp_bind, wlp_pure]
        exact wlp_mono (handlePreVote_grants hf)
          fun _ _ hg => ⟨congrArg _ hg.1, hg.2⟩
      obtain ⟨cl', -, y, z, hpath, hex, ⟨-, rfl⟩, hz⟩ := hr.exchange now
        (posted p (h.mem_peerIds hp hne)) hne hp h.mem hin
        (R := fun _ z => Canvassed x (insert p votes)
          ⟨x.asking (insert p votes), []⟩ z) (by
          rintro _ _ ⟨rfl, -⟩
          rw [node]
          exact handlePreVoteReply_canvassed h.eligible hf.behind p)
      refine ⟨cl', hpath, h.canvass_of hz hex.node hex.posted ?_
        fun _ q hq => hex.kept _ _ _ _ (posted q hq), fun q hq => ?_⟩
      · rw [Finset.insert_comm]
        exact Finset.insert_subset_insert p hS
      · by_cases hqp : q = p
        · rw [hqp, hex.peer]
        · exact hex.others q hqp hq

theorem ballot_visit (h : x.Contends Q n) (hr : cl.Reached D) (hp : p ∈ Q)
    (hne : p ≠ n) (hf : (cl.nodes p).Favours x now)
    (hb : cl.Ballot n x (insert n S)) :
    ∃ cl', cl.Path Q now cl' ∧ cl'.Ballot n x (insert n (insert p S)) ∧
      (cl'.nodes p).currentTerm ≤ x.currentTerm + 1 ∧
      ∀ q, q ≠ n → q ≠ p → cl'.nodes q = cl.nodes q := by
  cases hb with
  | leads hwon =>
      exact ⟨cl, .refl cl, .leads hwon, Nat.le_succ_of_le hf.behind,
        fun _ _ _ => rfl⟩
  | @stands votes node hS short posted =>
      have hin : wlp (handleInbound now
          (.requestVote (x.voteArgs (x.currentTerm + 1))))
          (fun r y => r = .requestVote ⟨x.currentTerm + 1, true⟩ ∧
            y.node.currentTerm = x.currentTerm + 1) ⟨cl.nodes p, []⟩ := by
        simp only [handleInbound, wlp_bind, wlp_pure]
        exact wlp_mono (handleRequestVote_grants hf)
          fun _ _ hg => ⟨congrArg _ hg.1, hg.2⟩
      obtain ⟨cl', -, y, z, hpath, hex, ⟨-, hterm⟩, hshort, hwon⟩ :=
        hr.exchange now (posted p (h.mem_peerIds hp hne)) hne hp h.mem hin
          (R := fun _ z => (x.countMemberVotes (insert p votes) < x.majority →
              z = ⟨x.standing (insert p votes), []⟩) ∧
            (x.majority ≤ x.countMemberVotes (insert p votes) →
              x.Crowned z.node (x.currentTerm + 1))) (by
            rintro _ _ ⟨rfl, -⟩
            rw [node]
            exact handleVoteReply_wins h.eligible p)
      refine ⟨cl', hpath, ?_, by rw [hex.peer, hterm],
        fun q hqn hqp => hex.others q hqp hqn⟩
      rcases Nat.lt_or_ge (x.countMemberVotes (insert p votes)) x.majority
        with hlt | hge
      · refine .stands (hex.node.trans (congrArg Ctx.node (hshort hlt))) ?_ hlt
          fun q hq => hex.kept _ _ _ _ (posted q hq)
        rw [Finset.insert_comm]
        exact Finset.insert_subset_insert p hS
      · exact .leads (hex.node ▸ hwon hge)

/-- One after the other gives its pre-vote, until there are enough. -/
theorem canvass (h : x.Contends Q n) (hr : cl.Reached D)
    (hf : ∀ p ∈ Q, p ≠ n → (cl.nodes p).Favours x now)
    (hc : cl.Canvass n x {n}) : ∃ cl', cl.Path Q now cl' ∧
      cl'.Ballot n x {n} ∧ ∀ p, p ≠ n → cl'.nodes p = cl.nodes p := by
  have hvisit : ∀ p ∈ Q.erase n, ∀ (S : Finset NodeId) (cl₁ : Cluster M),
      p ∉ S → (cl.Path Q now cl₁ ∧ cl₁.Canvass n x (insert n S) ∧
        ∀ q, q ≠ n → cl₁.nodes q = cl.nodes q) →
      ∃ cl', cl₁.Path Q now cl' ∧ cl.Path Q now cl' ∧
        cl'.Canvass n x (insert n (insert p S)) ∧
        ∀ q, q ≠ n → cl'.nodes q = cl.nodes q := by
    intro p hp S cl₁ _ ⟨hpath, hcan, hsame⟩
    obtain ⟨hne, hp⟩ := Finset.mem_erase.mp hp
    obtain ⟨cl', hpath', hcan', hsame'⟩ := h.canvass_visit (hr.path hpath) hp
      hne (by rw [hsame p hne]; exact hf p hp hne) hcan
    exact ⟨cl', hpath', hpath.trans hpath', hcan',
      fun q hq => (hsame' q hq).trans (hsame q hq)⟩
  obtain ⟨cl', -, hpath, hcan, hsame⟩ := exists_sweep
    (Cluster.Path Q now) .refl (fun _ _ _ => .trans) (Q.erase n)
    hvisit ⟨.refl cl, hc, fun _ _ => rfl⟩
  refine ⟨cl', hpath, ?_, hsame⟩
  cases hcan with
  | asks _ hS short => exact absurd (h.majority_le hS) (Nat.not_le.mpr short)
  | done hb => exact hb

/-- One after the other gives its vote, until there are enough. -/
theorem ballot (h : x.Contends Q n) (hr : cl.Reached D)
    (hf : ∀ p ∈ Q, p ≠ n → (cl.nodes p).Favours x now)
    (hb : cl.Ballot n x {n}) : ∃ cl', cl.Path Q now cl' ∧
      x.Crowned (cl'.nodes n) (x.currentTerm + 1) ∧
      ∀ p ∈ Q, p ≠ n → (cl'.nodes p).currentTerm ≤ x.currentTerm + 1 := by
  -- who has not voted yet is where it was
  have hvisit : ∀ p ∈ Q.erase n, ∀ (S : Finset NodeId) (cl₁ : Cluster M),
      p ∉ S → (cl.Path Q now cl₁ ∧ cl₁.Ballot n x (insert n S) ∧
        (∀ q ∈ S, (cl₁.nodes q).currentTerm ≤ x.currentTerm + 1) ∧
        n ∉ S ∧ ∀ q, q ≠ n → q ∉ S → cl₁.nodes q = cl.nodes q) →
      ∃ cl', cl₁.Path Q now cl' ∧ cl.Path Q now cl' ∧
        cl'.Ballot n x (insert n (insert p S)) ∧
        (∀ q ∈ insert p S, (cl'.nodes q).currentTerm ≤ x.currentTerm + 1) ∧
        n ∉ insert p S ∧
        ∀ q, q ≠ n → q ∉ insert p S → cl'.nodes q = cl.nodes q := by
    intro p hp S cl₁ hpS ⟨hpath, hbal, hterm, hnS, hsame⟩
    obtain ⟨hne, hp⟩ := Finset.mem_erase.mp hp
    obtain ⟨cl', hpath', hbal', hterm', hsame'⟩ := h.ballot_visit
      (hr.path hpath) hp hne (by rw [hsame p hne hpS]; exact hf p hp hne) hbal
    refine ⟨cl', hpath', hpath.trans hpath', hbal', fun q hq => ?_, ?_,
      fun q hqn hq => ?_⟩
    · rcases Finset.mem_insert.mp hq with rfl | hq
      · exact hterm'
      · rw [hsame' q (fun he => hnS (he ▸ hq)) fun he => hpS (he ▸ hq)]
        exact hterm q hq
    · exact fun hin => (Finset.mem_insert.mp hin).elim (fun he => hne he.symm)
        hnS
    · rw [Finset.mem_insert, not_or] at hq
      rw [hsame' q hqn hq.1, hsame q hqn hq.2]
  obtain ⟨cl', -, hpath, hbal, hterm, -⟩ := exists_sweep
    (Cluster.Path Q now) .refl (fun _ _ _ => .trans) (Q.erase n)
    hvisit ⟨.refl cl, hb, by simp, by simp, fun _ _ _ => rfl⟩
  refine ⟨cl', hpath, ?_, fun p hp hne =>
    hterm p (Finset.mem_erase.mpr ⟨hne, hp⟩)⟩
  cases hbal with
  | stands _ hS short => exact absurd (h.majority_le hS) (Nat.not_le.mpr short)
  | leads hwon => exact hwon

end Node.Contends

/-- A node that the others of its majority favour gets elected. -/
theorem Cluster.Reached.campaign (hr : cl.Reached D)
    (h : (cl.nodes n).Contends Q n) (hl : (cl.nodes n).isLeader = false)
    (hf : ∀ p ∈ Q, p ≠ n →
      (cl.nodes p).Favours (cl.nodes n) (now + w)) :
    ∃ cl', cl.Goes Q w now (now + w) cl' ∧
      (cl.nodes n).Crowned (cl'.nodes n) ((cl.nodes n).currentTerm + 1) ∧
      ∀ p ∈ Q, p ≠ n →
        (cl'.nodes p).currentTerm ≤ (cl.nodes n).currentTerm + 1 := by
  obtain ⟨cl₁, y, hgoes, htook, hy⟩ := hr.timeout now w h.mem hl
    (onElectionTimeout_canvassed (now + w) h.eligible)
  have hf₁ : ∀ p ∈ Q, p ≠ n →
      (cl₁.nodes p).Favours (cl.nodes n) (now + w) := by
    intro p hp hne
    rw [htook.others hne]
    exact hf p hp hne
  have hcan : cl₁.Canvass n (cl.nodes n) {n} := by
    refine h.canvass_of hy htook.node (fun _ _ _ => htook.posted)
      (by rw [h.id]) fun hout q hq => htook.posted ?_
    rw [hout]
    exact List.mem_map_of_mem hq
  obtain ⟨cl₂, hpath₂, hbal, hsame⟩ :=
    h.canvass (hr.goes hgoes) hf₁ hcan
  obtain ⟨cl', hpath', hwon, hterm⟩ :=
    h.ballot ((hr.goes hgoes).path hpath₂) (fun p hp hne => by
      rw [hsame p hne]
      exact hf₁ p hp hne) hbal
  exact ⟨cl', hgoes.trans (.of_path (hpath₂.trans hpath')), hwon, hterm⟩

/-! ## Before the campaign -/

/-- A node of `Q` that is ahead in terms refuses its pre-vote, and so tells its
term. -/
theorem Cluster.Reached.learns (hr : cl.Reached D)
    (h : (cl.nodes n).Contends Q n) (hl : (cl.nodes n).isLeader = false)
    (hp : p ∈ Q)
    (hlt : (cl.nodes n).currentTerm < (cl.nodes p).currentTerm)
    (now : Instant) (w : Duration) :
    ∃ cl', cl.Goes Q w now (now + w) cl' ∧
      cl'.nodes n = ((cl.nodes n).asking {n}).follow
        (cl.nodes p).currentTerm none ∧
      ∀ q, q ≠ n → cl'.nodes q = cl.nodes q := by
  have hne : p ≠ n := by
    rintro rfl
    exact Nat.lt_irrefl _ hlt
  have hshort : (cl.nodes n).countMemberVotes {n} <
      (cl.nodes n).majority := by
    have htwo : ({n, p} : Finset NodeId).card ≤
        (cl.nodes n).members.keySet.card :=
      Finset.card_le_card (Finset.insert_subset (h.quorum.1 h.mem)
        (Finset.singleton_subset_iff.mpr (h.quorum.1 hp)))
    have hone : (cl.nodes n).countMemberVotes {n} ≤ 1 :=
      (Finset.card_filter_le _ _).trans (Finset.card_singleton n).le
    rw [Finset.card_pair hne.symm] at htwo
    rw [Node.majority, ← BTreeMap.card_keySet]
    omega
  have htimeout := onElectionTimeout_canvassed (now + w) h.eligible
  rw [h.id] at htimeout
  obtain ⟨cl₁, y, hgoes, htook, hy⟩ := hr.timeout now w h.mem hl htimeout
  have hy := hy.short hshort
  subst hy
  have hposted := htook.posted (List.mem_map_of_mem (h.mem_peerIds hp hne))
  obtain ⟨cl', -, y, z, hpath', hex, ⟨-, -, rfl⟩, hz⟩ :=
    (hr.goes hgoes).exchange (now + w) hposted hne hp h.mem
      (P := fun r y => (∃ granted, r = .preVote
        ⟨(cl.nodes p).currentTerm, granted⟩) ∧ y = ⟨cl₁.nodes p, []⟩) (by
        simp only [handleInbound, handlePreVote, wlp_bind, wlp_node, wlp_pure]
        rw [htook.others hne]
        exact ⟨⟨_, rfl⟩, trivial⟩)
      (R := fun _ z => z.node = ((cl.nodes n).asking {n}).follow
        (cl.nodes p).currentTerm none) (by
        rintro _ _ ⟨⟨granted, rfl⟩, -⟩
        rw [htook.node]
        simp only [Tag.event, handleEvent, handlePreVoteReply, wlp_bind,
          wlp_node, wlp_ite, wlp_pure]
        exact ⟨fun _ => becomeFollower_wlp fun _ => rfl,
          fun hno => absurd hlt hno⟩)
  refine ⟨cl', hgoes.trans (.of_path hpath'), hex.node.trans hz,
    fun q hq => ?_⟩
  by_cases hqp : q = p
  · rw [hqp, hex.peer, htook.others hne]
  · rw [hex.others q hqp hq, htook.others hq]

/-- `now` is late: no node of `Q` has heard from a leader within its smallest
election timeout, and none that leads from a peer within its largest. -/
structure Cluster.Late (cl : Cluster M) (Q : Finset NodeId) (now : Instant) :
    Prop where
  heard : ∀ p ∈ Q, ∀ a, (cl.nodes p).lastLeaderContact = some a →
    a + (cl.nodes p).config.electionTimeoutMin ≤ now
  contact : ∀ p ∈ Q, ∀ l, (cl.nodes p).role = .leader l →
    ∀ q ∈ (cl.nodes p).members.keySet, ∀ a, l.lastContact q = some a →
      a + (cl.nodes p).config.electionTimeoutMax ≤ now

theorem Cluster.Late.mono (h : cl.Late Q now) (hle : now ≤ now') :
    cl.Late Q now' where
  heard p hp a ha := (h.heard p hp a ha).trans hle
  contact p hp l hl q hq a ha := (h.contact p hp l hl q hq a ha).trans hle

theorem Node.leaderIsLive_of_le (h : x.leaderIsLive now = false)
    (hle : now ≤ now') : x.leaderIsLive now' = false := by
  obtain ⟨hl, hany⟩ := Bool.or_eq_false_iff.mp h
  refine Bool.or_eq_false_iff.mpr ⟨hl, ?_⟩
  cases ha : x.lastLeaderContact with
  | none => rfl
  | some a =>
      rw [ha] at hany
      have hge := Nat.not_lt.mp (of_decide_eq_false hany)
      exact decide_eq_false
        (Nat.not_lt.mpr (hge.trans (Nat.sub_le_sub_right hle a)))

/-- `y` is `x`, or `x` after it has stepped down. -/
def Node.Rests (x y : Node M) : Prop :=
  y = x ∨ y = x.follow x.currentTerm none

namespace Node.Rests

theorem role (h : x.Rests y) (hl : y.isLeader = true) : y = x := by
  rcases h with rfl | rfl
  · rfl
  · cases hl

theorem members (h : x.Rests y) : y.members = x.members := by
  rcases h with rfl | rfl <;> rfl

theorem config (h : x.Rests y) : y.config = x.config := by
  rcases h with rfl | rfl <;> rfl

theorem lastLeaderContact (h : x.Rests y) :
    y.lastLeaderContact = x.lastLeaderContact := by
  rcases h with rfl | rfl <;> rfl

end Node.Rests

theorem Cluster.exists_upToDate (cl : Cluster M) (hne : Q.Nonempty) :
    ∃ n ∈ Q, ∀ p ∈ Q, ∀ t,
      (cl.nodes p).logUpToDate ((cl.nodes n).voteArgs t) = true := by
  obtain ⟨n, hn, hmax⟩ := Q.exists_max_image (fun p => toLex
    ((cl.nodes p).storage.lastTerm, (cl.nodes p).storage.lastIndex)) hne
  exact ⟨n, hn, fun p hp t =>
    decide_eq_true (Prod.Lex.toLex_le_toLex.mp (hmax p hp))⟩

/-- With no leader among them and none heard lately, they elect one. -/
theorem Cluster.Reached.elect (hr : cl.Reached D) (now : Instant)
    (w : Duration) (hne : Q.Nonempty)
    (hQ : ∀ p ∈ Q, IsMajority Q (cl.nodes p).members.keySet)
    (hmax : ∀ p ∈ Q, 0 < (D.config p).electionTimeoutMax)
    (hlive : ∀ p ∈ Q, (cl.nodes p).leaderIsLive now = false) :
    ∃ now' cl', ∃ n ∈ Q, cl.Goes Q w now now' cl' ∧
      (cl'.nodes n).isLeader = true ∧
      IsMajority Q (cl'.nodes n).members.keySet ∧
      ∀ p ∈ Q, (cl'.nodes p).currentTerm ≤ (cl'.nodes n).currentTerm := by
  have hleader : ∀ p ∈ Q, (cl.nodes p).isLeader = false := fun p hp =>
    (Bool.or_eq_false_iff.mp (hlive p hp)).1
  obtain ⟨n, hn, hlog⟩ := cl.exists_upToDate hne
  obtain ⟨m, hm, hterm⟩ := Q.exists_max_image
    (fun p => (cl.nodes p).currentTerm) hne
  have hcontends : (cl.nodes n).Contends Q n :=
    ⟨hn, hr.id n, by rw [hr.config]; exact hmax n hn, hQ n hn⟩
  -- it is brought to the highest term first, if it is not there
  obtain ⟨now₁, cl₁, hgoes₁, hc₁, hl₁, hf₁⟩ : ∃ now₁ cl₁,
      cl.Goes Q w now now₁ cl₁ ∧ (cl₁.nodes n).Contends Q n ∧
      (cl₁.nodes n).isLeader = false ∧ ∀ p ∈ Q, p ≠ n →
        (cl₁.nodes p).Favours (cl₁.nodes n) (now₁ + w) := by
    have hquiet : ∀ p ∈ Q, ∀ now₁, now ≤ now₁ →
        (cl.nodes p).leaderIsLive (now₁ + w) = false := fun p hp now₁ hle =>
      Node.leaderIsLive_of_le (hlive p hp)
        (hle.trans (Nat.le_add_right now₁ w))
    rcases Nat.lt_or_ge (cl.nodes n).currentTerm (cl.nodes m).currentTerm
      with hlt | hge
    · obtain ⟨cl₁, hgoes₁, hnode, hsame⟩ :=
        hr.learns hcontends (hleader n hn) hm hlt now w
      have hun := Unmoved.follow ((cl.nodes n).asking {n})
        (cl.nodes m).currentTerm none
      refine ⟨_, cl₁, hgoes₁, ?_, ?_, fun p hp hpn => ?_⟩
      · rw [hnode]
        exact ⟨hn, hcontends.id, hcontends.window, hcontends.quorum⟩
      · rw [hnode]
        rfl
      · rw [hnode, hsame p hpn]
        refine ⟨?_, fun t => ?_, hquiet p hp _ hgoes₁.le⟩
        · rw [Node.currentTerm_follow (x := (cl.nodes n).asking {n}) hlt.le]
          exact hterm p hp
        · have hargs : (((cl.nodes n).asking {n}).follow
              (cl.nodes m).currentTerm none).voteArgs t =
              (cl.nodes n).voteArgs t := by
            rw [Node.voteArgs, hun.lastIndex, Storage.lastTerm, hun.log,
              Storage.snapshotTerm, hun.snapshot]
            rfl
          rw [hargs]
          exact hlog p hp t
    · exact ⟨now, cl, .refl now cl, hcontends, hleader n hn, fun p hp _ =>
        ⟨(hterm p hp).trans hge, hlog p hp, hquiet p hp now le_rfl⟩⟩
  obtain ⟨cl', hgoes', hwon, hle⟩ :=
    (hr.goes hgoes₁).campaign hc₁ hl₁ hf₁
  refine ⟨_, cl', n, hn, hgoes₁.trans hgoes', hwon.leads, ?_, fun p hp => ?_⟩
  · rw [hwon.members]
    exact hc₁.quorum
  · by_cases hpn : p = n
    · rw [hpn]
    · rw [hwon.term]
      exact hle p hp hpn

end RustKV
