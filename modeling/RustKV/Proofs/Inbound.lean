import RustKV.Proofs.Apply

/-!
# Answering RPCs

What a node does with a RequestVote, an AppendEntries and an InstallSnapshot,
given only that the message is one the history vouches for. The answers are
records: a granted vote, an acknowledged part of a leader's log, a leader
heard.

The AppendEntries walk is read off the uncompacted log. Up to where the walk
has come, the node's log and the leader's agree; compacted entries agree
because they are committed and the leader of the term holds everything
committed. The walk ends with the whole batch matched, at the end of the
node's log, or at a conflict above the commit index, and in each case the
node ends with the splice of the leader's log into its own.
-/

namespace RustKV

open Rust Prog NodeM Consensus History

variable {V : Type} {M : StateMachine V} {D : Deployment}
  {H H' : Hist V} {F F' : List (LogEntry V)} {s : Start M} {c : Ctx M}

/-! ## Votes -/

theorem logUpToDate_iff {n : NodeId} {x : Node M} (h : Body D n F x)
    {args : RequestVoteArgs} {L : List (LogEntry V)}
    (hi : args.lastLogIndex = L.length)
    (ht : args.lastLogTerm = (rules D).lastTerm L) :
    x.logUpToDate args = true ↔ (rules D).UpToDate L F := by
  rw [Node.logUpToDate, decide_eq_true_eq, h.repr.lastTerm (D := D),
    h.repr.lastIndex, hi, ht, Rules.UpToDate]

theorem At.grant (h : At D s H F c) {candidate : NodeId}
    {L : List (LogEntry V)}
    (hc : H.cand candidate c.node.currentTerm = some L)
    (hup : (rules D).UpToDate L F)
    (hv : c.node.storage.hardState.votedFor = none ∨
      c.node.storage.hardState.votedFor = some candidate) :
    ∃ H', (∃ K, H'.vote s.id c.node.currentTerm = some (candidate, K)) ∧
      At D s H' F ⟨{ c.node with
        storage := c.node.storage.saveHardState
          ⟨c.node.currentTerm, some candidate⟩ }, c.out⟩ := by
  obtain ⟨H', hf, hs, hsame, hvote, hinv⟩ := h.inv.grant h.sound hc hup hv
  refine ⟨H', hvote, ?_⟩
  have hm : Moved s H' F { c.node with
      storage := c.node.storage.saveHardState
        ⟨c.node.currentTerm, some candidate⟩ } :=
    h.moved.stay hf.toLe hsame.heard le_rfl le_rfl
      (fun hp => .inl ⟨hp, rfl⟩) (fun hp => .inl ⟨hp, rfl⟩)
  exact h.quiet hf hs (fun t k m hk => by rwa [hsame.commit] at hk) hinv hm
    (h.created.same hsame.tlog)

theorem decideVote_spec (h : At D s H F c) {args : RequestVoteArgs}
    {L : List (LogEntry V)} (hterm : args.term ≤ c.node.currentTerm)
    (hc : H.cand args.candidateId args.term = some L)
    (hi : args.lastLogIndex = L.length)
    (ht : args.lastLogTerm = (rules D).lastTerm L) :
    wp (decideVote args) (fun r c' => ∃ H', At D s H' F c' ∧
      (r.voteGranted = true → ∃ K,
        H'.vote s.id args.term = some (args.candidateId, K))) c := by
  simp only [decideVote, wp_bind, wp_node, wp_ite, wp_update, wp_pure]
  refine ⟨fun _ => ⟨H, h, fun hg => by cases hg⟩, fun hnlt =>
    ⟨fun hvote => ?_, fun _ => ⟨H, h, fun hg => by cases hg⟩⟩⟩
  have heq : args.term = c.node.currentTerm := by omega
  rw [heq] at hc ⊢
  obtain ⟨H', hK, hat⟩ := h.grant hc
    ((logUpToDate_iff h.inv.body hi ht).mp hvote.2) hvote.1
  exact ⟨H', hat, fun _ => hK⟩

theorem handleRequestVote_spec (h : At D s H F c) {args : RequestVoteArgs}
    {L : List (LogEntry V)}
    (hc : H.cand args.candidateId args.term = some L)
    (hi : args.lastLogIndex = L.length)
    (ht : args.lastLogTerm = (rules D).lastTerm L) :
    wp (handleRequestVote args) (fun r c' => ∃ H', At D s H' F c' ∧
      (r.voteGranted = true → ∃ K,
        H'.vote s.id args.term = some (args.candidateId, K))) c := by
  simp only [handleRequestVote, wp_bind, wp_node, wp_ite]
  refine ⟨fun hgt => ?_, fun hle => decideVote_spec h (by omega) hc hi ht⟩
  refine wp_mono (becomeFollower_spec h hgt.le) fun _ c₁ h₁ => ?_
  exact decideVote_spec h₁.1 h₁.2.2.1.ge hc hi ht

/-! ## Acknowledging a leader -/

theorem At.heard (h : At D s H F c) {m : NodeId} {t q : Nat}
    (hq : q ≤ H.seq m t) (ht : s.node.currentTerm ≤ t) :
    At D s (H.addHeard m t s.id q) F c := by
  have hf : Frame s.id H (H.addHeard m t s.id q) := addHeard_frame s.id
  have hx := h.inv
  have hinv : NodeInv D (H.addHeard m t s.id q) s.id F c.node :=
    { body := hx.body
      members := hx.members
      waiting := hx.waiting
      ok := hx.ok.addHeard m s.id t q
      role := hx.role.mono hf.toLe rfl
      seq := hx.seq
      applied := hx.applied
      uncommitted := hx.uncommitted }
  have hm : Moved s (H.addHeard m t s.id q) F c.node :=
    h.moved.next hf.toLe le_rfl le_rfl (fun hp => .inl ⟨hp, rfl⟩)
      (fun hp => .inl ⟨hp, rfl⟩)
      (fun m' t' v q' hq' => by
        rcases hq' with hq' | ⟨-, rfl, rfl, -⟩
        · exact .inl hq'
        · exact .inr ⟨rfl, ht⟩)
      (fun e he => .inl he) (fun _ hp _ => hp)
  exact h.quiet hf ⟨h.sound.wf.addHeard hq, h.sound.indexed⟩
    (fun _ _ _ hk => hk) hinv hm (h.created.same rfl)

/-! ## The walk over a batch -/

theorem NodeInv.take_tlog {n : NodeId} {x : Node M} {k : Nat}
    {y : NodeId × List (LogEntry V)} (h : NodeInv D H n F x)
    (hs : Sound D H) (hl : H.led x.currentTerm = some y)
    (hk : k ≤ x.commitIndex) :
    F.take k = (H.tlog x.currentTerm).take k := by
  have hpre : F.take x.commitIndex <+: H.tlog x.currentTerm :=
    hs.wf.committed_tlog hl h.committed
  have hc := h.body.commit_le
  rw [take_eq_of_isPrefix hpre (by rw [List.length_take]; omega),
    List.take_take, Nat.min_eq_left hk]

theorem slice_cons {L rest : List (LogEntry V)} {e : LogEntry V} {p : Nat}
    (h : e :: rest = (L.drop p).take (rest.length + 1)) :
    L[p]? = some e ∧ rest = (L.drop (p + 1)).take rest.length := by
  have hp : p < L.length := by
    by_contra hge
    rw [List.drop_eq_nil_of_le (by omega)] at h
    simp at h
  rw [List.drop_eq_getElem_cons hp, List.take_succ_cons] at h
  injection h with h1 h2
  exact ⟨by rw [List.getElem?_eq_getElem hp, h1], h2⟩

/-- The node of `c₁` with its log cut down to `G`: some proposals refused,
the rest still in the log; membership not yet looked at. -/
structure Cut (G : List (LogEntry V)) (c₁ c : Ctx M) : Prop where
  node : ∃ S pending,
    c.node = { c₁.node with storage := S, pending := pending } ∧
    Represents M S G ∧ S.hardState = c₁.node.storage.hardState ∧
    S.snapshotIndex = c₁.node.storage.snapshotIndex ∧
    ∀ p ∈ pending, p ∈ c₁.node.pending ∧ termAt G p.index = some p.term
  out : ∃ os, c.out = c₁.out ++ os ∧ ∀ o ∈ os, ∃ p ∈ c₁.node.pending,
    o = .committed p.term p.index false ∧ termAt G p.index ≠ some p.term

theorem At.cut_refl (h : At D s H F c) : Cut F c c where
  node := ⟨_, _, rfl, h.inv.body.repr, rfl, rfl,
    fun p hp => ⟨hp, (h.inv.waiting p hp).2⟩⟩
  out := ⟨[], by simp, by simp⟩

/-- Cutting the log above the commit index and telling whom it concerns. -/
theorem At.truncate (h : At D s H F c) {q : Nat}
    (hq : c.node.commitIndex ≤ q) (hqF : q < F.length) :
    ∃ S', c.node.storage.truncateFrom (q + 1) = .ok S' ∧
      wp resolvePending (fun _ c' => Cut (F.take q) c c')
        ⟨{ c.node with storage := S' }, c.out⟩ := by
  have hx := h.inv
  have hb := hx.body.boundary_le
  have ha := hx.applied
  obtain ⟨S', hS', hrepr, hhs, hsnap⟩ :=
    hx.body.repr.truncateFrom (i := q + 1) (by omega) (by omega)
  have hbound := Storage.snapshotIndex_congr hsnap
  refine ⟨S', hS', ?_⟩
  rw [Nat.add_sub_cancel] at hrepr
  simp only [resolvePending, wp_bind, wp_node, wp_emitAll, wp_update]
  refine ⟨⟨S', _, rfl, hrepr, hhs, hbound, fun p hp => ?_⟩, ⟨_, rfl, ?_⟩⟩
  · obtain ⟨hp, hv⟩ := List.mem_filter.mp hp
    refine ⟨hp, ?_⟩
    rw [Node.verdict] at hv
    split at hv
    · cases hv
    · next heq =>
        rw [not_not] at heq
        exact (hrepr.term_eq_some heq).2
  · intro o ho
    obtain ⟨p, hp, hv⟩ := List.mem_filterMap.mp ho
    rw [Node.verdict] at hv
    split at hv
    · next hne =>
        cases hv
        refine ⟨p, hp, rfl, fun hterm => hne ?_⟩
        have hw := (hx.waiting p hp).1
        rwa [hrepr.term (by omega)]
    · have hun := hx.uncommitted p hp
      simp only [ge_iff_le] at hv
      rw [if_neg (by omega)] at hv
      cases hv

/-- How the walk over a batch of `m` entries after position `p` ends: the
batch matched, or matched up to `q` with the log cut there. `T` is the log of
the leader the batch is from. -/
def Walked (F T : List (LogEntry V)) (p m : Nat) (c : Ctx M)
    (r : Option Nat × Bool) (c' : Ctx M) : Prop :=
  (r = (none, false) ∧ c' = c ∧ T.take (p + m) <+: F) ∨
  ∃ q, p ≤ q ∧ q < p + m ∧ r.1 = some (q + 1) ∧ q ≤ F.length ∧
    F.take q = T.take q ∧ termAt F (q + 1) ≠ termAt T (q + 1) ∧
    Cut (F.take q) c c' ∧
    (r.2 = false → ∀ e ∈ F.drop q, e.configChange? = none)

theorem Walked.cons {T : List (LogEntry V)} {p m : Nat}
    {r : Option Nat × Bool} {c' : Ctx M}
    (h : Walked F T (p + 1) m c r c') :
    Walked F T p (m + 1) c r c' := by
  have harith : p + (m + 1) = p + 1 + m := by omega
  unfold Walked
  rw [harith]
  rcases h with h | ⟨q, hpq, h⟩
  · exact .inl h
  · exact .inr ⟨q, by omega, h⟩

theorem walkEntries_spec (h : At D s H F c) {y : NodeId × List (LogEntry V)}
    (hl : H.led c.node.currentTerm = some y) {es : List (LogEntry V)}
    {p : Nat} (hw : p + es.length ≤ (H.tlog c.node.currentTerm).length)
    (hes : es = ((H.tlog c.node.currentTerm).drop p).take es.length)
    (hp : p ≤ F.length)
    (hagree : F.take p = (H.tlog c.node.currentTerm).take p) :
    wp (walkEntries es) (fun r c' => Walked F
      (H.tlog c.node.currentTerm) p es.length c r c') c := by
  set T := H.tlog c.node.currentTerm with hT
  have hx := h.inv
  have hb := hx.body.boundary_le
  have ha := hx.applied
  have hcF := hx.body.commit_le
  induction es generalizing p with
  | nil =>
      refine .inl ⟨rfl, rfl, ?_⟩
      rw [List.length_nil, Nat.add_zero, ← hagree]
      exact List.take_prefix _ _
  | cons e rest ih =>
      rw [List.length_cons] at hw hes
      obtain ⟨hTe, hrest⟩ := slice_cons hes
      have hidx : e.index = p + 1 := h.sound.indexed _ p e hTe
      have hnext : p + 1 ≤ F.length → F.take (p + 1) = T.take (p + 1) →
          wp (walkEntries rest) (fun r c' => Walked F T p
            (rest.length + 1) c r c') c := fun hle heq =>
        wp_mono (ih hle (by omega) hrest heq) fun _ _ hr => hr.cons
      simp only [walkEntries, wp_bind, wp_node, wp_ite, List.length_cons]
      refine ⟨fun hlow => ?_, fun hhigh => ?_⟩
      · -- compacted, hence committed, hence what the leader has
        exact hnext (by omega) (hx.take_tlog h.sound hl (by omega))
      · have hterm : c.node.storage.term e.index = termAt F (p + 1) := by
          rw [hidx]
          exact hx.body.repr.term (by omega)
        rw [hterm]
        have hTterm : termAt T (p + 1) = some e.term := by
          rw [termAt_succ, hTe]
          rfl
        cases hF : termAt F (p + 1) with
        | some existing =>
            have hle := le_length_of_termAt hF
            simp only [wp_ite]
            refine ⟨fun heq => ?_, fun hne => ?_⟩
            · exact hnext hle (take_eq_of_termAt hx.ok.valid
                (h.sound.wf.tlog_valid _) (hF.trans (congrArg some heq))
                hTterm)
            · -- a conflict: the committed part is shared, so it lies above
              have hnot : some existing ≠ termAt T (p + 1) := by
                rw [hTterm]
                exact fun heq => hne (Option.some.inj heq)
              have hcommit : c.node.commitIndex ≤ p := by
                by_contra hgt
                have heq := hx.take_tlog h.sound hl (k := p + 1) (by omega)
                have := congrArg (fun L => termAt L (p + 1)) heq
                simp only [termAt_take le_rfl] at this
                rw [hF, ← hT, hTterm] at this
                exact hne (Option.some.inj this)
              obtain ⟨S', hS', hcut⟩ := h.truncate hcommit
                (by omega : p < F.length)
              rw [← hidx] at hS'
              simp only [wp_bind, wp_panicWith, wp_pure, wp_expect hS',
                wp_update]
              refine ⟨fun hle' => absurd hle' (by omega), fun _ => ?_⟩
              refine wp_mono hcut fun _ c' hc' => ?_
              refine .inr ⟨p, le_rfl, by omega, by rw [hidx], hp, hagree,
                by rwa [hF], hc', fun hflag y hy => ?_⟩
              by_contra hcfg
              have h1 := hx.body.repr.indexed.lt_of_mem_drop hy
              have h2 := hx.members.index.le y (List.mem_of_mem_drop hy)
                hcfg
              have h3 := of_decide_eq_false hflag
              rcases le_max_iff.mp h2 with h2 | h2 <;> omega
        | none =>
            have hlen : F.length = p := by
              by_contra hne
              rw [termAt_succ, List.getElem?_eq_getElem (by omega)] at hF
              cases hF
            simp only [wp_pure]
            have htake : F.take p = F := by rw [← hlen, List.take_length]
            refine .inr ⟨p, le_rfl, by omega, by rw [hidx], hp, hagree, ?_,
              ?_, fun _ y hy => ?_⟩
            · rw [hF, hTterm]
              exact (Option.some_ne_none _).symm
            · rw [htake]
              exact h.cut_refl
            · rw [← hlen, List.drop_length] at hy
              cases hy

/-! ## Splicing the batch in -/

theorem wp_adoptMembership {now : Instant} {m : Membership} {i : Nat}
    (hr : c.node.role = .follower) {Q : Unit → Ctx M → Prop} :
    wp (adoptMembership now m i) Q c ↔ Q () ⟨{ c.node with
      members := m
      membersIndex := i
      membershipView := ⟨m, Role.follower.departing.mapValues Prod.snd⟩ },
      c.out⟩ := by
  simp only [adoptMembership, publishMembership, wp_bind, wp_update, hr]

/-- A cut log with the membership in effect brought in line. -/
structure Trimmed (D : Deployment) (n : NodeId) (G : List (LogEntry V))
    (c₁ c : Ctx M) : Prop where
  node : ∃ S pending members index view,
    c.node = { c₁.node with
      storage := S
      pending := pending
      members := members
      membersIndex := index
      membershipView := view } ∧
    Represents M S G ∧ S.hardState = c₁.node.storage.hardState ∧
    S.snapshotIndex = c₁.node.storage.snapshotIndex ∧
    (∀ p ∈ pending, p ∈ c₁.node.pending ∧
      termAt G p.index = some p.term) ∧
    members = membersOf (D.config n) G ∧
    Located G index c₁.node.storage.snapshotIndex
  out : ∃ os, c.out = c₁.out ++ os ∧ ∀ o ∈ os, ∃ p ∈ c₁.node.pending,
    o = .committed p.term p.index false ∧ termAt G p.index ≠ some p.term

theorem rescanMembership_spec {now : Instant} {n : NodeId} {c₁ : Ctx M}
    {G : List (LogEntry V)} (h : Cut G c₁ c)
    (hr : c₁.node.role = .follower)
    (hcfg : c₁.node.config = D.config n) :
    wp (rescanMembership now) (fun _ c' => Trimmed D n G c₁ c') c := by
  obtain ⟨x, out⟩ := c
  obtain ⟨S, pending, hnode, hrepr, hhs, hb, hpend⟩ := h.node
  dsimp only at hnode
  subst hnode
  simp only [rescanMembership, wp_bind, wp_node]
  refine (wp_adoptMembership (by exact hr)).mpr ?_
  refine ⟨⟨S, pending, _, _, _, rfl, hrepr, hhs, hb, hpend, ?_, ?_⟩, h.out⟩
  · rw [hcfg]
    exact deriveMembership_fst hrepr _
  · rw [← hb]
    exact deriveMembership_snd hrepr _

theorem Cut.trimmed {n : NodeId} {c₁ : Ctx M} {q : Nat}
    (h : Cut (F.take q) c₁ c) (hm : MembersOk D n F c₁.node)
    (hnone : ∀ e ∈ F.drop q, e.configChange? = none) :
    Trimmed D n (F.take q) c₁ c := by
  obtain ⟨S, pending, hnode, hrepr, hhs, hb, hpend⟩ := h.node
  refine ⟨⟨S, pending, _, _, _, hnode, hrepr, hhs, hb, hpend, ?_,
    hm.index.take hnone⟩, h.out⟩
  rw [hm.members, membersOf, membersOf, lastConfig_split q,
    lastConfig_eq_none.mpr hnone, Option.none_or]

/-- What a batch appended after `G` does to the membership in effect. -/
theorem newestConfig_membersOf {G es : List (LogEntry V)}
    (hi : Indexed (G ++ es)) (config : RaftConfig) {b index : Nat}
    (hindex : Located G index b) :
    (∀ adopted, newestConfig es = some adopted →
      adopted.1 = membersOf config (G ++ es) ∧
      Located (G ++ es) adopted.2 b) ∧
    (newestConfig es = none →
      membersOf config G = membersOf config (G ++ es) ∧
      Located (G ++ es) index b) := by
  have hfst := newestConfig_fst es
  constructor
  · rintro ⟨m, i⟩ hn
    rw [hn] at hfst
    obtain ⟨x, hx, hcx, hix⟩ := exists_of_newestConfig hn
    refine ⟨?_, fun e he hc => le_max_of_le_left ?_,
      .inr ⟨x, List.mem_append_right _ hx, by simp [hcx], hix⟩⟩
    · rw [membersOf, lastConfig_append, ← hfst]
      rfl
    · have hpw := hi.pairwise
      rw [List.pairwise_append] at hpw
      rcases List.mem_append.mp he with he | he
      · -- everything in front of the batch lies below all of it
        exact (hpw.2.2 e he x hx).trans hix.le
      · exact newestConfig_index hpw.2.1 hn he hc
  · intro hn
    rw [hn] at hfst
    have hnone : lastConfig es = none := hfst.symm
    refine ⟨?_, hindex.append_none (lastConfig_eq_none.mp hnone)⟩
    rw [membersOf, membersOf, lastConfig_append, hnone, Option.none_or]

/-- What every leader since the event started has, the leader of the current
term has. -/
theorem At.shared_tlog (h : At D s H F c) {P : List (LogEntry V)}
    (hl : ∃ y, s.hist.led c.node.currentTerm = some y)
    (hP : s.Shared P c.node.currentTerm) :
    P <+: H.tlog c.node.currentTerm := by
  obtain ⟨y, hl⟩ := hl
  exact (hP _ y h.moved.term_le le_rfl hl).trans (h.frame.tlog _)

/-- A follower took over a leader's first `j` entries: the state it is in
is a good one, whatever the way there. -/
theorem At.accept (h : At D s H F c) (view : MembershipView)
    (hr : c.node.role = .follower)
    {y : NodeId × List (LogEntry V)}
    (hl : H.led c.node.currentTerm = some y)
    (hl₀ : ∃ y, s.hist.led c.node.currentTerm = some y) {j : Nat}
    (hj : j ≤ (H.tlog c.node.currentTerm).length)
    (hF' : F' = spliced ((H.tlog c.node.currentTerm).take j) F)
    (hsrc : ∀ e ∈ F', e ∈ F ∨ s.delivered e)
    (hold : ∀ t i, Output.committed t i false ∈ c.out →
      termAt F' i ≠ some t)
    {S' : Storage V M.Payload} {members' : Membership} {index' : Nat}
    {pending' : List PendingProposal} {os : List (Output M)}
    (hrepr : Represents M S' F')
    (hhs : S'.hardState = c.node.storage.hardState)
    (hb : S'.snapshotIndex = c.node.storage.snapshotIndex)
    (hmem : members' = membersOf (D.config s.id) F')
    (hindex : Located F' index' c.node.storage.snapshotIndex)
    (hpend : ∀ p ∈ pending', p ∈ c.node.pending ∧
      termAt F' p.index = some p.term)
    (hos : ∀ o ∈ os, OutOk D s H F' o) :
    At D s (H.addAck s.id c.node.currentTerm j) F' ⟨{ c.node with
      storage := S'
      members := members'
      membersIndex := index'
      membershipView := view
      pending := pending' }, c.out ++ os⟩ := by
  obtain ⟨hs, -, hinv⟩ := h.inv.accept h.sound hr hl hj hF'
  have hf : Frame s.id H (H.addAck s.id c.node.currentTerm j) := addAck_frame
  refine h.next hf hs (fun _ _ _ hk => hk)
    (hinv S' members' index' pending' view hrepr hhs hb hmem hindex hpend)
    ?_ (h.created.same rfl).append hold
    (fun o ho => (hos o ho).mono hf.toLe)
  refine h.moved.next hf.toLe (by simp only [Node.currentTerm, hhs]; rfl)
    le_rfl (fun hp => by rw [hr] at hp; cases hp)
    (fun hp => by rw [hr] at hp; exact absurd rfl hp)
    (fun _ _ _ _ hq => .inl hq) (fun e he => ?_) (fun P hp hP => ?_)
  · rcases hsrc e he with he | he
    · exact .inl he
    · exact .inr (.inr (.inl he))
  · rw [hF']
    simp only [Node.currentTerm, hhs] at hP
    refine isPrefix_spliced_of ?_ (h.shared_tlog hl₀ hP) hp
    exact List.take_prefix _ _

/-- The batch from position `q` on, behind the leader's first `q` entries,
makes the leader's entries up to the batch's end. -/
theorem AppendOk.batch {src : NodeId} {a : AppendEntriesArgs V}
    (h : AppendOk H src a) {q : Nat} (hq : a.prevLogIndex ≤ q)
    (hq' : q < a.prevLogIndex + a.entries.length) :
    (H.tlog a.term).take q ++ a.entries.drop (q - a.prevLogIndex) =
      (H.tlog a.term).take (a.prevLogIndex + a.entries.length) := by
  have hdrop : a.entries.drop (q - a.prevLogIndex) =
      ((H.tlog a.term).take
        (a.prevLogIndex + a.entries.length)).drop q := by
    rw [List.drop_take]
    conv_lhs => rw [h.entries]
    rw [List.drop_take, List.drop_drop]
    congr 1
    · omega
    · congr 1
      omega
  have htake : (H.tlog a.term).take q = ((H.tlog a.term).take
      (a.prevLogIndex + a.entries.length)).take q := by
    rw [List.take_take, Nat.min_eq_left hq'.le]
  rw [hdrop, htake, List.take_append_drop]

theorem spliced_of_conflict {P : List (LogEntry V)} {q : Nat}
    (hq : q < P.length) (hne : termAt F (q + 1) ≠ termAt P (q + 1)) :
    spliced P F = P :=
  spliced_of_not fun hpre => hne (termAt_isPrefix hpre hq)

/-- A proposal cut off with a conflict is not in the leader's log either. -/
theorem At.cut_off (h : At D s H F c) {t q : Nat} {P : List (LogEntry V)}
    (hP : P <+: H.tlog t) (hne : termAt F (q + 1) ≠ termAt P (q + 1))
    {p : PendingProposal} (hp : p ∈ c.node.pending)
    (hcut : termAt (F.take q) p.index ≠ some p.term) :
    termAt P p.index ≠ some p.term := by
  intro hPp
  have hFp := (h.inv.waiting p hp).2
  have heq : F.take p.index = P.take p.index :=
    take_eq_of_termAt h.inv.ok.valid
      ((h.sound.wf.tlog_valid t).shorten hP) hFp hPp
  have hq : q + 1 ≤ p.index := by
    by_contra hle
    exact hcut ((termAt_take (by omega)).trans hFp)
  apply hne
  rw [← termAt_take hq (L := F), heq, termAt_take hq]

theorem appendFrom_spec {now : Instant} {c₁ : Ctx M} {src : NodeId}
    {a : AppendEntriesArgs V} (h : At D s H F c₁)
    (hr : c₁.node.role = .follower) (ha : AppendOk H src a)
    (hl₀ : ∃ y, s.hist.led a.term = some y)
    (ht : a.term = c₁.node.currentTerm) {q : Nat}
    (hq : a.prevLogIndex ≤ q)
    (hq' : q < a.prevLogIndex + a.entries.length)
    (hagree : F.take q = (H.tlog a.term).take q)
    (hne : termAt F (q + 1) ≠ termAt (H.tlog a.term) (q + 1))
    (hdel : ∀ e ∈ a.entries, s.delivered e)
    (hserv : s.kind = .serving)
    (hpends : ∀ p ∈ c₁.node.pending, p ∈ s.node.pending)
    (hnew : ∀ t i, Output.committed t i false ∉ c₁.out)
    (hc : Trimmed D s.id (F.take q) c₁ c) :
    wp (appendFrom now a (q + 1)) (fun _ c' =>
      At D s (H.addAck s.id a.term (a.prevLogIndex + a.entries.length))
        (spliced ((H.tlog a.term).take
          (a.prevLogIndex + a.entries.length)) F) c' ∧
      c'.node.role = .follower ∧ c'.node.currentTerm = a.term ∧
      c'.node.commitIndex = c₁.node.commitIndex) c := by
  obtain ⟨x, out⟩ := c
  obtain ⟨S, pending, members, index, view, hnode, hrepr, hhs, hb, hpend,
    hmem, hindex⟩ := hc.node
  obtain ⟨os, hout, hos⟩ := hc.out
  dsimp only at hnode hout
  subst hnode hout
  obtain ⟨b, hled⟩ := ha.led
  have hbatch := ha.batch hq hq'
  set P := (H.tlog a.term).take (a.prevLogIndex + a.entries.length) with hP
  have hPpre : P <+: H.tlog a.term := List.take_prefix _ _
  rw [← hagree] at hbatch
  have hidx : Indexed (F.take q ++ a.entries.drop (q - a.prevLogIndex)) := by
    rw [hbatch]
    exact (h.sound.indexed _).shorten hPpre
  obtain ⟨S', hS', hrepr', hhs', hsnap'⟩ := hrepr.append hidx
  rw [hbatch] at hrepr'
  have hb' : S'.snapshotIndex = c₁.node.storage.snapshotIndex :=
    (Storage.snapshotIndex_congr hsnap').trans hb
  have hw := ha.within
  have hPne : termAt F (q + 1) ≠ termAt P (q + 1) := by
    rw [hP, termAt_take (by omega)]
    exact hne
  have hspl : spliced P F = P :=
    spliced_of_conflict (by rw [hP, List.length_take]; omega) hPne
  have hos' : ∀ o ∈ os, OutOk D s H P o := by
    intro o ho
    obtain ⟨p, hp, rfl, hcut⟩ := hos o ho
    exact ⟨hserv, hpends p hp, h.cut_off hPpre hPne hp hcut⟩
  have hsrc : ∀ e ∈ P, e ∈ F ∨ s.delivered e := by
    intro e he
    rw [← hbatch] at he
    rcases List.mem_append.mp he with he | he
    · exact .inl (List.mem_of_mem_take he)
    · exact .inr (hdel e (List.mem_of_mem_drop he))
  have hpend' : ∀ p ∈ pending, p ∈ c₁.node.pending ∧
      termAt P p.index = some p.term := by
    intro p hp
    obtain ⟨h1, h2⟩ := hpend p hp
    refine ⟨h1, ?_⟩
    rw [← hbatch, termAt_isPrefix (List.prefix_append _ _)
      (le_length_of_termAt h2)]
    exact h2
  have hterm : S'.hardState.currentTerm = a.term := by
    rw [hhs', hhs]
    exact ht.symm
  have hF' : P = spliced ((H.tlog c₁.node.currentTerm).take
      (a.prevLogIndex + a.entries.length)) F := by
    rw [← ht, ← hP, hspl]
  have hoff : q + 1 - a.prevLogIndex - 1 = q - a.prevLogIndex := by omega
  have hcfg := newestConfig_membersOf hidx (D.config s.id) hindex
  rw [hbatch] at hcfg
  simp only [appendFrom, wp_bind, wp_node, wp_ite, wp_panicWith,
    wp_checkedSub (show a.prevLogIndex ≤ q + 1 by omega),
    wp_checkedSub (show 1 ≤ q + 1 - a.prevLogIndex by omega), hoff,
    wp_expect hS', wp_update, hspl]
  refine ⟨fun hlt => absurd hlt (by omega), fun _ => ?_⟩
  cases hn : newestConfig (a.entries.drop (q - a.prevLogIndex)) with
  | some adopted =>
      obtain ⟨hm, hi⟩ := hcfg.1 adopted hn
      refine (wp_adoptMembership (by exact hr)).mpr ?_
      refine ⟨?_, hr, hterm, rfl⟩
      rw [ht]
      exact h.accept _ hr (ht ▸ hled) (ht ▸ hl₀) (ht ▸ ha.within) hF' hsrc
        (fun t i ho => absurd ho (hnew t i)) hrepr'
        (hhs'.trans hhs) hb' hm hi hpend' hos'
  | none =>
      obtain ⟨hm, hi⟩ := hcfg.2 hn
      refine ⟨?_, hr, hterm, rfl⟩
      rw [ht]
      exact h.accept _ hr (ht ▸ hled) (ht ▸ hl₀) (ht ▸ ha.within) hF' hsrc
        (fun t i ho => absurd ho (hnew t i)) hrepr'
        (hhs'.trans hhs) hb' (hmem.trans hm) hi hpend' hos'

theorem spliceEntries_spec {now : Instant} {src : NodeId}
    {a : AppendEntriesArgs V} (h : At D s H F c)
    (hserv : s.kind = .serving)
    (hpend : ∀ p ∈ c.node.pending, p ∈ s.node.pending)
    (hnew : ∀ t i, Output.committed t i false ∉ c.out)
    (hr : c.node.role = .follower) (ha : AppendOk H src a)
    (hl₀ : ∃ y, s.hist.led a.term = some y)
    (ht : a.term = c.node.currentTerm)
    (hp : a.prevLogIndex ≤ F.length)
    (hagree : F.take a.prevLogIndex =
      (H.tlog a.term).take a.prevLogIndex)
    (hdel : ∀ e ∈ a.entries, s.delivered e) :
    wp (spliceEntries now a) (fun _ c' =>
      At D s (H.addAck s.id a.term (a.prevLogIndex + a.entries.length))
        (spliced ((H.tlog a.term).take
          (a.prevLogIndex + a.entries.length)) F) c' ∧
      c'.node.role = .follower ∧ c'.node.currentTerm = a.term ∧
      c'.node.commitIndex = c.node.commitIndex) c := by
  obtain ⟨b, hled⟩ := ha.led
  have hwalk := walkEntries_spec h (ht ▸ hled) (ht ▸ ha.within)
    (ht ▸ ha.entries) hp (ht ▸ hagree)
  rw [← ht] at hwalk
  simp only [spliceEntries, wp_bind]
  refine wp_mono hwalk fun r c' hw => ?_
  rcases hw with ⟨rfl, rfl, hpre⟩ |
    ⟨q, hq, hq', hfirst, hqF, heq, hne, hcut, hflag⟩
  · -- all of it was there already
    have hspl := spliced_of_isPrefix hpre
    rw [hspl]
    refine ⟨?_, hr, ht.symm, rfl⟩
    have hx := h.inv
    have := h.accept c'.node.membershipView hr (ht ▸ hled) (ht ▸ hl₀)
      (ht ▸ ha.within) (by rw [← ht, hspl]) (fun e he => .inl he) h.refused
      hx.body.repr rfl rfl hx.members.members hx.members.index
      (fun p hp => ⟨hp, (hx.waiting p hp).2⟩) (List.forall_mem_nil _)
    rw [List.append_nil, ← ht] at this
    exact this
  · simp only [hfirst, wp_ite, wp_bind]
    refine ⟨fun _ => ?_, fun hf => ?_⟩
    · refine wp_mono (rescanMembership_spec hcut hr h.inv.body.config)
        fun _ c₂ hc₂ => ?_
      exact appendFrom_spec h hr ha hl₀ ht hq hq' heq hne hdel hserv hpend
        hnew hc₂
    · exact appendFrom_spec h hr ha hl₀ ht hq hq' heq hne hdel hserv hpend
        hnew (hcut.trimmed h.inv.members (hflag (by simpa using hf)))

/-! ## AppendEntries -/

/-- The consistency check passes only where the logs agree. -/
theorem NodeInv.prevMatches {n src : NodeId} {x : Node M}
    {a : AppendEntriesArgs V} (h : NodeInv D H n F x) (hs : Sound D H)
    (ha : AppendOk H src a) (ht : a.term = x.currentTerm)
    (hm : x.prevMatches a = true) :
    a.prevLogIndex ≤ F.length ∧
      F.take a.prevLogIndex = (H.tlog a.term).take a.prevLogIndex := by
  have hb := h.body.boundary_le
  have happ := h.applied
  have hcF := h.body.commit_le
  obtain ⟨b, hled⟩ := ha.led
  rw [Node.prevMatches] at hm
  split at hm
  · next term hterm =>
      obtain ⟨-, hF⟩ := h.body.repr.term_eq_some hterm
      rw [of_decide_eq_true hm] at hF
      exact ⟨le_length_of_termAt hF,
        take_eq_of_termAt h.ok.valid (hs.wf.tlog_valid _) hF ha.prev⟩
  · have hlt := of_decide_eq_true hm
    refine ⟨by omega, ?_⟩
    rw [ht]
    exact h.take_tlog hs (ht ▸ hled) (by omega)

/-- The leader's commit index, as far as the batch reached. -/
theorem commitVerified_spec {src : NodeId} {a : AppendEntriesArgs V}
    (h : At D s H F c) (hr : c.node.role = .follower)
    (ha : AppendOk H src a) (ht : a.term = c.node.currentTerm)
    (hpre : (H.tlog a.term).take
      (a.prevLogIndex + a.entries.length) <+: F) :
    wp (commitVerified a) (fun _ c' => At D s H F c') c := by
  simp only [commitVerified, wp_bind, wp_node, wp_ite, wp_update, wp_pure]
  refine ⟨fun hgt => applyCommitted_spec ?_, fun _ => h⟩
  have hw := ha.within
  generalize hk : min a.leaderCommit (a.prevLogIndex + a.entries.length) = k
    at hgt ⊢
  have hk1 : k ≤ a.leaderCommit := by omega
  have hk2 : k ≤ a.prevLogIndex + a.entries.length := by omega
  have hlen : ((H.tlog a.term).take
      (a.prevLogIndex + a.entries.length)).length =
        a.prevLogIndex + a.entries.length := by
    rw [List.length_take]
    omega
  have htake : F.take k = (H.tlog a.term).take k := by
    rw [take_eq_of_isPrefix hpre (by omega), List.take_take,
      Nat.min_eq_left hk2]
  have hcommitted : H.CommittedAt c.node.currentTerm (F.take k) := by
    rw [← ht, htake]
    refine ha.committed.shorten ?_
    exact List.take_prefix_take_left hk1
  have hkF : k ≤ F.length := hk2.trans (hlen ▸ hpre.length_le)
  exact
    { frame := h.frame
      sound := h.sound
      moved := ⟨h.moved.term_le, h.moved.applied_le, h.moved.leader,
        h.moved.reads, h.moved.heard, h.moved.log,
        h.moved.kept⟩
      created := h.created
      out := h.out
      inv := h.inv.learn (by rw [hr]; decide) hgt hkF hcommitted
      fresh := fun e he => (h.fresh e he).imp id .inl }

theorem handleAppendEntries_spec {now : Instant} {src : NodeId}
    {a : AppendEntriesArgs V} {q : Nat} (h : At D s H F c)
    (hserv : s.kind = .serving) (hc : c = ⟨s.node, []⟩)
    (ha : AppendOk H src a) (hl₀ : ∃ y, s.hist.led a.term = some y)
    (hq : q ≤ H.seq src a.term)
    (hdel : s.node.currentTerm ≤ a.term →
      ∀ e ∈ a.entries, s.delivered e) :
    wp (handleAppendEntries now a) (fun r c' => ∃ H' F', At D s H' F' c' ∧
      a.term ≤ r.term ∧
      (r.success = true →
        H'.ack s.id a.term (a.prevLogIndex + a.entries.length)) ∧
      (r.term = a.term → H'.heard src a.term s.id q)) c := by
  simp only [handleAppendEntries, wp_bind, wp_node, wp_ite, wp_update,
    wp_pure]
  refine ⟨fun hlt => ⟨H, F, h, hlt.le, Bool.noConfusion,
    fun heq => absurd heq (Nat.ne_of_gt hlt)⟩, fun hge => ?_⟩
  subst hc
  have hterm : s.node.currentTerm ≤ a.term := Nat.le_of_not_lt hge
  refine wp_mono (becomeFollower_spec h hterm) fun _ c₁ h₁ => ?_
  obtain ⟨hat₁, hr, ht, hp₁, hnew⟩ := h₁
  have hat := (hat₁.cosmetic c₁.node.leaderId c₁.node.membershipView
    (some now)).heard hq hterm
  have ha' : AppendOk (H.addHeard src a.term s.id q) src a :=
    ha.mono (addHeard_frame s.id).toLe
  have hheard : (H.addHeard src a.term s.id q).heard src a.term s.id q :=
    .inr ⟨rfl, rfl, rfl, rfl⟩
  have ht' : a.term = ({ c₁.node with lastLeaderContact := some now } :
    Node M).currentTerm := ht.symm
  refine ⟨fun _ => ⟨_, F, hat, ht'.le, Bool.noConfusion, fun _ => hheard⟩,
    fun hm => ?_⟩
  obtain ⟨hp, hagree⟩ := hat.inv.prevMatches hat.sound ha' ht'
    (by simpa using hm)
  refine wp_mono (spliceEntries_spec hat hserv
    (fun p hp => by rw [← hp₁]; exact hp)
    (fun t i ho => absurd (hnew t i ho) (List.not_mem_nil)) hr ha' hl₀ ht' hp
    hagree (hdel hterm)) fun _ c₂ h₂ => ?_
  obtain ⟨hat₂, hr₂, ht₂, -⟩ := h₂
  refine wp_mono (commitVerified_spec hat₂ hr₂
    (ha'.mono addAck_frame.toLe) ht₂.symm (isPrefix_spliced _ _))
    fun _ c₃ h₃ => ?_
  exact ⟨_, _, h₃, ht'.le, fun _ => .inr ⟨rfl, rfl, le_rfl⟩,
    fun _ => hheard⟩

/-! ## InstallSnapshot -/

theorem At.hold (h : At D s H F c) (hr : c.node.role = .follower)
    {y : NodeId × List (LogEntry V)}
    (hl : H.led c.node.currentTerm = some y)
    (hl₀ : ∃ y, s.hist.led c.node.currentTerm = some y)
    {P : List (LogEntry V)}
    (hP : P <+: H.tlog c.node.currentTerm) (hF : P <+: F) :
    At D s (H.addAck s.id c.node.currentTerm P.length) F c := by
  have hx := h.inv
  have htake : (H.tlog c.node.currentTerm).take P.length = P := by
    rw [take_eq_of_isPrefix hP le_rfl, List.take_length]
  have := h.accept c.node.membershipView hr hl hl₀ hP.length_le
    (by rw [htake, spliced_of_isPrefix hF]) (fun e he => .inl he) h.refused
    hx.body.repr rfl rfl hx.members.members hx.members.index
    (fun p hp => ⟨hp, (hx.waiting p hp).2⟩) (List.forall_mem_nil _)
  rwa [List.append_nil] at this

/-- What the storage ends up standing for is the splice. -/
theorem NodeInv.installed {n src : NodeId} {x : Node M}
    {a : InstallSnapshotArgs M.Payload} {P : List (LogEntry V)}
    (h : NodeInv D H n F x) (hs : Sound D H) (ha : InstallOk M H src a P)
    (hlt : x.commitIndex < P.length) :
    ∃ S', x.storage.installSnapshot a.snapshot = .ok S' ∧
      Represents M S' (spliced P F) ∧
      S'.hardState = x.storage.hardState ∧ S'.snapshotIndex = P.length := by
  have hb := h.body.boundary_le
  have happ := h.applied
  have hterm : termAt P P.length = some a.snapshot.lastIncludedTerm :=
    ha.snapshot.term
  have hagree : termAt F P.length = some a.snapshot.lastIncludedTerm →
      P <+: F := by
    intro hF
    have heq : F.take P.length = P.take P.length :=
      take_eq_of_termAt h.ok.valid
        ((hs.wf.tlog_valid _).shorten ha.log) hF hterm
    rw [List.take_length] at heq
    rw [← heq]
    exact List.take_prefix _ _
  obtain ⟨S', hS', hrepr, hhs, hidx⟩ := h.body.repr.installSnapshot
    ha.snapshot ((hs.indexed _).shorten ha.log) (by omega) hagree
  refine ⟨S', hS', ?_, hhs, hidx⟩
  by_cases hF : termAt F P.length = some a.snapshot.lastIncludedTerm
  · rwa [if_pos hF, ← spliced_of_isPrefix (hagree hF)] at hrepr
  · have hnot : ¬ P <+: F := fun hpre =>
      hF ((termAt_isPrefix hpre le_rfl).trans hterm)
    rwa [if_neg hF, ← spliced_of_not hnot] at hrepr

theorem mem_spliced {P : List (LogEntry V)} {e : LogEntry V}
    (h : e ∈ spliced P F) : e ∈ F ∨ e ∈ P := by
  by_cases hp : P <+: F
  · rw [spliced_of_isPrefix hp] at h
    exact .inl h
  · rw [spliced_of_not hp] at h
    exact .inr h

theorem adoptSnapshot_spec {now : Instant} {src : NodeId}
    {a : InstallSnapshotArgs M.Payload} {P : List (LogEntry V)}
    (h : At D s H F c) (hserv : s.kind = .serving)
    (hpend : ∀ p ∈ c.node.pending, p ∈ s.node.pending)
    (hnew : ∀ t i, Output.committed t i false ∉ c.out)
    (hr : c.node.role = .follower) (ha : InstallOk M H src a P)
    (ht : a.term = c.node.currentTerm)
    (hlt : c.node.commitIndex < P.length)
    (hl₀ : ∃ y, s.hist.led a.term = some y)
    (hcom : s.hist.CommittedAt a.term P)
    (hdel : ∀ e ∈ P, s.delivered e) :
    wp (adoptSnapshot now a.snapshot) (fun _ c' =>
      At D s (H.addAck s.id a.term P.length) (spliced P F) c') c := by
  have hx := h.inv
  have hidx := ha.snapshot.index
  obtain ⟨b, hled⟩ := ha.led
  obtain ⟨S', hS', hrepr, hhs, hb⟩ := hx.installed h.sound ha hlt
  have hrestore : M.restore a.snapshot.state = some (M.replay P) := by
    rw [ha.snapshot.state, M.restore_snapshot]
  obtain ⟨hs, hinv⟩ := hx.install h.sound hr (ht ▸ hled) (ht ▸ ha.log)
    (ht ▸ ha.committed) hlt rfl
  have hf : Frame s.id H (H.addAck s.id c.node.currentTerm P.length) :=
    addAck_frame
  simp only [adoptSnapshot, rescanMembership, wp_bind, wp_node,
    wp_expect hS', wp_unwrap hrestore, wp_update]
  refine (wp_adoptMembership (by exact hr)).mpr ?_
  simp only [resolvePending, wp_bind, wp_node, wp_emitAll, wp_update]
  rw [ht, List.append_assoc]
  simp only [hidx]
  refine h.next hf hs (fun _ _ _ hk => hk) ?_ ?_
    (h.created.same rfl).append (fun t i ho => absurd ho (hnew t i)) ?_
  · refine hinv S' _ _ _ _ hrepr hhs hb ?_ ?_ ?_
    · rw [hx.body.config]
      exact deriveMembership_fst hrepr _
    · rw [← hb]
      exact deriveMembership_snd hrepr _
    · intro p hp
      obtain ⟨hp, hv⟩ := List.mem_filter.mp hp
      obtain ⟨hp, hhigh⟩ := List.mem_filter.mp hp
      have hhigh := of_decide_eq_true hhigh
      refine ⟨hp, hhigh, ?_⟩
      rw [Node.verdict] at hv
      split at hv
      · cases hv
      · next heq =>
          rw [not_not] at heq
          exact (hrepr.term_eq_some heq).2
  · have happ := hx.applied
    refine h.moved.next hf.toLe (by simp only [Node.currentTerm, hhs]; rfl)
      (by simp only; omega) (fun hp => by rw [hr] at hp; cases hp)
      (fun hp => by rw [hr] at hp; exact absurd rfl hp)
      (fun _ _ _ _ hq => .inl hq) (fun e he => ?_) (fun K hp hK => ?_)
    · rcases mem_spliced he with he | he
      · exact .inl he
      · exact .inr (.inr (.inl (hdel e he)))
    · simp only [Node.currentTerm, hhs] at hK
      exact isPrefix_spliced_of ha.log
        (ht ▸ h.shared_tlog (ht ▸ hl₀) hK) hp
  · intro o ho
    rcases List.mem_append.mp ho with ho | ho
    · obtain ⟨p, hp, rfl⟩ := List.mem_map.mp ho
      obtain ⟨hp, hle⟩ := List.mem_filter.mp hp
      exact ⟨hpend p hp, .inr ⟨a.term, P, hcom, of_decide_eq_true hle⟩⟩
    · obtain ⟨p, hp, hv⟩ := List.mem_filterMap.mp ho
      obtain ⟨hp, hhigh⟩ := List.mem_filter.mp hp
      have hhigh := of_decide_eq_true hhigh
      rw [Node.verdict] at hv
      split at hv
      · next hne =>
          cases hv
          refine ⟨hserv, hpend p hp, fun hterm => hne ?_⟩
          rwa [hrepr.term (by omega)]
      · simp only [ge_iff_le] at hv
        rw [if_neg (by omega)] at hv
        cases hv

theorem handleInstallSnapshot_spec {now : Instant} {src : NodeId}
    {a : InstallSnapshotArgs M.Payload} {P : List (LogEntry V)}
    (h : At D s H F c) (hserv : s.kind = .serving)
    (hc : c = ⟨s.node, []⟩) (ha : InstallOk M H src a P)
    (hl₀ : ∃ y, s.hist.led a.term = some y)
    (hcom : s.hist.CommittedAt a.term P)
    (hdel : ∀ e ∈ P, s.delivered e) :
    wp (handleInstallSnapshot now a) (fun r c' => ∃ H' F',
      At D s H' F' c' ∧ a.term ≤ r.term ∧ (r.term = a.term →
        H'.ack s.id a.term a.snapshot.lastIncludedIndex)) c := by
  have hidx := ha.snapshot.index
  obtain ⟨b, hled⟩ := ha.led
  simp only [handleInstallSnapshot, wp_bind, wp_node, wp_ite, wp_update,
    wp_pure]
  refine ⟨fun hlt => ⟨H, F, h, hlt.le,
    fun heq => absurd heq (Nat.ne_of_gt hlt)⟩, fun hge => ?_⟩
  subst hc
  refine wp_mono (becomeFollower_spec h (Nat.le_of_not_lt hge))
    fun _ c₁ h₁ => ?_
  obtain ⟨hat₁, hr, ht, hp₁, hnew⟩ := h₁
  have hat := hat₁.cosmetic c₁.node.leaderId c₁.node.membershipView
    (some now)
  set x : Node M := { c₁.node with lastLeaderContact := some now } with hx
  have ht' : x.currentTerm = a.term := ht
  have hpend : ∀ p ∈ x.pending, p ∈ s.node.pending := by
    intro p hp
    rw [← hp₁]
    exact hp
  have hinv := hat.inv
  have hack : (H.addAck s.id a.term P.length).ack s.id a.term
      a.snapshot.lastIncludedIndex := .inr ⟨rfl, rfl, hidx.le⟩
  refine ⟨fun hle => ?_, fun hgt => ?_⟩
  · -- everything up to the boundary is committed here already
    refine ⟨_, F, hat.hold hr (ht' ▸ hled) (ht' ▸ hl₀) (ht' ▸ ha.log) ?_,
      ht'.ge, fun _ => ht' ▸ hack⟩
    have heq := hinv.take_tlog hat.sound (ht' ▸ hled) (k := P.length)
      (by rw [← hidx]; exact hle)
    have hPtake : (H.tlog x.currentTerm).take P.length = P := by
      rw [ht', take_eq_of_isPrefix ha.log le_rfl, List.take_length]
    rw [hPtake] at heq
    rw [← heq]
    exact List.take_prefix _ _
  · refine wp_mono (adoptSnapshot_spec hat hserv hpend
      (fun t i ho => absurd (hnew t i ho) (List.not_mem_nil)) hr ha
      ht'.symm ?_ hl₀ hcom hdel)
      fun _ c₂ h₂ => ⟨_, _, h₂, ht'.ge, fun _ => hack⟩
    rw [← hidx]
    exact Nat.lt_of_not_le hgt

end RustKV
