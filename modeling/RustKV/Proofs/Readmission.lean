import RustKV.Proofs.Leadership

/-!
# Peers that come back

`adopt_membership` gives a new member a contact time of its own unless there
is one already, and touches neither the match index nor the acknowledged
round. For a peer the leadership has not seen that is a fresh start. For one
that was removed earlier in the same leadership it is not: what it answered
then still counts (`fresh_bookkeeping_iff`). The availability guard of
`validate_config_change` reads the same maps, and takes a peer it has just
removed for one it can reach (`single_node_rejects_iff`).
-/

namespace RustKV

open Rust Consensus

variable {V : Type} {M : StateMachine V} {D : Deployment} {run : Run D M}
  {now : Instant} {x : Node M}

/-! ## Adding a peer -/

/-- Nothing is on record for `p` but that it was heard of at `now`. -/
def LeaderState.Fresh (l : LeaderState) (p : NodeId) (now : Instant) : Prop :=
  (l.matchIndex p).getD 0 = 0 ∧ l.ackedSeq p = none ∧
    l.lastContact p = some now

instance (l : LeaderState) (p : NodeId) (now : Instant) :
    Decidable (l.Fresh p now) :=
  inferInstanceAs (Decidable (_ ∧ _ ∧ _))

/-- By state `i`, `p` has answered something that `n` sent it as the leader of
term `t`. Such an answer may still be on its way. -/
def Run.HasAnswered (run : Run D M) (i : ℕ) (n p : NodeId) (t : ℕ) : Prop :=
  ∃ r ∈ (run.state i).replies, r.rpc.src = n ∧ r.rpc.dst = p ∧
    r.rpc.tag.Replicates t

theorem Run.memberSince_of_hasAnswered (run : Run D M) {i t : ℕ}
    {n p : NodeId} (hlead : run.Leads i n t) (h : run.HasAnswered i n p t) :
    run.MemberSince n t i p := by
  obtain ⟨r, hr, hsrc, rfl, ht⟩ := h
  exact (run.known_members hlead).2 _ (run.replies_sent i r hr) hsrc ht

/-- Adopting a configuration with the peer `p` in it leaves nothing on record
for `p` from before exactly if `p` has not been a member in this leadership,
or there was nothing before it, at this very instant. -/
theorem Run.fresh_adopt_iff (run : Run D M) {i : ℕ} {n p : NodeId}
    {l : LeaderState} (hl : ((run.state i).nodes n).role = .leader l)
    {new : Membership} (hnew : p ∈ new.keySet) (hp : p ≠ n)
    (index : Nat) (now : Instant) :
    (l.adopt n ((run.state i).nodes n).members new index now).Fresh p now ↔
      ¬ run.MemberSince n ((run.state i).nodes n).currentTerm i p ∨
        l.Fresh p now := by
  have hrooted := run.rooted i n l hl
  have hcontact : (l.adopt n ((run.state i).nodes n).members new index
      now).lastContact p = some ((l.lastContact p).getD now) := by
    simp only [LeaderState.adopt]
    rw [if_pos ⟨BTreeMap.containsKey_iff.mpr hnew, hp⟩]
  rw [← run.contact_iff hl hp, not_not]
  constructor
  · rintro ⟨hm, ha, hc⟩
    rw [hcontact] at hc
    cases hx : l.lastContact p with
    | none => exact .inl rfl
    | some at_ =>
        rw [hx] at hc
        exact .inr ⟨hm, ha, hx.trans hc⟩
  · rintro (hnone | ⟨hm, ha, hc⟩)
    · refine ⟨?_, ?_, by rw [hcontact, hnone]; rfl⟩
      · by_contra h
        exact hrooted.matched p h hnone
      · by_contra h
        exact hrooted.acked p h hnone
    · exact ⟨hm, ha, by rw [hcontact, hc]; rfl⟩

/-- Adopting a configuration with the peer `p` in it is a fresh start for
`p`, with nothing on record and no answer from before that could still
arrive, exactly if `p` has not been a member in this leadership, or there
was nothing on record at this very instant and it has not answered either.
And after a fresh start every answer of `p` the leader is handed in its term
was given later. -/
theorem fresh_bookkeeping_iff (run : Run D M) {i : ℕ} {n p : NodeId}
    {l : LeaderState} (hl : ((run.state i).nodes n).role = .leader l)
    {new : Membership} (hnew : p ∈ new.keySet) (hp : p ≠ n)
    (index : Nat) (now : Instant) :
    ((l.adopt n ((run.state i).nodes n).members new index now).Fresh p now ∧
        ¬ run.HasAnswered i n p ((run.state i).nodes n).currentTerm ↔
      ¬ run.MemberSince n ((run.state i).nodes n).currentTerm i p ∨
        l.Fresh p now ∧
          ¬ run.HasAnswered i n p ((run.state i).nodes n).currentTerm) ∧
    (¬ run.HasAnswered i n p ((run.state i).nodes n).currentTerm →
      ∀ k j at_ r, i ≤ k → run.action k = .reply j at_ →
        (run.state k).replies[j]? = some r → r.rpc.src = n →
        r.rpc.dst = p →
        r.rpc.tag.Replicates ((run.state i).nodes n).currentTerm →
        (run.state i).replies.length ≤ j) := by
  have hlead : run.Leads i n ((run.state i).nodes n).currentTerm :=
    ⟨Node.isLeader_iff.mpr ⟨l, hl⟩, rfl⟩
  constructor
  · rw [run.fresh_adopt_iff hl hnew hp, or_and_right,
      and_iff_left_of_imp fun hnot h =>
        hnot (run.memberSince_of_hasAnswered hlead h)]
  · intro hnot k j at_ r hik _ hr hsrc hdst ht
    by_contra hlt
    obtain ⟨later, hk⟩ := (run.network_grows hik).2
    rw [← hk, List.getElem?_append_left (Nat.lt_of_not_le hlt)] at hr
    exact hnot ⟨r, List.mem_of_getElem? hr, hsrc, hdst, ht⟩

def Role.any (P : LeaderState → Bool) : Role → Bool
  | .leader l => P l
  | _ => false

theorem Role.exists_of_any {P : LeaderState → Bool} {r : Role}
    (h : r.any P = true) : ∃ l, r = .leader l ∧ P l = true := by
  cases r with
  | leader l => exact ⟨l, rfl, h⟩
  | follower => cases h
  | preCandidate votes => cases h
  | candidate votes => cases h

def membersOfIds (ids : List NodeId) : Membership :=
  BTreeMap.collect (ids.map fun id => (id, default))

/-- Node 1 leads a cluster of three in which 3 has answered it; 3 is removed,
and once that is committed, added again. -/
def readdRun : Run (Deployment.ofIds [1, 2, 3] none) (KvStore.machine Nat) :=
  Run.ofActions _ _ [.timeout 1 0, .deliver 0 0, .reply 0 0, .deliver 2 0,
    .reply 1 0, .deliver 4 0, .deliver 5 0, .reply 2 10, .reply 3 10,
    .propose 1 (.configChange (membersOfIds [1, 2])) 20, .deliver 6 20,
    .reply 4 20, .propose 1 (.configChange (membersOfIds [1, 2, 3])) 30]
    (by decide +kernel)

/-- Node 4 has never been a member, and it starts from nothing. -/
theorem fresh_bookkeeping_joiner :
    ∃ l, ((readdRun.state 12).nodes 1).role = .leader l ∧
      4 ∈ (membersOfIds [1, 2, 4]).keySet ∧
      (l.adopt 1 ((readdRun.state 12).nodes 1).members
        (membersOfIds [1, 2, 4]) 3 30).Fresh 4 30 ∧
      ¬ readdRun.HasAnswered 12 1 4
        ((readdRun.state 12).nodes 1).currentTerm ∧
      ¬ readdRun.MemberSince 1 ((readdRun.state 12).nodes 1).currentTerm
        12 4 := by
  have hrec : ((readdRun.state 12).nodes 1).role.any (fun l =>
      (l.adopt 1 ((readdRun.state 12).nodes 1).members
        (membersOfIds [1, 2, 4]) 3 30).Fresh 4 30 ∧ ¬ l.Fresh 4 30) =
      true := by decide +kernel
  obtain ⟨l, hl, hl'⟩ := Role.exists_of_any hrec
  obtain ⟨hfresh, hnot⟩ := of_decide_eq_true hl'
  have hmem : 4 ∈ (membersOfIds [1, 2, 4]).keySet := by decide +kernel
  have hsilent : ¬ readdRun.HasAnswered 12 1 4
      ((readdRun.state 12).nodes 1).currentTerm := by
    have hdst : (readdRun.state 12).replies.all fun r => r.rpc.dst ≠ 4 := by
      decide +kernel
    rintro ⟨r, hr, -, h4, -⟩
    exact of_decide_eq_true (List.all_eq_true.mp hdst r hr) h4
  have hiff := (fresh_bookkeeping_iff readdRun hl hmem (by decide) 3 30).1
  refine ⟨l, hl, hmem, hfresh, hsilent, ?_⟩
  exact (hiff.mp ⟨hfresh, hsilent⟩).resolve_right fun h => hnot h.1

/-- Node 3 was a member before: the configuration that adds it again is
accepted, and what 3 had answered still counts. -/
theorem readded_peer_keeps_record :
    3 ∉ ((readdRun.state 12).nodes 1).members.keySet ∧
      Output.proposeReply (.ok (1, 3)) ∈ (readdRun.effect 12).outputs ∧
      (∃ l, ((readdRun.state 12).nodes 1).role = .leader l ∧
        ¬ (l.adopt 1 ((readdRun.state 12).nodes 1).members
          (membersOfIds [1, 2, 3]) 3 30).Fresh 3 30) ∧
      3 ∈ ((readdRun.state 13).nodes 1).members.keySet ∧
      ∃ l, ((readdRun.state 13).nodes 1).role = .leader l ∧
        l.matchIndex 3 = some 1 ∧ l.ackedSeq 3 = some 0 ∧
        l.lastContact 3 = some 10 := by
  have hbefore : ((readdRun.state 12).nodes 1).role.any (fun l =>
      ¬ (l.adopt 1 ((readdRun.state 12).nodes 1).members
        (membersOfIds [1, 2, 3]) 3 30).Fresh 3 30) = true := by
    decide +kernel
  have hafter : ((readdRun.state 13).nodes 1).role.any (fun l =>
      l.matchIndex 3 = some 1 ∧ l.ackedSeq 3 = some 0 ∧
        l.lastContact 3 = some 10) = true := by decide +kernel
  obtain ⟨l, hl, hnot⟩ := Role.exists_of_any hbefore
  obtain ⟨l', hl', hrec⟩ := Role.exists_of_any hafter
  exact ⟨by decide +kernel, Output.mem_of_same (by decide +kernel),
    ⟨l, hl, of_decide_eq_true hnot⟩, by decide +kernel, l', hl',
    of_decide_eq_true hrec⟩

/-! ## A cluster of one -/

/-- The availability guard: a majority of the new configuration is the node
itself or has answered it lately. -/
theorem validateConfigChange_reachable {x : Node M} {l : LeaderState}
    {now : Instant} {new : Membership}
    (h : x.validateConfigChange l now new = .ok ()) :
    new.keySet.card / 2 + 1 ≤ (new.keySet.filter fun id =>
      id = x.config.id || ((l.ackedSeq id).isSome && Node.heardWithin
        l.lastContact x.config.electionTimeoutMax now id)).card := by
  simp only [Node.validateConfigChange] at h
  split at h
  · cases h
  split at h
  · cases h
  split at h
  · cases h
  split at h
  · cases h
  split at h
  · cases h
  · next h5 =>
      rw [BTreeMap.length_keys_filter, ← BTreeMap.card_keySet] at h5
      exact Nat.le_of_not_lt h5

/-- A peer the leader counts as reachable. -/
def LeaderState.Reaches (l : LeaderState) (window : Duration)
    (now : Instant) (p : NodeId) : Prop :=
  l.ackedSeq p ≠ none ∧ Node.heardWithin l.lastContact window now p = true

theorem validateConfigChange_grow {l : LeaderState} {p : NodeId}
    (hm : x.members.keySet = {x.config.id}) (hp : p ≠ x.config.id)
    (h1 : l.termStartIndex ≤ x.commitIndex)
    (h2 : x.membersIndex ≤ x.commitIndex)
    (hr : l.Reaches x.config.electionTimeoutMax now p) :
    x.validateConfigChange l now (x.members.insert p default) = .ok () := by
  have hnew : (x.members.insert p default).keySet = {p, x.config.id} := by
    rw [BTreeMap.keySet_insert, hm]
  have hcard : (x.members.insert p default).keySet.card = 2 := by
    rw [hnew, Finset.card_pair hp]
  have hadd : (({p, x.config.id} : Finset NodeId) \
      {x.config.id}).card = 1 := by
    rw [Finset.card_eq_one]
    refine ⟨p, ?_⟩
    ext a
    simp only [Finset.mem_sdiff, Finset.mem_insert, Finset.mem_singleton]
    constructor
    · rintro ⟨rfl | h, hne⟩
      · rfl
      · exact absurd h hne
    · rintro rfl
      exact ⟨.inl rfl, hp⟩
  have hrem : (({x.config.id} : Finset NodeId) \
      {p, x.config.id}).card = 0 := by
    simp
  have hall : ((x.members.insert p default).keySet.filter fun id =>
      id = x.config.id || ((l.ackedSeq id).isSome && Node.heardWithin
        l.lastContact x.config.electionTimeoutMax now id)) =
      (x.members.insert p default).keySet := by
    rw [Finset.filter_true_of_mem]
    intro a ha
    rw [hnew, Finset.mem_insert, Finset.mem_singleton] at ha
    rcases ha with rfl | rfl
    · simp [Option.isSome_iff_ne_none.mpr hr.1, hr.2]
    · simp
  rw [Node.validateConfigChange, if_neg (by omega), if_neg (by omega),
    if_neg, if_neg, if_neg]
  · rw [BTreeMap.length_keys_filter, hall, hcard, ← BTreeMap.card_keySet,
      hcard]
    omega
  · rw [length_keys_filter_not_containsKey,
      length_keys_filter_not_containsKey, hnew, hm, hadd, hrem]
    omega
  · rw [BTreeMap.isEmpty_iff, hnew]
    exact (Finset.insert_nonempty _ _).ne_empty

theorem validateConfigChange_alone {l : LeaderState} {new : Membership}
    (hm : x.members.keySet = {x.config.id})
    (hr : ∀ p, p ≠ x.config.id →
      ¬ l.Reaches x.config.electionTimeoutMax now p) :
    x.validateConfigChange l now new ≠ .ok () := by
  intro hok
  obtain ⟨hne, hone⟩ := validateConfigChange_single hok
  have hreach := validateConfigChange_reachable hok
  rw [hm] at hone
  have honly : (new.keySet.filter fun id =>
      id = x.config.id || ((l.ackedSeq id).isSome && Node.heardWithin
        l.lastContact x.config.electionTimeoutMax now id)) ⊆
      {x.config.id} := by
    intro a ha
    rw [Finset.mem_singleton]
    by_contra hna
    have := (Finset.mem_filter.mp ha).2
    simp only [hna, decide_false, Bool.false_or, Bool.and_eq_true] at this
    exact hr a hna ⟨Option.isSome_iff_ne_none.mp this.1, this.2⟩
  have hle := Finset.card_le_card honly
  rw [Finset.card_singleton] at hle
  -- one reachable member is a majority of at most one, and that is itself
  have hcard : new.keySet.card ≤ 1 := by omega
  have hpos := Finset.card_pos.mpr hne
  obtain ⟨a, ha⟩ := Finset.card_eq_one.mp (Nat.le_antisymm hcard hpos)
  rw [ha] at hone
  by_cases haa : a = x.config.id
  · subst haa
    simp at hone
  · have hdisj := Finset.disjoint_singleton.mpr haa
    rw [Finset.sdiff_eq_self_of_disjoint hdisj,
      Finset.sdiff_eq_self_of_disjoint hdisj.symm] at hone
    simp at hone

/-- A leader whose membership is itself alone refuses every configuration
exactly as long as a gate is closed or it reaches nobody else; and it does if
it has been alone since its election. -/
theorem single_node_rejects_iff (run : Run D M) {i : ℕ} {n : NodeId}
    {l : LeaderState} (hl : ((run.state i).nodes n).role = .leader l)
    (hm : ((run.state i).nodes n).members.keySet = {n}) (now : Instant) :
    ((∀ new, ((run.state i).nodes n).validateConfigChange l now new ≠
        .ok ()) ↔
      ((run.state i).nodes n).commitIndex < l.termStartIndex ∨
      ((run.state i).nodes n).commitIndex <
        ((run.state i).nodes n).membersIndex ∨
      ∀ p, p ≠ n → ¬ l.Reaches
        ((run.state i).nodes n).config.electionTimeoutMax now p) ∧
    ((∀ j, j ≤ i → run.Leads j n ((run.state i).nodes n).currentTerm →
        ((run.state j).nodes n).members.keySet = {n}) →
      ∀ new, ((run.state i).nodes n).validateConfigChange l now new ≠
        .ok ()) := by
  obtain ⟨T⟩ := run.exists_trace
  have hid := run.id_eq i n
  have hm' : ((run.state i).nodes n).members.keySet =
      {((run.state i).nodes n).config.id} := by rw [hm, hid]
  have halone : (∀ p, p ≠ n → ¬ l.Reaches
      ((run.state i).nodes n).config.electionTimeoutMax now p) →
      ∀ new, ((run.state i).nodes n).validateConfigChange l now new ≠
        .ok () := fun h new =>
    validateConfigChange_alone hm' fun p hp => h p (hid ▸ hp)
  refine ⟨⟨fun h => ?_, fun h new hok => ?_⟩, fun h => halone fun p hp hr => ?_⟩
  · by_contra hnot
    simp only [not_or, not_lt, not_forall, not_not] at hnot
    obtain ⟨h1, h2, p, hp, hr⟩ := hnot
    exact h _ (validateConfigChange_grow hm' (by rwa [hid]) h1 h2 hr)
  · obtain ⟨h1, h2⟩ := validateConfigChange_gates
      (by rw [run.config_eq]; exact D.gated n) hok
    rcases h with h | h | h
    · omega
    · omega
    · exact halone h new hok
  · -- whoever has answered was a member in this leadership
    have hcontact := (run.rooted i n l hl).acked p hr.1
    obtain ⟨j, hj, hlead, hmem⟩ := (run.contact_iff hl hp).mp hcontact
    rw [h j hj hlead, Finset.mem_singleton] at hmem
    exact hp hmem

/-- A node that is a cluster of its own: it leads after its first timeout,
commits a write, crashes and leads again. -/
def soloRun : Run (Deployment.ofIds [1] none) (KvStore.machine Nat) :=
  Run.ofActions _ _ [.timeout 1 0, .propose 1 (.put "x" 7 none) 0,
    .restart 1, .timeout 1 0] (by decide +kernel)

theorem single_node_rejects_bootstrapped :
    ∃ l, ((soloRun.state 2).nodes 1).role = .leader l ∧
      ((soloRun.state 2).nodes 1).members.keySet = {1} ∧
      ∀ new, ((soloRun.state 2).nodes 1).validateConfigChange l 0 new ≠
        .ok () := by
  have hlead : ((soloRun.state 2).nodes 1).isLeader = true := by
    decide +kernel
  have hm : ((soloRun.state 2).nodes 1).members.keySet = {1} := by
    decide +kernel
  obtain ⟨l, hl⟩ := Node.isLeader_iff.mp hlead
  refine ⟨l, hl, hm, (single_node_rejects_iff soloRun hl hm 0).2 ?_⟩
  intro j hj _
  obtain rfl | rfl | rfl : j = 0 ∨ j = 1 ∨ j = 2 := by omega
  · decide +kernel
  · decide +kernel
  · decide +kernel

/-- Node 1 leads a cluster of two, is answered by 2, removes it and adds it
again. -/
def regrowRun : Run (Deployment.ofIds [1, 2] none) (KvStore.machine Nat) :=
  Run.ofActions _ _ [.timeout 1 0, .deliver 0 0, .reply 0 0, .deliver 1 0,
    .reply 1 0, .deliver 2 0, .reply 2 10,
    .propose 1 (.configChange (membersOfIds [1])) 20,
    .propose 1 (.configChange (membersOfIds [1, 2])) 30] (by decide +kernel)

/-- Shrunk to one by a committed removal, the cluster accepts to grow. -/
theorem single_node_regrows :
    ((regrowRun.state 8).nodes 1).members.keySet = {1} ∧
      ((regrowRun.state 8).nodes 1).membersIndex ≤
        ((regrowRun.state 8).nodes 1).commitIndex ∧
      (∃ l, ((regrowRun.state 8).nodes 1).role = .leader l ∧
        ((regrowRun.state 8).nodes 1).validateConfigChange l 30
          (membersOfIds [1, 2]) = .ok ()) ∧
      Output.proposeReply (.ok (1, 3)) ∈ (regrowRun.effect 8).outputs ∧
      ((regrowRun.state 9).nodes 1).members.keySet = {1, 2} := by
  have hok : ((regrowRun.state 8).nodes 1).role.any (fun l =>
      (((regrowRun.state 8).nodes 1).validateConfigChange l 30
        (membersOfIds [1, 2])).isOk) = true := by decide +kernel
  obtain ⟨l, hl, hok⟩ := Role.exists_of_any hok
  refine ⟨by decide +kernel, by decide +kernel, ⟨l, hl, ?_⟩,
    Output.mem_of_same (by decide +kernel), by decide +kernel⟩
  cases hv : ((regrowRun.state 8).nodes 1).validateConfigChange l 30
      (membersOfIds [1, 2]) with
  | ok u => rfl
  | error e =>
      rw [hv] at hok
      cases hok

end RustKV
