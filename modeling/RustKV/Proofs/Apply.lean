import RustKV.Proofs.Steps

/-!
# Following, applying, resolving, compacting

The specifications of what every handler ends up calling: `become_follower`,
and the tail of a commit (`apply_committed` with the waiters it settles and
the compaction it may trigger). Each says that a good state goes to a good
state, with no panic on the way: the committed entries are in the log, a
capture lies inside the retained part, the subtractions do not underflow.
-/

namespace RustKV

open Rust Prog NodeM Consensus History

variable {V : Type} {M : StateMachine V} {D : Deployment}
  {H H' : Hist V} {F F' : List (LogEntry V)} {s : Start M} {c : Ctx M}

/-! ## Following -/

theorem Moved.follow {x x' : Node M} (h : Moved s H F x)
    (ht : x.currentTerm ≤ x'.currentTerm)
    (ha : x'.lastApplied = x.lastApplied) (hr : x'.role = .follower) :
    Moved s H F x' :=
  h.stay (Le.refl H) rfl ht ha.ge
    (fun hp => by rw [hr] at hp; cases hp)
    (fun hp => by rw [hr] at hp; exact absurd rfl hp)

theorem At.follow (h : At D s H F c) {t : Nat}
    {storage : Storage V M.Payload} {l : Option NodeId}
    {view : MembershipView} {os : List (Output M)}
    (hst : (storage = c.node.storage ∧ t = c.node.currentTerm) ∨
      (storage = c.node.storage.saveHardState ⟨t, none⟩ ∧
        c.node.currentTerm < t))
    (hos : ∀ o ∈ os, OutOk D s H F o) :
    At D s H F ⟨{ c.node with
      storage := storage
      role := .follower
      leaderId := l
      membershipView := view }, c.out ++ os⟩ := by
  refine h.still (h.inv.follow hst) (h.moved.follow ?_ rfl rfl) hos
  rcases hst with ⟨rfl, -⟩ | ⟨rfl, ht⟩
  · exact le_rfl
  · exact ht.le

theorem becomeFollower_spec (h : At D s H F c) {t : Nat}
    {l : Option NodeId} (ht : c.node.currentTerm ≤ t) :
    wp (becomeFollower t l) (fun _ c' => At D s H F c' ∧
      c'.node.role = .follower ∧ c'.node.currentTerm = t ∧
      c'.node.pending = c.node.pending ∧ ∀ t i,
        Output.committed t i false ∈ c'.out →
          Output.committed t i false ∈ c.out) c := by
  have hos : ∀ o ∈ c.node.role.pendingReads.map (fun r =>
      (Output.readDropped c.node.currentTerm r.neededSeq : Output M)),
      OutOk D s H F o := by
    intro o ho
    obtain ⟨r, -, rfl⟩ := List.mem_map.mp ho
    trivial
  have hnew : ∀ t i, Output.committed t i false ∈ c.out ++
      c.node.role.pendingReads.map (fun r =>
        (Output.readDropped c.node.currentTerm r.neededSeq : Output M)) →
      Output.committed t i false ∈ c.out := by
    intro t i ho
    rcases List.mem_append.mp ho with ho | ho
    · exact ho
    · obtain ⟨r, -, heq⟩ := List.mem_map.mp ho
      cases heq
  simp only [becomeFollower, publishMembership, wp_bind, wp_node, wp_ite,
    wp_update, wp_emitAll, wp_pure, wp_panicWith]
  refine ⟨fun hlt => absurd ht (by omega), fun _ => ⟨fun hgt => ?_,
    fun hle => ?_⟩⟩
  · exact ⟨fun _ => ⟨h.follow (.inr ⟨rfl, hgt⟩) hos, trivial, rfl, trivial,
        hnew⟩,
      fun _ => ⟨h.follow (.inr ⟨rfl, hgt⟩) hos, trivial, rfl, trivial, hnew⟩⟩
  · have heq : t = c.node.currentTerm := by omega
    have hst : c.node.storage = c.node.storage ∧ t = c.node.currentTerm :=
      ⟨rfl, heq⟩
    exact ⟨fun _ => ⟨h.follow (.inl hst) hos, trivial, heq.symm, trivial,
        hnew⟩,
      fun _ => ⟨h.follow (.inl hst) hos, trivial, heq.symm, trivial, hnew⟩⟩

/-! ## Counting members -/

/-- A node counts itself, if it is a member, and the peers that satisfy `p`:
that is the size of a set of members. -/
theorem card_members (m : Membership) (self : NodeId) (p : NodeId → Bool) :
    (if m.containsKey self then 1 else 0) +
        ((m.keys.filter fun id => id ≠ self).filter p).length =
      (m.keySet.filter fun v => v = self ∨ p v).card := by
  have hsplit : (m.keySet.filter fun v => v = self ∨ p v) =
      (m.keySet.filter fun v => v = self) ∪
        (m.keySet.filter fun v => (p v && decide (v ≠ self)) = true) := by
    ext v
    simp only [Finset.mem_filter, Finset.mem_union, Bool.and_eq_true,
      decide_eq_true_eq]
    tauto
  have hdisj : Disjoint (m.keySet.filter fun v => v = self)
      (m.keySet.filter fun v => (p v && decide (v ≠ self)) = true) := by
    rw [Finset.disjoint_filter]
    intro v _ hv hp
    simp [hv] at hp
  have hself : (m.keySet.filter fun v => v = self).card =
      if m.containsKey self then 1 else 0 := by
    rw [Finset.filter_eq']
    by_cases hm : self ∈ m.keySet
    · rw [if_pos hm, if_pos (BTreeMap.containsKey_iff.mpr hm),
        Finset.card_singleton]
    · rw [if_neg hm, if_neg (fun hc => hm (BTreeMap.containsKey_iff.mp hc)),
        Finset.card_empty]
  rw [hsplit, Finset.card_union_of_disjoint hdisj, hself,
    List.filter_filter, BTreeMap.length_keys_filter]

/-! ## Reads -/

theorem At.grantOk (h : At D s H F c) {l : LeaderState}
    (hl : c.node.role = .leader l) {r : PendingRead}
    (hr : r ∈ l.pendingReads) (hg : c.node.grants l r = true) :
    GrantOk D s H c.node.currentTerm r.neededSeq c.node.lastApplied
      c.node.stateMachine := by
  have hinv := h.inv
  have hlead : LeaderInv D H s.id F c.node.members c.node.currentTerm l := by
    have := hinv.role
    rwa [hl] at this
  have hpart : (c.node.replica F).part = .leader := by
    rw [Node.replica, hl]
    rfl
  obtain ⟨b, hb, hstart⟩ := hlead.start
  obtain ⟨-, -, htl⟩ := hinv.ok.leader hpart
  have htl' : H.tlog c.node.currentTerm = F := htl
  simp only [Node.grants, decide_eq_true_eq] at hg
  obtain ⟨hacks, hread⟩ := hg
  have hge := (hlead.reads r hr).1
  have happ := hinv.applied
  have hcommit := hinv.body.commit_le
  have hid : c.node.config.id = s.id := by
    rw [hinv.body.config, D.id_eq]
  refine ⟨h.moved.reads ?_, ⟨b, hb⟩, by rw [htl']; omega, ?_, ?_, ?_,
    by rw [htl']; exact hinv.body.state⟩
  · rw [hl]
    exact List.ne_nil_of_mem hr
  · rw [happ]
    exact hinv.ok.commit_own hpart b hb
      (show b.length < c.node.commitIndex by omega)
  · intro k m hk
    rw [happ]
    exact hinv.ok.commit_max hpart k m (h.frame.commit hk)
  · refine ⟨F.length, c.node.members.keySet.filter (fun v => v = s.id ∨
      (l.ackedSeq v).any (fun acked => acked ≥ r.neededSeq)),
      by rw [htl'], ?_, ⟨?_, ?_⟩, fun v hv => ?_⟩
    · rw [htl', List.take_length, ← htl']
      exact h.frame.tlog _
    · rw [htl', List.take_length, ← hlead.members]
      exact Finset.filter_subset _ _
    · rw [htl', List.take_length, ← hlead.members, BTreeMap.card_keySet,
        ← hid, ← card_members]
      exact hacks
    · rcases (Finset.mem_filter.mp hv).2 with hv | hv
      · exact .inl hv
      · obtain ⟨q, hq, hle⟩ := (Option.any_eq_true _ _).mp hv
        exact .inr ⟨q, of_decide_eq_true hle, hlead.acked v q hq⟩

theorem At.bookkeeping (h : At D s H F c) {l l' : LeaderState}
    (hl : c.node.role = .leader l)
    (hinv : LeaderInv D H s.id F c.node.members c.node.currentTerm l')
    (hreads : l'.pendingReads ≠ [] → l.pendingReads ≠ [])
    {os : List (Output M)} (hos : ∀ o ∈ os, OutOk D s H F o) :
    At D s H F ⟨{ c.node with role := .leader l' }, c.out ++ os⟩ := by
  have hx := h.inv
  refine h.still ?_ ?_ hos
  · have hok := hx.ok
    rw [Node.replica, hl] at hok
    exact hx.rerole _ _ _ hok hinv hx.seq
  · refine h.moved.stay (Le.refl H) rfl le_rfl le_rfl
      (fun _ => .inl ⟨by rw [hl]; rfl, rfl⟩)
      (fun hp => .inl ⟨?_, rfl⟩)
    rw [hl]
    exact hreads hp

theorem At.leaderInv (h : At D s H F c) {l : LeaderState}
    (hl : c.node.role = .leader l) :
    LeaderInv D H s.id F c.node.members c.node.currentTerm l := by
  have := h.inv.role
  rwa [hl] at this

theorem resolveReads_spec (h : At D s H F c) :
    wp resolveReads (fun _ c' => At D s H F c') c := by
  simp only [resolveReads, wp_bind, wp_node]
  cases hl : c.node.role with
  | follower => exact h
  | preCandidate votes => exact h
  | candidate votes => exact h
  | leader l =>
      have hlead := h.leaderInv hl
      simp only [wp_bind, wp_emitAll, wp_update]
      refine h.bookkeeping hl ?_ ?_ ?_
      · exact { hlead with
          reads := fun r hr => hlead.reads r (List.mem_of_mem_filter hr) }
      · intro hne hnil
        simp [hnil] at hne
      · intro o ho
        obtain ⟨r, hr, rfl⟩ := List.mem_map.mp ho
        obtain ⟨hr, hg⟩ := List.mem_filter.mp hr
        exact h.grantOk hl hr hg

/-! ## Applying -/

theorem Settling.committed {n : NodeId} {x : Node M}
    (h : Settling D H n F x) :
    H.CommittedAt x.currentTerm (F.take x.commitIndex) := h.ok.committed

theorem Settling.applyNext {n : NodeId} {x : Node M}
    (h : Settling D H n F x) {e : LogEntry V}
    (hlt : x.lastApplied < x.commitIndex)
    (he : F[x.lastApplied]? = some e) :
    Settling D H n F { x with
      lastApplied := x.lastApplied + 1
      stateMachine := M.apply x.stateMachine e } where
  body :=
    { config := h.body.config
      repr := h.body.repr
      boundary_le := h.body.boundary_le.trans (Nat.le_succ _)
      applied_le := hlt
      commit_le := h.body.commit_le
      state := by
        simp only [List.take_add_one, he, Option.toList_some,
          StateMachine.replay_append_singleton]
        rw [← h.body.state]
      staged := fun st hst =>
        ⟨(h.body.staged st hst).1, (h.body.staged st hst).2.trans
          (Nat.le_succ _)⟩ }
  members := ⟨h.members.members, h.members.index⟩
  waiting := h.waiting
  ok := h.ok
  role := h.role
  seq := h.seq

theorem applyLoop_spec (k : Nat) {c : Ctx M} (h : Applying D s H F c)
    (hk : c.node.lastApplied + k = c.node.commitIndex) :
    wp (applyLoop k) (fun _ c' => Applying D s H F c' ∧
      c'.node.lastApplied = c'.node.commitIndex) c := by
  induction k generalizing c with
  | zero => exact ⟨h, by simpa using hk⟩
  | succ k ih =>
      have hbody := h.inv.body
      have hcommit := hbody.commit_le
      have hlen : c.node.lastApplied < F.length := by omega
      have he : F[c.node.lastApplied]? = some F[c.node.lastApplied] :=
        List.getElem?_eq_getElem hlen
      set e := F[c.node.lastApplied] with hedef
      have hidx : e.index = c.node.lastApplied + 1 :=
        hbody.repr.indexed _ e he
      have hentry : c.node.storage.entry (c.node.lastApplied + 1) =
          some e := by
        have := hbody.boundary_le
        rw [hbody.repr.entry (by omega), Nat.add_sub_cancel, he]
      -- the next entry of the committed part is the one applied now
      have hdrop : (F.take c.node.commitIndex).drop c.node.lastApplied =
          e :: (F.take c.node.commitIndex).drop
            (c.node.lastApplied + 1) := by
        rw [List.drop_eq_getElem_cons (by rw [List.length_take]; omega)]
        congr 1
        rw [List.getElem_take]
      simp only [applyLoop, wp_bind, wp_node, wp_update, wp_unwrap hentry,
        wp_emit]
      refine ih ?_ (by simp only; omega)
      refine
        { frame := h.frame
          sound := h.sound
          moved := ?_
          created := ?_
          out := ?_
          inv := h.inv.applyNext (by omega) he
          fresh := ?_ }
      · exact h.moved.stay (Le.refl H) rfl le_rfl (Nat.le_succ _)
          (fun hp => .inl ⟨hp, rfl⟩) (fun hp => .inl ⟨hp, rfl⟩)
      · exact h.created.append
      · intro o ho
        rcases List.mem_append.mp ho with ho | ho
        · exact h.out o ho
        · rw [List.mem_singleton.mp ho]
          refine ⟨by omega, _, _, h.inv.committed, ?_⟩
          rw [hidx, Nat.add_sub_cancel, getElem?_take_of_lt (by omega), he]
      · intro y hy
        rcases h.fresh y hy with hy | hy | hy
        · exact .inl hy
        · exact .inr (.inl (List.mem_append_left _ hy))
        · rw [hdrop] at hy
          rcases List.mem_cons.mp hy with rfl | hy
          · exact .inr (.inl (by simp))
          · exact .inr (.inr hy)

/-- With everything applied, each waiting proposal is committed or waits
on; none is refused. -/
theorem Settling.verdict {n : NodeId} {x : Node M}
    (h : Settling D H n F x) {p : PendingProposal} (hp : p ∈ x.pending) :
    x.verdict p = if x.commitIndex ≥ p.index then some true else none := by
  obtain ⟨hb, ht⟩ := h.waiting p hp
  rw [Node.verdict, if_neg]
  rw [h.body.repr.term hb.le, ht]
  simp

theorem resolvePending_spec (h : Applying D s H F c)
    (ha : c.node.lastApplied = c.node.commitIndex) :
    wp resolvePending (fun _ c' => At D s H F c') c := by
  have hinv := h.inv
  simp only [resolvePending, wp_bind, wp_node, wp_emitAll, wp_update]
  refine
    { frame := h.frame
      sound := h.sound
      moved := ⟨h.moved.term_le, h.moved.applied_le, h.moved.leader,
        h.moved.reads, h.moved.heard, h.moved.log,
        h.moved.kept⟩
      created := h.created.append
      out := ?_
      inv :=
        { body := ⟨hinv.body.config, hinv.body.repr, hinv.body.boundary_le,
            hinv.body.applied_le, hinv.body.commit_le, hinv.body.state,
            hinv.body.staged⟩
          members := ⟨hinv.members.members, hinv.members.index⟩
          waiting := fun p hp =>
            hinv.waiting p (List.mem_of_mem_filter hp)
          ok := hinv.ok
          role := hinv.role
          seq := hinv.seq
          applied := ha
          uncommitted := ?_ }
      fresh := ?_ }
  · intro o ho
    rcases List.mem_append.mp ho with ho | ho
    · exact h.out o ho
    · obtain ⟨p, hp, hv⟩ := List.mem_filterMap.mp ho
      rw [hinv.verdict hp] at hv
      split at hv
      · next hge =>
          cases hv
          obtain ⟨hb, ht⟩ := hinv.waiting p hp
          exact ⟨by omega, _, _, hinv.committed,
            (termAt_take hge).trans ht⟩
      · cases hv
  · intro p hp
    obtain ⟨hp, hv⟩ := List.mem_filter.mp hp
    rw [hinv.verdict hp] at hv
    split at hv
    · cases hv
    · next hge => exact Nat.lt_of_not_le hge
  · intro e he
    rcases h.fresh e he with he | he | he
    · exact .inl he
    · exact .inr (List.mem_append_left _ he)
    · rw [ha, List.drop_eq_nil_of_le (by rw [List.length_take]; omega)] at he
      cases he

/-! ## Compacting -/

theorem At.stage (h : At D s H F c)
    {staged : Option (StagedSnapshot M.Payload)}
    (hst : ∀ st, staged = some st →
      Captured M F st ∧ st.index ≤ c.node.lastApplied) :
    At D s H F ⟨{ c.node with stagedSnapshot := staged }, c.out⟩ := by
  have hx := h.inv
  exact
    { frame := h.frame
      sound := h.sound
      moved := ⟨h.moved.term_le, h.moved.applied_le, h.moved.leader,
        h.moved.reads, h.moved.heard, h.moved.log,
        h.moved.kept⟩
      created := h.created
      out := h.out
      inv :=
        { body := ⟨hx.body.config, hx.body.repr, hx.body.boundary_le,
            hx.body.applied_le, hx.body.commit_le, hx.body.state, hst⟩
          members := ⟨hx.members.members, hx.members.index⟩
          waiting := hx.waiting
          ok := hx.ok
          role := hx.role
          seq := hx.seq
          applied := hx.applied
          uncommitted := hx.uncommitted }
      fresh := h.fresh }

theorem At.compact (h : At D s H F c) {S' : Storage V M.Payload}
    (hrepr : Represents M S' F)
    (hhs : S'.hardState = c.node.storage.hardState)
    (hlow : c.node.storage.snapshotIndex ≤ S'.snapshotIndex)
    (hhigh : S'.snapshotIndex ≤ c.node.lastApplied) :
    At D s H F ⟨{ c.node with
      storage := S'
      stagedSnapshot := none }, c.out⟩ := by
  have hx := h.inv
  have hterm : S'.hardState.currentTerm = c.node.currentTerm := by
    rw [hhs]
    rfl
  refine
    { frame := h.frame
      sound := h.sound
      moved := ⟨by simpa only [Node.currentTerm, hhs] using h.moved.term_le,
        h.moved.applied_le,
        by simpa only [Node.currentTerm, hhs] using h.moved.leader,
        by simpa only [Node.currentTerm, hhs] using h.moved.reads,
        h.moved.heard, h.moved.log,
        by simpa only [Node.currentTerm, hhs] using h.moved.kept⟩
      created := h.created
      out := h.out
      inv :=
        { body := ⟨hx.body.config, hrepr, hhigh, hx.body.applied_le,
            hx.body.commit_le, hx.body.state, fun st hst => by cases hst⟩
          members := ⟨hx.members.members, hx.members.index.raise hlow⟩
          waiting := fun p hp => ?_
          ok := by
            simp only [Node.replica, Node.currentTerm, hhs]
            exact hx.ok
          role := by
            simp only [Node.currentTerm, hhs]
            exact hx.role
          seq := hx.seq
          applied := hx.applied
          uncommitted := hx.uncommitted }
      fresh := h.fresh }
  have h1 := hx.uncommitted p hp
  have h2 := hx.applied
  exact ⟨by simp only; omega, (hx.waiting p hp).2⟩

def StagedAbove (x : Node M) : Prop :=
  ∀ st, x.stagedSnapshot = some st → x.storage.snapshotIndex < st.index

theorem discardStaged_spec (h : At D s H F c) :
    wp discardStaged (fun _ c' => At D s H F c' ∧ StagedAbove c'.node) c := by
  simp only [discardStaged, wp_update]
  refine ⟨h.stage fun st hst => ?_, fun st hst => ?_⟩
  · exact h.inv.body.staged st (Option.filter_eq_some_iff.mp hst).1
  · exact of_decide_eq_true (Option.filter_eq_some_iff.mp hst).2

theorem stageSnapshot_spec (h : At D s H F c) (ha : StagedAbove c.node)
    (threshold : Nat) :
    wp (stageSnapshot threshold)
      (fun _ c' => At D s H F c' ∧ StagedAbove c'.node) c := by
  have hb := h.inv.body.boundary_le
  simp only [stageSnapshot, wp_bind, wp_node, wp_ite, wp_checkedSub hb,
    wp_update, wp_pure]
  refine ⟨fun _ => ⟨fun hge => ?_, fun _ => ⟨h, ha⟩⟩, fun _ => ⟨h, ha⟩⟩
  have hlt : c.node.storage.snapshotIndex < c.node.lastApplied := by
    have := le_max_right threshold 1
    omega
  refine ⟨h.stage fun st hst => ?_, fun st hst => ?_⟩
  · cases hst
    refine ⟨⟨by simp only; omega, ?_, ?_⟩, le_rfl⟩
    · rw [h.inv.body.state]
    · exact membershipAt_eq h.inv.body.repr hb
  · cases hst
    exact hlt

theorem compactStaged_spec (h : At D s H F c) (ha : StagedAbove c.node) :
    wp compactStaged (fun _ c' => At D s H F c') c := by
  simp only [compactStaged, wp_bind, wp_node]
  cases hst : c.node.stagedSnapshot with
  | none => exact h
  | some st =>
      obtain ⟨hcap, hle⟩ := h.inv.body.staged st hst
      have hcommit := h.inv.body.commit_le
      have happ := h.inv.applied
      obtain ⟨S', hS', hrepr, hhs, hidx⟩ :=
        h.inv.body.repr.compactTo (ha st hst) (by omega)
          hcap.state hcap.membership
      simp only [wp_bind, wp_checkedSub hle, wp_ite, wp_expect hS',
        wp_update, wp_pure]
      refine ⟨fun _ => ?_, fun _ => h⟩
      exact h.compact hrepr hhs (by rw [hidx]; exact (ha st hst).le)
        (by rw [hidx]; exact hle)

theorem maybeCompact_spec (h : At D s H F c) :
    wp maybeCompact (fun _ c' => At D s H F c') c := by
  simp only [maybeCompact, wp_bind, wp_node]
  cases c.node.config.snapshotThreshold with
  | none => exact h
  | some threshold =>
      simp only [wp_bind]
      refine wp_mono (discardStaged_spec h) fun _ c₁ h₁ => ?_
      refine wp_mono (stageSnapshot_spec h₁.1 h₁.2 threshold)
        fun _ c₂ h₂ => ?_
      exact compactStaged_spec h₂.1 h₂.2

theorem applyCommitted_spec (h : Applying D s H F c) :
    wp applyCommitted (fun _ c' => At D s H F c') c := by
  have hle := h.inv.body.applied_le
  simp only [applyCommitted, wp_bind, wp_node]
  refine wp_mono (applyLoop_spec _ h (by omega)) fun _ c₁ h₁ => ?_
  refine wp_mono (resolvePending_spec h₁.1 h₁.2) fun _ c₂ h₂ => ?_
  refine wp_mono (resolveReads_spec h₂) fun _ c₃ h₃ => ?_
  exact maybeCompact_spec h₃

end RustKV
