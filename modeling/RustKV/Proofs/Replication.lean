import RustKV.Proofs.Apply

/-!
# Replicating and committing

What a leader does with its log: it sends everything from a peer's next index
on, or its snapshot where that has been compacted away, and it moves its
commit index to what a majority holds.

The second carries an argument. The index `maybe_advance_commit` picks is the
one that stands a majority from the end of the sorted match indexes, so a
majority of the members is known to hold it; and what is newly committed with
it is exactly what the leader then goes on to apply.
-/

namespace RustKV

open Rust Prog NodeM Consensus History

variable {V : Type} {M : StateMachine V} {D : Deployment}
  {H H' : Hist V} {F F' : List (LogEntry V)} {s : Start M} {c : Ctx M}

/-! ## Sending -/

theorem At.id_eq (h : At D s H F c) : c.node.config.id = s.id := by
  rw [h.inv.body.config, D.id_eq]

theorem At.tlog_eq (h : At D s H F c) {l : LeaderState}
    (hl : c.node.role = .leader l) : H.tlog c.node.currentTerm = F := by
  obtain ⟨_, _, htl⟩ := h.inv.ok.leader (by rw [Node.replica, hl]; rfl)
  exact htl

theorem At.committed (h : At D s H F c) {k : Nat}
    (hk : k ≤ c.node.commitIndex) :
    H.CommittedAt c.node.currentTerm (F.take k) := by
  refine h.inv.committed.shorten ?_
  rw [← Nat.min_eq_left hk, ← List.take_take]
  exact List.take_prefix _ _

theorem sendInstallSnapshot_spec (h : At D s H F c)
    (hq : s.kind = .acting) {l : LeaderState} (hl : c.node.role = .leader l)
    (hpos : 0 < c.node.storage.snapshotIndex) (peer : NodeId) :
    wp (sendInstallSnapshot peer)
      (fun _ c' => At D s H F c' ∧ c'.node = c.node) c := by
  have hbody := h.inv.body
  have hbound := hbody.boundary_le
  cases hsnap : c.node.storage.snapshot with
  | none => simp [Storage.snapshotIndex, hsnap] at hpos
  | some snap =>
      have his := hbody.repr.snapshot snap hsnap
      simp only [sendInstallSnapshot, wp_bind, wp_node, wp_unwrap hsnap,
        wp_emit]
      refine ⟨h.emit ?_, trivial⟩
      intro o ho
      rw [List.mem_singleton.mp ho]
      obtain ⟨b, hb, -⟩ := (h.leaderInv hl).start
      refine ⟨hq, ⟨⟨_, h.id_eq, ⟨b, hb⟩, his, ?_, ?_⟩, rfl⟩,
        (fun a ha => by cases ha), fun a ha => by cases ha⟩
      · simp only [h.tlog_eq hl]
        exact List.take_prefix _ _
      · exact h.committed (hbound.trans hbody.applied_le)

theorem At.appendOk (h : At D s H F c) {l : LeaderState}
    (hl : c.node.role = .leader l) {p t : Nat} (hp : p ≤ F.length)
    (ht : termAt F p = some t) :
    AppendOk H s.id ⟨c.node.currentTerm, c.node.config.id, p, t, F.drop p,
      c.node.commitIndex⟩ := by
  obtain ⟨b, hb, -⟩ := (h.leaderInv hl).start
  have htl := h.tlog_eq hl
  refine ⟨h.id_eq, ⟨b, hb⟩, ?_, ?_, ?_, ?_, ?_⟩
  · simp only [htl, List.length_drop]
    omega
  · simp only [htl, List.take_length]
  · simp only [htl]
    exact ht
  · simp only [htl]
    exact h.inv.body.commit_le
  · simp only [htl]
    exact h.committed le_rfl

theorem sendAppend_spec (h : At D s H F c) (hq : s.kind = .acting)
    (peer : NodeId) :
    wp (sendAppend peer)
      (fun _ c' => At D s H F c' ∧ c'.node = c.node) c := by
  have hrepr := h.inv.body.repr
  simp only [sendAppend, wp_bind, wp_node, wp_ite, wp_pure]
  refine ⟨fun _ => ⟨h, trivial⟩, fun _ => ?_⟩
  cases hl : c.node.role with
  | follower => exact ⟨h, rfl⟩
  | preCandidate votes => exact ⟨h, rfl⟩
  | candidate votes => exact ⟨h, rfl⟩
  | leader l =>
      have hlead := h.leaderInv hl
      simp only [wp_ite, wp_bind]
      generalize hnext :
        (l.nextIndex peer).getD (c.node.storage.lastIndex + 1) = next
      have hrange : 1 ≤ next ∧ next ≤ F.length + 1 := by
        rw [← hnext, hrepr.lastIndex]
        cases hk : l.nextIndex peer with
        | none => exact ⟨Nat.le_add_left _ _, le_rfl⟩
        | some k => exact hlead.next peer k hk
      refine ⟨fun hle => ?_, fun hgt => ?_⟩
      · exact sendInstallSnapshot_spec h hq hl (by omega) peer
      · have hlen : next - 1 ≤ F.length := by omega
        obtain ⟨t, ht⟩ : ∃ t, termAt F (next - 1) = some t := by
          rcases Nat.eq_zero_or_pos (next - 1) with h0 | hpos
          · exact ⟨0, by rw [h0]; rfl⟩
          · rw [termAt_of_pos hpos, List.getElem?_eq_getElem (by omega)]
            exact ⟨_, rfl⟩
        have hterm : c.node.storage.term (next - 1) = some t := by
          rw [hrepr.term (by omega), ht]
        simp only [wp_checkedSub hrange.1, wp_unwrap hterm, wp_emit,
          hrepr.entriesFrom (Nat.lt_of_not_le hgt)]
        refine ⟨h.emit ?_, trivial⟩
        intro o ho
        rw [List.mem_singleton.mp ho]
        refine ⟨hq, ⟨h.appendOk hl hlen ht, l.heartbeatSeq, rfl,
          hlead.seq.ge⟩, fun a ha e he => ?_, fun a ha => by cases ha⟩
        cases ha
        exact h.moved.log e (List.mem_of_mem_drop he)

theorem sendAppends_spec (peers : List NodeId) (h : At D s H F c)
    (hq : s.kind = .acting) :
    wp (sendAppends peers)
      (fun _ c' => At D s H F c' ∧ c'.node = c.node) c := by
  induction peers generalizing c with
  | nil => exact ⟨h, rfl⟩
  | cons peer rest ih =>
      simp only [sendAppends, wp_bind]
      refine wp_mono (sendAppend_spec h hq peer) fun _ c₁ h₁ => ?_
      refine wp_mono (ih h₁.1) fun _ c₂ h₂ => ?_
      exact ⟨h₂.1, h₂.2.trans h₁.2⟩

theorem onHeartbeatTick_spec (h : At D s H F c) (hq : s.kind = .acting)
    (now : Instant) :
    wp (onHeartbeatTick now) (fun _ c' => At D s H F c') c := by
  have hsend : wp (sendAppends c.node.replicationTargets)
      (fun _ c' => At D s H F c') c :=
    wp_mono (sendAppends_spec _ h hq) fun _ _ h₁ => h₁.1
  simp only [onHeartbeatTick, wp_bind, wp_node]
  cases hl : c.node.role with
  | follower => exact hsend
  | preCandidate votes => exact hsend
  | candidate votes => exact hsend
  | leader l =>
      simp only [wp_ite]
      refine ⟨fun _ => ?_, fun _ => hsend⟩
      exact wp_mono (becomeFollower_spec h le_rfl) fun _ _ h₁ => h₁.1

/-! ## Moving the commit index -/

/-- The members counted behind an index: the node itself, and the peers whose
match index reaches it. -/
theorem countP_replicated (x : Node M) (l : LeaderState) (k : Nat) :
    (x.replicated l).countP (fun v => k ≤ v) ≤
      (x.members.keySet.filter fun v => v = x.config.id ∨
        decide (k ≤ (l.matchIndex v).getD 0) = true).card := by
  rw [← card_members, Node.replicated, List.countP_append, List.countP_map,
    List.countP_eq_length_filter, Node.peerIds, Nat.add_comm]
  refine Nat.add_le_add ?_ le_rfl
  split
  · exact (List.countP_le_length).trans le_rfl
  · rfl

theorem At.candidate_quorum (h : At D s H F c) {l : LeaderState}
    (hl : c.node.role = .leader l)
    (hlen : ¬ (c.node.replicated l).length < c.node.majority)
    (hpos : 0 < c.node.commitCandidate l) :
    ∃ Q, IsMajority Q ((rules D).cfg F) ∧ ∀ v ∈ Q, v ≠ s.id →
      H.ack v c.node.currentTerm (c.node.commitCandidate l) := by
  have hlead := h.leaderInv hl
  set k := c.node.commitCandidate l with hk
  refine ⟨c.node.members.keySet.filter fun v => v = c.node.config.id ∨
    decide (k ≤ (l.matchIndex v).getD 0) = true, ⟨?_, ?_⟩, ?_⟩
  · rw [← hlead.members]
    exact Finset.filter_subset _ _
  · rw [← hlead.members, BTreeMap.card_keySet]
    refine le_trans ?_ (countP_replicated c.node l k)
    exact le_countP_getD_insertionSort _ (Nat.succ_pos _)
      (Nat.le_of_not_lt hlen)
  · intro v hv hne
    rcases (Finset.mem_filter.mp hv).2 with hv | hv
    · exact absurd (hv.trans h.id_eq) hne
    · have hle := of_decide_eq_true hv
      cases hm : l.matchIndex v with
      | none =>
          rw [hm, Option.getD_none] at hle
          omega
      | some j =>
          rw [hm, Option.getD_some] at hle
          exact h.sound.wf.ack_down (hlead.matched v j hm (by omega)) hle

/-- The leader records its commit; what it now has to apply is what was
committed by it. -/
theorem At.commitOwn (h : At D s H F c) {l : LeaderState}
    (hl : c.node.role = .leader l) {k : Nat} {e : LogEntry V}
    (hk : c.node.commitIndex < k) (he : F[k - 1]? = some e)
    (ht : e.term = c.node.currentTerm) {Q : Finset NodeId}
    (hQ : IsMajority Q ((rules D).cfg F))
    (hack : ∀ v ∈ Q, v ≠ s.id → H.ack v c.node.currentTerm k) :
    ∃ H', Applying D s H' F ⟨{ c.node with commitIndex := k },
      c.out ++ [.commitAdvanced c.node.currentTerm k]⟩ := by
  obtain ⟨hf, hs, hset⟩ := h.inv.commitOwn h.sound hl hk he ht hQ hack rfl
  obtain ⟨b, hb, -⟩ := (h.leaderInv hl).start
  have htl := h.tlog_eq hl
  refine ⟨_,
    { frame := h.frame.trans hf
      sound := hs
      moved := h.moved.stay hf.toLe rfl le_rfl le_rfl
        (fun hp => .inl ⟨hp, rfl⟩) (fun hp => .inl ⟨hp, rfl⟩)
      created := (h.created.same rfl).append
      out := fun o ho => ?_
      inv := hset
      fresh := fun y hy => ?_ }⟩
  · rcases List.mem_append.mp ho with ho | ho
    · exact (h.out o ho).mono hf.toLe
    · rw [List.mem_singleton.mp ho]
      exact ⟨⟨b, hb⟩, F.length, .inr ⟨rfl, rfl, rfl⟩⟩
  · have hold : Committed H y → Committed s.hist y ∨
        Output.applied y ∈ c.out ++ [.commitAdvanced c.node.currentTerm k] ∨
        y ∈ (F.take k).drop c.node.lastApplied := by
      intro hy
      rcases h.fresh y hy with hy | hy
      · exact .inl hy
      · exact .inr (.inl (List.mem_append_left _ hy))
    obtain ⟨t, P, rfl | ⟨t₀, k₀, m, ht₀, hcm | ⟨rfl, rfl, rfl⟩, hp⟩, hyP⟩ := hy
    · cases hyP
    · exact hold ⟨t, P, .inr ⟨t₀, k₀, m, ht₀, hcm, hp⟩, hyP⟩
    · -- the new commit: below the old commit index nothing is new
      have hmem : y ∈ F.take k₀ := by
        have hsub : y ∈ (H.tlog c.node.currentTerm).take k₀ := hp.subset hyP
        rwa [htl] at hsub
      rw [← List.take_append_drop c.node.lastApplied (F.take k₀),
        List.take_take] at hmem
      rcases List.mem_append.mp hmem with hmem | hmem
      · have happ := h.inv.applied
        rw [Nat.min_eq_left (by omega)] at hmem
        exact hold ⟨_, _, h.committed happ.le, hmem⟩
      · exact .inr (.inr hmem)

theorem stepDownIfRemoved_spec (h : At D s H F c) :
    wp stepDownIfRemoved (fun _ c' => At D s H F c') c := by
  simp only [stepDownIfRemoved, wp_bind, wp_node, wp_ite, wp_pure]
  refine ⟨fun _ => ?_, fun _ => h⟩
  exact wp_mono (becomeFollower_spec h le_rfl) fun _ _ h₁ => h₁.1

theorem maybeAdvanceCommit_spec (h : At D s H F c) :
    wp maybeAdvanceCommit (fun _ c' => ∃ H', At D s H' F c') c := by
  simp only [maybeAdvanceCommit, wp_bind, wp_node]
  cases hl : c.node.role with
  | follower => exact ⟨H, h⟩
  | preCandidate votes => exact ⟨H, h⟩
  | candidate votes => exact ⟨H, h⟩
  | leader l =>
      simp only [wp_ite, wp_bind, wp_pure, wp_update, wp_emit]
      refine ⟨fun _ => ⟨H, h⟩, fun hlen => ⟨fun hcand => ?_, fun _ => ?_⟩⟩
      · obtain ⟨hgt, hterm⟩ := hcand
        obtain ⟨Q, hQ, hack⟩ := h.candidate_quorum hl hlen (by omega)
        obtain ⟨e, he, ht⟩ := termAt_eq_some
          (h.inv.body.repr.term_eq_some hterm).2 (by omega)
        obtain ⟨H', h'⟩ := h.commitOwn hl hgt he ht hQ hack
        refine wp_mono (applyCommitted_spec h') fun _ c₁ h₁ => ?_
        exact wp_mono (stepDownIfRemoved_spec h₁) fun _ c₂ h₂ => ⟨H', h₂⟩
      · exact wp_mono (stepDownIfRemoved_spec h) fun _ c₁ h₁ => ⟨H, h₁⟩

end RustKV
