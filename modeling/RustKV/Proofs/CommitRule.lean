import RustKV.Proofs.Coherence
import Mathlib.Order.Bounds.Defs

/-!
# How a leader finds its commit index

`maybe_advance_commit` sorts what its members hold and looks at one place of
the result and at the term of one entry. The rule it stands for ranges over
all indexes: commit up to the greatest one whose entry is of the current term
and which a majority of the members holds.

The two agree because the place it looks at is the greatest index a majority
holds, and because terms do not fall along a log: if any entry up to there is
of the current term, which no entry exceeds, that last one is. What it takes
of the state is little (`Node.Orderly`, `Node.Bounded`, `Node.Ascending`), and
all of it holds wherever the code makes the call.
-/

namespace RustKV

open Rust Prog NodeM Consensus

variable {V : Type} {M : StateMachine V} {D : Deployment} {run : Run D M}
  {now : Instant} {cause : Cause M} {x y z : Node M} {os : List (Output M)}
  {l l' : LeaderState}

/-! ## The rule -/

/-- What a leader knows that a server holds: of itself its whole log, of any
other what it has on record. -/
def Node.holds (x : Node M) (l : LeaderState) (v : NodeId) : Nat :=
  if v = x.config.id then x.storage.lastIndex else (l.matchIndex v).getD 0

/-- The entry at `k` is of the current term and held by a majority of the
members. -/
def Node.Committable (x : Node M) (l : LeaderState) (k : Nat) : Prop :=
  x.storage.term k = some x.currentTerm ∧
    x.members.len / 2 + 1 ≤
      (x.members.keySet.filter fun v => k ≤ x.holds l v).card

/-- The commit index the rule asks for. -/
def Node.NextCommit (x : Node M) (l : LeaderState) (k : Nat) : Prop :=
  IsGreatest {i | x.commitIndex < i ∧ x.Committable l i} k ∨
    k = x.commitIndex ∧ ∀ i, x.commitIndex < i → ¬ x.Committable l i

/-- Terms do not fall along the log and end with the current one. -/
structure Node.Ascending (x : Node M) : Prop where
  sorted : (x.storage.log.map LogEntry.term).Pairwise (· ≤ ·)
  le_term : ∀ e ∈ x.storage.log, e.term ≤ x.currentTerm

theorem countP_replicated_eq (x : Node M) (l : LeaderState) {k : Nat}
    (hk : k ≤ x.storage.lastIndex) :
    (x.replicated l).countP (fun v => k ≤ v) =
      (x.members.keySet.filter fun v => k ≤ x.holds l v).card := by
  have hset : (x.members.keySet.filter fun v => k ≤ x.holds l v) =
      x.members.keySet.filter fun v => v = x.config.id ∨
        decide (k ≤ (l.matchIndex v).getD 0) = true := by
    refine Finset.filter_congr fun v _ => ?_
    rw [Node.holds]
    split
    · next hv => exact ⟨fun _ => .inl hv, fun _ => hk⟩
    · next hv => simp [hv]
  rw [hset, ← card_members, Node.replicated, List.countP_append,
    List.countP_map, List.countP_eq_length_filter, Node.peerIds,
    Nat.add_comm]
  congr 1
  split
  · simp [hk]
  · rfl

theorem Node.Bounded.replicated_le (hb : x.Bounded)
    (hl : x.role = .leader l) : ∀ k ∈ x.replicated l,
      k ≤ x.storage.lastIndex := by
  intro k hk
  rcases List.mem_append.mp hk with hk | hk
  · obtain ⟨p, -, rfl⟩ := List.mem_map.mp hk
    exact hb l hl p
  · split at hk
    · rw [List.mem_singleton.mp hk]
    · cases hk

theorem Node.Bounded.candidate_le (hb : x.Bounded)
    (hl : x.role = .leader l) :
    x.commitCandidate l ≤ x.storage.lastIndex := by
  rw [Node.commitCandidate, List.getD_eq_getElem?_getD]
  cases hget : ((x.replicated l).insertionSort (· ≤ ·))[
      ((x.replicated l).insertionSort (· ≤ ·)).length - x.majority]? with
  | none => exact Nat.zero_le _
  | some k =>
      exact hb.replicated_le hl k
        ((List.mem_insertionSort _).mp (List.mem_of_getElem? hget))

theorem Node.Ascending.term_of_le (ha : x.Ascending) {i k : Nat}
    (hi : x.storage.snapshotIndex < i)
    (ht : x.storage.term i = some x.currentTerm) (hik : i ≤ k)
    (hk : k ≤ x.storage.lastIndex) :
    x.storage.term k = some x.currentTerm := by
  obtain ⟨e, he⟩ := Storage.exists_entry hi (hik.trans hk)
  obtain ⟨e', he'⟩ := Storage.exists_entry (hi.trans_le hik) hk
  rw [Storage.term_of_lt hi, he] at ht
  rw [Storage.term_of_lt (hi.trans_le hik), he']
  rw [Storage.entry_of_lt hi] at he
  rw [Storage.entry_of_lt (hi.trans_le hik)] at he'
  have hle : e.term ≤ e'.term := by
    rcases Nat.lt_or_eq_of_le hik with hlt | rfl
    · obtain ⟨hn, rfl⟩ := List.getElem?_eq_some_iff.mp he
      obtain ⟨hn', rfl⟩ := List.getElem?_eq_some_iff.mp he'
      exact List.pairwise_iff_getElem.mp (List.pairwise_map.mp ha.sorted)
        _ _ hn hn' (by omega)
    · cases he.symm.trans he'
      exact le_rfl
  have hle' := ha.le_term e' (List.mem_of_getElem? he')
  have heq : e.term = x.currentTerm := Option.some.inj ht
  exact congrArg some (by omega)

/-- One look at the sorted list decides the rule. -/
theorem Node.nextCommit_candidate (hl : x.role = .leader l)
    (ho : x.Orderly) (hb : x.Bounded) (ha : x.Ascending) :
    x.NextCommit l
      (if x.majority ≤ (x.replicated l).length ∧
          x.commitIndex < x.commitCandidate l ∧
          x.storage.term (x.commitCandidate l) = some x.currentTerm
        then x.commitCandidate l else x.commitIndex) := by
  have hmaj : 0 < x.majority := Nat.succ_pos _
  have hend := hb.candidate_le hl
  have hcommit := ho.boundary_le
  -- an index that qualifies is one a majority holds
  have hcount : ∀ i, x.commitIndex < i → x.Committable l i →
      i ≤ x.storage.lastIndex ∧
        x.majority ≤ (x.replicated l).countP fun v => i ≤ v := by
    rintro i hi ⟨ht, hq⟩
    rw [Storage.term_of_lt (by omega)] at ht
    obtain ⟨e, he, -⟩ := Option.map_eq_some_iff.mp ht
    have hle := (Storage.boundary_of_entry he).2
    exact ⟨hle, hq.trans (countP_replicated_eq x l hle).ge⟩
  split
  · next hcond =>
      obtain ⟨hlen, hlt, ht⟩ := hcond
      have hcand := le_getD_insertionSort_iff (x.replicated l) hmaj hlen
        (k := x.commitCandidate l)
      refine .inl ⟨⟨hlt, ht, ?_⟩, fun i hi => ?_⟩
      · rw [← countP_replicated_eq x l hend]
        exact hcand.mp le_rfl
      · exact (le_getD_insertionSort_iff _ hmaj hlen).mpr
          (hcount i hi.1 hi.2).2
  · next hcond =>
      refine .inr ⟨rfl, fun i hi hc => hcond ?_⟩
      obtain ⟨hle, hq⟩ := hcount i hi hc
      have hlen : x.majority ≤ (x.replicated l).length :=
        hq.trans List.countP_le_length
      have hcand : i ≤ x.commitCandidate l :=
        (le_getD_insertionSort_iff _ hmaj hlen).mpr hq
      exact ⟨hlen, hi.trans_le hcand,
        ha.term_of_le (hcommit.trans_lt hi) hc.1 hcand hend⟩

/-! ## The call returns -/

theorem applyLoop_total (k : Nat) (c : Ctx M)
    (h : ∀ i, c.node.lastApplied < i → i ≤ c.node.lastApplied + k →
      ∃ e, c.node.storage.entry i = some e) :
    wp (applyLoop k) (fun _ _ => True) c := by
  induction k generalizing c with
  | zero => trivial
  | succ k ih =>
      obtain ⟨e, he⟩ := h (c.node.lastApplied + 1) (Nat.lt_succ_self _)
        (by omega)
      simp only [applyLoop, wp_bind, wp_update, wp_node]
      rw [wp_unwrap he]
      simp only [wp_emit]
      exact ih _ fun i hlt hle => h i (Nat.lt_of_succ_lt hlt)
        (by simp only at hle; omega)

theorem maybeCompact_total (c : Ctx M)
    (hb : c.node.storage.snapshotIndex ≤ c.node.lastApplied)
    (hend : c.node.lastApplied ≤ c.node.storage.lastIndex)
    (hst : ∀ st, c.node.stagedSnapshot = some st →
      st.index ≤ c.node.lastApplied) :
    wp maybeCompact (fun _ _ => True) c := by
  simp only [maybeCompact, wp_bind, wp_node]
  cases ht : c.node.config.snapshotThreshold with
  | none => trivial
  | some threshold =>
      have htotal : wp (do
          discardStaged
          stageSnapshot threshold) (fun _ _ => True) c := by
        simp [discardStaged, stageSnapshot, wp_ite, wp_checkedSub hb]
      have hstage := (stageSnapshot_stages threshold c).wp htotal
      simp only [wp_bind] at hstage ⊢
      refine wp_mono hstage fun _ c₁ h₁ => wp_mono h₁ fun _ c₂ h₂ => ?_
      subst h₂
      simp only [compactStaged, wp_bind, wp_node]
      cases hs : c.node.staging threshold with
      | none => trivial
      | some st =>
          have hle := Node.staging_le hst hs
          obtain ⟨e, he⟩ := Storage.exists_entry
            (Node.staging_lt hs) (hle.trans hend)
          simp only [wp_bind, wp_checkedSub hle, wp_ite]
          refine ⟨fun _ => ?_, fun _ => trivial⟩
          rw [wp_expect (Storage.compactTo_eq_ok.mpr ⟨e, he, rfl⟩)]
          trivial

theorem resolveReads_total (c : Ctx M) :
    wp resolveReads (fun _ _ => True) c := by
  simp only [resolveReads, wp_bind, wp_node]
  cases c.node.role <;> trivial

theorem applyCommitted_total (ho : x.Orderly) {k : Nat}
    (hk : x.commitIndex ≤ k) (hend : k ≤ x.storage.lastIndex)
    (out : List (Output M)) :
    wp applyCommitted (fun _ c' => c'.node.commitIndex = k)
      ⟨{ x with commitIndex := k }, out⟩ := by
  have hb := ho.boundary_le
  have happ := ho.applied
  simp only [applyCommitted, wp_bind, wp_node]
  have hloop := (applyLoop_advances (k - x.lastApplied)
    ⟨{ x with commitIndex := k }, out⟩).wp (applyLoop_total _ _
      fun i hlt hle => Storage.exists_entry (by simp only at hlt ⊢; omega)
        (by simp only at hle ⊢; omega))
  refine wp_mono hloop fun _ c₁ h₁ => ?_
  obtain ⟨es, hlen, -, rfl⟩ := h₁
  simp only [resolvePending, wp_bind, wp_node, wp_emitAll, wp_update]
  refine wp_mono ((resolveReads_unmoved _).wp (resolveReads_total _))
    fun _ c₂ h₂ => ?_
  obtain ⟨hun, -⟩ := h₂
  have hb₂ := Storage.snapshotIndex_congr hun.snapshot
  have hend₂ := hun.lastIndex
  have happ₂ := hun.lastApplied
  have hcommit₂ := hun.commitIndex
  have hstaged₂ := hun.stagedSnapshot
  simp only [Node.advanced] at hb₂ hend₂ happ₂ hcommit₂ hstaged₂
  refine wp_mono ((maybeCompact_compacts c₂).wp (maybeCompact_total c₂
    (by omega) (by omega) fun st hst => ?_)) fun _ c₃ h₃ => ?_
  · have := ho.staged st (hstaged₂ ▸ hst)
    omega
  · rw [h₃.1.commitIndex, hcommit₂]

theorem stepDownIfRemoved_total (c : Ctx M) :
    wp stepDownIfRemoved
      (fun _ c' => c'.node.commitIndex = c.node.commitIndex) c := by
  simp [stepDownIfRemoved, becomeFollower, publishMembership, wp_ite]

/-- `maybe_advance_commit` returns, and follows the rule. -/
theorem maybeAdvanceCommit_rule (hl : x.role = .leader l) (ho : x.Orderly)
    (hb : x.Bounded) (ha : x.Ascending) (out : List (Output M)) :
    wp maybeAdvanceCommit
      (fun _ c' => x.NextCommit l c'.node.commitIndex) ⟨x, out⟩ := by
  have hrule := Node.nextCommit_candidate hl ho hb ha
  simp only [maybeAdvanceCommit, wp_bind, wp_node, hl]
  rw [wp_ite]
  refine ⟨fun hlen => ?_, fun hlen => ?_⟩
  · rw [if_neg fun h => absurd h.1 (Nat.not_le_of_lt hlen)] at hrule
    exact hrule
  · have hlen := Nat.le_of_not_lt hlen
    by_cases hcond : x.commitIndex < x.commitCandidate l ∧
        x.storage.term (x.commitCandidate l) = some x.currentTerm
    · rw [if_pos ⟨hlen, hcond⟩] at hrule
      simp only [wp_bind, if_pos hcond, gt_iff_lt, wp_update, wp_emit]
      refine wp_mono (applyCommitted_total ho hcond.1.le
        (hb.candidate_le hl) _) fun _ c₁ h₁ => ?_
      refine wp_mono (stepDownIfRemoved_total c₁) fun _ c₂ h₂ => ?_
      rw [h₂, h₁]
      exact hrule
    · rw [if_neg fun h => hcond h.2] at hrule
      simp only [if_neg hcond, gt_iff_lt]
      refine wp_mono (stepDownIfRemoved_total _) fun _ c₂ h₂ => ?_
      rw [h₂]
      exact hrule

/-! ## Where the call is made -/

/-- The states of node `n` in which `maybe_advance_commit` may be called, the
next event starting from `c`: between events; when a proposal has just been
appended; when an answer has just been booked; when an election has just been
won, in the term of the node or a later one. -/
inductive Cluster.CommitCall (c : Cluster M) (n : NodeId) : Node M → Prop
  | between {l : LeaderState} (hl : (c.nodes n).role = .leader l) :
      CommitCall c n (c.nodes n)
  | proposed {l : LeaderState} {S : Storage V M.Payload} (now : Instant)
      (cmd : Command V) (hl : (c.nodes n).role = .leader l)
      (hv : (c.nodes n).validateCommand l now cmd = .ok ())
      (hS : (c.nodes n).storage.append [⟨(c.nodes n).currentTerm,
        (c.nodes n).storage.lastIndex + 1, cmd⟩] = .ok S) :
      CommitCall c n ((c.nodes n).accepted l now S cmd)
  | confirmed {l : LeaderState} {r : Reply M} {prev len seq : Nat}
      {reply : AppendEntriesReply} (now : Instant) (hr : r ∈ c.replies)
      (htag : r.rpc.tag = .append (c.nodes n).currentTerm prev len seq)
      (hres : r.response = .appendEntries reply)
      (hs : reply.success = true) (hl : (c.nodes n).role = .leader l) :
      CommitCall c n ((c.nodes n).book
        ((l.answered r.rpc.dst seq now).confirm r.rpc.dst (prev + len))
        r.rpc.dst ((((l.answered r.rpc.dst seq now).confirm r.rpc.dst
          (prev + len)).matchIndex r.rpc.dst).getD 0))
  | installed {l : LeaderState} {r : Reply M} {boundary : Nat}
      (now : Instant) (hr : r ∈ c.replies)
      (htag : r.rpc.tag = .installSnapshot (c.nodes n).currentTerm boundary)
      (hl : (c.nodes n).role = .leader l) :
      CommitCall c n ((c.nodes n).book (l.installed r.rpc.dst boundary now)
        r.rpc.dst boundary)
  | won {S : Storage V M.Payload} {t : Nat} (now : Instant)
      (ht : (c.nodes n).currentTerm ≤ t)
      (hS : ((c.nodes n).storage.saveHardState ⟨t, some n⟩).append
        [⟨t, (c.nodes n).storage.lastIndex + 1, .noop⟩] = .ok S) :
      CommitCall c n { c.nodes n with
        storage := S
        role := .leader (.fresh (c.nodes n).peerIds
          ((c.nodes n).storage.lastIndex + 1) now)
        leaderId := some n }

namespace Node.Ascending

theorem of_storage (h : x.Ascending) (hlog : y.storage.log = x.storage.log)
    (ht : x.currentTerm ≤ y.currentTerm) : y.Ascending where
  sorted := hlog ▸ h.sorted
  le_term e he := (h.le_term e (hlog ▸ he)).trans ht

theorem append {S : Storage V M.Payload} {e : LogEntry V} (h : x.Ascending)
    (hS : x.storage.append [e] = .ok S) (he : e.term = x.currentTerm)
    (hy : y.storage = S) : y.Ascending := by
  have hhs := Storage.append_hardState hS
  obtain ⟨-, hlog⟩ := Storage.append_eq_ok.mp hS
  have ht : y.currentTerm = x.currentTerm := by
    rw [Node.currentTerm, hy, hhs]
    rfl
  have hlog : y.storage.log = x.storage.log ++ [e] := by rw [hy, hlog]
  refine ⟨?_, fun e' he' => ?_⟩
  · rw [hlog, List.map_append, List.pairwise_append]
    refine ⟨h.sorted, List.pairwise_singleton _ _, fun u hu v hv => ?_⟩
    obtain ⟨e', he', rfl⟩ := List.mem_map.mp hu
    rw [List.mem_singleton.mp hv, he]
    exact h.le_term e' he'
  · rw [hlog] at he'
    rw [ht]
    rcases List.mem_append.mp he' with he' | he'
    · exact h.le_term e' he'
    · rw [List.mem_singleton.mp he', he]

end Node.Ascending

theorem Run.ascending (run : Run D M) (i : ℕ) (n : NodeId) :
    ((run.state i).nodes n).Ascending := by
  obtain ⟨T⟩ := run.exists_trace
  have hn := (T.inv i).nodes n
  have hsub : ((run.state i).nodes n).storage.log.Sublist (T.log i n) := by
    rw [hn.body.repr.log]
    exact List.drop_sublist _ _
  exact ⟨(pairwise_term (T.inv i).sound hn.ok.valid).sublist
    (hsub.map LogEntry.term), fun e he => hn.ok.log_le e (hsub.subset he)⟩

theorem Run.Trace.append_answered (T : run.Trace) {i t prev len seq : ℕ}
    {r : Reply M} {reply : AppendEntriesReply}
    (hr : r ∈ (run.state i).replies)
    (htag : r.rpc.tag = .append t prev len seq)
    (hres : r.response = .appendEntries reply)
    (hs : reply.success = true) :
    (T.hist i).ack r.rpc.dst t (prev + len) := by
  obtain ⟨hrpc, hok⟩ := (T.inv i).replies r hr
  rw [ReplyOk, hres] at hok
  rw [htag] at hrpc
  cases hreq : r.rpc.request with
  | appendEntries a =>
      rw [hreq] at hrpc hok
      obtain ⟨-, seq', heq, -⟩ := hrpc
      cases heq
      exact hok.2.1 hs
  | requestVote a =>
      rw [hreq] at hrpc
      cases hrpc.1
  | preVote a =>
      rw [hreq] at hrpc
      cases hrpc
  | installSnapshot a =>
      rw [hreq] at hrpc
      cases hrpc.2

theorem Run.Trace.install_answered (T : run.Trace) {i t boundary : ℕ}
    {r : Reply M} (hr : r ∈ (run.state i).replies)
    (htag : r.rpc.tag = .installSnapshot t boundary) :
    boundary ≤ ((T.hist i).tlog t).length := by
  obtain ⟨hrpc, -⟩ := (T.inv i).replies r hr
  rw [htag] at hrpc
  cases hreq : r.rpc.request with
  | installSnapshot a =>
      rw [hreq] at hrpc
      obtain ⟨⟨P, hP⟩, heq⟩ := hrpc
      cases heq
      rw [hP.snapshot.index]
      exact hP.log.length_le
  | requestVote a =>
      rw [hreq] at hrpc
      cases hrpc.1
  | preVote a =>
      rw [hreq] at hrpc
      cases hrpc
  | appendEntries a =>
      rw [hreq] at hrpc
      obtain ⟨-, seq', heq, -⟩ := hrpc
      cases heq

theorem Node.Bounded.book {l₁ : LeaderState} {peer : NodeId} {held : Nat}
    (hm : ∀ p, (l₁.matchIndex p).getD 0 ≤ x.storage.lastIndex) :
    (x.book l₁ peer held).Bounded := by
  intro l hl p
  have hmatch : l.matchIndex = l₁.matchIndex := by
    rw [← Role.leader.inj hl]
    split <;> rfl
  rw [hmatch]
  exact hm p

theorem Node.Bounded.update (hb : x.Bounded) (hl : x.role = .leader l)
    {k : Nat} (hk : k ≤ x.storage.lastIndex) (peer p : NodeId) :
    (Function.update l.matchIndex peer (some k) p).getD 0 ≤
      x.storage.lastIndex := by
  by_cases hp : p = peer
  · rw [hp, Function.update_self]
    exact hk
  · rw [Function.update_of_ne hp]
    exact hb l hl p

theorem Run.commitCall (run : Run D M) {i : ℕ} {n : NodeId}
    (h : (run.state i).CommitCall n y) :
    ∃ l, y.role = .leader l ∧ y.Orderly ∧ y.Bounded ∧ y.Ascending := by
  obtain ⟨T⟩ := run.exists_trace
  have ho := run.orderly i n
  have hb := T.bounded i n
  have ha := run.ascending i n
  have hlast := ((T.inv i).nodes n).body.repr.lastIndex
  have htlog : ∀ {l}, ((run.state i).nodes n).role = .leader l →
      ((T.hist i).tlog ((run.state i).nodes n).currentTerm).length =
        ((run.state i).nodes n).storage.lastIndex := by
    intro l hl
    obtain ⟨_, -, htlog⟩ := T.leader (Node.isLeader_iff.mpr ⟨l, hl⟩)
    rw [htlog, hlast]
  cases h with
  | @between l hl => exact ⟨l, hl, ho, hb, ha⟩
  | @proposed l S now cmd hl hv hS =>
      have hm : Move now (.propose cmd) ((run.state i).nodes n) _ _ :=
        .accept cmd rfl hl hv hS
      have hd : Deed (.propose cmd) ((run.state i).nodes n)
          (((run.state i).nodes n).accepted l now S cmd)
          [.proposeReply (.ok (((run.state i).nodes n).currentTerm,
            ((run.state i).nodes n).storage.lastIndex + 1))] :=
        ⟨_, .propose _ hS, by cases cmd <;> exact ⟨rfl, rfl, rfl, rfl, rfl,
          rfl, rfl, rfl⟩⟩
      obtain ⟨l', hl'⟩ : ∃ l',
          (((run.state i).nodes n).accepted l now S cmd).role =
            .leader l' := by
        cases cmd with
        | configChange m => exact ⟨_, rfl⟩
        | _ => exact ⟨l, hl⟩
      exact ⟨l', hl', hd.orderly ho, hm.bounded hd rfl hb,
        ha.append hS rfl (Node.storage_accepted _ _ _ _ _)⟩
  | @confirmed l r prev len seq reply now hr htag hres hs hl =>
      refine ⟨_, rfl, ho.unmoved ⟨rfl, rfl, rfl, rfl, rfl, rfl, rfl, rfl⟩,
        .book fun p => ?_, ha.of_storage rfl le_rfl⟩
      have hack := T.append_answered hr htag hres hs
      have hle := ((T.inv i).sound.wf.ack_led hack).1
      rw [htlog hl] at hle
      rw [(confirm_answered l r.rpc.dst seq (prev + len) now).1.2,
        LeaderState.confirm]
      split
      · exact hb.update hl hle _ p
      · exact hb.update hl (hb l hl _) _ p
  | @installed l r boundary now hr htag hl =>
      refine ⟨_, rfl, ho.unmoved ⟨rfl, rfl, rfl, rfl, rfl, rfl, rfl, rfl⟩,
        .book fun p => ?_, ha.of_storage rfl le_rfl⟩
      have hle := T.install_answered hr htag
      rw [htlog hl] at hle
      exact hb.update hl (max_le (hb l hl _) hle) _ p
  | @won S t now ht hS =>
      have hsaved : ({ (run.state i).nodes n with
          storage := ((run.state i).nodes n).storage.saveHardState
            ⟨t, some n⟩ } : Node M).Orderly :=
        ho.unmoved ⟨rfl, rfl, rfl, rfl, rfl, rfl, rfl, rfl⟩
      refine ⟨_, rfl, (hsaved.append hS).unmoved
        ⟨rfl, rfl, rfl, rfl, rfl, rfl, rfl, rfl⟩, fun l hl p => ?_, ?_⟩
      · rw [← Role.leader.inj hl, LeaderState.fresh]
        simp only
        split <;> exact Nat.zero_le _
      · exact (ha.of_storage (y := { (run.state i).nodes n with
          storage := ((run.state i).nodes n).storage.saveHardState
            ⟨t, some n⟩ }) rfl ht).append hS rfl rfl

/-- Commit advancement is exactly Raft's rule: wherever the code makes the
call, and whatever the configuration is, `maybe_advance_commit` sets the
commit index to the greatest one beyond it whose entry is of the current term
and which a majority of the members holds, and leaves it if there is none. -/
theorem commit_rule (run : Run D M) {i : ℕ} {n : NodeId} {y : Node M}
    (h : (run.state i).CommitCall n y) (members : Membership)
    (out : List (Output M)) :
    ∃ l, y.role = .leader l ∧
      wp maybeAdvanceCommit (fun _ c =>
        ({ y with members := members } : Node M).NextCommit l
          c.node.commitIndex) ⟨{ y with members := members }, out⟩ := by
  obtain ⟨l, hl, ho, hb, ha⟩ := run.commitCall h
  exact ⟨l, hl, maybeAdvanceCommit_rule (x := { y with members := members })
    hl (ho.unmoved ⟨rfl, rfl, rfl, rfl, rfl, rfl, rfl, rfl⟩) hb
    (ha.of_storage rfl le_rfl) out⟩

theorem wp_of_any {ε σ α : Type} {x : Prog ε σ α} {s : σ} {P : σ → Bool}
    (h : (x s).toOption.any (fun r => P r.2) = true) :
    wp x (fun _ s' => P s' = true) s := by
  cases hx : x s with
  | ok r =>
      rw [hx] at h
      exact wp_iff.mpr ⟨r.1, r.2, hx, h⟩
  | error _ =>
      rw [hx] at h
      cases h

/-- Node 1 of three after it has booked the first confirmation of its log, by
node 2. -/
def trioBooked (l : LeaderState) : Node (KvStore.machine Nat) :=
  ((trioRun.state 7).nodes 1).book ((l.answered 2 0 0).confirm 2 2) 2
    ((((l.answered 2 0 0).confirm 2 2).matchIndex 2).getD 0)

/-- Two of the three hold both entries, and the commit index goes from 0 to
2. -/
theorem commit_rule_trio : ∃ l l',
    (trioRun.state 7).CommitCall 1 (trioBooked l) ∧
      (trioBooked l).members.keySet.card = 3 ∧
      (trioBooked l).commitIndex = 0 ∧ (trioBooked l).role = .leader l' ∧
      wp maybeAdvanceCommit (fun _ c => c.node.commitIndex = 2)
        ⟨trioBooked l, []⟩ ∧ (trioBooked l).NextCommit l' 2 := by
  have hall : ((trioRun.state 7).nodes 1).role.any (fun l =>
      (maybeAdvanceCommit ⟨trioBooked l, []⟩).toOption.any fun r =>
        r.2.node.commitIndex = 2) = true := by
    decide +kernel
  obtain ⟨l, hl, hcommit⟩ := Role.exists_of_any hall
  have hbook : ∀ (x : Node (KvStore.machine Nat)) l p m,
      (x.book l p m).members = x.members ∧
        (x.book l p m).commitIndex = x.commitIndex :=
    fun _ _ _ _ => ⟨rfl, rfl⟩
  have hcard : (trioBooked l).members.keySet.card = 3 := by
    rw [trioBooked, (hbook _ _ _ _).1]
    decide +kernel
  have hzero : (trioBooked l).commitIndex = 0 := by
    rw [trioBooked, (hbook _ _ _ _).2]
    decide +kernel
  have hterm : ((trioRun.state 7).nodes 1).currentTerm = 1 := by
    decide +kernel
  have hsent : ((trioRun.state 7).replies[2]?).any (fun r =>
      r.rpc.dst = 2 ∧ r.rpc.tag = .append 1 0 2 0 ∧
        r.response = .appendEntries ⟨1, true⟩) = true := by
    decide +kernel
  obtain ⟨r, hr, hreply⟩ := (Option.any_eq_true _ _).mp hsent
  obtain ⟨hdst, htag, hres⟩ := of_decide_eq_true hreply
  have hcall : (trioRun.state 7).CommitCall 1 (trioBooked l) := by
    have h := Cluster.CommitCall.confirmed 0 (List.mem_of_getElem? hr)
      (by rw [hterm, htag]) hres rfl hl
    rwa [hdst] at h
  refine ⟨l, ?_⟩
  -- which node it is does not matter any more
  generalize trioBooked l = y at *
  have hadvance := wp_of_any
    (P := fun c : Ctx (KvStore.machine Nat) => c.node.commitIndex = 2) hcommit
  obtain ⟨l', hl', hrule⟩ := commit_rule trioRun hcall y.members []
  obtain ⟨u, c, hx, hnext⟩ := wp_iff.mp hrule
  obtain ⟨u', c', hx', htwo⟩ := wp_iff.mp hadvance
  cases hx.symm.trans hx'
  have htwo := of_decide_eq_true htwo
  rw [htwo] at hnext
  exact ⟨l', hcall, hcard, hzero, hl', wp_iff.mpr ⟨u, c, hx', htwo⟩, hnext⟩

end RustKV
