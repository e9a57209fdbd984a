import RustKV.Proofs.Readmission

/-!
# What a leader believes its peers hold

A leader keeps two indexes for a peer: what the peer is known to hold
(`match_index`) and where the next batch starts (`next_index`). The first is
inferred from what was sent, not from what the answer says, and is right all
the same: as long as the peer is in the leader's term, it holds the leader's
entries up to there (`acknowledged_kept`).

The second should always be beyond the first. It is not: a refusal moves it
back without a look at what has been confirmed since the refused batch was
sent. `Run.StaleRefusal` names the event, and without one the order holds in
every leader state, and with one it is broken (`next_beyond_match_iff`).
-/

namespace RustKV

open Rust Prog NodeM Consensus History

variable {V : Type} {M : StateMachine V} {D : Deployment} {run : Run D M}
  {now : Instant} {cause : Cause M} {x y : Node M} {os : List (Output M)}
  {l l' : LeaderState}

/-! ## Acknowledgements -/

section

variable {H : Hist V} {F K : List (LogEntry V)} {x : Node M} {n p : NodeId}
  {members : Membership} {t k : ℕ}

/-- What a node acknowledged it holds, for as long as its term lasts. -/
theorem NodeInv.ack_isPrefix (h : NodeInv D H p F x) (hack : H.ack p t k)
    (ht : x.currentTerm = t) : (H.tlog t).take k <+: F := by
  obtain ⟨-, hkept⟩ := h.ok.ack_kept hack
  rcases hkept with hkept | ⟨t', n', b', hlt, hlt', -⟩
  · exact hkept
  · -- no leader fits between the term and itself
    exact absurd hlt' (by simp only [Node.replica, ht]; omega)

/-- What a leader has on record of a peer is in its own log. -/
theorem LeaderInv.matched_le (h : LeaderInv D H n F members t l)
    (hs : Sound D H) (p : NodeId) :
    (l.matchIndex p).getD 0 ≤ (H.tlog t).length := by
  cases hm : l.matchIndex p with
  | none => exact Nat.zero_le _
  | some k =>
      rcases Nat.eq_zero_or_pos k with rfl | hk
      · exact Nat.zero_le _
      · exact (hs.wf.ack_led (h.matched p k hm hk)).1

theorem LeaderInv.matched_isPrefix (h : LeaderInv D H n F members t l)
    (hp : NodeInv D H p K x) (ht : x.currentTerm = t) :
    (H.tlog t).take ((l.matchIndex p).getD 0) <+: K := by
  cases hm : l.matchIndex p with
  | none => exact List.nil_prefix
  | some k =>
      rcases Nat.eq_zero_or_pos k with rfl | hk
      · exact List.nil_prefix
      · exact hp.ack_isPrefix (h.matched p k hm hk) ht

end

namespace Run.Trace

theorem leaderInv (T : run.Trace) {i : ℕ} {n : NodeId}
    (hl : ((run.state i).nodes n).role = .leader l) :
    LeaderInv D (T.hist i) n (T.log i n) ((run.state i).nodes n).members
      ((run.state i).nodes n).currentTerm l := by
  have hrole := ((T.inv i).nodes n).role
  rwa [hl] at hrole

theorem matched_le (T : run.Trace) {i : ℕ} {n : NodeId}
    (hl : ((run.state i).nodes n).role = .leader l) (p : NodeId) :
    (l.matchIndex p).getD 0 ≤ (T.log i n).length := by
  obtain ⟨b, -, htlog⟩ := T.leader (Node.isLeader_iff.mpr ⟨l, hl⟩)
  exact htlog ▸ (T.leaderInv hl).matched_le (T.inv i).sound p

theorem matched_isPrefix (T : run.Trace) {i : ℕ} {n p : NodeId}
    (hl : ((run.state i).nodes n).role = .leader l)
    (ht : ((run.state i).nodes p).currentTerm =
      ((run.state i).nodes n).currentTerm) :
    (T.log i n).take ((l.matchIndex p).getD 0) <+: T.log i p := by
  obtain ⟨b, -, htlog⟩ := T.leader (Node.isLeader_iff.mpr ⟨l, hl⟩)
  exact htlog ▸ (T.leaderInv hl).matched_isPrefix ((T.inv i).nodes p) ht

end Run.Trace

/-- Acknowledgements are sound: while a peer is in its leader's term, it keeps
every entry of the leader up to the match index the leader has for it, and the
leader has an entry at each of these indexes. -/
theorem acknowledged_kept (run : Run D M) {i : ℕ} {n p : NodeId}
    {l : LeaderState} (hl : ((run.state i).nodes n).role = .leader l)
    (ht : ((run.state i).nodes p).currentTerm =
      ((run.state i).nodes n).currentTerm) :
    (∀ e, run.Keeps i n e → e.index ≤ (l.matchIndex p).getD 0 →
      run.Keeps i p e) ∧
    ∀ k, 0 < k → k ≤ (l.matchIndex p).getD 0 →
      ∃ e, e.index = k ∧ run.Keeps i n e := by
  obtain ⟨T⟩ := run.exists_trace
  have hpre := T.matched_isPrefix (p := p) hl ht
  have hlen := T.matched_le hl p
  refine ⟨fun e he hle => ?_, fun k hk hle => ?_⟩
  · obtain ⟨hpos, hlog⟩ := T.getElem?_of_keeps he
    refine T.keeps hpos (getElem?_of_isPrefix hpre ?_)
    rwa [getElem?_take_of_lt (by omega)]
  · have hlt : k - 1 < (T.log i n).length := by omega
    have he := List.getElem?_eq_getElem hlt
    have hidx := ((T.inv i).nodes n).body.repr.indexed _ _ he
    have hk' : ((T.log i n)[k - 1]).index = k := by omega
    refine ⟨_, hk', T.keeps (by omega) ?_⟩
    rwa [hk']

theorem acknowledged_kept_noop :
    ((readdRun.state 9).nodes 3).currentTerm =
        ((readdRun.state 9).nodes 1).currentTerm ∧
      ∃ l, ((readdRun.state 9).nodes 1).role = .leader l ∧
        l.matchIndex 3 = some 1 ∧ readdRun.Keeps 9 3 ⟨1, 1, .noop⟩ := by
  have ht : ((readdRun.state 9).nodes 3).currentTerm =
      ((readdRun.state 9).nodes 1).currentTerm := by decide +kernel
  obtain ⟨l, hl, hm⟩ := Role.exists_of_any
    (P := fun l => l.matchIndex 3 = some 1)
    (r := ((readdRun.state 9).nodes 1).role) (by decide +kernel)
  have hm : l.matchIndex 3 = some 1 := of_decide_eq_true hm
  refine ⟨ht, l, hl, hm, (acknowledged_kept readdRun hl ht).1 _
    (.inl (by decide +kernel)) ?_⟩
  rw [hm]
  exact le_rfl

/-! ## How a leader moves the two indexes -/

/-- What an event may do to the two maps of a leader of `t`. -/
inductive LeaderState.Tracks (cause : Cause M) (t : Nat)
    (l l' : LeaderState) : Prop
  | same (hn : l'.nextIndex = l.nextIndex) (hm : l'.matchIndex = l.matchIndex)
  | confirmed (peer : NodeId) (prev len seq : Nat)
      (reply : AppendEntriesReply)
      (hc : cause = .reply (.appendReply t peer prev len seq
        (.ok (.appendEntries reply)))) (hs : reply.success = true)
      (hn : l'.nextIndex = (l.confirm peer (prev + len)).nextIndex)
      (hm : l'.matchIndex = (l.confirm peer (prev + len)).matchIndex)
  | refused (peer : NodeId) (prev len seq : Nat)
      (reply : AppendEntriesReply)
      (hc : cause = .reply (.appendReply t peer prev len seq
        (.ok (.appendEntries reply)))) (hs : reply.success = false)
      (hn : l'.nextIndex = (l.backtrack peer prev).nextIndex)
      (hm : l'.matchIndex = l.matchIndex)
  | installed (now : Instant) (peer : NodeId) (boundary : Nat)
      (reply : InstallSnapshotReply)
      (hc : cause = .reply (.installSnapshotReply t peer boundary
        (.ok (.installSnapshot reply))))
      (hn : l'.nextIndex = (l.installed peer boundary now).nextIndex)
      (hm : l'.matchIndex = (l.installed peer boundary now).matchIndex)

/-- Where the two maps of a leader come from. -/
inductive Tracked (cause : Cause M) (x y : Node M) (l' : LeaderState) : Prop
  | kept {l : LeaderState} (hl : x.role = .leader l)
      (ht : y.currentTerm = x.currentTerm)
      (hs : l'.termStartIndex = l.termStartIndex)
      (h : l.Tracks cause x.currentTerm l')
  | won {votes : Finset NodeId} {now : Instant}
      (hr : x.role = .candidate votes)
      (h : l' = .fresh x.peerIds (x.storage.lastIndex + 1) now)
      (hS : y.storage.lastIndex = x.storage.lastIndex + 1)

theorem confirm_answered (l : LeaderState) (peer : NodeId) (seq k : Nat)
    (now : Instant) :
    (((l.answered peer seq now).confirm peer k).nextIndex =
        (l.confirm peer k).nextIndex ∧
      ((l.answered peer seq now).confirm peer k).matchIndex =
        (l.confirm peer k).matchIndex) ∧
      ((l.answered peer seq now).confirm peer k).termStartIndex =
        l.termStartIndex := by
  have hmatch : (l.answered peer seq now).matchIndex = l.matchIndex := rfl
  rw [LeaderState.confirm, LeaderState.confirm, hmatch]
  by_cases h : k > (l.matchIndex peer).getD 0
  · rw [if_pos h, if_pos h]
    exact ⟨⟨rfl, rfl⟩, rfl⟩
  · rw [if_neg h, if_neg h]
    exact ⟨⟨rfl, rfl⟩, rfl⟩

theorem Move.tracked (h : Move now cause x y os)
    (hl' : y.role = .leader l') : Tracked cause x y l' := by
  cases h with
  | quiet h =>
      obtain ⟨l, rs, hl, rfl⟩ := h.leader hl'
      exact .kept hl h.currentTerm rfl (.same rfl rfl)
  | @accept l S cmd _ hl _ hS =>
      have ht := Node.currentTerm_accepted (Storage.append_hardState hS) l now
        cmd
      cases cmd with
      | configChange m =>
          cases hl'
          exact .kept hl ht rfl (.same rfl rfl)
      | _ => exact .kept hl' ht rfl (.same rfl rfl)
  | win hc hr _ hS =>
      cases hl'
      exact .won hr rfl (Storage.lastIndex_append hS)
  | register r _ _ hl =>
      cases hl'
      exact .kept hl rfl rfl (.same rfl rfl)
  | @confirmed l peer prev len seq reply hc hl hs =>
      cases hl'
      obtain ⟨⟨hn, hm⟩, ht⟩ := confirm_answered l peer seq (prev + len) now
      refine .kept hl rfl ?_ (.confirmed peer prev len seq reply hc hs ?_ ?_)
        <;> split <;> assumption
  | refused peer prev len seq reply hc hl hs =>
      cases hl'
      exact .kept hl rfl rfl (.refused peer prev len seq reply hc hs rfl rfl)
  | installed peer boundary reply hc hl =>
      cases hl'
      refine .kept hl rfl ?_ (.installed now peer boundary reply hc
        ?_ ?_) <;> split <;> rfl
  | contact => exact .kept hl' rfl rfl (.same rfl rfl)
  | grant => exact .kept hl' rfl rfl (.same rfl rfl)
  | ship => exact .kept hl' rfl rfl (.same rfl rfl)
  | _ => cases hl'

def Node.Started (x : Node M) : Prop :=
  ∀ l, x.role = .leader l →
    0 < l.termStartIndex ∧ l.termStartIndex ≤ x.storage.lastIndex

theorem Move.started (h : Move now cause x y os) (hd : Deed cause x y os)
    (hx : x.Started) : y.Started := by
  intro l' hl'
  cases h.tracked hl' with
  | @kept l hl _ hs _ =>
      have hle := hd.lastIndex_le (by rw [hl]; exact Role.noConfusion)
      have := hx l hl
      omega
  | won _ h hS =>
      subst h
      rw [hS]
      exact ⟨Nat.succ_pos _, le_rfl⟩

theorem Run.started (run : Run D M) (i : ℕ) (n : NodeId) :
    ((run.state i).nodes n).Started :=
  run.act_invariant (fun _ l hl => by cases hl) (fun _ _ _ l hl => by cases hl)
    (fun _ _ _ _ _ hm hd => hm.started hd) i n

theorem Run.appends_pos (run : Run D M) (i : ℕ) :
    ∀ r ∈ (run.state i).rpcs, ∀ a, r.request = .appendEntries a →
      0 < a.prevLogIndex + a.entries.length := by
  induction i with
  | zero =>
      rw [run.init]
      exact List.forall_mem_nil _
  | succ i ih =>
      cases run.acted i with
      | idle hc =>
          rw [hc]
          exact ih
      | restart h =>
          rw [h.rpcs]
          exact ih
      | turn now cause h ha =>
          rw [h.rpcs]
          intro r hr a hreq
          rcases List.mem_append.mp hr with hr | hr
          · exact ih r hr a hreq
          · obtain ⟨-, -, ho⟩ := mem_filterMap_sent hr
            rw [hreq] at ho
            obtain ⟨y, y', os₁, os', os₂, h₁, hm, hd, ho', -⟩ := ha.split ho
            obtain ⟨⟨l, hl⟩, -, hlast⟩ := hd.posts ho' rfl
            have hy := h₁.keeps (fun _ _ _ hm hd => hm.started hd)
              (run.started i _)
            have := hy l hl
            omega

/-! ## The order of the two -/

/-- Every peer with a match index has a next index beyond it. -/
def LeaderState.Ahead (l : LeaderState) : Prop :=
  ∀ p m, l.matchIndex p = some m → ∃ k, l.nextIndex p = some k ∧ m + 1 ≤ k

theorem LeaderState.Ahead.confirm (h : l.Ahead) (peer : NodeId) {k : Nat}
    (hk : 0 < k) : (l.confirm peer k).Ahead := by
  intro p m hm
  rw [LeaderState.confirm] at hm ⊢
  split
  · next hgrew =>
      rw [if_pos hgrew] at hm
      by_cases hp : p = peer
      · subst hp
        simp only [Function.update_self] at hm ⊢
        cases hm
        exact ⟨k + 1, rfl, le_rfl⟩
      · simp only [Function.update_of_ne hp] at hm ⊢
        exact h p m hm
  · next hgrew =>
      rw [if_neg hgrew] at hm
      by_cases hp : p = peer
      · subst hp
        simp only [Function.update_self] at hm
        cases hmatch : l.matchIndex p with
        | none => exact absurd (by rw [hmatch]; exact hk) hgrew
        | some m' =>
            rw [hmatch] at hm
            cases hm
            exact h p m' hmatch
      · simp only [Function.update_of_ne hp] at hm
        exact h p m hm

theorem LeaderState.Ahead.installed (h : l.Ahead) (peer : NodeId)
    (boundary : Nat) (now : Instant) :
    (l.installed peer boundary now).Ahead := by
  intro p m hm
  simp only [LeaderState.installed] at hm ⊢
  by_cases hp : p = peer
  · subst hp
    simp only [Function.update_self] at hm ⊢
    cases hm
    refine ⟨_, rfl, ?_⟩
    cases hmatch : l.matchIndex p with
    | none =>
        simp only [Option.getD_none]
        omega
    | some m' =>
        obtain ⟨k, hk, hle⟩ := h p m' hmatch
        rw [hk]
        simp only [Option.getD_some]
        omega
  · simp only [Function.update_of_ne hp] at hm ⊢
    exact h p m hm

theorem LeaderState.Ahead.backtrack (h : l.Ahead) {peer : NodeId}
    {prev : Nat} (hprev : ∀ m, l.matchIndex peer = some m → m < max prev 1) :
    (l.backtrack peer prev).Ahead := by
  intro p m hm
  simp only [LeaderState.backtrack]
  by_cases hp : p = peer
  · subst hp
    obtain ⟨k, hk, hle⟩ := h p m hm
    have := hprev m hm
    rw [Function.update_self, hk]
    refine ⟨_, rfl, ?_⟩
    simp only [Option.getD_some]
    omega
  · rw [Function.update_of_ne hp]
    exact h p m hm

theorem LeaderState.Ahead.fresh (peers : List NodeId) (next : Nat)
    (hn : 0 < next) (now : Instant) :
    (LeaderState.fresh peers next now).Ahead := by
  intro p m hm
  simp only [LeaderState.fresh] at hm ⊢
  split at hm
  · next hp =>
      cases hm
      rw [if_pos hp]
      exact ⟨next, rfl, hn⟩
  · cases hm

def Node.Ahead (x : Node M) : Prop := ∀ l, x.role = .leader l → l.Ahead

/-- If the event is a refusal, it is not one that the peer has since
overtaken. -/
def Cause.Spares (cause : Cause M) (x : Node M) : Prop :=
  ∀ l peer prev len seq reply m, x.role = .leader l →
    cause = .reply (.appendReply x.currentTerm peer prev len seq
      (.ok (.appendEntries reply))) →
    reply.success = false → l.matchIndex peer = some m → m < max prev 1

theorem Move.spares (h : Move now cause x y os) (hx : cause.Spares x) :
    cause.Spares y := by
  intro l' peer prev len seq reply m hl' hc hs hm
  cases h.tracked hl' with
  | @kept l hl ht _ h =>
      rw [ht] at hc
      cases h with
      | same _ hm' =>
          exact hx l peer prev len seq reply m hl hc hs (hm' ▸ hm)
      | confirmed _ _ _ _ _ hc' hs' =>
          rw [hc] at hc'
          cases hc'
          rw [hs] at hs'
          cases hs'
      | refused _ _ _ _ _ _ _ _ hm' =>
          exact hx l peer prev len seq reply m hl hc hs (hm' ▸ hm)
      | installed _ _ _ _ hc' =>
          rw [hc] at hc'
          cases hc'
  | won _ h =>
      subst h
      simp only [LeaderState.fresh] at hm
      split at hm
      · cases hm
        omega
      · cases hm

theorem Move.ahead (h : Move now cause x y os)
    (hpos : ∀ t peer prev len seq result, cause = .reply
      (.appendReply t peer prev len seq result) → 0 < prev + len)
    (hc : cause.Spares x) (hx : x.Ahead) : y.Ahead := by
  intro l' hl'
  cases h.tracked hl' with
  | @kept l hl ht _ h =>
      -- only the two maps matter
      have hmaps : ∀ l₁ : LeaderState, l₁.Ahead →
          l'.nextIndex = l₁.nextIndex → l'.matchIndex = l₁.matchIndex →
          l'.Ahead := by
        intro l₁ h₁ hn hm
        rw [LeaderState.Ahead, hn, hm]
        exact h₁
      cases h with
      | same hn hm => exact hmaps l (hx l hl) hn hm
      | confirmed peer _ _ _ _ hc' _ hn hm =>
          exact hmaps _ ((hx l hl).confirm peer (hpos _ _ _ _ _ _ hc')) hn hm
      | refused peer prev len seq reply hc' hs hn hm =>
          refine hmaps _ ((hx l hl).backtrack fun m hm' => ?_) hn hm
          exact hc l peer prev len seq reply m hl hc' hs hm'
      | installed now' peer boundary _ _ hn hm =>
          exact hmaps _ ((hx l hl).installed peer boundary now') hn hm
  | won _ h =>
      subst h
      exact .fresh _ _ (Nat.succ_pos _) _

theorem Moves.ahead (h : Moves now cause x y os)
    (hpos : ∀ t peer prev len seq result, cause = .reply
      (.appendReply t peer prev len seq result) → 0 < prev + len)
    (hc : cause.Spares x) (hx : x.Ahead) : y.Ahead ∧ cause.Spares y := by
  induction h with
  | refl => exact ⟨hx, hc⟩
  | step _ hm ih => exact ⟨hm.ahead hpos ih.2 ih.1, hm.spares ih.2⟩

/-! ## Refusals that come late -/

theorem handleAppendReply_outdated (sentTerm : Nat) (peer : NodeId)
    (prev len seq : Nat) (reply : AppendEntriesReply) {c : Ctx M}
    (ht : c.node.currentTerm < reply.term) :
    wlp (handleAppendReply now sentTerm peer prev len seq reply)
      (fun _ c' => c'.node.role = .follower) c := by
  simp only [handleAppendReply, wlp_bind, wlp_node, wlp_ite, wlp_pure]
  exact ⟨fun _ => becomeFollower_wlp fun _ => rfl, fun h => absurd ht h⟩

theorem handleAppendReply_refused (peer : NodeId) (prev len seq : Nat)
    {reply : AppendEntriesReply} {c : Ctx M}
    (ht : reply.term ≤ c.node.currentTerm) (hs : reply.success = false)
    (hl : c.node.role = .leader l) :
    wlp (handleAppendReply now c.node.currentTerm peer prev len seq reply)
      (fun _ c' => ∃ rs, c'.node.role = .leader
        { (l.answered peer seq now).backtrack peer prev with
          pendingReads := rs }) c := by
  simp only [handleAppendReply, wlp_bind, wlp_node, wlp_ite, wlp_pure]
  refine ⟨fun h => absurd ht (Nat.not_le_of_lt h),
    fun _ => ⟨fun h => absurd rfl h, fun _ => ?_⟩⟩
  simp only [hl, hs, Bool.false_eq_true, if_false, wlp_bind, wlp_update]
  refine wlp_mono (sendAppend_acts now .read peer _) fun _ c₁ h₁ => ?_
  refine wlp_mono (resolveReads_calm c₁) fun _ c₂ h₂ => ?_
  obtain ⟨rs, -, hr⟩ := h₂.1.1.role
  rw [h₁.2] at hr
  exact ⟨rs, hr⟩

/-- A leader hears that a peer refused a batch, in the leader's own term,
although the peer has confirmed the place where the batch went since. -/
def Run.StaleRefusal (run : Run D M) (j : ℕ) : Prop :=
  ∃ i now r prev len seq reply l m, run.action j = .reply i now ∧
    (run.state j).replies[i]? = some r ∧
    r.rpc.tag = .append ((run.state j).nodes r.rpc.src).currentTerm prev len
      seq ∧
    r.response = .appendEntries reply ∧
    reply.term ≤ ((run.state j).nodes r.rpc.src).currentTerm ∧
    reply.success = false ∧
    ((run.state j).nodes r.rpc.src).role = .leader l ∧
    l.matchIndex r.rpc.dst = some m ∧ max prev 1 ≤ m

theorem Run.StaleRefusal.not_ahead {j : ℕ} (h : run.StaleRefusal j) :
    ∃ n, ¬ ((run.state (j + 1)).nodes n).Ahead := by
  obtain ⟨i, now, r, prev, len, seq, reply, l, m, hact, hr, htag, hresp, ht,
    hs, hl, hm, hle⟩ := h
  refine ⟨r.rpc.src, ?_⟩
  have hafter := run.of_reply hact hr (Q := fun x => ∃ rs, x.role = .leader
    { (l.answered r.rpc.dst seq now).backtrack r.rpc.dst prev with
      pendingReads := rs }) (by
    rw [htag, hresp]
    exact handleAppendReply_refused r.rpc.dst prev len seq ht hs hl)
  obtain ⟨rs, hafter⟩ := hafter
  intro hahead
  obtain ⟨k, hk, hlt⟩ := hahead _ hafter r.rpc.dst m hm
  simp only [LeaderState.backtrack, Function.update_self] at hk
  cases hk
  omega

theorem Tag.append_of_event {tag : Tag} {dst peer : NodeId}
    {result result' : RpcResult} {t prev len seq : Nat}
    (h : tag.event dst result = .appendReply t peer prev len seq result') :
    tag = .append t prev len seq ∧ dst = peer ∧ result = result' := by
  cases tag with
  | append =>
      cases h
      exact ⟨rfl, rfl, rfl⟩
  | preVote => cases h
  | vote => cases h
  | installSnapshot => cases h

theorem Run.Trace.append_pos (T : run.Trace) {i t prev len seq : ℕ}
    {r : Rpc M} (hr : r ∈ (run.state i).rpcs)
    (htag : r.tag = .append t prev len seq) : 0 < prev + len := by
  have hok := (T.inv i).rpcs r hr
  cases hreq : r.request with
  | appendEntries a =>
      rw [hreq] at hok
      obtain ⟨-, seq', htag', -⟩ := hok
      rw [htag] at htag'
      cases htag'
      exact run.appends_pos i r hr a hreq
  | requestVote a =>
      rw [hreq, htag] at hok
      cases hok.1
  | preVote a =>
      rw [hreq, htag] at hok
      cases hok
  | installSnapshot a =>
      rw [hreq, htag] at hok
      cases hok.2

theorem Run.Trace.cause_pos (T : run.Trace) {i : ℕ} {a : Action V}
    {n : NodeId} (hc : (run.state i).Causes a n now cause) :
    ∀ t peer prev len seq result, cause = .reply
      (.appendReply t peer prev len seq result) → 0 < prev + len := by
  rintro t peer prev len seq result rfl
  generalize he : Event.appendReply t peer prev len seq result = event at hc
  cases hc with
  | reply hr =>
      obtain ⟨htag, -, -⟩ := Tag.append_of_event he.symm
      exact T.append_pos (run.replies_sent i _ (List.mem_of_getElem? hr)) htag
  | fail hr =>
      obtain ⟨htag, -, -⟩ := Tag.append_of_event he.symm
      exact T.append_pos (List.mem_of_getElem? hr) htag

/-- Without such a refusal an event leaves the order as it is: the refusal is
not late, or it is of a newer term and there is no leader any more. -/
theorem Run.Trace.ahead_turn (T : run.Trace) {j : ℕ}
    (hstale : ¬ run.StaleRefusal j)
    (h : (run.state j).Turn (run.action j) (run.state (j + 1))
      (run.effect j) now cause)
    (hx : ((run.state j).nodes (run.effect j).node).Ahead) :
    ((run.state (j + 1)).nodes (run.effect j).node).Ahead := by
  by_cases hc : cause.Spares ((run.state j).nodes (run.effect j).node)
  · exact (h.moves.ahead (T.cause_pos h.causes) hc hx).1
  · simp only [Cause.Spares, not_forall, not_lt] at hc
    obtain ⟨l, peer, prev, len, seq, reply, m, hl, rfl, hs, hm, hle⟩ := hc
    have hcauses := h.causes
    generalize hact : run.action j = a at hcauses
    generalize hn : (run.effect j).node = n at hcauses hl ⊢
    generalize he : Event.appendReply _ peer prev len seq _ = event
      at hcauses
    cases hcauses with
    | @fail i error now' rpc hr hep =>
        obtain ⟨-, -, hres⟩ := Tag.append_of_event he.symm
        cases hres
    | @reply i now' r hr hep =>
        obtain ⟨htag, hdst, hres⟩ := Tag.append_of_event he.symm
        have hres := Except.ok.inj hres
        rcases Nat.lt_or_ge ((run.state j).nodes r.rpc.src).currentTerm
          reply.term with hlt | hge
        · have hafter := run.of_reply hact hr
            (Q := fun x => x.role = .follower) (by
              rw [htag, hres]
              exact handleAppendReply_outdated _ _ _ _ _ _ hlt)
          intro l' hl'
          rw [hafter] at hl'
          cases hl'
        · exact absurd ⟨i, now, r, prev, len, seq, reply, l, m, hact, hr,
            htag, hres, hge, hs, hl, hdst ▸ hm, hle⟩ hstale

/-- The next index of every peer is beyond its match index, in every leader
state of a run, if and only if no refusal ever comes late. -/
theorem next_beyond_match_iff (run : Run D M) :
    (∀ i n l, ((run.state i).nodes n).role = .leader l → ∀ p m,
      l.matchIndex p = some m → ∃ k, l.nextIndex p = some k ∧ m + 1 ≤ k) ↔
    ∀ j, ¬ run.StaleRefusal j := by
  obtain ⟨T⟩ := run.exists_trace
  refine ⟨fun h j hj => ?_, fun h i => ?_⟩
  · obtain ⟨n, hn⟩ := hj.not_ahead
    exact hn (h (j + 1) n)
  · exact run.turn_invariant (I := fun _ x => x.Ahead)
      (fun _ l hl => by cases hl) (fun _ _ _ _ l hl => by cases hl)
      (fun j _ _ ht _ => T.ahead_turn (h j) ht) i

/-- A new leader probes a peer that has nothing: two batches in a row, both
refused. The first refusal makes it start over, and that batch is confirmed
before the second refusal arrives. -/
def lateRefusalRun :
    Run (Deployment.ofIds [1, 2, 3] none) (KvStore.machine Nat) :=
  Run.ofActions _ _ [.timeout 1 0, .deliver 1 0, .reply 0 0, .deliver 3 0,
    .reply 1 0, .deliver 5 0, .restart 1, .timeout 1 1000000,
    .deliver 7 1000000, .reply 3 1000000, .deliver 9 1000000,
    .reply 4 1000000, .heartbeat 1 1000000, .deliver 10 1000000,
    .deliver 12 1000000, .reply 5 1000000, .deliver 14 1000000,
    .reply 7 1000000, .reply 6 1000000] (by decide +kernel)

theorem late_refusal_undoes_progress :
    (∃ l, ((lateRefusalRun.state 18).nodes 1).role = .leader l ∧
      l.matchIndex 2 = some 2 ∧ l.nextIndex 2 = some 3) ∧
    ∃ l, ((lateRefusalRun.state 19).nodes 1).role = .leader l ∧
      l.matchIndex 2 = some 2 ∧ l.nextIndex 2 = some 1 := by
  constructor
  · obtain ⟨l, hl, h⟩ := Role.exists_of_any
      (P := fun l => l.matchIndex 2 = some 2 ∧ l.nextIndex 2 = some 3)
      (r := ((lateRefusalRun.state 18).nodes 1).role) (by decide +kernel)
    exact ⟨l, hl, of_decide_eq_true h⟩
  · obtain ⟨l, hl, h⟩ := Role.exists_of_any
      (P := fun l => l.matchIndex 2 = some 2 ∧ l.nextIndex 2 = some 1)
      (r := ((lateRefusalRun.state 19).nodes 1).role) (by decide +kernel)
    exact ⟨l, hl, of_decide_eq_true h⟩

end RustKV
