import RustKV.Proofs.Acknowledgement
import RustKV.Proofs.Terms
import RustKV.Proofs.Tickets

/-!
# Votes and leaderships

What holds of a node between its election and the end of its leadership. A
vote is cast once in a term, whatever crashes and however often the question
is repeated (`single_vote`). A leader never rewrites what it holds
(`leader_append_only`). And it is a leader only as long as it is in touch: it
survives a heartbeat tick exactly if a majority of its configuration has been
heard from within the largest election timeout (`check_quorum_iff`), where
winning the election and being added to the configuration count as being
heard.
-/

namespace RustKV

open Rust Prog NodeM Consensus

variable {V : Type} {M : StateMachine V} {D : Deployment} {run : Run D M}
  {now : Instant} {cause : Cause M} {x y : Node M}

/-! ## One vote in a term -/

/-- After `i` steps node `v` has voted for `n` in term `t`: its hard state says
so, or it has told `n`. -/
inductive Run.VotedFor (run : Run D M) (i : ℕ) (v n : NodeId) (t : ℕ) : Prop
  | recorded (h : ((run.state i).nodes v).storage.hardState = ⟨t, some n⟩)
  | told (r : Reply M) (a : RequestVoteArgs) (reply : RequestVoteReply)
      (hr : r ∈ (run.state i).replies) (hv : r.rpc.dst = v)
      (hreq : r.rpc.request = .requestVote a) (ht : a.term = t)
      (hn : r.rpc.src = n) (hres : r.response = .requestVote reply)
      (hg : reply.voteGranted = true)

theorem Run.Trace.votedFor (T : run.Trace) {i t : ℕ} {v n : NodeId}
    (h : run.VotedFor i v n t) : ∃ K, (T.hist i).vote v t = some (n, K) := by
  cases h with
  | recorded hs =>
      have hvote := ((T.inv i).nodes v).ok.voted_eq
      rw [Node.replica, Node.currentTerm, hs] at hvote
      obtain ⟨⟨m, K⟩, hm, rfl⟩ := Option.map_eq_some_iff.mp hvote.symm
      exact ⟨K, hm⟩
  | told r a reply hr hv hreq ht hn hres hg =>
      obtain ⟨-, hok⟩ := (T.inv i).replies r hr
      rw [ReplyOk, hreq, hres] at hok
      subst hv hn ht
      exact hok hg

/-- A node votes for one candidate in a term, over all of a run: no crash makes
it forget a vote it has given, and what is on disk is what it has said. -/
theorem single_vote (run : Run D M) {i j t : ℕ} {v n m : NodeId}
    (hn : run.VotedFor i v n t) (hm : run.VotedFor j v m t) : n = m := by
  obtain ⟨T⟩ := run.exists_trace
  obtain ⟨K, hK⟩ := T.votedFor hn
  obtain ⟨K', hK'⟩ := T.votedFor hm
  have h₁ := (T.le (le_max_left i j)).vote hK
  have h₂ := (T.le (le_max_right i j)).vote hK'
  exact congrArg Prod.fst (Option.some.inj (h₁.symm.trans h₂))

/-- Node 3 votes for 2, crashes, and its vote is still there. -/
theorem single_vote_trio : trioRun.VotedFor 12 3 2 2 ∧
    trioRun.VotedFor 14 3 2 2 ∧ (2 : NodeId) = 2 :=
  have h₁ : trioRun.VotedFor 12 3 2 2 := .recorded (by decide +kernel)
  have h₂ : trioRun.VotedFor 14 3 2 2 := .recorded (by decide +kernel)
  ⟨h₁, h₂, single_vote trioRun h₁ h₂⟩

/-! ## A leader only appends -/

theorem Run.Trace.log_isPrefix (T : run.Trace) {i j t : ℕ} {n : NodeId}
    (hij : i ≤ j) (hi : run.Leads i n t) (hj : run.Leads j n t) :
    T.log i n <+: T.log j n := by
  obtain ⟨_, -, hli⟩ := T.leader hi.1
  obtain ⟨_, -, hlj⟩ := T.leader hj.1
  rw [← hli, ← hlj, hi.2, hj.2]
  exact (T.le hij).tlog t

/-- A leader never gives up or changes an entry it holds: as long as it leads
a term, its log gets no shorter, and what it kept at one time it keeps
later. -/
theorem leader_append_only (run : Run D M) {i j t : ℕ} {n : NodeId}
    (hij : i ≤ j) (hi : run.Leads i n t) (hj : run.Leads j n t) :
    ((run.state i).nodes n).storage.lastIndex ≤
      ((run.state j).nodes n).storage.lastIndex ∧
    ∀ e, run.Keeps i n e → run.Keeps j n e := by
  obtain ⟨T⟩ := run.exists_trace
  have hlog := T.log_isPrefix hij hi hj
  refine ⟨?_, fun e he => ?_⟩
  · rw [((T.inv i).nodes n).body.repr.lastIndex,
      ((T.inv j).nodes n).body.repr.lastIndex]
    exact hlog.length_le
  · obtain ⟨hpos, hmem⟩ := T.getElem?_of_keeps he
    exact T.keeps hpos (getElem?_of_isPrefix hlog hmem)

theorem leader_append_only_trio : trioRun.Leads 5 1 1 ∧ trioRun.Leads 8 1 1 ∧
    ((trioRun.state 5).nodes 1).storage.lastIndex ≤
      ((trioRun.state 8).nodes 1).storage.lastIndex ∧
    ∀ e, trioRun.Keeps 5 1 e → trioRun.Keeps 8 1 e := by
  have h₁ : trioRun.Leads 5 1 1 := by
    constructor <;> decide +kernel
  have h₂ : trioRun.Leads 8 1 1 := by
    constructor <;> decide +kernel
  exact ⟨h₁, h₂, leader_append_only trioRun (by decide) h₁ h₂⟩

/-! ## Contact, one move at a time -/

section

variable {t : ℕ} {p peer : NodeId} {l l' : LeaderState}
  {os : List (Output M)}

/-- When `p` was last heard of in the leadership of `t`, as far as the node
leads it. -/
def Node.contactIn (x : Node M) (t : ℕ) (p : NodeId) : Option Instant :=
  match x.role with
  | .leader l => if x.currentTerm = t then l.lastContact p else none
  | _ => none

theorem Node.contactIn_leader (hl : x.role = .leader l)
    (ht : x.currentTerm = t) : x.contactIn t p = l.lastContact p := by
  rw [contactIn, hl]
  exact if_pos ht

theorem Node.contactIn_eq_none (h : ¬ (x.isLeader = true ∧ x.currentTerm = t)) :
    x.contactIn t p = none := by
  rw [contactIn]
  cases hl : x.role with
  | leader l =>
      exact if_neg fun ht => h ⟨Node.isLeader_iff.mpr ⟨l, hl⟩, ht⟩
  | _ => rfl

/-- The event is an answer of `p` to a replication RPC of term `t`. -/
def Cause.Hears (t : ℕ) (p : NodeId) : Cause M → Prop
  | .reply (.appendReply s q _ _ _ (.ok (.appendEntries _))) => s = t ∧ q = p
  | .reply (.installSnapshotReply s q _ (.ok (.installSnapshot _))) =>
      s = t ∧ q = p
  | _ => False

/-- What may happen to a contact time: it stays, or it is set to the present,
because the peer was heard or because there was none. -/
def ContactNext (now : Instant) (cause : Cause M) (t : ℕ) (p : NodeId)
    (x y : Node M) : Prop :=
  y.contactIn t p = x.contactIn t p ∨
    y.contactIn t p = some now ∧
      (cause.Hears t p ∨ x.contactIn t p = none)

theorem ContactNext.of_leaders (hl : x.role = .leader l)
    (hl' : y.role = .leader l') (hx : x.currentTerm = t)
    (hy : y.currentTerm = t)
    (h : l'.lastContact p = l.lastContact p ∨ l'.lastContact p = some now ∧
      (cause.Hears t p ∨ l.lastContact p = none)) :
    ContactNext now cause t p x y := by
  rw [ContactNext, Node.contactIn_leader hl hx, Node.contactIn_leader hl' hy]
  exact h

theorem lastContact_heard (h : cause.Hears t peer)
    (hc : l'.lastContact = Function.update l.lastContact peer (some now)) :
    l'.lastContact p = l.lastContact p ∨ l'.lastContact p = some now ∧
      (cause.Hears t p ∨ l.lastContact p = none) := by
  rw [hc]
  by_cases hp : p = peer
  · subst hp
    exact .inr ⟨Function.update_self _ _ _, .inl h⟩
  · exact .inl (Function.update_of_ne hp _ _)

theorem lastContact_adopt {n : NodeId} {old new : Membership} {index : ℕ} :
    (l.adopt n old new index now).lastContact p = l.lastContact p ∨
      (l.adopt n old new index now).lastContact p = some now ∧
        l.lastContact p = none := by
  simp only [LeaderState.adopt]
  split
  · cases hp : l.lastContact p with
    | none => exact .inr ⟨rfl, rfl⟩
    | some a => exact .inl rfl
  · exact .inl rfl

theorem lastContact_depart (l : LeaderState) (b : Bool) :
    (if b then l.depart peer else l).lastContact = l.lastContact := by
  cases b <;> rfl

theorem Move.contactIn (h : Move now cause x y os)
    (hl' : y.role = .leader l') (ht : y.currentTerm = t) :
    ContactNext now cause t p x y := by
  cases h with
  | quiet h =>
      obtain ⟨l, rs, hl, rfl⟩ := h.leader hl'
      exact .of_leaders hl hl' (h.currentTerm ▸ ht) ht (.inl rfl)
  | contact => exact .inl rfl
  | grant => exact .inl rfl
  | @accept l S cmd _ hl _ hS =>
      have htx := (Node.currentTerm_accepted (Storage.append_hardState hS) l
        now cmd).symm.trans ht
      cases cmd with
      | configChange m =>
          exact .of_leaders hl rfl htx ht (lastContact_adopt.imp_right
            fun h => ⟨h.1, .inr h.2⟩)
      | _ =>
          obtain rfl : l = l' := Role.leader.inj (hl.symm.trans hl')
          exact .of_leaders hl hl' htx ht (.inl rfl)
  | @win votes S hc hr _ hS =>
      cases hl'
      have hx : x.contactIn t p = none := Node.contactIn_eq_none fun h => by
        rw [Node.isLeader, hr] at h
        exact Bool.false_ne_true h.1
      rw [ContactNext, hx, Node.contactIn_leader rfl ht]
      simp only [LeaderState.fresh]
      split
      · exact .inr ⟨rfl, .inr trivial⟩
      · exact .inl rfl
  | register r _ _ hl => exact .of_leaders hl rfl ht ht (.inl rfl)
  | @confirmed l peer prev len seq reply hc hl =>
      have hans : cause.Hears t peer := hc ▸ ⟨ht, rfl⟩
      refine .of_leaders hl rfl ht ht (lastContact_heard hans ?_)
      rw [lastContact_depart]
      exact ((l.answered peer seq now).confirm_eq peer _).1
  | @refused l peer prev len seq reply hc hl =>
      have hans : cause.Hears t peer := hc ▸ ⟨ht, rfl⟩
      exact .of_leaders hl rfl ht ht (lastContact_heard hans rfl)
  | @installed l peer boundary reply hc hl =>
      have hans : cause.Hears t peer := hc ▸ ⟨ht, rfl⟩
      refine .of_leaders hl rfl ht ht (lastContact_heard hans ?_)
      rw [lastContact_depart]
      rfl
  | ship => exact .inl rfl
  | _ => cases hl'

theorem Moves.contactIn (h : Moves now cause x y os)
    (hl' : y.role = .leader l') (ht : y.currentTerm = t) :
    ContactNext now cause t p x y := by
  induction h generalizing l' with
  | refl => exact .inl rfl
  | @step y z _ _ h hm ih =>
      have hz := hm.contactIn (p := p) hl' ht
      cases hm.promoted hl' with
      | kept hl hty _ =>
          have hy := ih hl (hty.symm.trans ht)
          rcases hz with hz | ⟨hz, hwhy⟩
          · rwa [ContactNext, hz]
          · refine .inr ⟨hz, hwhy.imp_right fun hnone => ?_⟩
            rcases hy with hy | ⟨hy, -⟩
            · exact hy ▸ hnone
            · rw [hy] at hnone
              cases hnone
      | won hr _ hty _ _ =>
          -- who wins the term has not led it before
          have hx : x.contactIn t p = none := by
            refine Node.contactIn_eq_none fun hx => ?_
            obtain ⟨l, hl⟩ := Node.isLeader_iff.mp hx.1
            exact h.not_candidate hl ((hty.symm.trans ht).trans hx.2.symm) _ hr
          have hy : y.contactIn t p = none := Node.contactIn_eq_none fun h => by
            rw [Node.isLeader, hr] at h
            exact Bool.false_ne_true h.1
          rw [ContactNext, hx]
          rw [ContactNext, hy] at hz
          exact hz

/-- A leader that handles an answer of its term has its peer's contact time
set, if it is still a leader afterwards. -/
theorem Performs.heard {c₁ c' : Ctx M} (h : Performs now cause c₁ c')
    (hl : c₁.node.role = .leader l) (hc : l.lastContact p = some now)
    (ht : c₁.node.currentTerm = t) :
    ∀ l', c'.node.role = .leader l' → c'.node.currentTerm = t →
      l'.lastContact p = some now := by
  obtain ⟨os, -, hacts⟩ := h
  intro l' hl' ht'
  have hnext := hacts.moves.contactIn (p := p) hl' ht'
  rw [ContactNext, Node.contactIn_leader hl ht,
    Node.contactIn_leader hl' ht', hc] at hnext
  exact hnext.elim id And.left

theorem handleAppendReply_heard {c : Ctx M} (prev len seq : ℕ)
    (reply : AppendEntriesReply) (hl : c.node.role = .leader l)
    (ht : c.node.currentTerm = t) :
    wlp (handleAppendReply now t p prev len seq reply) (fun _ c' =>
      ∀ l', c'.node.role = .leader l' → c'.node.currentTerm = t →
        l'.lastContact p = some now) c := by
  simp only [handleAppendReply, wlp_bind, wlp_node, wlp_ite, wlp_pure]
  refine ⟨fun _ => becomeFollower_wlp fun _ l' hl' => ?_,
    fun _ => ⟨fun hne => absurd ht.symm hne, fun _ => ?_⟩⟩
  · cases hl'
  have hconf : ∀ k, ((l.answered p seq now).confirm p k).lastContact p =
      some now := fun k => by
    rw [((l.answered p seq now).confirm_eq p k).1]
    exact Function.update_self _ _ _
  rw [hl]
  simp only [wlp_ite, wlp_bind, wlp_update, publishMembership]
  have hres : ∀ c₁ c₂ : Ctx M, Performs now (.heartbeat : Cause M) c₁ c₂ →
      ∀ l₁, c₁.node.role = .leader l₁ → l₁.lastContact p = some now →
      c₁.node.currentTerm = t → wlp resolveReads
        (fun _ c' => ∀ l', c'.node.role = .leader l' →
          c'.node.currentTerm = t → l'.lastContact p = some now) c₂ :=
    fun c₁ c₂ h₂ l₁ hl₁ hc₁ ht₁ => wlp_mono (resolveReads_acts now _ c₂)
      fun _ c₃ h₃ => (h₂.trans h₃).heard hl₁ hc₁ ht₁
  refine ⟨fun _ => ⟨fun _ => ?_, fun _ => ?_⟩, fun _ => ?_⟩
  · exact advanceAndSend_acts now _ (.refl _) p fun c₂ h₂ =>
      hres _ c₂ h₂ _ rfl (by rw [lastContact_depart]; exact hconf _) ht
  · exact advanceAndSend_acts now _ (.refl _) p fun c₂ h₂ =>
      hres _ c₂ h₂ _ rfl (by rw [lastContact_depart]; exact hconf _) ht
  · exact wlp_mono (sendAppend_acts now _ p _) fun _ c₁ h₁ =>
      hres _ c₁ h₁.1 _ rfl (Function.update_self _ _ _) ht

theorem handleInstallSnapshotReply_heard {c : Ctx M} (boundary : ℕ)
    (reply : InstallSnapshotReply) (hl : c.node.role = .leader l)
    (ht : c.node.currentTerm = t) :
    wlp (handleInstallSnapshotReply now t p boundary reply) (fun _ c' =>
      ∀ l', c'.node.role = .leader l' → c'.node.currentTerm = t →
        l'.lastContact p = some now) c := by
  simp only [handleInstallSnapshotReply, wlp_bind, wlp_node, wlp_ite,
    wlp_pure]
  refine ⟨fun _ => becomeFollower_wlp fun _ l' hl' => ?_,
    fun _ => ⟨fun hne => absurd ht.symm hne, fun _ => ?_⟩⟩
  · cases hl'
  have hins : (l.installed p boundary now).lastContact p = some now :=
    Function.update_self _ _ _
  rw [hl]
  simp only [wlp_ite, wlp_bind, wlp_update, wlp_pure, publishMembership]
  refine ⟨fun _ => ?_, fun _ => ?_⟩
  · exact advanceAndSend_acts now (.heartbeat : Cause M) (.refl _) p
      fun _ h => h.heard rfl (by rw [lastContact_depart]; exact hins) ht
  · exact advanceAndSend_acts now (.heartbeat : Cause M) (.refl _) p
      fun _ h => h.heard rfl (by rw [lastContact_depart]; exact hins) ht

end

/-! ## Contact, over a run -/

/-- The clock reading an event is handled at, if it takes one. -/
def Action.now? : Action V → Option Instant
  | .timeout _ now => some now
  | .heartbeat _ now => some now
  | .propose _ _ now => some now
  | .deliver _ now => some now
  | .reply _ now => some now
  | .fail _ _ now => some now
  | .idle => none
  | .read _ => none
  | .restart _ => none

def Run.Steady (run : Run D M) (n : NodeId) : Prop :=
  ∀ ⦃j k : ℕ⦄, j ≤ k → (run.effect j).node = n → (run.effect k).node = n →
    ∀ a ∈ (run.action j).now?, ∀ b ∈ (run.action k).now?, a ≤ b

def Reply.Acknowledges (t : ℕ) (r : Reply M) : Prop :=
  match r.rpc.tag, r.response with
  | .append s _ _ _, .appendEntries _ => s = t
  | .installSnapshot s _, .installSnapshot _ => s = t
  | _, _ => False

/-- In step `j`, at clock `a`, the leader `n` of term `t` comes to know that
`p` is there: it handles an answer of `p` to a replication RPC of its term; or
`p` becomes one of its peers for the first time in this leadership, because
`n` has just been elected or because `p` has just been added, and is given the
benefit of the doubt. -/
inductive Run.Contact (run : Run D M) (j : ℕ) (n : NodeId) (t : ℕ)
    (p : NodeId) (a : Instant) : Prop
  | answered (k : ℕ) (r : Reply M) (hact : run.action j = .reply k a)
      (hr : (run.state j).replies[k]? = some r) (hsrc : r.rpc.src = n)
      (hdst : r.rpc.dst = p) (hack : r.Acknowledges t)
      (hlead : run.Leads j n t)
  | joined (hact : (run.action j).now? = some a)
      (hnot : ¬ run.MemberSince n t j p) (h : run.MemberSince n t (j + 1) p)

section

variable {i j t : ℕ} {n p : NodeId} {a b : Instant}

theorem Run.MemberSince.leads (h : run.MemberSince n t i p) :
    ∃ j, j ≤ i ∧ run.Leads j n t := by
  obtain ⟨j, hj, hlead, -⟩ := h
  exact ⟨j, hj, hlead⟩

theorem Run.contactIn_eq_none_iff (run : Run D M)
    (hlead : run.Leads i n t ∨ run.Leads (i + 1) n t) (hp : p ≠ n) :
    ((run.state i).nodes n).contactIn t p = none ↔
      ¬ run.MemberSince n t i p := by
  by_cases hi : run.Leads i n t
  · obtain ⟨l, hl⟩ := Node.isLeader_iff.mp hi.1
    rw [Node.contactIn_leader hl hi.2, ← hi.2, ← run.contact_iff hl hp,
      not_not]
  · obtain ⟨T⟩ := run.exists_trace
    refine iff_of_true (Node.contactIn_eq_none hi) fun h => hi ?_
    obtain ⟨j, hj, hlj⟩ := h.leads
    exact T.leads_of_le hj hlj (hlead.resolve_left hi)

theorem Run.Contact.node (h : run.Contact j n t p a) :
    (run.effect j).node = n := by
  cases h with
  | answered k r hact hr hsrc _ _ _ =>
      cases run.did j with
      | idle _ _ ha => rw [hact] at ha; cases ha
      | restart h => have ha := h.action; rw [hact] at ha; cases ha
      | turn now cause h =>
          have hc := h.causes
          rw [hact] at hc
          generalize (run.effect j).node = m at hc ⊢
          cases hc with
          | reply hr' =>
              rw [hr] at hr'
              cases hr'
              exact hsrc
  | joined _ hnot h =>
      by_contra hne
      obtain ⟨k, hk, hlead, hmem⟩ := h
      obtain rfl : k = j + 1 := by
        by_contra hkj
        exact hnot ⟨k, by omega, hlead, hmem⟩
      have hsame : (run.state (j + 1)).nodes n = (run.state j).nodes n := by
        cases run.did j with
        | idle hc => rw [hc]
        | restart h => exact h.others n (Ne.symm hne)
        | turn now cause h => exact h.others n (Ne.symm hne)
      rw [hsame] at hmem
      rw [Leads, hsame] at hlead
      exact hnot ⟨j, le_rfl, hlead, hmem⟩

theorem Run.Contact.now_eq (h : run.Contact j n t p a) :
    (run.action j).now? = some a := by
  cases h with
  | answered k r hact => rw [hact]; rfl
  | joined hact => exact hact

theorem Run.Contact.leads (h : run.Contact j n t p a) :
    ∃ k, k ≤ j + 1 ∧ run.Leads k n t := by
  cases h with
  | answered _ _ _ _ _ _ _ hlead => exact ⟨j, Nat.le_succ j, hlead⟩
  | joined _ _ h => exact h.leads

theorem Run.contactIn_of_answered (run : Run D M) {k : ℕ} {r : Reply M}
    (hact : run.action i = .reply k a)
    (hr : (run.state i).replies[k]? = some r) (hack : r.Acknowledges t)
    (hlead : run.Leads i r.rpc.src t)
    (hlead' : run.Leads (i + 1) r.rpc.src t) :
    ((run.state (i + 1)).nodes r.rpc.src).contactIn t r.rpc.dst =
      some a := by
  obtain ⟨l, hl⟩ := Node.isLeader_iff.mp hlead.1
  obtain ⟨l', hl'⟩ := Node.isLeader_iff.mp hlead'.1
  rw [Node.contactIn_leader hl' hlead'.2]
  refine run.of_reply (Q := fun y => ∀ l', y.role = .leader l' →
    y.currentTerm = t → l'.lastContact r.rpc.dst = some a) hact hr ?_ l' hl'
    hlead'.2
  unfold Reply.Acknowledges at hack
  split at hack
  · next s prev len seq reply htag hres =>
      subst hack
      rw [htag, hres]
      exact handleAppendReply_heard prev len seq reply hl hlead.2
  · next s boundary reply htag hres =>
      subst hack
      rw [htag, hres]
      exact handleInstallSnapshotReply_heard boundary reply hl hlead.2
  · exact hack.elim

theorem Run.Contact.of_hears {now : Instant} {cause : Cause M}
    (hc : (run.state i).Causes (run.action i) n now cause)
    (hh : cause.Hears t p) (hlead : run.Leads i n t) :
    run.Contact i n t p now := by
  generalize hact : run.action i = act at hc
  cases hc with
  | @reply k now r hr he =>
      refine .answered k r hact hr rfl ?_ ?_ hlead
      · cases htag : r.rpc.tag <;> rw [htag] at hh <;>
          cases hres : r.response <;> rw [hres] at hh <;>
          first | exact hh.2 | exact hh.elim
      · rw [Reply.Acknowledges]
        cases htag : r.rpc.tag <;> rw [htag] at hh <;>
          cases hres : r.response <;> rw [hres] at hh <;>
          first | exact hh.1 | exact hh.elim
  | @fail k err now rpc hr he =>
      cases htag : rpc.tag <;> rw [htag] at hh <;> exact hh.elim
  | _ => exact hh.elim

theorem Cluster.Causes.now_eq {c : Cluster M} {act : Action V}
    {now : Instant} {cause : Cause M} (h : c.Causes act n now cause) :
    act.now? = some now ∨ cause = .read := by
  cases h with
  | read => exact .inr rfl
  | _ => exact .inl rfl

theorem Run.Contact.of_new {now : Instant} {cause : Cause M}
    (h : (run.state i).Turn (run.action i) (run.state (i + 1))
      (run.effect i) now cause)
    (hlead : run.Leads (i + 1) (run.effect i).node t)
    (hnot : ¬ run.MemberSince (run.effect i).node t i p)
    (hnew : run.MemberSince (run.effect i).node t (i + 1) p) :
    run.Contact i (run.effect i).node t p now := by
  refine .joined ?_ hnot hnew
  refine h.causes.now_eq.resolve_right fun hread => ?_
  -- a read neither elects nor adds anybody
  subst hread
  obtain ⟨l', hl'⟩ := Node.isLeader_iff.mp hlead.1
  obtain ⟨k, hk, hk'⟩ := hnew
  obtain rfl : k = i + 1 := by
    by_contra hki
    exact hnot ⟨k, by omega, hk'⟩
  obtain ⟨hl, ht⟩ := (h.moves.leader hl').resolve_right id
  refine hnot ⟨i, le_rfl, ⟨hl, ht.trans hlead.2⟩, ?_⟩
  rcases h.moves.members_of_leader hl' with hm | ⟨m, hm, -⟩
  · exact hm ▸ hk'.2
  · cases hm

/-- One step of a leadership: a contact is put on record with its time, and
nothing else changes the record. -/
theorem Run.contact_step (run : Run D M) (hlead : run.Leads (i + 1) n t)
    (hp : p ≠ n) :
    (∃ a, run.Contact i n t p a ∧
      ((run.state (i + 1)).nodes n).contactIn t p = some a) ∨
    (∀ a, ¬ run.Contact i n t p a) ∧
      ((run.state (i + 1)).nodes n).contactIn t p =
        ((run.state i).nodes n).contactIn t p := by
  have hiff := run.contactIn_eq_none_iff (.inr hlead) hp
  have hiff' := run.contactIn_eq_none_iff (.inl hlead) hp
  -- a record that stays as it was hides no newcomer
  have hquiet : (∀ k r a, run.action i = .reply k a →
        (run.state i).replies[k]? = some r → r.rpc.src = n →
        r.rpc.dst = p → r.Acknowledges t → ¬ run.Leads i n t) →
      ((run.state (i + 1)).nodes n).contactIn t p =
        ((run.state i).nodes n).contactIn t p →
      (∀ a, ¬ run.Contact i n t p a) ∧
        ((run.state (i + 1)).nodes n).contactIn t p =
          ((run.state i).nodes n).contactIn t p := by
    refine fun hno heq => ⟨fun a hc => ?_, heq⟩
    cases hc with
    | answered k r hact hr hsrc hdst hack hi =>
        exact hno k r a hact hr hsrc hdst hack hi
    | joined _ hnot h =>
        rw [heq, hiff] at hiff'
        exact hiff'.mp hnot h
  by_cases hans : ∃ k r a, run.action i = .reply k a ∧
      (run.state i).replies[k]? = some r ∧ r.rpc.src = n ∧ r.rpc.dst = p ∧
      r.Acknowledges t ∧ run.Leads i n t
  · obtain ⟨k, r, a, hact, hr, rfl, rfl, hack, hi⟩ := hans
    exact .inl ⟨a, .answered k r hact hr rfl rfl hack hi,
      run.contactIn_of_answered hact hr hack hi hlead⟩
  have hno : ∀ k r a, run.action i = .reply k a →
      (run.state i).replies[k]? = some r → r.rpc.src = n →
      r.rpc.dst = p → r.Acknowledges t → ¬ run.Leads i n t :=
    fun k r a h₁ h₂ h₃ h₄ h₅ h₆ => hans ⟨k, r, a, h₁, h₂, h₃, h₄, h₅, h₆⟩
  cases run.did i with
  | idle hc => exact .inr (hquiet hno (by rw [hc]))
  | restart h =>
      by_cases hn : n = (run.effect i).node
      · subst hn
        have hl := hlead.1
        rw [Node.isLeader, Node.role_of_spawn h.node] at hl
        cases hl
      · exact .inr (hquiet hno (by rw [h.others n hn]))
  | turn now cause h =>
      by_cases hn : n = (run.effect i).node
      · subst hn
        obtain ⟨l', hl'⟩ := Node.isLeader_iff.mp hlead.1
        rcases h.moves.contactIn (p := p) hl' hlead.2 with
          heq | ⟨hnow, hhears | hnone⟩
        · exact .inr (hquiet hno heq)
        · by_cases hi : run.Leads i (run.effect i).node t
          · exact .inl ⟨now, .of_hears h.causes hhears hi, hnow⟩
          · have hnot := hiff.mp (Node.contactIn_eq_none hi)
            refine .inl ⟨now, .of_new h hlead hnot ?_, hnow⟩
            by_contra hnew
            rw [hiff'.mpr hnew] at hnow
            cases hnow
        · refine .inl ⟨now, .of_new h hlead (hiff.mp hnone) ?_, hnow⟩
          by_contra hnew
          rw [hiff'.mpr hnew] at hnow
          cases hnow
      · exact .inr (hquiet hno (by rw [h.others n hn]))

theorem Run.contact_of_record (run : Run D M)
    (h : ((run.state i).nodes n).contactIn t p = some a) (hp : p ≠ n) :
    ∃ j, j < i ∧ run.Contact j n t p a := by
  have hlead : ∀ {i}, ((run.state i).nodes n).contactIn t p = some a →
      run.Leads i n t := fun {i} h => by
    by_contra hno
    rw [Node.contactIn_eq_none hno] at h
    cases h
  induction i with
  | zero =>
      have hl := (hlead h).1
      rw [run.init] at hl
      cases hl
  | succ i ih =>
      rcases run.contact_step (hlead h) hp with ⟨b, hc, hb⟩ | ⟨-, heq⟩
      · obtain rfl := Option.some.inj (hb.symm.trans h)
        exact ⟨i, Nat.lt_succ_self i, hc⟩
      · obtain ⟨j, hj, hc⟩ := ih (heq ▸ h)
        exact ⟨j, Nat.lt_succ_of_lt hj, hc⟩

theorem Run.Contact.recorded (hclock : run.Steady n)
    (h : run.Contact j n t p b) (hji : j < i) (hlead : run.Leads i n t)
    (hp : p ≠ n) :
    ∃ a, ((run.state i).nodes n).contactIn t p = some a ∧ b ≤ a := by
  obtain ⟨T⟩ := run.exists_trace
  have hafter : ∀ {k c}, j ≤ k → run.Contact k n t p c → b ≤ c :=
    fun hjk hc => hclock hjk h.node hc.node b h.now_eq _ hc.now_eq
  induction i, hji using Nat.le_induction with
  | base =>
      rcases run.contact_step hlead hp with ⟨a, hc, ha⟩ | ⟨hno, -⟩
      · exact ⟨a, ha, hafter le_rfl hc⟩
      · exact absurd h (hno b)
  | succ i hji ih =>
      have hi : run.Leads i n t := by
        obtain ⟨k, hk, hlk⟩ := h.leads
        exact T.leads_of_le (hk.trans hji) hlk hlead
      obtain ⟨a, ha, hba⟩ := ih hi
      rcases run.contact_step hlead hp with ⟨a', hc, ha'⟩ | ⟨-, heq⟩
      · exact ⟨a', ha', hafter (Nat.le_of_succ_le hji) hc⟩
      · exact ⟨a, heq.trans ha, hba⟩

end

/-! ## CheckQuorum -/

/-- The count of the heartbeat tick is over the members: the node itself, and
whoever was heard within the window. -/
theorem Node.heard_eq (x : Node M) (l : LeaderState) (now : Instant) :
    x.heard l now = (x.members.keySet.filter fun p => p = x.config.id ∨
      Node.heardWithin l.lastContact x.config.electionTimeoutMax now p =
        true).card := by
  have hself : (x.members.keySet.filter fun p => p = x.config.id).card =
      if x.members.containsKey x.config.id then 1 else 0 := by
    rw [Finset.filter_eq']
    simp only [← BTreeMap.containsKey_iff]
    split <;> rfl
  have hpeers : (x.members.keySet.filter fun p => ¬ p = x.config.id ∧
      Node.heardWithin l.lastContact x.config.electionTimeoutMax now p =
        true).card = (x.peerIds.filter (Node.heardWithin l.lastContact
          x.config.electionTimeoutMax now)).length := by
    rw [Node.peerIds, List.filter_filter, BTreeMap.length_keys_filter]
    congr 1
    ext p
    simp [and_comm]
  rw [Node.heard, ← hself, ← hpeers, ← Finset.card_union_of_disjoint]
  · congr 1
    ext p
    simp only [Finset.mem_union, Finset.mem_filter]
    by_cases hp : p = x.config.id <;> simp [hp]
  · rw [Finset.disjoint_filter]
    exact fun p _ hp hnot => hnot.1 hp

/-- A tick ends a leadership exactly if too few have been heard, and changes
nothing of it otherwise. -/
theorem onHeartbeatTick_leader {l : LeaderState} {c : Ctx M}
    (hl : c.node.role = .leader l) :
    wlp (onHeartbeatTick now) (fun _ c' =>
      c'.node.isLeader = true ↔ c.node.majority ≤ c.node.heard l now) c := by
  simp only [onHeartbeatTick, wlp_bind, wlp_node]
  rw [hl]
  simp only [wlp_ite]
  refine ⟨fun hlt => becomeFollower_wlp fun _ => ?_, fun hge => ?_⟩
  · exact iff_of_false Bool.false_ne_true (Nat.not_le.mpr hlt)
  · refine wlp_mono (sendAppends_acts now (.heartbeat : Cause M) _ c)
      fun _ c' h => ?_
    rw [h.2]
    exact iff_of_true (Node.isLeader_iff.mpr ⟨l, hl⟩) (Nat.le_of_not_lt hge)

/-- A majority of the members of `n`, itself counted if it is one, has been in
contact with it in its leadership of `t`, within the largest election timeout
before `now`. -/
def Run.InContact (run : Run D M) (i : ℕ) (n : NodeId) (t : ℕ)
    (now : Instant) : Prop :=
  ∃ Q, IsMajority Q ((run.state i).nodes n).members.keySet ∧
    ∀ p ∈ Q, p = n ∨ ∃ j a, j < i ∧ run.Contact j n t p a ∧
      now - a < (D.config n).electionTimeoutMax

/-- With clocks that do not go back, a leader is still a leader after a
heartbeat tick exactly if a majority has been in contact. -/
theorem check_quorum_iff (run : Run D M) {i : ℕ} {n : NodeId} {t : ℕ}
    {now : Instant} (hclock : run.Steady n)
    (hact : run.action i = .heartbeat n now) (hlead : run.Leads i n t) :
    ((run.state (i + 1)).nodes n).isLeader = true ↔
      run.InContact i n t now := by
  obtain ⟨l, hl⟩ := Node.isLeader_iff.mp hlead.1
  -- a peer is within the window exactly if it was at some time
  have hwithin : ∀ p, p ≠ n → (Node.heardWithin l.lastContact
      (D.config n).electionTimeoutMax now p = true ↔
        ∃ j a, j < i ∧ run.Contact j n t p a ∧
          now - a < (D.config n).electionTimeoutMax) := by
    intro p hp
    rw [Node.heardWithin, Option.any_eq_true,
      ← Node.contactIn_leader hl hlead.2]
    constructor
    · rintro ⟨a, ha, hlt⟩
      obtain ⟨j, hj, hc⟩ := run.contact_of_record ha hp
      exact ⟨j, a, hj, hc, of_decide_eq_true hlt⟩
    · rintro ⟨j, b, hj, hc, hlt⟩
      obtain ⟨a, ha, hba⟩ := hc.recorded hclock hj hlead hp
      exact ⟨a, ha, decide_eq_true
        (lt_of_le_of_lt (Nat.sub_le_sub_left hba now) hlt)⟩
  have hcause : (run.state i).Causes (run.action i) n now .heartbeat :=
    hact ▸ .heartbeat hlead.1
  rw [run.handled (Q := fun y _ => y.isLeader = true ↔ _) hcause
    (onHeartbeatTick_leader hl), Node.heard_eq, run.config_eq, D.id_eq,
    Node.majority, ← BTreeMap.card_keySet]
  constructor
  · intro hle
    refine ⟨_, ⟨Finset.filter_subset _ _, hle⟩, fun p hp => ?_⟩
    have hor := (Finset.mem_filter.mp hp).2
    by_cases hpn : p = n
    · exact .inl hpn
    · exact .inr ((hwithin p hpn).mp (hor.resolve_left hpn))
  · rintro ⟨Q, hQ, hall⟩
    refine hQ.2.trans (Finset.card_le_card fun p hp => ?_)
    refine Finset.mem_filter.mpr ⟨hQ.1 hp, ?_⟩
    by_cases hpn : p = n
    · exact .inl hpn
    · exact .inr ((hwithin p hpn).mpr ((hall p hp).resolve_left hpn))

theorem Run.ofActions_steady {acts : List (Action V)}
    (h : plays Cluster.step (Cluster.init D : Cluster M) acts = true)
    (hs : acts.Pairwise fun act act' =>
      ∀ a ∈ act.now?, ∀ b ∈ act'.now?, a ≤ b) (n : NodeId) :
    (Run.ofActions D M acts h).Steady n := by
  intro j k hjk _ _ a ha b hb
  have hlt : ∀ {i : ℕ} {a}, a ∈ (acts.getD i .idle).now? →
      ∃ hi : i < acts.length, acts[i].now? = some a := by
    intro i a ha
    by_cases hi : i < acts.length
    · rw [List.getD_eq_getElem?_getD, List.getElem?_eq_getElem hi] at ha
      exact ⟨hi, ha⟩
    · rw [List.getD_eq_getElem?_getD, List.getElem?_eq_none_iff.mpr
        (Nat.le_of_not_lt hi)] at ha
      cases ha
  obtain ⟨hj, ha⟩ := hlt ha
  obtain ⟨hk, hb⟩ := hlt hb
  rcases Nat.eq_or_lt_of_le hjk with rfl | hjk
  · exact (Option.some.inj (ha.symm.trans hb)).le
  · exact List.pairwise_iff_getElem.mp hs j k hj hk hjk a ha b hb

/-- Node 1 leads three, is answered by 2 once, and ticks twice; between the
ticks nobody answers for longer than the largest election timeout. -/
def lonelySchedule : List (Action Nat) :=
  [.timeout 1 0, .deliver 0 0, .reply 0 0, .deliver 2 0, .reply 1 0,
    .deliver 4 0, .reply 2 10, .heartbeat 1 100000, .heartbeat 1 300010]

def lonelyRun : Run (Deployment.ofIds [1, 2, 3] none) (KvStore.machine Nat) :=
  Run.ofActions _ _ lonelySchedule (by decide +kernel)

/-- The first tick finds 2 in contact. The second, just after the timeout,
finds nobody, and ends the leadership. -/
theorem check_quorum_lonely : lonelyRun.Steady 1 ∧
    lonelyRun.Leads 7 1 1 ∧ lonelyRun.Leads 8 1 1 ∧
    lonelyRun.InContact 7 1 1 100000 ∧
    ¬ lonelyRun.InContact 8 1 1 300010 := by
  have hclock : lonelyRun.Steady 1 :=
    Run.ofActions_steady _ (by decide +kernel) 1
  have h₇ : lonelyRun.Leads 7 1 1 := by
    constructor <;> decide +kernel
  have h₈ : lonelyRun.Leads 8 1 1 := by
    constructor <;> decide +kernel
  have hact₇ : lonelyRun.action 7 = .heartbeat 1 100000 := rfl
  have hact₈ : lonelyRun.action 8 = .heartbeat 1 300010 := rfl
  have hstays : ((lonelyRun.state (7 + 1)).nodes 1).isLeader = true := by
    decide +kernel
  have hends : ((lonelyRun.state (8 + 1)).nodes 1).isLeader ≠ true := by
    decide +kernel
  exact ⟨hclock, h₇, h₈,
    (check_quorum_iff lonelyRun hclock hact₇ h₇).mp hstays,
    fun h => hends ((check_quorum_iff lonelyRun hclock hact₈ h₈).mpr h)⟩

end RustKV
