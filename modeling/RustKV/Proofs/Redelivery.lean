import RustKV.Proofs.PreCampaign

/-!
# Late and duplicated messages of a leader

A follower that has confirmed an AppendEntries or InstallSnapshot of a leader
has nothing left to do for an earlier one that covers no more. Its log agrees
with the leader's that far, so the walk over the batch skips every entry. Its
commit index is there already, because the leader's own never went back while
it sent the two: `InOrder` is that invariant, kept along each event and each
run.
-/

namespace RustKV

open Rust Prog NodeM Consensus

variable {V : Type} {M : StateMachine V} {D : Deployment} {run : Run D M}
  {now : Instant} {cause : Cause M} {x y z : Node M} {os : List (Output M)}
  {c : Ctx M} {t : Nat}

/-! ## What a message covers -/

namespace RpcRequest

variable {P : Type}

def term : RpcRequest V P → Nat
  | .requestVote a => a.term
  | .appendEntries a => a.term
  | .preVote a => a.term
  | .installSnapshot a => a.term

def Replicates (t : Nat) : RpcRequest V P → Prop
  | .appendEntries a => a.term = t
  | .installSnapshot a => a.term = t
  | _ => False

instance (t : Nat) : DecidablePred (Replicates (V := V) (P := P) t)
  | .appendEntries a => inferInstanceAs (Decidable (a.term = t))
  | .installSnapshot a => inferInstanceAs (Decidable (a.term = t))
  | .requestVote _ => .isFalse id
  | .preVote _ => .isFalse id

/-- The last index the message accounts for. -/
def cover : RpcRequest V P → Nat
  | .appendEntries a => a.prevLogIndex + a.entries.length
  | .installSnapshot a => a.snapshot.lastIncludedIndex
  | _ => 0

/-- The answer says that the message was accepted. For InstallSnapshot that
is any answer at the term of the message. -/
def ConfirmedBy : RpcRequest V P → RpcResponse → Prop
  | .appendEntries _, .appendEntries reply => reply.success = true
  | .installSnapshot a, .installSnapshot reply => reply.term = a.term
  | _, _ => False

instance (req : RpcRequest V P) : DecidablePred req.ConfirmedBy
  | .appendEntries reply => by
      cases req with
      | appendEntries a =>
          exact inferInstanceAs (Decidable (reply.success = true))
      | _ => exact .isFalse id
  | .installSnapshot reply => by
      cases req with
      | installSnapshot a =>
          exact inferInstanceAs (Decidable (reply.term = a.term))
      | _ => exact .isFalse id
  | .requestVote _ => by cases req <;> exact .isFalse id
  | .preVote _ => by cases req <;> exact .isFalse id

/-- What the message shows its sender to have committed. -/
def commit : RpcRequest V P → Nat
  | .appendEntries a => a.leaderCommit
  | .installSnapshot a => a.snapshot.lastIncludedIndex
  | _ => 0

end RpcRequest

/-! ## One leader's messages are in order -/

/-- The node has sent `req` as the leader of term `t`. It does not stand for
that term again, and as long as it leads it has committed what `req` shows. -/
def Node.Backs (x : Node M) (t : Nat) (req : RpcRequest V M.Payload) : Prop :=
  t ≤ x.currentTerm ∧ (x.currentTerm = t →
    (∀ votes, x.role ≠ .candidate votes) ∧
      (x.isLeader = true → req.commit ≤ x.commitIndex))

theorem Move.backs {req : RpcRequest V M.Payload}
    (hm : Move now cause x y os) (hd : Deed cause x y os)
    (h : x.Backs t req) : y.Backs t req := by
  have hle := hm.term_le
  refine ⟨h.1.trans hle, fun ht => ?_⟩
  obtain ⟨hcand, hlead⟩ := h.2 (Nat.le_antisymm (ht ▸ hle) h.1)
  constructor
  · intro votes hr
    rcases hm.candidate hr with ⟨v, hv, -⟩ | ⟨hlt, -⟩
    · exact hcand v hv
    · exact absurd hlt (Nat.not_lt.mpr (ht ▸ h.1))
  · intro hl
    obtain ⟨l', hl'⟩ := Node.isLeader_iff.mp hl
    cases hm.promoted hl' with
    | kept hx =>
        exact (hlead (Node.isLeader_iff.mpr ⟨_, hx⟩)).trans
          hd.commitIndex_le
    | won hr => exact absurd hr (hcand _)

theorem Move.ships {peer : NodeId} {req : RpcRequest V M.Payload} {tag : Tag}
    (h : Move now cause x y os) (ho : Output.send peer req tag ∈ os)
    (ht : req.Replicates t) : x.currentTerm = t ∧ tag.Replicates t := by
  cases h with
  | quiet _ hos => exact absurd (hos _ ho) Bool.false_ne_true
  | retire _ hos => exact absurd (hos _ ho) Bool.false_ne_true
  | follow _ _ hos => exact absurd (hos _ ho) Bool.false_ne_true
  | accept => cases List.mem_singleton.mp ho
  | preCampaign =>
      obtain ⟨_, -, heq⟩ := List.mem_map.mp ho
      cases heq
      exact ht.elim
  | campaign =>
      obtain ⟨_, -, heq⟩ := List.mem_map.mp ho
      cases heq
      exact ht.elim
  | register => cases List.mem_singleton.mp ho
  | @ship l peer' req' tag' hl hto hreq =>
      cases List.mem_singleton.mp ho
      cases req with
      | appendEntries a =>
          obtain ⟨hterm, -, rfl⟩ := hreq
          exact ⟨hterm.symm.trans ht, hterm.symm.trans ht⟩
      | installSnapshot a =>
          obtain ⟨hterm, -, rfl⟩ := hreq
          exact ⟨hterm.symm.trans ht, hterm.symm.trans ht⟩
      | requestVote a => exact ht.elim
      | preVote a => exact ht.elim
  | _ => cases ho

/-- What a leader posts shows no more than it has committed, and an
AppendEntries shows all of it. -/
theorem Node.Orderly.posts {req : RpcRequest V M.Payload} (hx : x.Orderly)
    (h : x.Posts req) : req.commit ≤ x.commitIndex ∧
      ∀ a, req = .appendEntries a → a.leaderCommit = x.commitIndex := by
  cases req with
  | appendEntries a =>
      refine ⟨h.1.le, fun a' ha => ?_⟩
      cases ha
      exact h.1
  | installSnapshot a =>
      refine ⟨le_trans (le_of_eq ?_) hx.boundary_le, fun a' ha => ?_⟩
      · rw [Storage.snapshotIndex, show x.storage.snapshot = _ from h]
        rfl
      · cases ha
  | requestVote a => exact h.elim
  | preVote a => exact h.elim

/-- An AppendEntries sent after another message of the same leader and term
shows at least as much committed. -/
def Rpc.Precedes (r₁ r₂ : Rpc M) : Prop :=
  r₁.src = r₂.src → ∀ a, r₂.request = .appendEntries a →
    r₁.request.Replicates a.term → r₁.request.commit ≤ a.leaderCommit

/-- The network has the messages of each leader in order, and node `n`, now
`x`, has sent those that are its own. -/
structure InOrder (rs : List (Rpc M)) (n : NodeId) (x : Node M) : Prop where
  order : rs.Pairwise Rpc.Precedes
  backs : ∀ r ∈ rs, r.src = n → ∀ t, r.request.Replicates t →
    x.Backs t r.request

theorem Move.inOrder {rs : List (Rpc M)} {n : NodeId} {k : Nat}
    (hm : Move now cause x y os) (hd : Deed cause x y os) (hx : x.Orderly)
    (h : InOrder rs n x) :
    InOrder (rs ++ os.filterMap (Cluster.sent n k)) n y := by
  have hnew : ∀ r ∈ os.filterMap (Cluster.sent n k), ∀ t,
      r.request.Replicates t → x.Backs t r.request ∧ x.isLeader = true ∧
        x.currentTerm = t ∧
        ∀ a, r.request = .appendEntries a → a.leaderCommit = x.commitIndex := by
    intro r hr t ht
    obtain ⟨-, -, ho⟩ := mem_filterMap_sent hr
    obtain ⟨⟨l, hl⟩, hpost⟩ := hd.posts ho (by
      cases hreq : r.request <;> rw [hreq] at ht <;> first | rfl | exact ht.elim)
    obtain ⟨hterm, -⟩ := hm.ships ho ht
    obtain ⟨hcommit, hall⟩ := hx.posts hpost
    refine ⟨⟨hterm.ge, fun _ => ⟨fun votes hv => ?_, fun _ => hcommit⟩⟩,
      Node.isLeader_iff.mpr ⟨l, hl⟩, hterm, hall⟩
    rw [hl] at hv
    cases hv
  -- whatever was sent before, or just now, precedes what is sent now
  have hlast : ∀ r₁ r₂ : Rpc M, (∀ t, r₁.src = n → r₁.request.Replicates t →
      x.Backs t r₁.request) → r₂ ∈ os.filterMap (Cluster.sent n k) →
      r₁.Precedes r₂ := by
    intro r₁ r₂ h₁ h₂ hsrc a ha hrep
    obtain ⟨-, hl, hterm, hall⟩ := hnew r₂ h₂ a.term (by rw [ha]; rfl)
    have hback := h₁ a.term (hsrc.trans (mem_filterMap_sent h₂).1) hrep
    rw [hall a ha]
    exact (hback.2 hterm).2 hl
  constructor
  · refine List.pairwise_append.mpr ⟨h.order, ?_, fun r₁ h₁ r₂ h₂ =>
      hlast r₁ r₂ (fun t hsrc => h.backs r₁ h₁ hsrc t) h₂⟩
    refine List.pairwise_of_forall_mem_list fun r₁ h₁ r₂ h₂ =>
      hlast r₁ r₂ (fun t _ ht => (hnew r₁ h₁ t ht).1) h₂
  · intro r hr hsrc t ht
    rcases List.mem_append.mp hr with hr | hr
    · exact hm.backs hd (h.backs r hr hsrc t ht)
    · exact hm.backs hd (hnew r hr t ht).1

theorem Acts.inOrder {rs : List (Rpc M)} {n : NodeId} {k : Nat}
    (h : Acts now cause x y os) (hx : x.Orderly) (hrs : InOrder rs n x) :
    InOrder (rs ++ os.filterMap (Cluster.sent n k)) n y := by
  induction h with
  | refl =>
      rw [List.filterMap_nil, List.append_nil]
      exact hrs
  | step h hm hd ih =>
      rw [List.filterMap_append, ← List.append_assoc]
      exact hm.inOrder hd (h.orderly hx) ih

theorem Run.inOrder (run : Run D M) (i : ℕ) (n : NodeId) :
    InOrder (run.state i).rpcs n ((run.state i).nodes n) := by
  induction i generalizing n with
  | zero =>
      rw [run.init]
      exact ⟨.nil, fun r hr => by cases hr⟩
  | succ i ih =>
      cases run.acted i with
      | idle hc =>
          rw [hc]
          exact ih n
      | turn now cause h ha =>
          have hnode := ha.inOrder (k := (run.state i).epochs
            (run.effect i).node) (run.orderly i _) (ih (run.effect i).node)
          rw [← h.rpcs] at hnode
          by_cases hn : n = (run.effect i).node
          · subst hn
            exact hnode
          · refine ⟨hnode.order, fun r hr hsrc => ?_⟩
            rw [h.rpcs] at hr
            rw [h.others n hn]
            rcases List.mem_append.mp hr with hr | hr
            · exact (ih n).backs r hr hsrc
            · exact absurd (hsrc.symm.trans (mem_filterMap_sent hr).1) hn
      | restart h =>
          rw [h.rpcs]
          by_cases hn : n = (run.effect i).node
          · subst hn
            refine ⟨(ih (run.effect i).node).order, fun r hr hsrc t ht => ?_⟩
            obtain ⟨state, hboot⟩ := Node.eq_boot_of_spawn h.node
            rw [hboot]
            refine ⟨((ih _).backs r hr hsrc t ht).1, fun _ =>
              ⟨fun votes hv => (by cases hv), fun hl => (by cases hl)⟩⟩
          · rw [h.others n hn]
            exact ih n

/-- Of two messages of one leader in one term, the earlier one shows no more
that the later one settles. -/
theorem Run.settles_le (run : Run D M) {i i₁ i₂ : ℕ} {r₁ r₂ : Rpc M}
    (h₁ : (run.state i).rpcs[i₁]? = some r₁)
    (h₂ : (run.state i).rpcs[i₂]? = some r₂) (hle : i₁ ≤ i₂)
    (hsrc : r₁.src = r₂.src) (ht₁ : r₁.request.Replicates t)
    (ht₂ : r₂.request.Replicates t)
    (hcover : r₁.request.cover ≤ r₂.request.cover) :
    min r₁.request.commit r₁.request.cover ≤
      min r₂.request.commit r₂.request.cover := by
  refine le_min ?_ ((min_le_right _ _).trans hcover)
  cases hreq : r₂.request with
  | appendEntries a =>
      refine (min_le_left _ _).trans ?_
      rcases hle.lt_or_eq with hlt | rfl
      · obtain ⟨hi₁, rfl⟩ := List.getElem?_eq_some_iff.mp h₁
        obtain ⟨hi₂, rfl⟩ := List.getElem?_eq_some_iff.mp h₂
        rw [hreq] at ht₂
        refine List.pairwise_iff_getElem.mp (run.inOrder i 0).order i₁ i₂ hi₁
          hi₂ hlt hsrc a hreq ?_
        rw [show a.term = t from ht₂]
        exact ht₁
      · rw [h₁] at h₂
        cases h₂
        rw [hreq]
  | installSnapshot a =>
      rw [hreq] at hcover
      exact (min_le_right _ _).trans hcover
  | requestVote a =>
      rw [hreq] at ht₂
      exact ht₂.elim
  | preVote a =>
      rw [hreq] at ht₂
      exact ht₂.elim

/-! ## Following one leader -/

structure Node.Obeys (x : Node M) (t : Nat) : Prop where
  role : x.role = .follower
  term : x.currentTerm = t

theorem Quiet.obeys (h : Quiet x y) (hx : x.Obeys t) : y.Obeys t :=
  ⟨h.follower hx.role, h.currentTerm.trans hx.term⟩

/-- A handler left the node a follower in term `t`, and sent nothing. -/
structure Heeds (t : Nat) (c c' : Ctx M) : Prop where
  obeys : c'.node.Obeys t
  out : ∃ os, c'.out = c.out ++ os ∧ ∀ o ∈ os, o.plain = true

namespace Heeds

variable {c₁ c' : Ctx M}

theorem refl (h : c.node.Obeys t) : Heeds t c c :=
  ⟨h, [], (List.append_nil _).symm, List.forall_mem_nil _⟩

theorem of_calm (h : Calm c c') (hc : c.node.Obeys t) : Heeds t c c' :=
  ⟨h.1.obeys hc, h.2⟩

theorem trans (h : Heeds t c c₁) (h' : Heeds t c₁ c') : Heeds t c c' := by
  obtain ⟨os, ho, hp⟩ := h.out
  obtain ⟨os', ho', hp'⟩ := h'.out
  exact ⟨h'.obeys, os ++ os', by rw [ho', ho, List.append_assoc],
    List.forall_mem_append.mpr ⟨hp, hp'⟩⟩

theorem then_ {α : Type} {p : NodeM M α} (h : Heeds t c c₁)
    (hp : wlp p (fun _ c' => Heeds t c₁ c') c₁) :
    wlp p (fun _ c' => Heeds t c c') c₁ :=
  wlp_mono hp fun _ _ h' => h.trans h'

theorem follow (ht : c.node.currentTerm ≤ t) (leader : NodeId)
    (now : Instant) : Heeds t c ⟨{ c.node.follow t (some leader) with
        lastLeaderContact := some now },
      c.out ++ c.node.role.pendingReads.map fun r =>
        .readDropped c.node.currentTerm r.neededSeq⟩ :=
  ⟨⟨rfl, @Node.currentTerm_follow _ _ c.node t (some leader) ht⟩, _, rfl,
    plain_readDropped _⟩

end Heeds

theorem adoptMembership_heeds (members : Membership) (index : Nat)
    (h : c.node.Obeys t) :
    wlp (adoptMembership now members index) (fun _ c' => Heeds t c c') c := by
  simp only [adoptMembership, publishMembership, wlp_bind, wlp_update, h.role]
  exact ⟨⟨rfl, h.term⟩, [], (List.append_nil _).symm, List.forall_mem_nil _⟩

theorem walkEntries_heeds (es : List (LogEntry V)) (h : c.node.Obeys t) :
    wlp (walkEntries es) (fun _ c' => Heeds t c c') c := by
  induction es with
  | nil => exact wlp_pure.mpr (.refl h)
  | cons e rest ih =>
      simp only [walkEntries, wlp_bind, wlp_node, wlp_ite]
      refine ⟨fun _ => ih, fun _ => ?_⟩
      cases c.node.storage.term e.index with
      | none => exact wlp_pure.mpr (.refl h)
      | some existing =>
          simp only [wlp_ite, wlp_bind, wlp_panicWith, wlp_pure, wlp_expect,
            wlp_update, wlp_resolvePending]
          refine ⟨fun _ => ih, fun _ => ⟨fun _ => trivial, fun _ S hS => ?_⟩⟩
          have hcalm := resolvePending_calm
            (⟨{ c.node with storage := S }, c.out⟩ : Ctx M)
          exact .of_calm (.trans (.node (Quiet.body c.node
            (Storage.truncateFrom_hardState hS) _ _ _ _ _))
            (wlp_resolvePending.mp hcalm).1) h

theorem appendFrom_heeds (a : AppendEntriesArgs V) (first : Nat)
    (h : c.node.Obeys t) :
    wlp (appendFrom now a first) (fun _ c' => Heeds t c c') c := by
  simp only [appendFrom, wlp_bind, wlp_checkedSub, wlp_ite, wlp_panicWith,
    wlp_node, wlp_expect, wlp_update]
  intro _ _
  refine ⟨fun _ => trivial, fun _ S hS => ?_⟩
  have hS' : Heeds t c ⟨{ c.node with storage := S }, c.out⟩ :=
    .of_calm (.node (Quiet.body c.node (Storage.append_hardState hS) _ _ _ _
      _)) h
  cases newestConfig (a.entries.drop (first - a.prevLogIndex - 1)) with
  | none => exact wlp_pure.mpr hS'
  | some adopted => exact hS'.then_ (adoptMembership_heeds _ _ hS'.obeys)

theorem spliceEntries_heeds (a : AppendEntriesArgs V) (h : c.node.Obeys t) :
    wlp (spliceEntries now a) (fun _ c' => Heeds t c c') c := by
  simp only [spliceEntries, wlp_bind]
  refine wlp_mono (walkEntries_heeds a.entries h) fun walked c₁ h₁ => ?_
  have hadopt (members : Membership) (index : Nat) :
      wlp (adoptMembership now members index) (fun _ c' => Heeds t c c') c₁ :=
    h₁.then_ (adoptMembership_heeds members index h₁.obeys)
  simp only [wlp_ite, rescanMembership, wlp_bind, wlp_node]
  cases walked.1 with
  | none =>
      simp only [wlp_pure]
      exact ⟨fun _ => hadopt _ _, fun _ => h₁⟩
  | some first =>
      exact ⟨fun _ => wlp_mono (hadopt _ _) fun _ c₂ h₂ =>
          h₂.then_ (appendFrom_heeds a first h₂.obeys),
        fun _ => h₁.then_ (appendFrom_heeds a first h₁.obeys)⟩

theorem applyCommitted_keeps (c : Ctx M) :
    wlp applyCommitted (fun _ c' =>
      c'.node.commitIndex = c.node.commitIndex ∧
        c'.node.storage.lastIndex = c.node.storage.lastIndex) c := by
  simp only [applyCommitted, wlp_bind, wlp_node]
  refine wlp_mono (applyLoop_advances _ _) fun _ c₁ h₁ => ?_
  obtain ⟨es, -, -, rfl⟩ := h₁
  refine wlp_resolvePending.mpr (wlp_mono (resolveReads_unmoved _)
    fun _ c₂ h₂ => ?_)
  refine wlp_mono (maybeCompact_compacts c₂) fun _ c₃ h₃ => ?_
  exact ⟨h₃.1.commitIndex.trans h₂.1.commitIndex,
    h₃.1.lastIndex.trans h₂.1.lastIndex⟩

theorem commitVerified_heeds (a : AppendEntriesArgs V) (h : c.node.Obeys t) :
    wlp (commitVerified a) (fun _ c' => Heeds t c c' ∧
      min a.leaderCommit (a.prevLogIndex + a.entries.length) ≤
        c'.node.commitIndex) c := by
  simp only [commitVerified, wlp_bind, wlp_node, wlp_ite, wlp_pure,
    wlp_update]
  refine ⟨fun _ => ?_, fun hle => ⟨.refl h, Nat.le_of_not_lt hle⟩⟩
  refine wlp_mono (wlp_and (applyCommitted_calm _)
    (applyCommitted_keeps _)) fun _ c₁ h₁ => ?_
  exact ⟨.of_calm (.trans (.node (Quiet.body c.node rfl _ _ _ _ _)) h₁.1) h,
    h₁.2.1.ge⟩

theorem Node.prevMatches_follow (x : Node M) (t : Nat)
    (hint : Option NodeId) (contact : Option Instant)
    (a : AppendEntriesArgs V) : ({ x.follow t hint with
      lastLeaderContact := contact } : Node M).prevMatches a =
        x.prevMatches a := by
  unfold Node.prevMatches Node.follow
  by_cases ht : x.currentTerm < t
  · rw [if_pos ht]
    rfl
  · rw [if_neg ht]

/-- An AppendEntries that is not outdated makes a follower of its term, which
answers whether the predecessor matched. If it did, what the message settles
is committed. -/
theorem handleAppendEntries_heeds (a : AppendEntriesArgs V) (c : Ctx M) :
    wlp (handleAppendEntries now a) (fun r c' =>
      (c.node.currentTerm ≤ a.term →
        Heeds a.term c c' ∧ r = ⟨a.term, c.node.prevMatches a⟩) ∧
      (r.success = true → c.node.currentTerm ≤ a.term ∧
        min a.leaderCommit (a.prevLogIndex + a.entries.length) ≤
          c'.node.commitIndex)) c := by
  simp only [handleAppendEntries, wlp_bind, wlp_node, wlp_ite, wlp_pure,
    wlp_update]
  refine ⟨fun hlt => ⟨fun hle => absurd hlt (Nat.not_lt.mpr hle),
    fun hs => (by cases hs)⟩, fun _ => becomeFollower_wlp fun ht => ?_⟩
  have hob := Heeds.follow ht a.leaderId now
  simp only [Node.prevMatches_follow]
  refine ⟨fun hno => ⟨fun _ => ⟨hob, ?_⟩, fun hs => (by cases hs)⟩,
    fun hyes => ?_⟩
  · rw [hob.obeys.term, show c.node.prevMatches a = false by simpa using hno]
  · refine wlp_mono (hob.then_ (spliceEntries_heeds a hob.obeys))
      fun _ c₁ h₁ => ?_
    refine wlp_mono (commitVerified_heeds a h₁.obeys) fun _ c₂ h₂ => ?_
    refine ⟨fun _ => ⟨h₁.trans h₂.1, ?_⟩, fun _ => ⟨ht, h₂.2⟩⟩
    rw [hob.obeys.term, show c.node.prevMatches a = true by simpa using hyes]

theorem adoptSnapshot_heeds (snap : Snapshot M.Payload)
    (h : c.node.Obeys t) :
    wlp (adoptSnapshot now snap) (fun _ c' => Heeds t c c' ∧
      c'.node.commitIndex = snap.lastIncludedIndex) c := by
  simp only [adoptSnapshot, rescanMembership, adoptMembership,
    publishMembership, wlp_bind, wlp_node, wlp_expect, wlp_unwrap, wlp_update,
    wlp_emitAll, wlp_resolvePending, h.role]
  intro S hS state _
  refine ⟨⟨⟨rfl, ?_⟩, _, List.append_assoc _ _ _, fun o ho => ?_⟩, rfl⟩
  · exact (congrArg HardState.currentTerm
      (Storage.installSnapshot_hardState hS)).trans h.term
  · rcases List.mem_append.mp ho with ho | ho
    · obtain ⟨p, -, rfl⟩ := List.mem_map.mp ho
      rfl
    · obtain ⟨p, -, hp⟩ := List.mem_filterMap.mp ho
      obtain ⟨v, -, rfl⟩ := Option.map_eq_some_iff.mp hp
      rfl

theorem handleInstallSnapshot_heeds (a : InstallSnapshotArgs M.Payload)
    (c : Ctx M) :
    wlp (handleInstallSnapshot now a) (fun r c' =>
      (c.node.currentTerm ≤ a.term → Heeds a.term c c' ∧ r = ⟨a.term⟩) ∧
      (r.term = a.term → c.node.currentTerm ≤ a.term ∧
        a.snapshot.lastIncludedIndex ≤ c'.node.commitIndex)) c := by
  simp only [handleInstallSnapshot, wlp_bind, wlp_node, wlp_ite, wlp_pure,
    wlp_update]
  refine ⟨fun hlt => ⟨fun hle => absurd hlt (Nat.not_lt.mpr hle),
    fun hs => ⟨hs.le, absurd hs hlt.ne'⟩⟩,
    fun _ => becomeFollower_wlp fun ht => ?_⟩
  have hob := Heeds.follow ht a.leaderId now
  refine ⟨fun hle => ⟨fun _ => ⟨hob, congrArg _ hob.obeys.term⟩,
    fun _ => ⟨ht, hle⟩⟩, fun _ => ?_⟩
  refine wlp_mono (adoptSnapshot_heeds a.snapshot hob.obeys)
    fun _ c₁ h₁ => ?_
  exact ⟨fun _ => ⟨hob.trans h₁.1, congrArg _ hob.obeys.term⟩,
    fun _ => ⟨ht, h₁.2.ge⟩⟩

theorem handleRequestVote_heeds {a : RequestVoteArgs}
    (h : c.node.Obeys a.term) :
    wlp (handleRequestVote a) (fun _ c' => Heeds a.term c c') c := by
  simp only [handleRequestVote, decideVote, wlp_bind, wlp_node, wlp_ite,
    wlp_pure, wlp_update]
  refine ⟨fun hlt => absurd hlt (by rw [h.term]; exact Nat.lt_irrefl _),
    fun _ => ⟨fun _ => .refl h, fun _ => ⟨fun _ => ?_, fun _ => .refl h⟩⟩⟩
  exact ⟨⟨h.role, h.term⟩, [], (List.append_nil _).symm,
    List.forall_mem_nil _⟩

theorem handleInbound_heeds {req : RpcRequest V M.Payload}
    (h : c.node.Obeys req.term) :
    wlp (handleInbound now req) (fun _ c' => Heeds req.term c c') c := by
  cases req with
  | requestVote a =>
      simp only [handleInbound, wlp_bind, wlp_pure]
      exact handleRequestVote_heeds h
  | appendEntries a =>
      simp only [handleInbound, wlp_bind, wlp_pure]
      exact wlp_mono (handleAppendEntries_heeds a c) fun _ _ h₁ =>
        (h₁.1 h.term.le).1
  | preVote a =>
      simp only [handleInbound, handlePreVote, wlp_bind, wlp_node, wlp_pure]
      exact .refl h
  | installSnapshot a =>
      simp only [handleInbound, wlp_bind, wlp_pure]
      exact wlp_mono (handleInstallSnapshot_heeds a c) fun _ _ h₁ =>
        (h₁.1 h.term.le).1

theorem handleInbound_confirms {req : RpcRequest V M.Payload} (c : Ctx M) :
    wlp (handleInbound now req) (fun response c' =>
      req.ConfirmedBy response → c'.node.Obeys req.term ∧
        min req.commit req.cover ≤ c'.node.commitIndex) c := by
  cases req with
  | requestVote a =>
      simp only [handleInbound, wlp_bind, wlp_pure]
      exact fun _ _ _ h => h.elim
  | appendEntries a =>
      simp only [handleInbound, wlp_bind, wlp_pure]
      exact wlp_mono (handleAppendEntries_heeds a c) fun _ _ h₁ hs =>
        ⟨(h₁.1 (h₁.2 hs).1).1.obeys, (h₁.2 hs).2⟩
  | preVote a =>
      simp only [handleInbound, wlp_bind, wlp_pure]
      exact fun _ _ _ h => h.elim
  | installSnapshot a =>
      simp only [handleInbound, wlp_bind, wlp_pure]
      exact wlp_mono (handleInstallSnapshot_heeds a c) fun _ _ h₁ hs =>
        ⟨(h₁.1 (h₁.2 hs).1).1.obeys, (min_le_left _ _).trans (h₁.2 hs).2⟩

/-! ## A message that brings nothing new -/

/-- All that handling such a message changes. -/
def Node.touched (x : Node M) (leader : NodeId) (now : Instant) : Node M :=
  { x with leaderId := some leader, lastLeaderContact := some now }

theorem Node.follow_of_obeys (h : x.Obeys t) (leader : NodeId) :
    x.follow t (some leader) = { x with leaderId := some leader } := by
  have hdep : x.role.departing.isEmpty = true := by
    rw [h.role]
    rfl
  unfold Node.follow
  rw [if_neg (by rw [h.term]; exact Nat.lt_irrefl t), if_pos hdep, ← h.role]

theorem walkEntries_held {es : List (LogEntry V)} (c : Ctx M)
    (h : ∀ e ∈ es, e.index ≤ c.node.storage.snapshotIndex ∨
      c.node.storage.term e.index = some e.term) :
    wlp (walkEntries es) (fun r c' => r = (none, false) ∧ c' = c) c := by
  induction es with
  | nil => exact wlp_pure.mpr ⟨rfl, rfl⟩
  | cons e rest ih =>
      have hrest := ih fun e' he' => h e' (List.mem_cons_of_mem _ he')
      simp only [walkEntries, wlp_bind, wlp_node, wlp_ite]
      refine ⟨fun _ => hrest, fun hlt => ?_⟩
      rw [(h e List.mem_cons_self).resolve_left hlt]
      simp only [wlp_ite]
      exact ⟨fun _ => hrest, fun hne => absurd trivial hne⟩

theorem handleAppendEntries_held {a : AppendEntriesArgs V}
    (h : c.node.Obeys a.term)
    (hheld : ∀ e ∈ a.entries, e.index ≤ c.node.storage.snapshotIndex ∨
      c.node.storage.term e.index = some e.term)
    (hk : min a.leaderCommit (a.prevLogIndex + a.entries.length) ≤
      c.node.commitIndex) :
    wlp (handleAppendEntries now a)
      (fun _ c' => c'.node = c.node.touched a.leaderId now) c := by
  simp only [handleAppendEntries, wlp_bind, wlp_node, wlp_ite, wlp_pure,
    wlp_update]
  refine ⟨fun hlt => absurd hlt (by rw [h.term]; exact Nat.lt_irrefl _),
    fun _ => becomeFollower_wlp fun _ => ?_⟩
  simp only [Node.follow_of_obeys h]
  refine ⟨fun _ => rfl, fun _ => ?_⟩
  simp only [spliceEntries, wlp_bind]
  refine wlp_mono (walkEntries_held _ hheld) fun r c₁ h₁ => ?_
  obtain ⟨rfl, rfl⟩ := h₁
  simp only [commitVerified, wlp_ite, wlp_pure, wlp_bind, wlp_node,
    wlp_update]
  exact ⟨fun hf => absurd hf Bool.false_ne_true, fun _ =>
    ⟨fun hgt => absurd hk (Nat.not_le.mpr hgt), fun _ => rfl⟩⟩

theorem handleInstallSnapshot_held {a : InstallSnapshotArgs M.Payload}
    (h : c.node.Obeys a.term)
    (hk : a.snapshot.lastIncludedIndex ≤ c.node.commitIndex) :
    wlp (handleInstallSnapshot now a)
      (fun _ c' => c'.node = c.node.touched a.leaderId now) c := by
  simp only [handleInstallSnapshot, wlp_bind, wlp_node, wlp_ite, wlp_pure,
    wlp_update]
  refine ⟨fun hlt => absurd hlt (by rw [h.term]; exact Nat.lt_irrefl _),
    fun _ => becomeFollower_wlp fun _ => ?_⟩
  simp only [Node.follow_of_obeys h]
  exact ⟨fun _ => rfl, fun hgt => absurd hk hgt⟩

/-- The node has all a message of its term could bring. -/
structure Node.Has (x : Node M) (t : Nat) (req : RpcRequest V M.Payload) :
    Prop where
  obeys : x.Obeys t
  settled : min req.commit req.cover ≤ x.commitIndex
  held : ∀ a, req = .appendEntries a → ∀ e ∈ a.entries,
    e.index ≤ x.storage.snapshotIndex ∨
      x.storage.term e.index = some e.term

theorem handleInbound_has {req : RpcRequest V M.Payload}
    (h : c.node.Has t req) (ht : req.Replicates t) :
    wlp (handleInbound now req)
      (fun _ c' => ∃ leader, c'.node = c.node.touched leader now) c := by
  cases req with
  | appendEntries a =>
      cases ht
      simp only [handleInbound, wlp_bind, wlp_pure]
      exact wlp_mono (handleAppendEntries_held h.obeys (h.held a rfl)
        h.settled) fun _ _ h₁ => ⟨_, h₁⟩
  | installSnapshot a =>
      cases ht
      simp only [handleInbound, wlp_bind, wlp_pure]
      have hk := h.settled
      rw [RpcRequest.commit, RpcRequest.cover, min_self] at hk
      exact wlp_mono (handleInstallSnapshot_held h.obeys hk)
        fun _ _ h₁ => ⟨_, h₁⟩
  | requestVote a => exact ht.elim
  | preVote a => exact ht.elim

/-! ## Along a run -/

/-- In step `j` the addressee of RPC number `i` gets `r` and confirms it. -/
def Run.Confirms (run : Run D M) (j i : ℕ) (r : Rpc M) (t : Nat) : Prop :=
  r.request.Replicates t ∧ ∃ now response, run.action j = .deliver i now ∧
    (run.state j).rpcs[i]? = some r ∧
    (run.state (j + 1)).replies = (run.state j).replies ++ [⟨r, response⟩] ∧
    r.request.ConfirmedBy response

/-- If step `i` is one of node `p`, then it handles a message with `P`. -/
def Run.Handles (run : Run D M) (i : ℕ) (p : NodeId)
    (P : ℕ → Rpc M → Prop) : Prop :=
  run.action i ≠ .idle → (run.effect i).node = p → ∃ k now r,
    run.action i = .deliver k now ∧ (run.state i).rpcs[k]? = some r ∧ P k r

theorem Cluster.Causes.of_deliver {cl : Cluster M} {a : Action V} {k : Nat}
    {n : NodeId} {now' : Instant} {r : Rpc M} (h : cl.Causes a n now cause)
    (ha : a = .deliver k now') (hr : cl.rpcs[k]? = some r) : r.dst = n := by
  cases h <;> cases ha
  next hr' =>
    cases hr.symm.trans hr'
    rfl

theorem Run.handles_invariant (run : Run D M) {p : NodeId}
    {P : ℕ → Rpc M → Prop} {I : Node M → Prop} {j k : ℕ} (hjk : j ≤ k)
    (hP : ∀ i, j ≤ i → i < k → run.Handles i p P)
    (hstep : ∀ i m now r, j ≤ i → i < k → run.action i = .deliver m now →
      (run.state i).rpcs[m]? = some r → r.dst = p → P m r →
      I ((run.state i).nodes p) → I ((run.state (i + 1)).nodes p))
    (hj : I ((run.state j).nodes p)) : I ((run.state k).nodes p) := by
  induction k, hjk using Nat.le_induction with
  | base => exact hj
  | succ k hjk ih =>
      have hk := ih (fun i hi hik => hP i hi (hik.trans (Nat.lt_succ_self k)))
        fun i m now r hi hik => hstep i m now r hi (hik.trans
          (Nat.lt_succ_self k))
      cases run.did k with
      | idle hc =>
          rw [hc]
          exact hk
      | restart h =>
          by_cases hp : p = (run.effect k).node
          · obtain ⟨m, now, r, hact, -⟩ := hP k hjk (Nat.lt_succ_self k)
              (by rw [h.action]; intro h'; cases h') hp.symm
            rw [h.action] at hact
            cases hact
          · rw [h.others p hp]
            exact hk
      | turn now cause h =>
          by_cases hp : p = (run.effect k).node
          · obtain ⟨m, now', r, hact, hr, hPr⟩ := hP k hjk
              (Nat.lt_succ_self k) (fun hidle => by
                have hc := h.causes
                rw [hidle] at hc
                cases hc) hp.symm
            have hdst := h.causes.of_deliver hact hr
            exact hstep k m now' r hjk (Nat.lt_succ_self k) hact hr
              (hdst.trans hp.symm) hPr hk
          · rw [h.others p hp]
            exact hk

theorem Run.commitIndex_le (run : Run D M) {i : ℕ}
    (h : ∀ n, run.action i ≠ .restart n) (n : NodeId) :
    ((run.state i).nodes n).commitIndex ≤
      ((run.state (i + 1)).nodes n).commitIndex := by
  cases run.acted i with
  | idle hc => rw [hc]
  | restart hr => exact absurd hr.action (h _)
  | turn now cause ht ha =>
      by_cases hn : n = (run.effect i).node
      · subst hn
        exact ha.commitIndex_le
      · rw [ht.others n hn]

/-- A follower that handles only messages of its term stays one, and its
commit index does not go back. -/
theorem Run.obeys_since (run : Run D M) {p : NodeId}
    {P : ℕ → Rpc M → Prop} {j k m : ℕ} (hjk : j ≤ k)
    (hP : ∀ i, j ≤ i → i < k → run.Handles i p P)
    (hterm : ∀ i r, P i r → r.request.term = t)
    (h : ((run.state j).nodes p).Obeys t)
    (hm : m ≤ ((run.state j).nodes p).commitIndex) :
    ((run.state k).nodes p).Obeys t ∧
      m ≤ ((run.state k).nodes p).commitIndex := by
  refine run.handles_invariant (I := fun x => x.Obeys t ∧ m ≤ x.commitIndex)
    hjk hP (fun i i' now r _ _ hact hr hdst hPr hx => ?_) ⟨h, hm⟩
  subst hdst
  constructor
  · obtain ⟨-, -, hy⟩ := run.of_deliver (Q := fun _ y =>
      y.Obeys r.request.term) hact hr
      (wlp_mono (handleInbound_heeds (hterm i' r hPr ▸ hx.1))
        fun _ _ h₁ => h₁.obeys)
    rwa [hterm i' r hPr] at hy
  · refine hx.2.trans (run.commitIndex_le (fun n h' => ?_) r.dst)
    rw [hact] at h'
    cases h'

theorem RpcRequest.Replicates.term_eq {P : Type} {req : RpcRequest V P}
    (h : req.Replicates t) : req.term = t := by
  cases req with
  | appendEntries a => exact h
  | installSnapshot a => exact h
  | requestVote a => exact h.elim
  | preVote a => exact h.elim

theorem Run.confirmed (run : Run D M) {j i : ℕ} {r : Rpc M}
    (h : run.Confirms j i r t) :
    ((run.state (j + 1)).nodes r.dst).Obeys t ∧
      min r.request.commit r.request.cover ≤
        ((run.state (j + 1)).nodes r.dst).commitIndex := by
  obtain ⟨ht, now, response, hact, hr, hreplies, hconf⟩ := h
  obtain ⟨response', hreplies', hq⟩ := run.of_deliver (Q := fun resp x =>
    r.request.ConfirmedBy resp → x.Obeys r.request.term ∧
      min r.request.commit r.request.cover ≤ x.commitIndex) hact hr
    (handleInbound_confirms _)
  have heq := List.append_cancel_left (hreplies.symm.trans hreplies')
  cases heq
  rw [← ht.term_eq]
  exact hq hconf

theorem Run.Trace.confirmed_ack (T : run.Trace) {j i : ℕ} {r : Rpc M}
    (h : run.Confirms j i r t) :
    (T.hist (j + 1)).ack r.dst t r.request.cover := by
  obtain ⟨ht, now, response, hact, hr, hreplies, hconf⟩ := h
  have hok := ((T.inv (j + 1)).replies ⟨r, response⟩
    (by rw [hreplies]; simp)).2
  rw [← ht.term_eq]
  unfold ReplyOk at hok
  cases hreq : r.request with
  | requestVote a =>
      rw [hreq] at ht
      exact ht.elim
  | preVote a =>
      rw [hreq] at ht
      exact ht.elim
  | appendEntries a =>
      rw [hreq] at hconf
      cases response with
      | appendEntries reply =>
          simp only [hreq] at hok
          exact hok.2.1 hconf
      | _ => exact hconf.elim
  | installSnapshot a =>
      rw [hreq] at hconf
      cases response with
      | installSnapshot reply =>
          simp only [hreq] at hok
          exact hok.2 hconf
      | _ => exact hconf.elim

/-- What a follower acknowledged to the leader of its term it holds: every
entry of a message that covers no more is compacted or in its log. -/
theorem Run.Trace.held (T : run.Trace) {i k : ℕ} {p src : NodeId}
    {a : AppendEntriesArgs V} (hack : (T.hist i).ack p a.term k)
    (ht : ((run.state i).nodes p).currentTerm = a.term)
    (ha : AppendOk (T.hist i) src a)
    (hk : a.prevLogIndex + a.entries.length ≤ k) :
    ∀ e ∈ a.entries,
      e.index ≤ ((run.state i).nodes p).storage.snapshotIndex ∨
        ((run.state i).nodes p).storage.term e.index = some e.term := by
  intro e he
  have hrepr := ((T.inv i).nodes p).body.repr
  obtain ⟨m, hm⟩ := List.mem_iff_getElem?.mp he
  have hlen := (List.getElem?_eq_some_iff.mp hm).1
  rw [ha.entries, getElem?_take_of_lt hlen, List.getElem?_drop] at hm
  have hlog : (T.log i p)[a.prevLogIndex + m]? = some e :=
    getElem?_of_isPrefix (((T.inv _).nodes _).ack_isPrefix hack ht)
      ((getElem?_take_of_lt (by omega)).trans hm)
  have hindex := hrepr.indexed _ e hlog
  rcases Nat.lt_or_ge ((run.state i).nodes p).storage.snapshotIndex
    e.index with hlt | hge
  · right
    rw [hrepr.term hlt.le, hindex, termAt_succ, hlog]
    rfl
  · exact .inl hge

/-- Late and duplicated messages of a leader change nothing. Let a node have
confirmed `r₂` and have handled only messages of that leader and term since.
Then handling `r₁`, sent no later than `r₂` and covering no more, any number
of times, leaves all of the node as it was except for who leads it and when it
last heard from them. -/
theorem late_messages_noop (run : Run D M) {j k m i₁ i₂ : ℕ} {t : Nat}
    {r₁ r₂ : Rpc M} (hconf : run.Confirms j i₂ r₂ t)
    (h₁ : (run.state k).rpcs[i₁]? = some r₁) (hle : i₁ ≤ i₂)
    (hsrc : r₁.src = r₂.src) (ht : r₁.request.Replicates t)
    (hcover : r₁.request.cover ≤ r₂.request.cover) (hjk : j < k)
    (hsince : ∀ i, j < i → i < k → run.Handles i r₂.dst
      fun _ r => r.src = r₂.src ∧ r.request.term = t)
    (hkm : k ≤ m)
    (hagain : ∀ i, k ≤ i → i < m → run.Handles i r₂.dst fun i' _ => i' = i₁) :
    ∃ leader contact, (run.state m).nodes r₂.dst =
      { (run.state k).nodes r₂.dst with
        leaderId := leader
        lastLeaderContact := contact } := by
  obtain ⟨T⟩ := run.exists_trace
  obtain ⟨hobeys, hsettled⟩ := run.confirmed hconf
  have hack := T.confirmed_ack hconf
  obtain ⟨ht₂, -, -, -, h₂, -⟩ := hconf
  obtain ⟨hobeys, hsettled⟩ := run.obeys_since hjk hsince
    (fun _ _ hP => hP.2) hobeys hsettled
  have h₂ := getElem?_of_isPrefix (run.network_grows hjk.le).1 h₂
  have hhas : ((run.state k).nodes r₂.dst).Has t r₁.request := {
    obeys := hobeys
    settled := (run.settles_le h₁ h₂ hle hsrc ht ht₂ hcover).trans hsettled
    held := fun a ha => by
      have hok := (T.inv k).rpcs r₁ (List.mem_of_getElem? h₁)
      rw [ha] at hok ht hcover
      cases ht
      exact T.held ((T.le hjk).ack hack) hobeys.term hok.1 hcover }
  refine run.handles_invariant hkm hagain
    (I := fun y => ∃ leader contact, y =
      { (run.state k).nodes r₂.dst with
        leaderId := leader
        lastLeaderContact := contact })
    (fun i i' now r hi _ hact hr hdst hi' hy => ?_) ⟨_, _, rfl⟩
  obtain ⟨leader, contact, hy⟩ := hy
  cases hi'
  have hr₁ := getElem?_of_isPrefix (run.network_grows hi).1 h₁
  cases hr.symm.trans hr₁
  have hhas' : ((run.state i).nodes r₁.dst).Has t r₁.request := by
    rw [hdst, hy]
    exact ⟨⟨hhas.obeys.role, hhas.obeys.term⟩, hhas.settled, hhas.held⟩
  obtain ⟨-, -, leader', hy'⟩ := run.of_deliver (Q := fun _ y =>
    ∃ leader, y = ((run.state i).nodes r₁.dst).touched leader now) hact hr
    (handleInbound_has hhas' ht)
  rw [hdst, hy] at hy'
  exact ⟨_, _, hy'⟩

/-- Node 1 leads three nodes. Its first AppendEntries reaches node 2 once more
after a second one with a longer log. -/
def overtakenRun :
    Run (Deployment.ofIds [1, 2, 3] none) (KvStore.machine Nat) :=
  Run.ofActions _ _ [.timeout 1 0, .deliver 0 0, .reply 0 0, .deliver 2 0,
    .reply 1 0, .deliver 4 0, .propose 1 (.put "x" 7 none) 0, .deliver 6 0,
    .deliver 4 5] (by decide +kernel)

theorem overtakenRun_confirms : ∃ r, overtakenRun.Confirms 7 6 r 1 ∧
    r.src = 1 ∧ r.dst = 2 ∧ r.request.cover = 2 := by
  have hrpc : ((overtakenRun.state 7).rpcs[6]?).any (fun r =>
      r.request.Replicates 1 ∧ r.src = 1 ∧ r.dst = 2 ∧
        r.request.cover = 2) = true := by decide +kernel
  obtain ⟨r, hr, h⟩ := (Option.any_eq_true _ _).mp hrpc
  obtain ⟨ht, hrest⟩ := of_decide_eq_true h
  obtain ⟨response, hreplies, -⟩ := overtakenRun.of_deliver
    (Q := fun _ _ => True) (j := 7) rfl hr fun _ _ _ => trivial
  have hans : ((overtakenRun.state 8).replies.getLast?).all (fun q =>
      q.rpc.request.ConfirmedBy q.response) = true := by decide +kernel
  rw [hreplies, List.getLast?_concat] at hans
  exact ⟨r, ⟨ht, 0, response, rfl, hr, hreplies, of_decide_eq_true hans⟩,
    hrest⟩

theorem late_messages_noop_overtaken :
    ((overtakenRun.state 8).nodes 2).storage.lastIndex = 2 ∧
      ∃ leader contact, (overtakenRun.state 9).nodes 2 =
        { (overtakenRun.state 8).nodes 2 with
          leaderId := leader
          lastLeaderContact := contact } := by
  obtain ⟨r₂, hconf, hsrc, hdst, hcover⟩ := overtakenRun_confirms
  have hrpc : ((overtakenRun.state 8).rpcs[4]?).any (fun r =>
      r.request.Replicates 1 ∧ r.src = 1 ∧ r.request.cover = 1) = true := by
    decide +kernel
  obtain ⟨r₁, h₁, h⟩ := (Option.any_eq_true _ _).mp hrpc
  obtain ⟨ht, hsrc₁, hcover₁⟩ := of_decide_eq_true h
  have hnoop := late_messages_noop overtakenRun (m := 9) hconf h₁ (by decide)
    (hsrc₁.trans hsrc.symm) ht (by omega) (by decide)
    (fun i _ _ => by omega) (by decide) fun i hi hi' _ _ => by
      obtain rfl : i = 8 := by omega
      exact ⟨4, 5, r₁, rfl, h₁, rfl⟩
  rw [hdst] at hnoop
  exact ⟨by decide +kernel, hnoop⟩

end RustKV
