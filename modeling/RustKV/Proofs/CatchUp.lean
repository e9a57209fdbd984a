import RustKV.Proofs.Redelivery

/-!
# Catching up with the leader

A leader brings one peer up to date in a chain of exchanges: it sends an RPC,
the peer answers, and the answer makes it send the next one. A refused
AppendEntries moves the next index down, an installed snapshot moves it up
again, and a commit in between may compact the leader's log under its feet.

Two facts make the chain end. Every AppendEntries reaches to the end of the
leader's log, so the first one that is accepted is the last. And what the peer
has confirmed it does not refuse as a predecessor, so after a snapshot only an
AppendEntries that is accepted or a later snapshot can follow.
-/

namespace RustKV

open Rust Prog NodeM Consensus History

variable {V : Type} {M : StateMachine V} {D : Deployment} {run : Run D M}
  {now : Instant} {x y : Node M} {c : Ctx M} {l : LeaderState}
  {p : NodeId} {t N : Nat}

/-! ## What the leader does -/

/-- The node leads term `t`, its log ends at `N`, and the configuration it is
in has `p` in it. -/
structure Node.Serves (x : Node M) (p : NodeId) (t N : Nat)
    (l : LeaderState) : Prop where
  role : x.role = .leader l
  term : x.currentTerm = t
  last : x.storage.lastIndex = N
  member : x.members.containsKey x.config.id = true
  peer : x.members.containsKey p = true
  staying : l.departing.get p = none

def Node.Requests (x : Node M) (l : LeaderState) (p : NodeId) :
    RpcRequest V M.Payload → Tag → Prop
  | .appendEntries a, tag => a.term = x.currentTerm ∧
      a.prevLogIndex + 1 =
        (l.nextIndex p).getD (x.storage.lastIndex + 1) ∧
      x.storage.lastIndex ≤ a.prevLogIndex + a.entries.length ∧
      ∃ seq, tag = .append x.currentTerm a.prevLogIndex a.entries.length seq
  | .installSnapshot a, tag => a.term = x.currentTerm ∧
      (l.nextIndex p).getD (x.storage.lastIndex + 1) ≤
        a.snapshot.lastIncludedIndex ∧
      tag = .installSnapshot x.currentTerm a.snapshot.lastIncludedIndex
  | _, _ => False

theorem sendAppend_requests (h : c.node.Serves p t N l) :
    wlp (sendAppend p) (fun _ c' => ∃ req tag,
      c' = ⟨c.node, c.out ++ [.send p req tag]⟩ ∧
      c.node.Requests l p req tag) c := by
  simp only [sendAppend, sendInstallSnapshot, wlp_bind, wlp_node, wlp_ite,
    wlp_pure, h.role, h.peer, wlp_unwrap, wlp_emit, wlp_checkedSub]
  refine ⟨fun hno => absurd hno.1 (by simp), fun _ =>
    ⟨fun hlow snap hsnap => ?_, fun hlow hpos term hterm => ?_⟩⟩
  · refine ⟨_, _, rfl, rfl, ?_, rfl⟩
    rwa [Storage.snapshotIndex, hsnap] at hlow
  · exact ⟨_, _, rfl, rfl, Nat.sub_add_cancel hpos,
      Storage.lastIndex_le_entriesFrom _ (Nat.lt_of_not_le hlow), _, rfl⟩

/-- A calm step of the leader that leaves the end of the log alone. -/
structure Keeps (c c' : Ctx M) : Prop where
  calm : Calm c c'
  last : c'.node.storage.lastIndex = c.node.storage.lastIndex

theorem Keeps.serves {c' : Ctx M} (h : Keeps c c')
    (hx : c.node.Serves p t N l) :
    ∃ rs, c'.node.Serves p t N { l with pendingReads := rs } := by
  obtain ⟨hq, -⟩ := h.calm
  obtain ⟨rs, -, hr⟩ := hq.role
  refine ⟨rs, ?_, hq.currentTerm.trans hx.term, h.last.trans hx.last, ?_, ?_,
    hx.staying⟩
  · rw [hr, hx.role]
    rfl
  · rw [hq.members, hq.config]
    exact hx.member
  · rw [hq.members]
    exact hx.peer

theorem Keeps.trans {c₁ c' : Ctx M} (h : Keeps c c₁) (h' : Keeps c₁ c') :
    Keeps c c' :=
  ⟨h.calm.trans h'.calm, h'.last.trans h.last⟩

theorem maybeAdvanceCommit_keeps (h : c.node.Serves p t N l) :
    wlp maybeAdvanceCommit (fun _ c' => Keeps c c') c := by
  have hstay : ∀ c₁ : Ctx M, Keeps c c₁ →
      wlp stepDownIfRemoved (fun _ c' => Keeps c c') c₁ := by
    intro c₁ h₁
    obtain ⟨rs, h₁'⟩ := h₁.serves h
    simp only [stepDownIfRemoved, wlp_bind, wlp_node, wlp_ite, wlp_pure]
    refine ⟨fun hgone => ?_, fun _ => h₁⟩
    rw [h₁'.member] at hgone
    exact absurd hgone.2.1 (by simp)
  simp only [maybeAdvanceCommit, wlp_bind, wlp_node]
  rw [h.role]
  simp only [wlp_ite, wlp_bind, wlp_pure, wlp_update, wlp_emit]
  refine ⟨fun _ => ⟨.refl c, rfl⟩, fun _ => ⟨fun _ => ?_, fun _ =>
    hstay c ⟨.refl c, rfl⟩⟩⟩
  refine wlp_mono (wlp_and (applyCommitted_calm _)
    (applyCommitted_keeps _)) fun _ c₁ h₁ => hstay c₁ ⟨?_, h₁.2.2⟩
  exact .trans (.trans (.node (Quiet.body c.node rfl _ _ _ _ _))
    (.emit (List.forall_mem_singleton.mpr rfl))) h₁.1

theorem resolveReads_keeps (c : Ctx M) :
    wlp resolveReads (fun _ c' => Keeps c c') c :=
  wlp_mono (wlp_and (resolveReads_calm c) (resolveReads_unmoved c))
    fun _ _ h => ⟨h.1.1, h.2.1.lastIndex⟩

theorem LeaderState.departs_of_staying (h : l.departing.get p = none)
    (held : Nat) : l.departs p held = false := by
  rw [LeaderState.departs, h]
  rfl

theorem LeaderState.matchIndex_confirm (hm : (l.matchIndex p).getD 0 ≤ N) :
    (l.confirm p N).matchIndex p = some N := by
  rw [LeaderState.confirm]
  split
  · exact Function.update_self _ _ _
  · next hle =>
      rw [show N = (l.matchIndex p).getD 0 by omega]
      exact Function.update_self _ _ _

theorem handleAppendReply_accepted {prev len seq : Nat}
    (h : c.node.Serves p t N l) (hN : prev + len = N)
    (hm : (l.matchIndex p).getD 0 ≤ N) :
    wlp (handleAppendReply now t p prev len seq ⟨t, true⟩)
      (fun _ c' => ∃ l', c'.node.Serves p t N l' ∧
        l'.matchIndex p = some N ∧
        ∃ os, c'.out = c.out ++ os ∧ ∀ o ∈ os, o.plain = true) c := by
  have hdep : ((l.answered p seq now).confirm p N).departing.get p =
      none := by
    rw [(LeaderState.confirm_eq _ p N).2.2.1]
    exact h.staying
  have hx : ({ c.node with role := .leader ((l.answered p seq now).confirm
      p N) } : Node M).Serves p t N _ :=
    ⟨rfl, h.term, h.last, h.member, h.peer, hdep⟩
  simp only [handleAppendReply, wlp_bind, wlp_node, wlp_ite, h.term]
  refine ⟨fun hlt => absurd hlt (Nat.lt_irrefl t), fun _ =>
    ⟨fun hne => absurd rfl hne, fun _ => ?_⟩⟩
  rw [h.role]
  simp only [hN, LeaderState.departs_of_staying hdep, wlp_ite, wlp_bind,
    wlp_update]
  refine ⟨fun _ => ⟨fun hf => absurd hf Bool.false_ne_true, fun _ => ?_⟩,
    fun hf => absurd trivial hf⟩
  rw [if_neg Bool.false_ne_true]
  refine wlp_mono (maybeAdvanceCommit_keeps hx) fun _ c₁ h₁ =>
    ⟨fun hmore => absurd hmore.2.1 (by rw [h.last]; exact Nat.lt_irrefl N),
      fun _ => wlp_mono (resolveReads_keeps c₁) fun _ c₂ h₂ => ?_⟩
  obtain ⟨rs, hs⟩ := (h₁.trans h₂).serves hx
  exact ⟨_, hs, LeaderState.matchIndex_confirm hm, (h₁.trans h₂).calm.2⟩

theorem Node.Requests.of_same {req : RpcRequest V M.Payload} {tag : Tag}
    (h : x.Requests l p req tag) (hterm : y.currentTerm = x.currentTerm)
    (hlast : y.storage.lastIndex = x.storage.lastIndex)
    (rs : List PendingRead) :
    y.Requests { l with pendingReads := rs } p req tag := by
  cases req with
  | appendEntries a =>
      rw [Node.Requests, hterm, hlast]
      exact h
  | installSnapshot a =>
      rw [Node.Requests, hterm, hlast]
      exact h
  | requestVote a => exact h
  | preVote a => exact h

/-- The leader sends the peer one more message, which fits its bookkeeping
afterwards, and nothing else. -/
def Resends (p : NodeId) (l : LeaderState) (c c' : Ctx M) : Prop :=
  ∃ req tag os os', c'.out = c.out ++ os ++ [.send p req tag] ++ os' ∧
    (∀ o ∈ os ++ os', o.plain = true) ∧ c'.node.Requests l p req tag

theorem handleAppendReply_refuses {prev len seq : Nat}
    (h : c.node.Serves p t N l) :
    wlp (handleAppendReply now t p prev len seq ⟨t, false⟩)
      (fun _ c' => ∃ l', c'.node.Serves p t N l' ∧ Resends p l' c c' ∧
        l'.nextIndex p =
          some (min ((l.nextIndex p).getD 1) (max prev 1))) c := by
  have hx : ({ c.node with role := .leader ((l.answered p seq now).backtrack
      p prev) } : Node M).Serves p t N _ :=
    ⟨rfl, h.term, h.last, h.member, h.peer, h.staying⟩
  simp only [handleAppendReply, wlp_bind, wlp_node, wlp_ite, h.term]
  refine ⟨fun hlt => absurd hlt (Nat.lt_irrefl t), fun _ =>
    ⟨fun hne => absurd rfl hne, fun _ => ?_⟩⟩
  rw [h.role]
  simp only [wlp_ite, wlp_bind, wlp_update]
  refine ⟨fun hf => absurd hf Bool.false_ne_true, fun _ => ?_⟩
  refine wlp_mono (sendAppend_requests (c := ⟨_, c.out⟩) hx)
    fun _ c₁ h₁ => ?_
  obtain ⟨req, tag, rfl, hreq⟩ := h₁
  refine wlp_mono (resolveReads_keeps _) fun _ c₂ h₂ => ?_
  obtain ⟨rs, hs⟩ := h₂.serves (c := ⟨_, _⟩) hx
  obtain ⟨os, ho, hp⟩ := h₂.calm.2
  refine ⟨_, hs, ⟨req, tag, [], os, ?_, hp, ?_⟩, Function.update_self _ _ _⟩
  · rw [ho, List.append_nil]
  · exact hreq.of_same h₂.calm.1.currentTerm h₂.last rs

theorem handleInstallSnapshotReply_moves {boundary : Nat}
    (h : c.node.Serves p t N l) :
    wlp (handleInstallSnapshotReply now t p boundary ⟨t⟩)
      (fun _ c' => ∃ l', c'.node.Serves p t N l' ∧
        l'.matchIndex p = some (max ((l.matchIndex p).getD 0) boundary) ∧
        l'.nextIndex p = some (max ((l.nextIndex p).getD 1) (boundary + 1)) ∧
        (boundary < N → Resends p l' c c') ∧
        (N ≤ boundary →
          ∃ os, c'.out = c.out ++ os ∧ ∀ o ∈ os, o.plain = true)) c := by
  have hx : ({ c.node with role := .leader (l.installed p boundary now) } :
      Node M).Serves p t N _ :=
    ⟨rfl, h.term, h.last, h.member, h.peer, h.staying⟩
  simp only [handleInstallSnapshotReply, wlp_bind, wlp_node, wlp_ite, h.term]
  refine ⟨fun hlt => absurd hlt (Nat.lt_irrefl t), fun _ =>
    ⟨fun hne => absurd rfl hne, fun _ => ?_⟩⟩
  rw [h.role]
  simp only [LeaderState.departs_of_staying hx.staying, wlp_ite, wlp_bind,
    wlp_update, wlp_pure]
  refine ⟨fun hf => absurd hf Bool.false_ne_true, fun _ => ?_⟩
  rw [if_neg Bool.false_ne_true]
  refine wlp_mono (maybeAdvanceCommit_keeps hx) fun _ c₁ h₁ => ?_
  obtain ⟨rs, hs⟩ := h₁.serves hx
  obtain ⟨os, ho, hp⟩ := h₁.calm.2
  refine ⟨fun hlt => ?_, fun hge => ?_⟩
  · refine wlp_mono (sendAppend_requests hs) fun _ c₂ h₂ => ?_
    obtain ⟨req, tag, rfl, hreq⟩ := h₂
    refine ⟨_, hs, Function.update_self _ _ _, Function.update_self _ _ _,
      fun _ => ⟨req, tag, os, [], ?_, ?_, hreq⟩, fun hge => ?_⟩
    · rw [ho, List.append_nil]
    · rwa [List.append_nil]
    · rw [h.last] at hlt
      omega
  · refine ⟨_, hs, Function.update_self _ _ _, Function.update_self _ _ _,
      fun hlt => ?_, fun _ => ⟨os, ho, hp⟩⟩
    rw [h.last] at hge
    omega

/-! ## What the peer does -/

def Node.answer (x : Node M) : RpcRequest V M.Payload → Option RpcResponse
  | .appendEntries a => some (.appendEntries ⟨a.term, x.prevMatches a⟩)
  | .installSnapshot a => some (.installSnapshot ⟨a.term⟩)
  | _ => none

theorem handleInbound_answers {req : RpcRequest V M.Payload}
    (ht : req.Replicates t) (hle : c.node.currentTerm ≤ t) :
    wlp (handleInbound now req) (fun response c' =>
      Heeds t c c' ∧ c.node.answer req = some response) c := by
  cases req with
  | appendEntries a =>
      cases ht
      simp only [handleInbound, wlp_bind, wlp_pure]
      refine wlp_mono (handleAppendEntries_heeds a c) fun r c' h => ?_
      obtain ⟨hheeds, rfl⟩ := h.1 hle
      exact ⟨hheeds, rfl⟩
  | installSnapshot a =>
      cases ht
      simp only [handleInbound, wlp_bind, wlp_pure]
      refine wlp_mono (handleInstallSnapshot_heeds a c) fun r c' h => ?_
      obtain ⟨hheeds, rfl⟩ := h.1 hle
      exact ⟨hheeds, rfl⟩
  | requestVote a => exact ht.elim
  | preVote a => exact ht.elim

/-! ## One exchange -/

section Exchange

variable {H : Hist V} {F : NodeId → List (LogEntry V)} {cl cl' : Cluster M}
  {n : NodeId}

/-- Node `n` leads term `t`, its log ends at `N` with an entry of its own, and
`p`, which is not ahead of it, is to catch up. -/
structure Chasing (D : Deployment) (H : Hist V)
    (F : NodeId → List (LogEntry V)) (cl : Cluster M) (n p : NodeId)
    (t N : Nat) (l : LeaderState) : Prop where
  inv : ClusterInv D H F cl
  serves : (cl.nodes n).Serves p t N l
  ne : p ≠ n
  behind : (cl.nodes p).currentTerm ≤ t
  started : ∃ b, H.led t = some (n, b) ∧ b.length < N

theorem Chasing.advance (h : Chasing D H F cl n p t N l) {H' : Hist V}
    {F' : NodeId → List (LogEntry V)} {eff : Effect M} {l' : LeaderState}
    (hadv : Advance D H F cl H' F' cl' eff)
    (hs : (cl'.nodes n).Serves p t N l')
    (hp : (cl'.nodes p).currentTerm ≤ t) :
    Chasing D H' F' cl' n p t N l' where
  inv := hadv.inv
  serves := hs
  ne := h.ne
  behind := hp
  started := by
    obtain ⟨_, htr, -⟩ := hadv.here
    obtain ⟨b, hb, hlt⟩ := h.started
    exact ⟨b, htr.frame.toLe.led hb, hlt⟩

theorem filterMap_sent_plain {os : List (Output M)} {k : Nat}
    (h : ∀ o ∈ os, o.plain = true) :
    os.filterMap (Cluster.sent n k) = [] := by
  refine List.filterMap_eq_nil_iff.mpr fun o ho => ?_
  cases o with
  | send peer req tag => exact absurd (h _ ho) Bool.false_ne_true
  | _ => rfl

theorem Chasing.deliver (h : Chasing D H F cl n p t N l) {i : Nat}
    {rpc : Rpc M} (hr : cl.rpcs[i]? = some rpc) (hdst : rpc.dst = p)
    (ht : rpc.request.Replicates t) (now : Instant) :
    ∃ cl' eff H' F' response,
      cl.step (.deliver i now) = some (.ok (cl', eff)) ∧
      Chasing D H' F' cl' n p t N l ∧ cl'.nodes n = cl.nodes n ∧
      (cl'.nodes p).currentTerm = t ∧ cl'.rpcs = cl.rpcs ∧
      cl'.epochs = cl.epochs ∧
      cl'.replies = cl.replies ++ [⟨rpc, response⟩] ∧
      (cl.nodes p).answer rpc.request = some response := by
  subst hdst
  obtain ⟨cl', eff, H', F', heq, hadv⟩ :=
    h.inv.serve (List.mem_of_getElem? hr) now
  have hb : wlp (Cluster.serve now rpc) (fun answers c' => ∃ response,
      answers = [⟨rpc, response⟩] ∧ Heeds t ⟨cl.nodes rpc.dst, []⟩ c' ∧
        (cl.nodes rpc.dst).answer rpc.request = some response)
      ⟨cl.nodes rpc.dst, []⟩ := by
    simp only [Cluster.serve, wlp_bind, wlp_pure]
    exact wlp_mono (handleInbound_answers ht h.behind)
      fun response c' h' => ⟨response, rfl, h'⟩
  obtain ⟨answers, x, ⟨response, rfl, hheeds, hans⟩, hnodes, hepochs, hrpcs,
    hreplies⟩ := Cluster.exec_outcome heq hb
  obtain ⟨os, ho, hplain⟩ := hheeds.out
  have hn : cl'.nodes n = cl.nodes n := by
    rw [hnodes, Function.update_of_ne h.ne.symm]
  have hp : (cl'.nodes rpc.dst).currentTerm = t := by
    rw [hnodes, Function.update_self]
    exact hheeds.obeys.term
  refine ⟨cl', eff, H', F', response, ?_, h.advance hadv ?_ hp.le, hn, hp, ?_,
    hepochs, hreplies, hans⟩
  · rw [Cluster.step, hr, Option.map_some, heq]
  · rw [hn]
    exact h.serves
  · rw [hrpcs, ho, List.nil_append, filterMap_sent_plain hplain,
      List.append_nil]

theorem Chasing.answered (h : Chasing D H F cl n p t N l) {i : Nat}
    {r : Reply M} (hr : cl.replies[i]? = some r) (hsrc : r.rpc.src = n)
    (hepoch : r.rpc.epoch = cl.epochs n) (now : Instant)
    {Q : LeaderState → Ctx M → Prop}
    (hb : wlp (handleEvent now (r.rpc.tag.event r.rpc.dst (.ok r.response)))
      (fun _ c' => ∃ l', c'.node.Serves p t N l' ∧ Q l' c')
      ⟨cl.nodes n, []⟩) :
    ∃ cl' eff H' F' l' x, cl.step (.reply i now) = some (.ok (cl', eff)) ∧
      Chasing D H' F' cl' n p t N l' ∧ Q l' x ∧ cl'.nodes n = x.node ∧
      cl'.nodes p = cl.nodes p ∧ cl'.rpcs = cl.rpcs ++
        x.out.filterMap (Cluster.sent n (cl'.epochs n)) := by
  subst hsrc
  obtain ⟨cl', eff, H', F', heq, hadv⟩ :=
    h.inv.silently (h.inv.answer (List.mem_of_getElem? hr) now)
  have hb' : wlp (Cluster.silently (handleEvent now (r.rpc.tag.event
      r.rpc.dst (.ok r.response)))) (fun _ c' => ∃ l',
        c'.node.Serves p t N l' ∧ Q l' c') ⟨cl.nodes r.rpc.src, []⟩ := by
    simp only [Cluster.silently, wlp_bind, wlp_pure]
    exact hb
  obtain ⟨answers, x, ⟨l', hs, hq⟩, hnodes, hepochs, hrpcs, -⟩ :=
    Cluster.exec_outcome heq hb'
  have hn : cl'.nodes r.rpc.src = x.node := by
    rw [hnodes, Function.update_self]
  have hp : cl'.nodes p = cl.nodes p := by
    rw [hnodes, Function.update_of_ne h.ne]
  refine ⟨cl', eff, H', F', l', x, ?_, h.advance hadv (hn ▸ hs) ?_, hq, hn,
    hp, hepochs ▸ hrpcs⟩
  · rw [Cluster.step, hr, Option.bind_some, Cluster.settle, if_pos hepoch,
      heq]
  · rw [hp]
    exact h.behind

/-- The newest message is one that `n` has for `p` as things stand. -/
def Cluster.Awaits (cl : Cluster M) (n p : NodeId) (l : LeaderState)
    (req : RpcRequest V M.Payload) (tag : Tag) : Prop :=
  (∃ rs, cl.rpcs = rs ++ [⟨n, cl.epochs n, p, req, tag⟩]) ∧
    (cl.nodes n).Requests l p req tag

def Cluster.Exchange (cl : Cluster M) (now now' : Instant) (r : Reply M)
    (cl'' : Cluster M) : Prop :=
  ∃ cl' e e',
    cl.step (.deliver (cl.rpcs.length - 1) now) = some (.ok (cl', e)) ∧
    cl'.replies = cl.replies ++ [r] ∧
    cl'.step (.reply cl.replies.length now') = some (.ok (cl'', e'))

theorem Chasing.tlog (h : Chasing D H F cl n p t N l) :
    H.tlog t = F n ∧ (F n).length = N := by
  have hn := h.inv.nodes n
  obtain ⟨b, -, htlog⟩ := hn.ok.leader
    (Role.part_leader.mpr (Node.isLeader_iff.mpr ⟨l, h.serves.role⟩))
  have hterm : ((cl.nodes n).replica (F n)).term = t := h.serves.term
  rw [hterm] at htlog
  exact ⟨htlog, hn.body.repr.lastIndex.symm.trans h.serves.last⟩

theorem Chasing.leaderInv (h : Chasing D H F cl n p t N l) :
    LeaderInv D H n (F n) (cl.nodes n).members t l := by
  have hrole := (h.inv.nodes n).role
  rwa [h.serves.role, h.serves.term] at hrole

theorem Chasing.matched_le (h : Chasing D H F cl n p t N l) :
    (l.matchIndex p).getD 0 ≤ N := by
  obtain ⟨htlog, hlen⟩ := h.tlog
  have hle := h.leaderInv.matched_le h.inv.sound p
  rwa [htlog, hlen] at hle

/-- The peer is handed the newest message; what the leader makes of the answer
is what its handler does. -/
theorem Chasing.exchange (h : Chasing D H F cl n p t N l)
    {req : RpcRequest V M.Payload} {tag : Tag}
    (hw : cl.Awaits n p l req tag) (ht : req.Replicates t)
    {response : RpcResponse}
    (hans : (cl.nodes p).answer req = some response) (now now' : Instant)
    {Q : LeaderState → Ctx M → Prop}
    (hb : wlp (handleEvent now' (tag.event p (.ok response)))
      (fun _ c' => ∃ l', c'.node.Serves p t N l' ∧ Q l' c')
      ⟨cl.nodes n, []⟩) :
    ∃ cl' H' F' l' x,
      cl.Exchange now now' ⟨⟨n, cl.epochs n, p, req, tag⟩, response⟩ cl' ∧
      Chasing D H' F' cl' n p t N l' ∧ Q l' x ∧ cl'.nodes n = x.node ∧
      (cl'.nodes p).currentTerm = t ∧ cl'.rpcs = cl.rpcs ++
        x.out.filterMap (Cluster.sent n (cl'.epochs n)) := by
  obtain ⟨⟨rs, hrs⟩, -⟩ := hw
  have hlast : cl.rpcs[cl.rpcs.length - 1]? =
      some ⟨n, cl.epochs n, p, req, tag⟩ := by
    rw [hrs]
    simp
  obtain ⟨cl₁, e, H₁, F₁, response', hstep, h₁, hn₁, hp₁, hrpcs₁, hepochs₁,
    hreplies₁, hans'⟩ := h.deliver hlast rfl ht now
  cases hans.symm.trans hans'
  have hr : cl₁.replies[cl.replies.length]? =
      some ⟨⟨n, cl.epochs n, p, req, tag⟩, response⟩ := by
    rw [hreplies₁, List.getElem?_concat_length]
  obtain ⟨cl₂, e', H₂, F₂, l₂, x, hstep', h₂, hq, hn₂, hp₂, hrpcs₂⟩ :=
    h₁.answered hr rfl (by rw [hepochs₁]) now' (hn₁ ▸ hb)
  refine ⟨cl₂, H₂, F₂, l₂, x, ⟨cl₁, e, e', hstep, hreplies₁, hstep'⟩, h₂, hq,
    hn₂, hp₂ ▸ hp₁, hrpcs₁ ▸ hrpcs₂⟩

theorem Resends.awaits {c' : Ctx M} {l' : LeaderState}
    (h : Resends p l' ⟨cl.nodes n, []⟩ c') (hn : cl'.nodes n = c'.node)
    (hrpcs : cl'.rpcs = cl.rpcs ++
      c'.out.filterMap (Cluster.sent n (cl'.epochs n))) :
    cl'.rpcs.length = cl.rpcs.length + 1 ∧
      ∃ req tag, cl'.Awaits n p l' req tag := by
  obtain ⟨req, tag, os, os', hout, hplain, hreq⟩ := h
  obtain ⟨hos, hos'⟩ := List.forall_mem_append.mp hplain
  rw [hout, List.nil_append, List.filterMap_append, List.filterMap_append,
    filterMap_sent_plain hos, filterMap_sent_plain hos', List.append_nil,
    List.nil_append] at hrpcs
  refine ⟨by rw [hrpcs]; simp [Cluster.sent], req, tag, ⟨_, hrpcs⟩, ?_⟩
  rw [hn]
  exact hreq

theorem Chasing.confirmed (h : Chasing D H F cl n p t N l)
    (ht : (cl.nodes p).currentTerm = t) {m : Nat}
    (hm : l.matchIndex p = some m) : (H.tlog t).take m <+: F p := by
  have hpre := h.leaderInv.matched_isPrefix (h.inv.nodes p) ht
  rwa [hm, Option.getD_some] at hpre

theorem Chasing.prevMatches (h : Chasing D H F cl n p t N l)
    {a : AppendEntriesArgs V} (ha : AppendOk H n a) (ht : a.term = t)
    (hpre : (H.tlog t).take a.prevLogIndex <+: F p) :
    (cl.nodes p).prevMatches a = true := by
  have hrepr := (h.inv.nodes p).body.repr
  have hwithin := ha.within
  have hprev := ha.prev
  rw [ht] at hwithin hprev
  rw [Node.prevMatches]
  rcases Nat.lt_or_ge a.prevLogIndex (cl.nodes p).storage.snapshotIndex
    with hlt | hge
  · rw [Storage.term, if_neg hlt.ne, Storage.entry_of_le hlt.le]
    exact decide_eq_true hlt
  · rw [hrepr.term hge, termAt_isPrefix hpre (by rw [List.length_take]; omega),
      termAt_take le_rfl, hprev]
    exact decide_eq_true rfl

/-! ## The chain -/

/-- Exchanges one after the other, up to one that makes the leader send
nothing. Event number `s` happens at `clock s`. -/
inductive Cluster.Exchanges (clock : ℕ → Instant) :
    ℕ → Cluster M → List (Reply M) → Cluster M → Prop
  | last {s : ℕ} {cl cl' : Cluster M} {r : Reply M}
      (h : cl.Exchange (clock s) (clock (s + 1)) r cl')
      (hq : cl'.rpcs = cl.rpcs) : Exchanges clock s cl [r] cl'
  | more {s : ℕ} {cl cl₁ cl' : Cluster M} {r : Reply M} {rs : List (Reply M)}
      (h : cl.Exchange (clock s) (clock (s + 1)) r cl₁)
      (hsent : cl₁.rpcs.length = cl.rpcs.length + 1)
      (hrest : Exchanges clock (s + 2) cl₁ rs cl') :
      Exchanges clock s cl (r :: rs) cl'

/-- The leader `n` knows that `p` holds its whole log, which ends at `N`, and
so it does. -/
structure Cluster.CaughtUp (cl : Cluster M) (n p : NodeId) (N : Nat) :
    Prop where
  matched : ∃ l, (cl.nodes n).role = .leader l ∧ l.matchIndex p = some N
  leader : (cl.nodes n).storage.lastIndex = N
  follower : (cl.nodes p).storage.lastIndex = N
  log : ∀ k, (cl.nodes n).storage.snapshotIndex < k →
    (cl.nodes p).storage.snapshotIndex < k →
    (cl.nodes p).storage.entry k = (cl.nodes n).storage.entry k

/-- An answer of `p` to `n`, which does not refuse an AppendEntries from the
start of the log. -/
structure Reply.Fair (n p : NodeId) (r : Reply M) : Prop where
  src : r.rpc.src = n
  dst : r.rpc.dst = p
  zero : ∀ a, r.rpc.request = .appendEntries a → a.prevLogIndex = 0 →
    r.response = .appendEntries ⟨a.term, true⟩

/-- The chain that starts with the newest message ends well. -/
def Cluster.Settles (clock : ℕ → Instant) (n p : NodeId) (N s : ℕ)
    (cl : Cluster M) : Prop :=
  ∃ rs cl', cl.Exchanges clock s rs cl' ∧ cl'.CaughtUp n p N ∧
    ∀ r ∈ rs, r.Fair n p

theorem Cluster.Settles.more {clock : ℕ → Instant} {s : ℕ} {r : Reply M}
    (h : cl.Exchange (clock s) (clock (s + 1)) r cl') (hr : r.Fair n p)
    (hsent : cl'.rpcs.length = cl.rpcs.length + 1)
    (hrest : cl'.Settles clock n p N (s + 2)) :
    cl.Settles clock n p N s := by
  obtain ⟨rs, cl₂, hex, hend, hfair⟩ := hrest
  exact ⟨r :: rs, cl₂, .more h hsent hex, hend,
    List.forall_mem_cons.mpr ⟨hr, hfair⟩⟩

theorem Cluster.Settles.last {clock : ℕ → Instant} {s : ℕ} {r : Reply M}
    (h : cl.Exchange (clock s) (clock (s + 1)) r cl') (hr : r.Fair n p)
    (hq : cl'.rpcs = cl.rpcs) (hend : cl'.CaughtUp n p N) :
    cl.Settles clock n p N s :=
  ⟨[r], cl', .last h hq, hend, List.forall_mem_singleton.mpr hr⟩

/-- With its whole log confirmed in its own term, the leader's log is the
peer's: there is no room for a stale suffix. -/
theorem Chasing.caughtUp (h : Chasing D H F cl n p t N l)
    (hm : l.matchIndex p = some N) (ht : (cl.nodes p).currentTerm = t) :
    cl.CaughtUp n p N := by
  obtain ⟨htlog, hlen⟩ := h.tlog
  obtain ⟨b, hb, hlt⟩ := h.started
  have hp := h.inv.nodes p
  have hterm : ((cl.nodes p).replica (F p)).term = t := ht
  have hpre := h.confirmed ht hm
  rw [List.take_of_length_le (by rw [htlog, hlen])] at hpre
  have heq : F p = F n := by
    have := hp.ok.eq_tlog h.inv.sound.wf (m := n) (b := b)
    rw [hterm] at this
    rw [← htlog]
    exact this hb (by rw [htlog, hlen]; exact hlt) hpre
  have hrepr := hp.body.repr
  rw [heq] at hrepr
  refine ⟨⟨l, h.serves.role, hm⟩, h.serves.last, hrepr.lastIndex.trans hlen,
    fun k hk hk' => ?_⟩
  rw [hrepr.entry hk', (h.inv.nodes n).body.repr.entry hk]

theorem Chasing.appendOk (h : Chasing D H F cl n p t N l)
    {a : AppendEntriesArgs V} {tag : Tag}
    (hw : cl.Awaits n p l (.appendEntries a) tag) :
    AppendOk H n a ∧ a.term = t ∧ a.prevLogIndex + a.entries.length = N ∧
      ∃ seq, tag = .append t a.prevLogIndex a.entries.length seq := by
  obtain ⟨⟨rs, hrs⟩, hterm, -, hcover, seq, htag⟩ := hw
  obtain ⟨htlog, hlen⟩ := h.tlog
  have hok := h.inv.rpcs ⟨n, cl.epochs n, p, .appendEntries a, tag⟩
    (by rw [hrs]; simp)
  rw [h.serves.term] at hterm htag
  rw [h.serves.last] at hcover
  have hwithin := hok.1.within
  rw [hterm, htlog, hlen] at hwithin
  exact ⟨hok.1, hterm, by omega, seq, htag⟩

/-- An AppendEntries that is accepted is the last message. -/
theorem Chasing.settles_accepted (h : Chasing D H F cl n p t N l)
    {a : AppendEntriesArgs V} {tag : Tag}
    (hw : cl.Awaits n p l (.appendEntries a) tag)
    (hmatch : (cl.nodes p).prevMatches a = true) (clock : ℕ → Instant)
    (s : ℕ) : cl.Settles clock n p N s := by
  obtain ⟨-, hterm, hN, seq, rfl⟩ := h.appendOk hw
  obtain ⟨cl', H', F', l', x, hex, h', ⟨hm, os, ho, hplain⟩, -, hp, hrpcs⟩ :=
    h.exchange hw hterm (show (cl.nodes p).answer (.appendEntries a) =
        some (.appendEntries ⟨t, true⟩) by rw [Node.answer, hmatch, hterm])
      (clock s) (clock (s + 1))
      (handleAppendReply_accepted h.serves hN h.matched_le)
  refine .last hex ⟨rfl, rfl, fun a' ha' _ => ?_⟩ ?_ (h'.caughtUp hm hp)
  · cases ha'
    rw [hterm]
  · rw [hrpcs, ho, List.nil_append, filterMap_sent_plain hplain,
      List.append_nil]

theorem Chasing.install_step (h : Chasing D H F cl n p t N l)
    {a : InstallSnapshotArgs M.Payload} {tag : Tag}
    (hw : cl.Awaits n p l (.installSnapshot a) tag) (now now' : Instant) :
    ∃ r cl' H' F' l', cl.Exchange now now' r cl' ∧ r.Fair n p ∧
      Chasing D H' F' cl' n p t N l' ∧ (cl'.nodes p).currentTerm = t ∧
      l'.matchIndex p = some (max ((l.matchIndex p).getD 0)
        a.snapshot.lastIncludedIndex) ∧
      l'.nextIndex p = some (a.snapshot.lastIncludedIndex + 1) ∧
      (a.snapshot.lastIncludedIndex < N →
        cl'.rpcs.length = cl.rpcs.length + 1 ∧
          ∃ req tag, cl'.Awaits n p l' req tag) ∧
      (N ≤ a.snapshot.lastIncludedIndex → cl'.rpcs = cl.rpcs) := by
  have hreq := hw.2
  rw [Node.Requests, h.serves.term] at hreq
  obtain ⟨hterm, hnext, rfl⟩ := hreq
  obtain ⟨cl', H', F', l', x, hex, h', ⟨hm, hn, hmore, hend⟩, hnode, hp,
    hrpcs⟩ := h.exchange hw hterm
      (show (cl.nodes p).answer (.installSnapshot a) =
        some (.installSnapshot ⟨t⟩) by rw [Node.answer, hterm]) now now'
      (handleInstallSnapshotReply_moves h.serves)
  refine ⟨_, cl', H', F', l', hex, ⟨rfl, rfl, fun a' ha' => by cases ha'⟩, h',
    hp, hm, ?_, fun hlt => (hmore hlt).awaits hnode hrpcs, fun hge => ?_⟩
  · rw [hn]
    cases hq : l.nextIndex p with
    | none => simp
    | some q =>
        rw [hq] at hnext
        simp only [Option.getD_some] at hnext ⊢
        rw [max_eq_right (by omega)]
  · obtain ⟨os, ho, hplain⟩ := hend hge
    rw [hrpcs, ho, List.nil_append, filterMap_sent_plain hplain,
      List.append_nil]

theorem Chasing.boundary_le (h : Chasing D H F cl n p t N l)
    {a : InstallSnapshotArgs M.Payload} {tag : Tag}
    (hw : cl.Awaits n p l (.installSnapshot a) tag) :
    a.snapshot.lastIncludedIndex ≤ N := by
  obtain ⟨⟨rs, hrs⟩, hterm, -⟩ := hw
  obtain ⟨htlog, hlen⟩ := h.tlog
  obtain ⟨⟨P, hP⟩, -⟩ := h.inv.rpcs
    ⟨n, cl.epochs n, p, .installSnapshot a, tag⟩ (by rw [hrs]; simp)
  have hle := hP.log.length_le
  rw [hterm, h.serves.term, htlog, hlen] at hle
  rw [hP.snapshot.index]
  exact hle

/-- After a snapshot comes an AppendEntries that is accepted, or a later
snapshot; none is beyond the end of the log. -/
theorem Chasing.settles_install (clock : ℕ → Instant) (k : ℕ) :
    ∀ {H : Hist V} {F : NodeId → List (LogEntry V)} {cl : Cluster M}
      {l : LeaderState} {a : InstallSnapshotArgs M.Payload} {tag : Tag}
      {s : ℕ}, N - a.snapshot.lastIncludedIndex < k →
      Chasing D H F cl n p t N l →
      cl.Awaits n p l (.installSnapshot a) tag →
      cl.Settles clock n p N s := by
  induction k with
  | zero => exact fun hk => absurd hk (Nat.not_lt_zero _)
  | succ k ih =>
      intro H F cl l a tag s hk h hw
      obtain ⟨r, cl', H', F', l', hex, hr, h', hp, hm, hn, hmore, hend⟩ :=
        h.install_step hw (clock s) (clock (s + 1))
      rcases (h.boundary_le hw).lt_or_eq with hlt | heq
      · obtain ⟨hsent, req, tag', hw'⟩ := hmore hlt
        refine .more hex hr hsent ?_
        cases req with
        | appendEntries a' =>
            obtain ⟨hok, hterm, -⟩ := h'.appendOk hw'
            have hprev := hw'.2.2.1
            rw [hn, Option.getD_some] at hprev
            refine h'.settles_accepted hw' (h'.prevMatches hok hterm ?_) clock _
            refine List.IsPrefix.trans ?_ (h'.confirmed hp hm)
            exact List.take_prefix_take_left (by omega)
        | installSnapshot a' =>
            have hlow := hw'.2.2.1
            rw [hn, Option.getD_some] at hlow
            exact ih (by omega) h' hw'
        | requestVote a' => exact hw'.2.elim
        | preVote a' => exact hw'.2.elim
      · refine .last hex hr (hend heq.ge) (h'.caughtUp ?_ hp)
        rw [hm, heq, max_eq_right h.matched_le]

/-- Refusals end too: each one moves the predecessor down, and nobody refuses
the start of the log. -/
theorem Chasing.settles_append (clock : ℕ → Instant) (k : ℕ) :
    ∀ {H : Hist V} {F : NodeId → List (LogEntry V)} {cl : Cluster M}
      {l : LeaderState} {a : AppendEntriesArgs V} {tag : Tag} {s : ℕ},
      a.prevLogIndex < k → Chasing D H F cl n p t N l →
      cl.Awaits n p l (.appendEntries a) tag →
      cl.Settles clock n p N s := by
  induction k with
  | zero => exact fun hk => absurd hk (Nat.not_lt_zero _)
  | succ k ih =>
      intro H F cl l a tag s hk h hw
      obtain ⟨hok, hterm, hN, seq, rfl⟩ := h.appendOk hw
      by_cases hmatch : (cl.nodes p).prevMatches a = true
      · exact h.settles_accepted hw hmatch clock s
      rw [Bool.not_eq_true] at hmatch
      have hpos : 0 < a.prevLogIndex := by
        by_contra hzero
        rw [h.prevMatches hok hterm (by
          rw [show a.prevLogIndex = 0 by omega]
          exact List.nil_prefix)] at hmatch
        cases hmatch
      obtain ⟨cl', H', F', l', x, hex, h', ⟨hmore, hn⟩, hnode, -, hrpcs⟩ :=
        h.exchange hw hterm (show (cl.nodes p).answer (.appendEntries a) =
            some (.appendEntries ⟨t, false⟩) by
          rw [Node.answer, hmatch, hterm]) (clock s) (clock (s + 1))
          (handleAppendReply_refuses h.serves)
      obtain ⟨hsent, req, tag', hw'⟩ := hmore.awaits hnode hrpcs
      refine .more hex ⟨rfl, rfl, fun a' ha' hzero => ?_⟩ hsent ?_
      · cases ha'
        omega
      · cases req with
        | appendEntries a' =>
            have hprev := hw'.2.2.1
            rw [hn, Option.getD_some] at hprev
            exact ih (by omega) h' hw'
        | installSnapshot a' =>
            exact settles_install clock _ (Nat.lt_succ_self _) h' hw'
        | requestVote a' => exact hw'.2.elim
        | preVote a' => exact hw'.2.elim

end Exchange

theorem Run.chasing (run : Run D M) (T : run.Trace) {i : ℕ} {n p : NodeId}
    (hl : ((run.state i).nodes n).role = .leader l)
    (hn : n ∈ ((run.state i).nodes n).members.keySet)
    (hp : p ∈ ((run.state i).nodes n).members.keySet) (hne : p ≠ n)
    (ht : ((run.state i).nodes p).currentTerm ≤
      ((run.state i).nodes n).currentTerm) :
    Chasing D (T.hist i) (T.log i) (run.state i) n p
      ((run.state i).nodes n).currentTerm
      ((run.state i).nodes n).storage.lastIndex l where
  inv := T.inv i
  serves :=
    { role := hl
      term := rfl
      last := rfl
      member := BTreeMap.containsKey_iff.mpr (by rw [run.id_eq]; exact hn)
      peer := BTreeMap.containsKey_iff.mpr hp
      staying := by
        have hdep := (run.tidy i n .timeout).coherent.departing p
        rw [hl] at hdep
        cases hd : l.departing.get p with
        | none => rfl
        | some d => exact absurd hp (hdep d hd).2.1 }
  ne := hne
  behind := ht
  started := by
    have hrole := ((T.inv i).nodes n).role
    rw [hl] at hrole
    obtain ⟨b, hb, hstart⟩ := hrole.start
    have := (run.started i n l hl).2
    exact ⟨b, hb, by omega⟩

/-- Catching up ends. Whenever a leader that is a member of its configuration
sends another member, not ahead of it in terms, what it is missing, and each
message and answer is delivered in turn, the exchanges come to an end; the
leader's match index is then the end of its log, the peer's log ends there as
well, and the two agree wherever both are retained. Nobody else is involved,
and no AppendEntries from the start of the log is refused. -/
theorem catch_up (run : Run D M) (i : ℕ) {n p : NodeId}
    (hl : ((run.state i).nodes n).isLeader = true)
    (hn : n ∈ ((run.state i).nodes n).members.keySet)
    (hp : p ∈ ((run.state i).nodes n).members.keySet) (hne : p ≠ n)
    (ht : ((run.state i).nodes p).currentTerm ≤
      ((run.state i).nodes n).currentTerm) (clock : ℕ → Instant) :
    ∃ c₁ eff rs c', (run.state i).exec n (Cluster.silently (sendAppend p)) =
        .ok (c₁, eff) ∧
      c₁.rpcs.length = (run.state i).rpcs.length + 1 ∧
      c₁.Exchanges clock 0 rs c' ∧
      c'.CaughtUp n p ((run.state i).nodes n).storage.lastIndex ∧
      ∀ r ∈ rs, r.Fair n p := by
  obtain ⟨T⟩ := run.exists_trace
  obtain ⟨l, hl⟩ := Node.isLeader_iff.mp hl
  have h := run.chasing T hl hn hp hne ht
  obtain ⟨c₁, eff, H₁, F₁, heq, hadv⟩ := h.inv.silently (wp_mono
    (sendAppend_spec (h.inv.start n .acting) rfl p)
    fun _ _ hx => ⟨_, _, hx.1⟩)
  obtain ⟨answers, x, ⟨req, tag, rfl, hreq⟩, hnodes, hepochs, hrpcs, -⟩ :=
    Cluster.exec_outcome (Q := fun _ c' => ∃ req tag,
      c' = ⟨_, [] ++ [.send p req tag]⟩ ∧ Node.Requests _ l p req tag) heq
      (by
        simp only [Cluster.silently, wlp_bind, wlp_pure]
        exact sendAppend_requests h.serves)
  rw [Function.update_eq_self] at hnodes
  have h₁ := h.advance hadv (by rw [hnodes]; exact h.serves)
    (by rw [hnodes]; exact ht)
  have hw : c₁.Awaits n p l req tag :=
    ⟨⟨_, by rw [hrpcs, hepochs]; rfl⟩, by rw [hnodes]; exact hreq⟩
  obtain ⟨rs, c', hex, hend, hfair⟩ :
      c₁.Settles clock n p ((run.state i).nodes n).storage.lastIndex 0 := by
    cases req with
    | appendEntries a =>
        exact Chasing.settles_append clock _ (Nat.lt_succ_self _) h₁ hw
    | installSnapshot a =>
        exact Chasing.settles_install clock _ (Nat.lt_succ_self _) h₁ hw
    | requestVote a => exact hreq.elim
    | preVote a => exact hreq.elim
  have hsent : c₁.rpcs.length = (run.state i).rpcs.length + 1 := by
    rw [hrpcs, List.length_append]
    rfl
  exact ⟨c₁, eff, rs, c', heq, hsent, hex, hend, hfair⟩

/-- Node 3, which has not heard of the leader yet, is brought up to date. -/
theorem catch_up_overtaken :
    ((overtakenRun.state 7).nodes 3).storage.lastIndex = 0 ∧
      ∃ c₁ eff rs c',
        (overtakenRun.state 7).exec 1 (Cluster.silently (sendAppend 3)) =
          .ok (c₁, eff) ∧
        c₁.rpcs.length = (overtakenRun.state 7).rpcs.length + 1 ∧
        c₁.Exchanges (fun _ => 5) 0 rs c' ∧ c'.CaughtUp 1 3 2 ∧
        ∀ r ∈ rs, r.Fair 1 3 := by
  have hlast : ((overtakenRun.state 7).nodes 1).storage.lastIndex = 2 := by
    decide +kernel
  have h := catch_up overtakenRun 7 (n := 1) (p := 3) (by decide +kernel)
    (by decide +kernel) (by decide +kernel) (by decide) (by decide +kernel)
    fun _ => 5
  rw [hlast] at h
  exact ⟨by decide +kernel, h⟩

end RustKV
