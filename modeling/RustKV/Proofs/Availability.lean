import RustKV.Proofs.Current
import RustKV.Proofs.Elections
import RustKV.Proofs.Provenance

/-!
# A majority stays available

No state of the cluster is a dead end. Whatever has happened, crashes, lost
messages, half-finished elections and reconfigurations, the nodes of a set that
is a majority in the eyes of each of them can go on without anybody else: they
elect a leader (`Proofs/Elections.lean`), which accepts a proposal, brings the
others up to date one after the other, commits, applies the command and tells
its client so.

Catching up one peer is the chain of `Proofs/CatchUp.lean`, here among other
messages. That the leader commits once it knows of a majority is
`Run.committed_of_held`.
-/

namespace RustKV

open Rust Prog NodeM Consensus History

variable {V : Type} {M : StateMachine V} {D : Deployment}
  {cl cl₁ cl' : Cluster M} {Q S : Finset NodeId} {now : Instant}
  {n p : NodeId} {x y : Node M} {c c' : Ctx M} {l l₁ l' : LeaderState}
  {t N : ℕ} {cause : Cause M} {os : List (Output M)}

/-! ## Catching up among others -/

theorem Acts.match_le (h : Acts now cause x y os) (hl : x.role = .leader l)
    (hl' : y.role = .leader l') (ht : y.currentTerm = x.currentTerm)
    (q : NodeId) : (l.matchIndex q).getD 0 ≤ (l'.matchIndex q).getD 0 := by
  refine h.leadership (P := fun _ l' => (l.matchIndex q).getD 0 ≤
    (l'.matchIndex q).getD 0) hl hl' ht le_rfl
    fun y z l₁ l₂ os os' _ hm hl₁ hl₂ ih => ?_
  cases hm.tracked hl₂ with
  | kept hl _ _ htracks =>
      cases hl₁.symm.trans hl
      exact ih.trans (htracks.match_le q)
  | won hr =>
      rw [hl₁] at hr
      cases hr

/-- A message of the leader of `t` that reaches its log up to `N`, or a
snapshot. -/
def RpcRequest.Reaches {P : Type} (t N : ℕ) : RpcRequest V P → Prop
  | .appendEntries a => a.term = t ∧ N ≤ a.prevLogIndex + a.entries.length
  | .installSnapshot a => a.term = t
  | _ => False

/-- `n` leads term `t`, its log ends at `N`, and `p` is a member that is not
ahead of it. -/
structure Cluster.Pursues (D : Deployment) (cl : Cluster M) (n p : NodeId)
    (t N : ℕ) (l : LeaderState) : Prop where
  reached : cl.Reached D
  serves : (cl.nodes n).Serves p t N l
  ne : p ≠ n
  behind : (cl.nodes p).currentTerm ≤ t

/-- What an exchange between `n` and `p` leaves to the others. -/
structure Cluster.Framed (cl : Cluster M) (n p : NodeId) (l : LeaderState)
    (cl' : Cluster M) (l' : LeaderState) : Prop where
  others : ∀ m, m ≠ p → m ≠ n → cl'.nodes m = cl.nodes m
  members : (cl'.nodes n).members = (cl.nodes n).members
  kept : ∀ m q req tag, cl.Posted m q req tag → cl'.Posted m q req tag
  matched : ∀ q, (l.matchIndex q).getD 0 ≤ (l'.matchIndex q).getD 0

theorem Cluster.Framed.trans (h : cl.Framed n p l cl₁ l₁)
    (h' : cl₁.Framed n p l₁ cl' l') : cl.Framed n p l cl' l' where
  others m hp hn := (h'.others m hp hn).trans (h.others m hp hn)
  members := h'.members.trans h.members
  kept m q req tag hm := h'.kept m q req tag (h.kept m q req tag hm)
  matched q := (h.matched q).trans (h'.matched q)

namespace Cluster.Pursues

variable {req : RpcRequest V M.Payload} {tag : Tag}

theorem chasing (h : cl.Pursues D n p t N l) :
    ∃ H F, Chasing D H F cl n p t N l := by
  obtain ⟨⟨run, i, rfl⟩, hs, hne, hle⟩ := h
  obtain ⟨T⟩ := run.exists_trace
  have hmem := BTreeMap.containsKey_iff.mp hs.member
  rw [run.id_eq] at hmem
  have hchase := run.chasing T hs.role hmem
    (BTreeMap.containsKey_iff.mp hs.peer) hne (by rwa [hs.term])
  rw [hs.term, hs.last] at hchase
  exact ⟨_, _, hchase⟩

theorem exchange (h : cl.Pursues D n p t N l) (now : Instant)
    (hn : n ∈ Q) (hp : p ∈ Q) (hposted : cl.Posted n p req tag)
    (ht : req.Replicates t)
    {response : RpcResponse}
    (hans : (cl.nodes p).answer req = some response)
    {R : LeaderState → Ctx M → Prop}
    (hb : wlp (handleEvent now (tag.event p (.ok response)))
      (fun _ c' => ∃ l', c'.node.Serves p t N l' ∧ R l' c')
      ⟨cl.nodes n, []⟩) :
    ∃ cl' l' y, cl.Path Q now cl' ∧ cl'.Pursues D n p t N l' ∧
      cl.Framed n p l cl' l' ∧ (cl'.nodes p).currentTerm = t ∧
      cl'.nodes n = y.node ∧ (∀ req tag, .send p req tag ∈ y.out →
        cl'.Posted n p req tag) ∧ R l' y := by
  obtain ⟨cl', -, y, z, hpath, hex, ⟨-, hterm⟩, ⟨l', hs, hR⟩, os, -, hacts⟩ :=
    h.reached.exchange now hposted h.ne hp hn
      (P := fun r y => r = response ∧ y.node.currentTerm = t)
      (wlp_mono (handleInbound_answers ht h.behind) fun r y hy =>
        ⟨Option.some.inj (hy.2.symm.trans hans), hy.1.obeys.term⟩)
      (R := fun r z => (∃ l', z.node.Serves p t N l' ∧ R l' z) ∧
        Performs now (.reply (tag.event p (.ok response)))
          ⟨cl.nodes n, []⟩ z) (by
        rintro _ _ ⟨rfl, -⟩
        exact wlp_and hb (handleEvent_acts now _ _))
  refine ⟨cl', l', z, hpath, ⟨h.reached.path hpath, ?_, h.ne, ?_⟩, ⟨hex.others,
    ?_, hex.kept, hacts.match_le h.serves.role hs.role ?_⟩, ?_, hex.node,
    fun req tag => hex.posted p req tag, hR⟩
  · rw [hex.node]
    exact hs
  · rw [hex.peer, hterm]
  · rw [hex.node]
    rcases hacts.moves.members_of_leader hs.role with hm | ⟨_, hm, -⟩
    · exact hm
    · cases hm
  · rw [hs.term]
    exact h.serves.term.symm
  · rw [hex.peer, hterm]

/-- From here the leader gets to know that `p` holds its whole log. -/
def Ends (D : Deployment) (Q : Finset NodeId) (now : Instant)
    (cl : Cluster M) (n p : NodeId) (t N : ℕ) (l : LeaderState) : Prop :=
  ∃ cl' l', cl.Path Q now cl' ∧ cl'.Pursues D n p t N l' ∧
    cl.Framed n p l cl' l' ∧ l'.matchIndex p = some N

theorem Ends.after (hpath : cl.Path Q now cl₁)
    (hframe : cl.Framed n p l cl₁ l₁) (h : Ends D Q now cl₁ n p t N l₁) :
    Ends D Q now cl n p t N l := by
  obtain ⟨cl', l', hpath', hp, hframe', hm⟩ := h
  exact ⟨cl', l', hpath.trans hpath', hp, hframe.trans hframe', hm⟩

theorem appendOk (h : cl.Pursues D n p t N l) {a : AppendEntriesArgs V}
    (hposted : cl.Posted n p (.appendEntries a) tag) (ht : a.term = t)
    (hN : N ≤ a.prevLogIndex + a.entries.length) :
    ∃ H F seq, Chasing D H F cl n p t N l ∧ AppendOk H n a ∧
      a.prevLogIndex + a.entries.length = N ∧
      tag = .append t a.prevLogIndex a.entries.length seq := by
  obtain ⟨H, F, hchase⟩ := h.chasing
  obtain ⟨hok, seq, htag, -⟩ := hchase.inv.rpcs _ hposted
  obtain ⟨htlog, hlen⟩ := hchase.tlog
  have hwithin := hok.within
  rw [ht, htlog, hlen] at hwithin
  rw [ht] at htag
  exact ⟨H, F, seq, hchase, hok, by omega, htag⟩

theorem installOk (h : cl.Pursues D n p t N l)
    {a : InstallSnapshotArgs M.Payload}
    (hposted : cl.Posted n p (.installSnapshot a) tag) (ht : a.term = t) :
    a.snapshot.lastIncludedIndex ≤ N ∧
      tag = .installSnapshot t a.snapshot.lastIncludedIndex := by
  obtain ⟨H, F, hchase⟩ := h.chasing
  obtain ⟨⟨P, hP⟩, htag⟩ := hchase.inv.rpcs _ hposted
  obtain ⟨htlog, hlen⟩ := hchase.tlog
  have hle := hP.log.length_le
  rw [ht, htlog, hlen] at hle
  rw [ht] at htag
  exact ⟨by rw [hP.snapshot.index]; exact hle, htag⟩

theorem install_step (h : cl.Pursues D n p t N l) (now : Instant)
    (hn : n ∈ Q) (hp : p ∈ Q)
    {a : InstallSnapshotArgs M.Payload}
    (hposted : cl.Posted n p (.installSnapshot a) tag) (ht : a.term = t) :
    ∃ cl' l', cl.Path Q now cl' ∧ cl'.Pursues D n p t N l' ∧
      cl.Framed n p l cl' l' ∧ (cl'.nodes p).currentTerm = t ∧
      l'.matchIndex p = some (max ((l.matchIndex p).getD 0)
        a.snapshot.lastIncludedIndex) ∧
      l'.nextIndex p = some (max ((l.nextIndex p).getD 1)
        (a.snapshot.lastIncludedIndex + 1)) ∧
      (a.snapshot.lastIncludedIndex < N → ∃ req tag,
        cl'.Posted n p req tag ∧ (cl'.nodes n).Requests l' p req tag) := by
  obtain ⟨-, rfl⟩ := h.installOk hposted ht
  obtain ⟨cl', l', y, hpath, hp', hframe, hterm, hnode, hsent, hm, hnext,
    hmore, -⟩ := h.exchange now hn hp hposted ht
      (show (cl.nodes p).answer (.installSnapshot a) =
        some (.installSnapshot ⟨t⟩) by rw [Node.answer, ht])
      (handleInstallSnapshotReply_moves h.serves)
  refine ⟨cl', l', hpath, hp', hframe, hterm, hm, hnext, fun hlt => ?_⟩
  obtain ⟨req, tag, os, os', hout, -, hreq⟩ := hmore hlt
  refine ⟨req, tag, hsent req tag ?_, by rw [hnode]; exact hreq⟩
  rw [hout]
  simp

end Cluster.Pursues

/-! ## All of them -/

/-- `n` leads term `t` with a log that ends at `N`; `Q` is a majority of its
configuration, and nobody in it is ahead. -/
structure Cluster.Rules (D : Deployment) (Q : Finset NodeId) (cl : Cluster M)
    (n : NodeId) (t N : ℕ) (l : LeaderState) : Prop where
  reached : cl.Reached D
  mem : n ∈ Q
  role : (cl.nodes n).role = .leader l
  term : (cl.nodes n).currentTerm = t
  last : (cl.nodes n).storage.lastIndex = N
  quorum : IsMajority Q (cl.nodes n).members.keySet
  behind : ∀ p ∈ Q, (cl.nodes p).currentTerm ≤ t

namespace Cluster.Rules

theorem serves (h : cl.Rules D Q n t N l)
    (hp : p ∈ (cl.nodes n).members.keySet) :
    (cl.nodes n).Serves p t N l where
  role := h.role
  term := h.term
  last := h.last
  member := BTreeMap.containsKey_iff.mpr (by
    rw [h.reached.id]
    exact h.quorum.1 h.mem)
  peer := BTreeMap.containsKey_iff.mpr hp
  staying := by
    obtain ⟨run, i, rfl⟩ := h.reached
    have hdep := (run.tidy i n .timeout).coherent.departing p
    rw [h.role] at hdep
    cases hd : l.departing.get p with
    | none => rfl
    | some d => exact absurd hp (hdep d hd).2.1

end Cluster.Rules

/-! ## The proposal -/

theorem sendAppends_requests (peers : List NodeId) (c : Ctx M) :
    wlp (sendAppends peers) (fun _ c' => c'.node = c.node ∧
      (∀ o ∈ c.out, o ∈ c'.out) ∧ ∀ p ∈ peers, c.node.Serves p t N l →
        ∃ req tag, .send p req tag ∈ c'.out ∧ req.Reaches t N) c := by
  induction peers generalizing c with
  | nil =>
      exact wlp_pure.mpr ⟨rfl, fun _ ho => ho, fun p hp => by cases hp⟩
  | cons q rest ih =>
      simp only [sendAppends, wlp_bind]
      have hfirst : wlp (sendAppend q) (fun _ c₁ => c.node.Serves q t N l →
          ∃ req tag, .send q req tag ∈ c₁.out ∧ req.Reaches t N) c := by
        intro _ c₁ hrun hs
        obtain ⟨req, tag, rfl, hreq⟩ := sendAppend_requests hs _ _ hrun
        refine ⟨req, tag, by simp, ?_⟩
        cases req with
        | appendEntries a =>
            exact ⟨hreq.1.trans hs.term, hs.last ▸ hreq.2.2.1⟩
        | installSnapshot a => exact hreq.1.trans hs.term
        | requestVote a => exact hreq.elim
        | preVote a => exact hreq.elim
      refine wlp_mono (wlp_and (sendAppend_acts 0 (.heartbeat : Cause M) q c)
        hfirst) fun _ c₁ h₁ => wlp_mono (ih c₁) fun _ c₂ h₂ => ?_
      obtain ⟨⟨⟨os, hout, -⟩, hnode⟩, hq⟩ := h₁
      obtain ⟨hnode', hkeep, hrest⟩ := h₂
      refine ⟨hnode'.trans hnode, fun o ho => hkeep o ?_, fun p hp hs => ?_⟩
      · rw [hout]
        exact List.mem_append_left _ ho
      · rcases List.mem_cons.mp hp with rfl | hp
        · obtain ⟨req, tag, hsend, hreach⟩ := hq hs
          exact ⟨req, tag, hkeep _ hsend, hreach⟩
        · exact hrest p hp (hnode ▸ hs)

/-- A leader that is a member accepts a command, goes on leading, and has a
message for every peer. -/
theorem handlePropose_accepts {cmd : Command V}
    (hcmd : ∀ m, cmd ≠ .configChange m)
    (hs : ∀ p ∈ c.node.members.keySet, c.node.Serves p t N l)
    (hid : c.node.config.id ∈ c.node.members.keySet) :
    wlp (handlePropose now cmd) (fun _ c' =>
      c'.node.isLeader = true ∧ c'.node.currentTerm = t ∧
      c'.node.storage.lastIndex = N + 1 ∧
      c'.node.members = c.node.members ∧
      .proposeReply (.ok (t, N + 1)) ∈ c'.out ∧
      ∀ p ∈ c.node.peerIds, ∃ req tag, .send p req tag ∈ c'.out ∧
        req.Reaches t (N + 1)) c := by
  have hself := hs _ hid
  have hvalid : c.node.validateCommand l now cmd = .ok () := by
    cases cmd with
    | configChange m => exact absurd rfl (hcmd m)
    | _ => rfl
  have hadopt : ∀ i, adoptCommand now i cmd = (pure () : NodeM M Unit) := by
    intro i
    cases cmd with
    | configChange m => exact absurd rfl (hcmd m)
    | _ => rfl
  simp only [handlePropose, wlp_bind, wlp_node]
  rw [hself.role]
  simp only [hvalid, hadopt, hself.last, wlp_bind, wlp_expect, wlp_update,
    wlp_pure, wlp_emit]
  intro S hS
  have hlast : S.lastIndex = N + 1 := by
    rw [Storage.lastIndex_append hS, hself.last]
    rfl
  have hserves : ∀ p ∈ c.node.members.keySet, ({ c.node with
      storage := S
      pending := c.node.pending ++ [⟨c.node.currentTerm, N + 1⟩] } :
        Node M).Serves p t (N + 1) l := fun p hp =>
    ⟨hself.role, (congrArg HardState.currentTerm
      (Storage.append_hardState hS)).trans hself.term, hlast, hself.member,
      (hs p hp).peer, (hs p hp).staying⟩
  refine wlp_mono (maybeAdvanceCommit_keeps (c := ⟨_, _⟩)
    (hserves _ hid)) fun _ c₁ h₁ => ?_
  obtain ⟨os, ho, -⟩ := h₁.calm.2
  have hmem : c₁.node.members = c.node.members := h₁.calm.1.members
  have hconf : c₁.node.config = c.node.config := h₁.calm.1.config
  obtain ⟨rs, hs₁⟩ := h₁.serves (c := ⟨_, _⟩) (hserves _ hid)
  refine wlp_node.mpr (wlp_mono (sendAppends_requests (t := t) (N := N + 1)
    (l := { l with pendingReads := rs }) _ c₁) fun _ c₂ h₂ => ?_)
  obtain ⟨hnode, hkeep, hsent⟩ := h₂
  rw [hnode]
  refine ⟨Node.isLeader_iff.mpr ⟨_, hs₁.role⟩, hs₁.term, hs₁.last, hmem,
    hkeep _ ?_, fun p hp => hsent p ?_ ?_⟩
  · rw [ho, hself.term]
    simp
  · rw [Node.replicationTargets, hs₁.role]
    refine List.mem_append_left _ ?_
    rwa [Node.peerIds, hmem, hconf, ← Node.peerIds]
  · have hp := (Node.mem_peerIds.mp hp).1
    have hsp := hserves p hp
    exact ⟨hs₁.role, hs₁.term, hs₁.last, hs₁.member,
      hmem ▸ hsp.peer, hsp.staying⟩

/-! ## The acknowledgement -/

theorem Acts.not_dropped {i : ℕ} (h : Acts now cause x y os)
    (hl : y.isLeader = true) : Output.dropped t i ∉ os := by
  intro ho
  obtain ⟨x₁, y₁, os₁, os', os₂, -, hm, ⟨z, hz, -⟩, ho', h₂, -⟩ := h.split ho
  have htold : Output.dropped t i ∈ os'.filter Output.tells :=
    List.mem_filter.mpr ⟨ho', rfl⟩
  obtain ⟨hc, hr⟩ : (∃ req, cause = .inbound req) ∧ x₁.role = .follower := by
    generalize os'.filter Output.tells = told at hz htold
    cases hz with
    | install snap hc hr =>
        obtain ⟨a, rfl, -⟩ := hc
        exact ⟨⟨_, rfl⟩, hr⟩
    | nothing => cases htold
    | append => cases htold
    | propose => simp at htold
    | cut =>
        obtain ⟨_, _, heq⟩ := Node.of_mem_verdicts htold
        cases heq
    | commit k es =>
        rcases List.mem_append.mp htold with hin | hin
        · obtain ⟨_, -, heq⟩ := List.mem_map.mp hin
          cases heq
        · obtain ⟨_, _, heq⟩ := Node.of_mem_verdicts hin
          cases heq
    | ship => simp at htold
  have hend : y.role = .follower := h₂.keeps (I := fun x => x.role = .follower)
    (fun _ _ _ hm _ hx => hm.follower hc hx) (hm.follower hc hr)
  rw [isLeader_of_follower hend] at hl
  cases hl

/-- Whoever waits at a leader that stays one goes on waiting, or is told that
its proposal is committed. -/
theorem Run.Trace.answered_true {run : Run D M} (T : run.Trace) {j i : ℕ}
    (hn : (run.effect j).node = n) (hl : run.Leads j n t)
    (hl' : run.Leads (j + 1) n t)
    (hp : ⟨t, i⟩ ∈ ((run.state j).nodes n).pending ∨
      Output.proposeReply (.ok (t, i)) ∈ (run.effect j).outputs) :
    ⟨t, i⟩ ∈ ((run.state (j + 1)).nodes n).pending ∨
      Output.committed t i true ∈ (run.effect j).outputs := by
  subst hn
  by_contra hno
  obtain ⟨hgone, hsaid⟩ := not_or.mp hno
  have hbal := run.balance_step (t := t) (i := i) j
  have hzero : ((run.state (j + 1)).nodes
      (run.effect j).node).waiting t i = 0 := List.count_eq_zero.mpr hgone
  have hpos : 0 < RustKV.answered t i (run.effect j).outputs := by
    rw [Balance, hzero] at hbal
    rcases hp with hp | ho
    · have : 0 < ((run.state j).nodes (run.effect j).node).waiting t i :=
        List.count_pos_iff.mpr hp
      omega
    · have : 0 < RustKV.promised t i (run.effect j).outputs :=
        List.countP_pos_iff.mpr ⟨_, ho, decide_eq_true rfl⟩
      omega
  obtain ⟨o, ho, hans⟩ := List.countP_pos_iff.mp hpos
  cases o with
  | committed t' i' v =>
      obtain ⟨rfl, rfl⟩ := of_decide_eq_true hans
      cases v with
      | true => exact hsaid ho
      | false =>
          -- a leader's log has lost nothing
          obtain ⟨_, htr, -⟩ := (T.advance j).here
          obtain ⟨-, hpend, hlost⟩ := htr.out _ ho
          obtain ⟨-, hterm⟩ := T.waiting hpend
          apply hlost
          rw [termAt_isPrefix (T.log_isPrefix (Nat.le_succ j) hl hl')
            (le_length_of_termAt hterm)]
          exact hterm
  | dropped t' i' =>
      obtain ⟨rfl, rfl⟩ := of_decide_eq_true hans
      cases run.acted j with
      | idle _ hout =>
          rw [hout] at ho
          cases ho
      | restart h =>
          have hlead := hl'.1
          rw [isLeader_of_follower (Node.role_of_spawn h.node)] at hlead
          cases hlead
      | turn now cause _ ha => exact ha.not_dropped hl'.1 ho
  | _ => cases hans

/-- A promise of a leader that goes on leading until it has committed that far
is kept. -/
theorem Run.acknowledged (run : Run D M) {i k : ℕ} (hik : i < k)
    (hn : (run.effect i).node = n)
    (ho : Output.proposeReply (.ok (t, N)) ∈ (run.effect i).outputs)
    (hl : run.Leads k n t)
    (hc : N ≤ ((run.state k).nodes n).commitIndex) :
    ∃ j, i ≤ j ∧ j < k ∧ (run.effect j).node = n ∧
      Output.committed t N true ∈ (run.effect j).outputs := by
  obtain ⟨T⟩ := run.exists_trace
  have hfirst := run.promise_leads ho
  rw [hn] at hfirst
  have hleads : ∀ m, i ≤ m → m ≤ k → run.Leads m n t := fun m him hmk =>
    T.leads_between hfirst him hmk hl
  by_contra hnone
  have hwaits : ∀ m, i < m → m ≤ k →
      ⟨t, N⟩ ∈ ((run.state m).nodes n).pending := by
    intro m him
    induction m, him using Nat.le_induction with
    | base =>
        intro hmk
        refine (T.answered_true hn (hleads i le_rfl hik.le)
          (hleads (i + 1) (Nat.le_succ i) hmk) (.inr ho)).resolve_right
          fun hsaid => hnone ⟨i, le_rfl, hik, hn, hsaid⟩
    | succ m him ih =>
        intro hmk
        have hpend := ih (Nat.le_of_succ_le hmk)
        by_cases hm : (run.effect m).node = n
        · refine (T.answered_true hm
            (hleads m (Nat.le_of_succ_le him) (Nat.le_of_succ_le hmk))
            (hleads (m + 1) (Nat.le_succ_of_le (Nat.le_of_succ_le him)) hmk)
            (.inl hpend)).resolve_right fun hsaid => hnone
              ⟨m, Nat.le_of_succ_le him, hmk, hm, hsaid⟩
        · rw [((T.advance m).others n (Ne.symm hm)).1]
          exact hpend
  have hlt := ((run.orderly k n).waiting _ (hwaits k hik le_rfl)).1
  exact absurd hc (Nat.not_le_of_lt hlt)

/-! ## The majority -/

/-- A leader of `Q` accepts a command, goes on leading, and has a message for
every other node of `Q`. -/
theorem Cluster.Rules.accepts (h : cl.Rules D Q n t N l) {cmd : Command V}
    (hcmd : ∀ m, cmd ≠ .configChange m) (now : Instant) :
    ∃ cl' l' out, cl.step (.propose n cmd now) = some (.ok (cl', ⟨n, out⟩)) ∧
      .proposeReply (.ok (t, N + 1)) ∈ out ∧ cl'.Rules D Q n t (N + 1) l' ∧
      ∀ p ∈ Q, p ≠ n → ∃ req tag, cl'.Posted n p req tag ∧
        req.Reaches t (N + 1) := by
  have hid : (cl.nodes n).config.id ∈ (cl.nodes n).members.keySet := by
    rw [h.reached.id]
    exact h.quorum.1 h.mem
  obtain ⟨cl', y, hstep, htook, hlead, hterm, hlast, hmem, hreply, hsent⟩ :=
    h.reached.silently (a := .propose n cmd now) rfl
      (handlePropose_accepts hcmd (fun p hp => h.serves hp) hid)
  obtain ⟨l', hl'⟩ := Node.isLeader_iff.mp hlead
  refine ⟨cl', l', y.out, hstep, hreply, ?_, fun p hp hpn => ?_⟩
  · exact {
      reached := h.reached.step hstep
      mem := h.mem
      role := htook.node.symm ▸ hl'
      term := htook.node.symm ▸ hterm
      last := htook.node.symm ▸ hlast
      quorum := by
        rw [htook.node, hmem]
        exact h.quorum
      behind := fun p hp => by
        by_cases hpn : p = n
        · rw [hpn, htook.node, hterm]
        · rw [htook.others hpn]
          exact h.behind p hp }
  · obtain ⟨req, tag, hsend, hreach⟩ := hsent p (Node.mem_peerIds.mpr
      ⟨h.quorum.1 hp, by rw [h.reached.id]; exact hpn⟩)
    exact ⟨req, tag, htook.posted hsend, hreach⟩

end RustKV
