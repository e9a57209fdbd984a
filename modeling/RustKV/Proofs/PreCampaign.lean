import RustKV.Proofs.Coherence

/-!
# Which grants a pre-campaign counts

A pre-campaign is a probe: nothing is persisted, and the term does not move.
That is also what a reply is matched by, so a grant is counted if it is for
one term beyond the current one, whichever pre-campaign asked for it. Two
pre-campaigns of one term look the same, even if the node has heard from a
leader in between.

Messages are told apart here by their number. `SentBy` says which step sent an
RPC and `AnswerTo` which RPC a reply answers, since two probes may be equal
to the letter. With that it can be said which grants belong to the
pre-campaign a node is in (`Granted`), and what it takes for no other to be
counted: that none arrives (`StaleGrant`).
-/

namespace RustKV

open Rust Prog NodeM Consensus

variable {V : Type} {M : StateMachine V} {D : Deployment} {run : Run D M}
  {now : Instant} {cause : Cause M} {x y z : Node M} {os : List (Output M)}

/-! ## Votes along an event -/

def Role.preVotes : Role → Option (Finset NodeId)
  | .preCandidate votes => some votes
  | _ => none

theorem Role.preVotes_eq_some {r : Role} {votes : Finset NodeId} :
    r.preVotes = some votes ↔ r = .preCandidate votes := by
  cases r with
  | preCandidate v =>
      constructor
      · intro h
        rw [Option.some.inj h]
      · intro h
        cases h
        rfl
  | follower => exact ⟨fun h => (by cases h), fun h => (by cases h)⟩
  | candidate v => exact ⟨fun h => (by cases h), fun h => (by cases h)⟩
  | leader l => exact ⟨fun h => (by cases h), fun h => (by cases h)⟩

def Cause.Grants (t : Nat) (v : NodeId) (cause : Cause M) : Prop :=
  ∃ reply, cause = .reply (.preVoteReply (t + 1) v (.ok (.preVote reply))) ∧
    reply.voteGranted = true

/-- Where the votes of a pre-campaign come from. The configuration they are
counted in stays the same. -/
inductive Polled (cause : Cause M) (x y : Node M) (votes : Finset NodeId) :
    Prop
  | fresh (hm : y.members = x.members) (hc : cause = .timeout)
      (hv : ∀ v ∈ votes, v = x.config.id)
  | kept {old : Finset NodeId} (hm : y.members = x.members)
      (hr : x.role = .preCandidate old) (ht : y.currentTerm = x.currentTerm)
      (hv : ∀ v ∈ votes, v ∈ old ∨ cause.Grants x.currentTerm v)

theorem Polled.members {votes : Finset NodeId} (h : Polled cause x y votes) :
    y.members = x.members := by
  cases h with
  | fresh hm => exact hm
  | kept hm => exact hm

theorem Move.polled {votes : Finset NodeId} (h : Move now cause x y os)
    (hr : y.role = .preCandidate votes) : Polled cause x y votes := by
  have hsame : y.members = x.members → x.role = .preCandidate votes →
      y.currentTerm = x.currentTerm → Polled cause x y votes :=
    fun hm hx ht => .kept hm hx ht fun v hv => .inl hv
  cases h with
  | quiet h =>
      have hrole : x.role = y.role := h.role_eq fun l hl => by
        rw [hr] at hl
        cases hl
      exact hsame h.members (hrole.trans hr) h.currentTerm
  | contact => exact hsame rfl hr rfl
  | grant => exact hsame rfl hr rfl
  | ship => exact hsame rfl hr rfl
  | accept cmd _ hl =>
      cases cmd with
      | configChange m => cases hr
      | _ =>
          rw [show x.role = .preCandidate votes from hr] at hl
          cases hl
  | preCampaign hc =>
      cases hr
      exact .fresh rfl hc fun v hv => Finset.mem_singleton.mp hv
  | @preVoted old peer reply hc hg hx =>
      cases hr
      refine .kept rfl hx rfl fun v hv => ?_
      rcases Finset.mem_insert.mp hv with rfl | hv
      · exact .inr ⟨reply, hc, hg⟩
      · exact .inl hv
  | _ => cases hr

theorem Moves.members_of_timeout (h : Moves now .timeout x y os) :
    y.members = x.members := by
  rcases h.members with ⟨⟨req, hreq⟩, -⟩ | hsame | ⟨m, hm, -⟩
  · cases hreq
  · exact hsame
  · cases hm

theorem Moves.polled {votes : Finset NodeId} (h : Moves now cause x z os)
    (hr : z.role = .preCandidate votes) : Polled cause x z votes := by
  induction h generalizing votes with
  | refl => exact .kept rfl hr rfl fun v hv => .inl hv
  | @step y z os os' h hm ih =>
      cases hm.polled hr with
      | fresh hmem hc hv =>
          subst hc
          exact .fresh (hmem.trans h.members_of_timeout) rfl
            fun v hin => h.config ▸ hv v hin
      | kept hmem hy ht hv =>
          cases ih hy with
          | fresh hmem' hc hold =>
              refine .fresh (hmem.trans hmem') hc fun v hin => ?_
              rcases hv v hin with hin | ⟨reply, hc', -⟩
              · exact hold v hin
              · rw [hc] at hc'
                cases hc'
          | kept hmem' hx ht' hold =>
              refine .kept (hmem.trans hmem') hx (ht.trans ht')
                fun v hin => ?_
              rcases hv v hin with hin | hg
              · exact hold v hin
              · exact .inr (ht' ▸ hg)

theorem Moves.elected (h : Moves now cause x z os)
    (hz : z.isLeader = true ∨ ∃ votes, z.role = .candidate votes)
    (ht : x.currentTerm < z.currentTerm) :
    ∃ y os₁ votes, Moves now cause x y os₁ ∧ cause.Campaigns ∧
      y.role = .preCandidate votes ∧
      y.majority ≤ y.countMemberVotes votes := by
  induction h with
  | refl => exact absurd ht (Nat.lt_irrefl _)
  | @step y z os os' h hm ih =>
      -- it stood for it already, or this move is the campaign
      have hold : (y.isLeader = true ∨ ∃ votes, y.role = .candidate votes) →
          y.currentTerm = z.currentTerm → ∃ y os₁ votes,
            Moves now cause x y os₁ ∧ cause.Campaigns ∧
            y.role = .preCandidate votes ∧
            y.majority ≤ y.countMemberVotes votes :=
        fun hy hterm => ih hy (hterm ▸ ht)
      rcases hz with hz | ⟨votes, hz⟩
      · obtain ⟨l, hl⟩ := Node.isLeader_iff.mp hz
        cases hm.promoted hl with
        | kept hl' hterm _ =>
            exact hold (.inl (Node.isLeader_iff.mpr ⟨_, hl'⟩)) hterm.symm
        | won hr _ hterm => exact hold (.inr ⟨_, hr⟩) hterm.symm
      · rcases hm.candidate hz with ⟨v, hy, hterm⟩ | ⟨-, hc, v, hy, hv⟩
        · exact hold (.inr ⟨v, hy⟩) hterm.symm
        · exact ⟨y, os, v, h, hc, hy, hv⟩

theorem onElectionTimeout_polls (c : Ctx M)
    (hm : c.node.config.id ∈ c.node.members.keySet) :
    wlp (onElectionTimeout now) (fun _ c' => ∀ votes,
      c'.node.role = .preCandidate votes →
        ∀ v ∈ votes, v = c.node.config.id) c := by
  simp only [onElectionTimeout, wlp_bind, wlp_node, wlp_ite, wlp_pure,
    wlp_update, wlp_emitAll]
  refine ⟨fun h => ?_, fun _ => ?_⟩
  · rw [BTreeMap.containsKey_iff.mpr hm] at h
    cases h
  · refine wlp_mono (maybeStartElection_acts now .timeout trivial _)
      fun _ c' h votes hr => ?_
    obtain ⟨os, -, ha⟩ := h
    cases ha.moves.polled hr with
    | fresh _ _ hv => exact hv
    | kept _ hx _ hv =>
        intro v hin
        cases hx
        rcases hv v hin with hin | ⟨reply, hc, -⟩
        · exact Finset.mem_singleton.mp hin
        · cases hc

theorem handlePreVoteReply_outdated (sentTerm : Nat) (peer : NodeId)
    (reply : RequestVoteReply) {c : Ctx M}
    (ht : c.node.currentTerm < reply.term) :
    wlp (handlePreVoteReply now sentTerm peer reply)
      (fun _ c' => c'.node.role = .follower) c := by
  simp only [handlePreVoteReply, wlp_bind, wlp_node, wlp_ite, wlp_pure]
  exact ⟨fun _ => becomeFollower_wlp fun _ => rfl, fun h => absurd ht h⟩

/-! ## Which messages belong together -/

def Run.SentBy (run : Run D M) (s k : ℕ) : Prop :=
  (run.state s).rpcs.length ≤ k ∧ k < (run.state (s + 1)).rpcs.length

/-- Reply number `q` is the answer to a delivery of RPC number `k`. -/
def Run.AnswerTo (run : Run D M) (q k : ℕ) : Prop :=
  ∃ j now, run.action j = .deliver k now ∧ (run.state j).replies.length = q

theorem Run.AnswerTo.rpc {q k i : ℕ} {r : Reply M} (h : run.AnswerTo q k)
    (hr : (run.state i).replies[q]? = some r) :
    (run.state i).rpcs[k]? = some r.rpc := by
  obtain ⟨j, now, hact, hlen⟩ := h
  rcases Nat.lt_or_ge j i with hji | hij
  · cases run.did j with
    | idle _ _ ha =>
        rw [hact] at ha
        cases ha
    | restart h =>
        rw [hact] at h
        cases h.action
    | turn now' cause h =>
        obtain ⟨answers, hreplies, hans⟩ := h.replies
        rw [hact] at hans
        obtain ⟨rpc, response, hrpc, rfl⟩ := hans
        have hthere := getElem?_of_isPrefix (run.network_grows hji).2
          (show (run.state (j + 1)).replies[q]? = some ⟨rpc, response⟩ by
            rw [hreplies, ← hlen, List.getElem?_concat_length])
        cases hr.symm.trans hthere
        exact getElem?_of_isPrefix (run.network_grows hji.le).1 hrpc
  · -- there was no such reply yet
    have hlt := (List.getElem?_eq_some_iff.mp
      (getElem?_of_isPrefix (run.network_grows hij).2 hr)).1
    omega

theorem Tag.preVote_of_event {tag : Tag} {dst peer : NodeId}
    {result result' : RpcResult} {t : Nat}
    (h : tag.event dst result = .preVoteReply t peer result') :
    tag = .preVote t ∧ dst = peer ∧ result = result' := by
  cases tag with
  | preVote =>
      cases h
      exact ⟨rfl, rfl, rfl⟩
  | vote => cases h
  | append => cases h
  | installSnapshot => cases h

/-! ## Grants of the current pre-campaign -/

/-- The pre-campaign node `n` is in after `i` steps began with step `s`: an
election timeout then, none since, and no other role in between. -/
structure Run.PreCampaign (run : Run D M) (s i : ℕ) (n : NodeId) :
    Prop where
  lt : s < i
  began : ∃ now, run.action s = .timeout n now
  since : ∀ k, s < k → k ≤ i →
    ((run.state k).nodes n).role.preVotes ≠ none
  only : ∀ k now, s < k → k < i → run.action k ≠ .timeout n now

/-- Before step `i` node `n` was handed a grant of `v`, in answer to a probe
that step `s` sent it. -/
def Run.Granted (run : Run D M) (s i : ℕ) (n v : NodeId) : Prop :=
  ∃ j q k now r args reply, s < j ∧ j < i ∧ run.action j = .reply q now ∧
    (run.state j).replies[q]? = some r ∧ r.response = .preVote reply ∧
    reply.voteGranted = true ∧ run.AnswerTo q k ∧ run.SentBy s k ∧
    (run.state j).rpcs[k]? = some r.rpc ∧ r.rpc.src = n ∧ r.rpc.dst = v ∧
    r.rpc.request = .preVote args

/-- Step `j` hands a node in a pre-campaign a grant for its prospective term,
the first from that peer, in answer to a probe of an earlier one. -/
def Run.StaleGrant (run : Run D M) (j : ℕ) : Prop :=
  ∃ q now r votes reply, run.action j = .reply q now ∧
    (run.state j).replies[q]? = some r ∧
    ((run.state j).nodes r.rpc.src).role = .preCandidate votes ∧
    r.rpc.dst ∉ votes ∧ r.rpc.tag =
      .preVote (((run.state j).nodes r.rpc.src).currentTerm + 1) ∧
    r.response = .preVote reply ∧ reply.voteGranted = true ∧
    reply.term ≤ ((run.state j).nodes r.rpc.src).currentTerm ∧
    ∀ s k, run.PreCampaign s j r.rpc.src → run.SentBy s k →
      ¬ run.AnswerTo q k

theorem Run.PreCampaign.unique {s s' i : ℕ} {n : NodeId}
    (h : run.PreCampaign s i n) (h' : run.PreCampaign s' i n) : s = s' := by
  obtain ⟨now, hnow⟩ := h.began
  obtain ⟨now', hnow'⟩ := h'.began
  rcases Nat.lt_trichotomy s s' with hlt | heq | hgt
  · exact absurd hnow' (h.only s' now' hlt h'.lt)
  · exact heq
  · exact absurd hnow (h'.only s now hgt h.lt)

theorem Run.Granted.mono {s i j : ℕ} {n v : NodeId} (hij : i ≤ j)
    (h : run.Granted s i n v) : run.Granted s j n v := by
  obtain ⟨k, q, m, now, r, args, reply, hsk, hki, hrest⟩ := h
  exact ⟨k, q, m, now, r, args, reply, hsk, hki.trans_le hij, hrest⟩

/-- Short of a stale one, a grant that has an effect is one of the current
pre-campaign. -/
theorem Run.granted_of_grants (run : Run D M) {s i : ℕ} {v : NodeId}
    {votes : Finset NodeId} (hstale : ¬ run.StaleGrant i)
    (h : (run.state i).Turn (run.action i) (run.state (i + 1))
      (run.effect i) now cause)
    (hs : run.PreCampaign s i (run.effect i).node)
    (hr : ((run.state i).nodes (run.effect i).node).role =
      .preCandidate votes)
    (hv : v ∉ votes)
    (hafter : ((run.state (i + 1)).nodes (run.effect i).node).role ≠
      .follower)
    (hg : cause.Grants
      ((run.state i).nodes (run.effect i).node).currentTerm v) :
    run.Granted s (i + 1) (run.effect i).node v := by
  obtain ⟨T⟩ := run.exists_trace
  obtain ⟨reply, hcause, hgr⟩ := hg
  have hc := h.causes
  rw [hcause] at hc
  generalize hev : Event.preVoteReply _ v (.ok (.preVote reply)) = ev at hc
  generalize hact : run.action i = a at hc
  generalize hn : (run.effect i).node = n at hc hs hr hafter hev ⊢
  cases hc with
  | fail hr he =>
      obtain ⟨-, -, hres⟩ := Tag.preVote_of_event hev.symm
      cases hres
  | @reply q now' r hq hep =>
      obtain ⟨htag, hdst, hres⟩ := Tag.preVote_of_event hev.symm
      have hres := Except.ok.inj hres
      rcases Nat.lt_or_ge ((run.state i).nodes r.rpc.src).currentTerm
        reply.term with hlt | hge
      · refine absurd (run.of_reply hact hq (Q := fun x =>
          x.role = .follower) ?_) hafter
        rw [htag, hres]
        exact handlePreVoteReply_outdated _ _ _ hlt
      · by_contra hnot
        refine hstale ⟨q, now, r, votes, reply, hact, hq, hr,
          hdst ▸ hv, htag, hres, hgr, hge, fun s' k hs' hsent hans => hnot ?_⟩
        cases hs.unique hs'
        obtain ⟨args, hreq⟩ : ∃ args, r.rpc.request = .preVote args := by
          have hok := (T.inv i).rpcs r.rpc
            (run.replies_sent i r (List.mem_of_getElem? hq))
          rw [htag] at hok
          cases hreq : r.rpc.request with
          | preVote args => exact ⟨args, rfl⟩
          | requestVote a =>
              rw [hreq] at hok
              cases hok.1
          | appendEntries a =>
              rw [hreq] at hok
              obtain ⟨-, _, heq, -⟩ := hok
              cases heq
          | installSnapshot a =>
              rw [hreq] at hok
              cases hok.2
        exact ⟨i, q, k, now, r, args, reply, hs.lt, Nat.lt_succ_self i, hact,
          hq, hres, hgr, hans, hsent, hans.rpc hq, rfl, hdst, hreq⟩

theorem Run.PreCampaign.fresh {i : ℕ} {n : NodeId}
    (ha : run.action i = .timeout n now)
    (hr : ((run.state (i + 1)).nodes n).role.preVotes ≠ none) :
    run.PreCampaign i (i + 1) n where
  lt := Nat.lt_succ_self i
  began := ⟨now, ha⟩
  since k hk hki := by
    rw [show k = i + 1 by omega]
    exact hr
  only k _ hk hki := by omega

theorem Run.PreCampaign.extend {s i : ℕ} {n : NodeId}
    (h : run.PreCampaign s i n)
    (hr : ((run.state (i + 1)).nodes n).role.preVotes ≠ none)
    (ha : ∀ now, run.action i ≠ .timeout n now) :
    run.PreCampaign s (i + 1) n where
  lt := Nat.lt_succ_of_lt h.lt
  began := h.began
  since k hk hki := by
    rcases Nat.le_succ_iff.mp hki with hki | rfl
    · exact h.since k hk hki
    · exact hr
  only k now hk hki := by
    rcases Nat.lt_succ_iff_lt_or_eq.mp hki with hki | rfl
    · exact h.only k now hk hki
    · exact ha now

theorem Cluster.Causes.of_timeout {c : Cluster M} {a : Action V}
    {n m : NodeId} {now now' : Instant} (h : c.Causes a n now cause)
    (ha : a = .timeout m now') : n = m ∧ cause = .timeout := by
  cases h <;> cases ha
  exact ⟨rfl, rfl⟩

theorem Cluster.Causes.timeout_eq {c : Cluster M} {a : Action V}
    {n : NodeId} {now : Instant} (h : c.Causes a n now cause)
    (hc : cause = .timeout) : a = .timeout n now := by
  cases h <;> cases hc
  rfl

/-- The votes of a pre-campaign are its own, up to a step that counts a stale
grant. -/
theorem Run.polled (run : Run D M) (n : NodeId) {votes : Finset NodeId} :
    ∀ i, (∀ j, j < i → ¬ run.StaleGrant j) →
      ((run.state i).nodes n).role = .preCandidate votes →
      ∃ s, run.PreCampaign s i n ∧
        ∀ v ∈ votes, v = n ∨ run.Granted s i n v := by
  intro i
  induction i generalizing votes with
  | zero =>
      intro _ hr
      rw [run.init] at hr
      cases hr
  | succ i ih =>
      intro hstale hr
      have hold := fun votes => @ih votes fun j hj => hstale j (by omega)
      have hpoll : ((run.state (i + 1)).nodes n).role.preVotes ≠ none := by
        rw [Role.preVotes_eq_some.mpr hr]
        exact Option.some_ne_none _
      -- a step that leaves the node alone leaves its pre-campaign alone
      have hkept : (run.state (i + 1)).nodes n = (run.state i).nodes n →
          (∀ now, run.action i ≠ .timeout n now) →
          ∃ s, run.PreCampaign s (i + 1) n ∧
            ∀ v ∈ votes, v = n ∨ run.Granted s (i + 1) n v := by
        intro hsame ha
        obtain ⟨s, hs, hv⟩ := hold votes (hsame ▸ hr)
        exact ⟨s, hs.extend hpoll ha, fun v hin =>
          (hv v hin).imp_right (.mono (Nat.le_succ i))⟩
      cases run.did i with
      | idle hc _ ha =>
          refine hkept (by rw [hc]) fun now h => ?_
          rw [ha] at h
          cases h
      | restart h =>
          by_cases hn : n = (run.effect i).node
          · subst hn
            rw [Node.role_of_spawn h.node] at hr
            cases hr
          · refine hkept (h.others n hn) fun now ha => ?_
            rw [h.action] at ha
            cases ha
      | turn now cause h =>
          by_cases hn : n = (run.effect i).node
          · subst hn
            have hmoves := h.moves.polled hr
            by_cases hc : cause = .timeout
            · have hact := h.causes.timeout_eq hc
              have hmem := (run.tidy (i + 1) _ cause).coherent.campaign
                votes (.inl hr)
              rw [hmoves.members, run.id_eq] at hmem
              have hown := run.of_timeout (Q := fun x => ∀ votes,
                x.role = .preCandidate votes → ∀ v ∈ votes, v = _) hact
                (onElectionTimeout_polls _ (by rw [run.id_eq]; exact hmem))
              exact ⟨i, .fresh hact hpoll, fun v hv =>
                .inl ((hown votes hr v hv).trans (run.id_eq i _))⟩
            · cases hmoves with
              | fresh _ hc' => exact absurd hc' hc
              | @kept old _ hx _ hv =>
                  obtain ⟨s, hs, hgr⟩ := hold old hx
                  refine ⟨s, hs.extend hpoll fun now' ha =>
                    hc (h.causes.of_timeout ha).2, fun v hin => ?_⟩
                  by_cases hin' : v ∈ old
                  · exact (hgr v hin').imp_right (.mono (Nat.le_succ i))
                  · refine .inr (run.granted_of_grants
                      (hstale i (Nat.lt_succ_self i)) h hs hx hin' ?_
                      ((hv v hin).resolve_left hin'))
                    rw [hr]
                    intro h'
                    cases h'
          · refine hkept (h.others n hn) fun now' ha => hn ?_
            exact (h.causes.of_timeout ha).1.symm

/-- A real election starts on the votes of the pre-campaign open then. -/
theorem Run.elected (run : Run D M) {j : ℕ} {n : NodeId}
    (hstale : ∀ i, i ≤ j → ¬ run.StaleGrant i)
    (ht : ((run.state j).nodes n).currentTerm <
      ((run.state (j + 1)).nodes n).currentTerm)
    (hr : ((run.state (j + 1)).nodes n).isLeader = true ∨
      ∃ votes, ((run.state (j + 1)).nodes n).role = .candidate votes) :
    ∃ s votes, (s = j ∧ (∃ now, run.action j = .timeout n now) ∨
        run.PreCampaign s j n) ∧
      ((run.state j).nodes n).majority ≤
        ((run.state j).nodes n).countMemberVotes votes ∧
      ∀ v ∈ votes, v = n ∨ run.Granted s (j + 1) n v := by
  cases run.did j with
  | idle hc =>
      rw [hc] at ht
      exact absurd ht (Nat.lt_irrefl _)
  | restart h =>
      by_cases hn : n = (run.effect j).node
      · subst hn
        have hrole := Node.role_of_spawn h.node
        rcases hr with hr | ⟨votes, hr⟩
        · rw [Node.isLeader, hrole] at hr
          cases hr
        · rw [hrole] at hr
          cases hr
      · rw [h.others n hn] at ht
        exact absurd ht (Nat.lt_irrefl _)
  | turn now cause h =>
      by_cases hn : n = (run.effect j).node
      · subst hn
        obtain ⟨y, os, votes, hmoves, -, hy, hmaj⟩ := h.moves.elected hr ht
        have hpoll := hmoves.polled hy
        rw [Node.majority, Node.countMemberVotes, hpoll.members] at hmaj
        cases hpoll with
        | fresh _ hc hv =>
            exact ⟨j, votes, .inl ⟨rfl, now, h.causes.timeout_eq hc⟩, hmaj,
              fun v hin => .inl ((hv v hin).trans (run.id_eq j _))⟩
        | @kept old _ hx _ hv =>
            obtain ⟨s, hs, hgr⟩ := run.polled _ j
              (fun i hi => hstale i hi.le) hx
            refine ⟨s, votes, .inr hs, hmaj, fun v hin => ?_⟩
            by_cases hin' : v ∈ old
            · exact (hgr v hin').imp_right (.mono (Nat.le_succ j))
            · refine .inr (run.granted_of_grants (hstale j le_rfl) h hs hx
                hin' ?_ ((hv v hin).resolve_left hin'))
              intro hf
              rcases hr with hr | ⟨votes, hr⟩
              · rw [Node.isLeader, hf] at hr
                cases hr
              · rw [hf] at hr
                cases hr
      · rw [h.others n hn] at ht
        exact absurd ht (Nat.lt_irrefl _)

/-- In a run that counts no stale grant, every vote of a pre-campaign is a
grant of one of its own probes, and so is every vote that a real election is
started on. -/
theorem preCampaign_grants (run : Run D M) (i : ℕ)
    (hstale : ∀ j, j < i → ¬ run.StaleGrant j) (n : NodeId) :
    (∀ votes, ((run.state i).nodes n).role = .preCandidate votes →
      ∃ s, run.PreCampaign s i n ∧
        ∀ v ∈ votes, v = n ∨ run.Granted s i n v) ∧
    ∀ j, j < i → ((run.state j).nodes n).currentTerm <
        ((run.state (j + 1)).nodes n).currentTerm →
      (((run.state (j + 1)).nodes n).isLeader = true ∨
        ∃ votes, ((run.state (j + 1)).nodes n).role = .candidate votes) →
      ∃ s votes, (s = j ∧ (∃ now, run.action j = .timeout n now) ∨
          run.PreCampaign s j n) ∧
        ((run.state j).nodes n).majority ≤
          ((run.state j).nodes n).countMemberVotes votes ∧
        ∀ v ∈ votes, v = n ∨ run.Granted s (j + 1) n v :=
  ⟨fun _ => run.polled n i hstale, fun _ hj =>
    run.elected fun k hk => hstale k (by omega)⟩

def Action.delivered : Action V → Option Nat
  | .deliver k _ => some k
  | _ => none

/-- Node 3 leads five nodes. Node 1 starts a pre-campaign, which 2 and 4
grant, and then hears from 3. It starts another one; only now the two grants
reach it. -/
def delayedRun :
    Run (Deployment.ofIds [1, 2, 3, 4, 5] none) (KvStore.machine Nat) :=
  Run.ofActions _ _ [.timeout 3 0, .deliver 0 0, .deliver 1 0, .reply 0 0,
    .reply 1 0, .deliver 4 0, .deliver 5 0, .reply 2 0, .reply 3 0,
    .timeout 1 200, .deliver 12 210, .deliver 14 210, .deliver 8 220,
    .timeout 1 520, .reply 4 530, .reply 5 530] (by decide +kernel)

theorem delayedRun_delivers {j k : ℕ} {now : Instant}
    (h : delayedRun.action j = .deliver k now) : k < 16 := by
  have hfirst : ∀ j, j < 16 →
      (delayedRun.action j).delivered.all (· < 16) = true := by decide +kernel
  rcases Nat.lt_or_ge j 16 with hj | hj
  · have hk := hfirst j hj
    rw [h] at hk
    exact of_decide_eq_true hk
  · have hidle : delayedRun.action j = .idle := by
      simp only [delayedRun, Run.ofActions, List.getD_eq_getElem?_getD]
      rw [List.getElem?_eq_none (by exact hj)]
      rfl
    rw [h] at hidle
    cases hidle

theorem delayedRun_preCampaign : delayedRun.PreCampaign 13 15 1 where
  lt := by decide
  began := ⟨520, rfl⟩
  since k hk hki := by
    obtain rfl | rfl : k = 14 ∨ k = 15 := by omega
    · decide +kernel
    · decide +kernel
  only k now hk hki h := by
    obtain rfl : k = 14 := by omega
    cases h

theorem delayedRun_not_granted (v : NodeId) :
    ¬ delayedRun.Granted 13 15 1 v := by
  rintro ⟨j, q, k, now, r, args, reply, -, -, -, -, -, -, ⟨i, now', hi, -⟩,
    ⟨hk, -⟩, -⟩
  have hlt := delayedRun_delivers hi
  have hlen : (delayedRun.state 13).rpcs.length = 16 := by decide +kernel
  omega

/-- The grant of 2 was an answer to the first pre-campaign. It is counted in
the second, and with that of 4, just as old, node 1 starts an election. -/
theorem preCampaign_grants_delayed :
    ((delayedRun.state 13).nodes 1).leaderId = some 3 ∧
      ((delayedRun.state 13).nodes 1).role.preVotes = none ∧
      ((delayedRun.state 15).nodes 1).role = .preCandidate {1, 2} ∧
      (¬ ∃ s, delayedRun.PreCampaign s 15 1 ∧ ∀ v ∈ ({1, 2} : Finset NodeId),
        v = 1 ∨ delayedRun.Granted s 15 1 v) ∧
      ((delayedRun.state 15).nodes 1).currentTerm = 1 ∧
      ((delayedRun.state 16).nodes 1).currentTerm = 2 ∧
      ((delayedRun.state 16).nodes 1).role.part = .candidate := by
  refine ⟨by decide +kernel, by decide +kernel,
    Role.preVotes_eq_some.mp (by decide +kernel), ?_, by decide +kernel,
    by decide +kernel, by decide +kernel⟩
  rintro ⟨s, hs, hv⟩
  cases hs.unique delayedRun_preCampaign
  rcases hv 2 (by decide) with h | h
  · cases h
  · exact delayedRun_not_granted 2 h

/-- Node 1 starts a pre-campaign, and 2 grants it. -/
def probingRun :
    Run (Deployment.ofIds [1, 2, 3, 4, 5] none) (KvStore.machine Nat) :=
  Run.ofActions _ _ [.timeout 1 0, .deliver 0 0, .reply 0 0]
    (by decide +kernel)

theorem probingRun_preCampaign : probingRun.PreCampaign 0 2 1 where
  lt := by decide
  began := ⟨0, rfl⟩
  since k hk hki := by
    obtain rfl | rfl : k = 1 ∨ k = 2 := by omega
    · decide +kernel
    · decide +kernel
  only k now hk hki h := by
    obtain rfl : k = 1 := by omega
    cases h

theorem preCampaign_grants_probing :
    ((probingRun.state 3).nodes 1).role = .preCandidate {1, 2} ∧
      ∃ s, probingRun.PreCampaign s 3 1 ∧
        ∀ v ∈ ({1, 2} : Finset NodeId), v = 1 ∨ probingRun.Granted s 3 1 v := by
  have hrole : ((probingRun.state 3).nodes 1).role = .preCandidate {1, 2} :=
    Role.preVotes_eq_some.mp (by decide +kernel)
  refine ⟨hrole, (preCampaign_grants probingRun 3 ?_ 1).1 _ hrole⟩
  rintro j hj ⟨q, now, r, votes, reply, hact, hr, -, -, -, -, -, -, hstale⟩
  obtain rfl | rfl | rfl : j = 0 ∨ j = 1 ∨ j = 2 := by omega
  · cases hact
  · cases hact
  · cases hact
    have hsrc : ((probingRun.state 2).replies[0]?).all (·.rpc.src = 1) =
        true := by decide +kernel
    rw [hr] at hsrc
    rw [of_decide_eq_true (p := r.rpc.src = 1) hsrc] at hstale
    exact hstale 0 0 probingRun_preCampaign
      ⟨by decide +kernel, by decide +kernel⟩ ⟨1, 0, rfl, by decide +kernel⟩

end RustKV
