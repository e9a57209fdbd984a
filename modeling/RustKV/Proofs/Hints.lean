import RustKV.Kv.Service
import RustKV.Proofs.PreCampaign

/-!
# Leader hints

A node's `leader_id` is what it redirects clients by. It is set from two
sources, a won election and the sender named in a replication message, and
taken back with every change of term. So it names a leader of the current term
if only replication messages do: each is sent in the name of a leadership that
stands when the event is over, or stood when it began (`Standing`). That is
more than a chain of moves says, since a winner may lose its majority's
attention before it has sent anything.
-/

namespace RustKV

open Rust Prog NodeM Consensus

variable {V : Type} {M : StateMachine V} {D : Deployment} {run : Run D M}
  {now : Instant} {cause : Cause M} {x y z : Node M} {os : List (Output M)}
  {c c₁ c' : Ctx M} {m : NodeId}

theorem Node.role_ne_leader (h : x.isLeader = false) (l : LeaderState) :
    x.role ≠ .leader l := by
  intro hl
  rw [Node.isLeader, hl] at h
  cases h

/-! ## Who sends in whose name -/

def Mute (c c' : Ctx M) : Prop :=
  ∃ os, c'.out = c.out ++ os ∧ ∀ peer req tag, Output.send peer req tag ∈ os →
    ∀ t, ¬ tag.Replicates t

/-- What was put out and replicates is from a leadership that stands. -/
def Standing (c c' : Ctx M) : Prop :=
  ∃ os, c'.out = c.out ++ os ∧ ∀ peer req tag, Output.send peer req tag ∈ os →
    ∀ t, tag.Replicates t →
      c'.node.isLeader = true ∧ c'.node.currentTerm = t

theorem Mute.of_plain (h : ∃ os, c'.out = c.out ++ os ∧
    ∀ o ∈ os, o.plain = true) : Mute c c' := by
  obtain ⟨os, ho, hp⟩ := h
  refine ⟨os, ho, ?_⟩
  intro peer req tag hmem
  cases hp _ hmem

theorem Mute.refl (c : Ctx M) : Mute c c := .of_plain (Calm.refl c).2

theorem Mute.trans (h : Mute c c₁) (h' : Mute c₁ c') : Mute c c' := by
  obtain ⟨os, ho, hm⟩ := h
  obtain ⟨os', ho', hm'⟩ := h'
  refine ⟨os ++ os', by rw [ho', ho, List.append_assoc], ?_⟩
  intro peer req tag hmem
  rcases List.mem_append.mp hmem with hmem | hmem
  · exact hm peer req tag hmem
  · exact hm' peer req tag hmem

theorem Mute.standing (h : Mute c c') : Standing c c' := by
  obtain ⟨os, ho, hm⟩ := h
  exact ⟨os, ho, fun peer req tag hmem t ht =>
    absurd ht (hm peer req tag hmem t)⟩

theorem Mute.then_ (h : Mute c c₁) (h' : Standing c₁ c') :
    Standing c c' := by
  obtain ⟨os, ho, hm⟩ := h
  obtain ⟨os', ho', hs⟩ := h'
  refine ⟨os ++ os', by rw [ho', ho, List.append_assoc], ?_⟩
  intro peer req tag hmem t ht
  rcases List.mem_append.mp hmem with hmem | hmem
  · exact absurd ht (hm peer req tag hmem t)
  · exact hs peer req tag hmem t ht

theorem becomeFollower_mute {t : Nat} {hint : Option NodeId} (c : Ctx M) :
    wlp (becomeFollower t hint) (fun _ c' => Mute c c') c :=
  becomeFollower_wlp fun _ => .of_plain ⟨_, rfl, plain_readDropped _⟩

theorem maybeAdvanceCommit_mute (c : Ctx M) :
    wlp maybeAdvanceCommit (fun _ c' => Mute c c') c := by
  have hdown : ∀ c₁ : Ctx M, Mute c c₁ →
      wlp stepDownIfRemoved (fun _ c' => Mute c c') c₁ := by
    intro c₁ h₁
    simp only [stepDownIfRemoved, wlp_bind, wlp_node, wlp_ite, wlp_pure]
    exact ⟨fun _ => wlp_mono (becomeFollower_mute c₁) fun _ _ h => h₁.trans h,
      fun _ => h₁⟩
  simp only [maybeAdvanceCommit, wlp_bind, wlp_node]
  cases c.node.role with
  | leader l =>
      simp only [wlp_ite, wlp_bind, wlp_pure, wlp_update, wlp_emit]
      refine ⟨fun _ => .refl c, fun _ => ⟨fun _ => ?_,
        fun _ => hdown c (.refl c)⟩⟩
      refine wlp_mono (applyCommitted_calm _) fun _ c₁ h₁ => hdown c₁ ?_
      refine Mute.trans (.of_plain ⟨[_], rfl, ?_⟩) (.of_plain h₁.2)
      exact List.forall_mem_singleton.mpr rfl
  | _ => exact wlp_pure.mpr (.refl c)

theorem sendAppend_standing (peer : NodeId) (c : Ctx M) :
    wlp (sendAppend peer) (fun _ c' => Standing c c' ∧ c'.node = c.node)
      c := by
  simp only [sendAppend, wlp_bind, wlp_node, wlp_ite, wlp_pure]
  refine ⟨fun _ => ⟨(Mute.refl c).standing, trivial⟩, fun _ => ?_⟩
  cases hl : c.node.role with
  | leader l =>
      have hlead : c.node.isLeader = true := Node.isLeader_iff.mpr ⟨l, hl⟩
      simp only [sendInstallSnapshot, wlp_ite, wlp_bind, wlp_node,
        wlp_unwrap, wlp_emit, wlp_checkedSub]
      refine ⟨fun _ snap _ => ⟨⟨[_], rfl, ?_⟩, trivial⟩,
        fun _ _ t _ => ⟨⟨[_], rfl, ?_⟩, trivial⟩⟩
      all_goals
        intro peer' req tag hmem t' ht
        cases List.mem_singleton.mp hmem
        exact ⟨hlead, ht⟩
  | _ => exact wlp_pure.mpr ⟨(Mute.refl c).standing, rfl⟩

theorem sendAppends_standing (peers : List NodeId) (c : Ctx M) :
    wlp (sendAppends peers) (fun _ c' => Standing c c' ∧ c'.node = c.node)
      c := by
  induction peers generalizing c with
  | nil => exact wlp_pure.mpr ⟨(Mute.refl c).standing, rfl⟩
  | cons peer rest ih =>
      simp only [sendAppends, wlp_bind]
      refine wlp_mono (sendAppend_standing peer c) fun _ c₁ h₁ => ?_
      refine wlp_mono (ih c₁) fun _ c₂ h₂ => ⟨?_, h₂.2.trans h₁.2⟩
      obtain ⟨⟨os, ho, hs⟩, hn⟩ := h₁
      obtain ⟨⟨os', ho', hs'⟩, hn'⟩ := h₂
      refine ⟨os ++ os', by rw [ho', ho, List.append_assoc], ?_⟩
      intro peer req tag hmem t ht
      rcases List.mem_append.mp hmem with hmem | hmem
      · rw [hn']
        exact hs peer req tag hmem t ht
      · exact hs' peer req tag hmem t ht

theorem onHeartbeatTick_standing (c : Ctx M) :
    wlp (onHeartbeatTick now) (fun _ c' => Standing c c') c := by
  have hsend := wlp_mono (sendAppends_standing c.node.replicationTargets c)
    fun _ _ h => h.1
  simp only [onHeartbeatTick, wlp_bind, wlp_node]
  cases c.node.role with
  | leader l =>
      simp only [wlp_ite]
      exact ⟨fun _ => wlp_mono (becomeFollower_mute c) fun _ _ h => h.standing,
        fun _ => hsend⟩
  | _ => exact hsend

/-! ## Elections and replies -/

theorem maybeBecomeLeader_standing (c : Ctx M) :
    wlp (maybeBecomeLeader now) (fun _ c' => Standing c c') c := by
  simp only [maybeBecomeLeader, wlp_bind, wlp_node]
  cases c.node.role with
  | candidate votes =>
      simp only [wlp_ite, wlp_bind, wlp_pure, wlp_update, wlp_expect]
      refine ⟨fun _ => (Mute.refl c).standing, fun _ S hS => ?_⟩
      refine wlp_mono (maybeAdvanceCommit_mute _) fun _ c₁ h₁ => ?_
      exact wlp_mono (onHeartbeatTick_standing c₁) fun _ c₂ h₂ =>
        Mute.then_ h₁ h₂
  | _ => exact wlp_pure.mpr (Mute.refl c).standing

theorem mute_votes (peers : List NodeId) (req : RpcRequest V M.Payload)
    (tag : Tag) (h : ∀ t, ¬ tag.Replicates t) (x : Node M) :
    Mute c ⟨x, c.out ++ peers.map fun peer => .send peer req tag⟩ := by
  refine ⟨_, rfl, ?_⟩
  intro peer req' tag' hmem
  obtain ⟨p, -, hp⟩ := List.mem_map.mp hmem
  cases hp
  exact h

theorem maybeStartElection_standing (c : Ctx M) :
    wlp (maybeStartElection now) (fun _ c' => Standing c c') c := by
  simp only [maybeStartElection, wlp_bind, wlp_node]
  cases c.node.role with
  | preCandidate votes =>
      simp only [startElection, wlp_ite, wlp_bind, wlp_pure, wlp_node,
        wlp_update, wlp_emitAll]
      refine ⟨fun _ => ?_, fun _ => (Mute.refl c).standing⟩
      exact wlp_mono (maybeBecomeLeader_standing _) fun _ c₁ h₁ =>
        (mute_votes _ _ _ (fun _ => id) _).then_ h₁
  | _ => exact wlp_pure.mpr (Mute.refl c).standing

theorem onElectionTimeout_standing (c : Ctx M) :
    wlp (onElectionTimeout now) (fun _ c' => Standing c c') c := by
  simp only [onElectionTimeout, wlp_bind, wlp_node, wlp_ite, wlp_pure,
    wlp_update, wlp_emitAll]
  refine ⟨fun _ => (Mute.refl c).standing, fun _ => ?_⟩
  exact wlp_mono (maybeStartElection_standing _) fun _ c₁ h₁ =>
    (mute_votes _ _ _ (fun _ => id) _).then_ h₁

theorem handleEvent_standing (event : Event)
    (hl : c.node.isLeader = false) :
    wlp (handleEvent now event) (fun _ c' => Standing c c') c := by
  have hmute {t : Nat} {hint : Option NodeId} :
      wlp (becomeFollower t hint) (fun _ c' => Standing c c') c :=
    wlp_mono (becomeFollower_mute c) fun _ _ h => h.standing
  have hself := (Mute.refl c).standing
  unfold handleEvent
  split
  · simp only [handlePreVoteReply, wlp_bind, wlp_node, wlp_ite, wlp_pure]
    refine ⟨fun _ => hmute, fun _ => ⟨fun _ => hself, fun _ => ?_⟩⟩
    cases c.node.role with
    | preCandidate votes =>
        simp only [wlp_bind, wlp_update]
        exact wlp_mono (maybeStartElection_standing _) fun _ c₁ h₁ =>
          Mute.then_ (.of_plain (Calm.refl c).2) h₁
    | _ => exact wlp_pure.mpr hself
  · simp only [handleVoteReply, wlp_bind, wlp_node, wlp_ite, wlp_pure]
    refine ⟨fun _ => hmute, fun _ => ⟨fun _ => hself, fun _ => ?_⟩⟩
    cases c.node.role with
    | candidate votes =>
        simp only [wlp_bind, wlp_update]
        exact wlp_mono (maybeBecomeLeader_standing _) fun _ c₁ h₁ =>
          Mute.then_ (.of_plain (Calm.refl c).2) h₁
    | _ => exact wlp_pure.mpr hself
  · simp only [handleAppendReply, wlp_bind, wlp_node, wlp_ite, wlp_pure]
    refine ⟨fun _ => hmute, fun _ => ⟨fun _ => hself, fun _ => ?_⟩⟩
    cases hr : c.node.role with
    | leader l => exact absurd hr (Node.role_ne_leader hl l)
    | _ => exact wlp_pure.mpr hself
  · simp only [handleInstallSnapshotReply, wlp_bind, wlp_node, wlp_ite,
      wlp_pure]
    refine ⟨fun _ => hmute, fun _ => ⟨fun _ => hself, fun _ => ?_⟩⟩
    cases hr : c.node.role with
    | leader l => exact absurd hr (Node.role_ne_leader hl l)
    | _ => exact wlp_pure.mpr hself
  · exact wlp_pure.mpr hself

/-! ## Claims of leadership -/

/-- By the end of `i` steps node `n` had been seen to lead term `t`: it won the
election of that term. -/
def Run.Led (run : Run D M) (i : ℕ) (n : NodeId) (t : ℕ) : Prop :=
  ∃ j, j ≤ i ∧ run.Leads j n t

theorem Run.Led.mono {i j t : ℕ} (h : run.Led i m t) (hij : i ≤ j) :
    run.Led j m t := by
  obtain ⟨k, hk, hl⟩ := h
  exact ⟨k, hk.trans hij, hl⟩

/-- Only an election timeout takes a leader to another leadership. -/
theorem Moves.same_leadership (h : Moves now cause x y os)
    (hx : x.isLeader = true) (hy : y.isLeader = true)
    (hc : cause ≠ .timeout) : y.currentTerm = x.currentTerm := by
  by_contra hne
  have hle := h.term_le
  obtain ⟨z, os', votes, hz, -, hr, -⟩ := h.elected (.inl hy) (by omega)
  cases hz.polled hr with
  | fresh _ hc' => exact hc hc'
  | kept _ hr' =>
      rw [Node.isLeader, hr'] at hx
      cases hx

namespace Cluster

variable {cl cl' : Cluster M} {a : Action V} {eff : Effect M} {n : NodeId}

theorem exec_standing {body : NodeM M Unit}
    (h : cl.exec n (silently body) = .ok (cl', eff))
    (hb : wlp body (fun _ c₁ => Standing ⟨cl.nodes n, []⟩ c₁)
      ⟨cl.nodes n, []⟩) {r : Rpc M} (hr : r ∈ cl'.rpcs) {t : ℕ}
    (ht : r.tag.Replicates t) :
    r ∈ cl.rpcs ∨ r.src = n ∧ (cl'.nodes n).isLeader = true ∧
      (cl'.nodes n).currentTerm = t := by
  have hb' : wlp (silently body)
      (fun _ c₁ => Standing ⟨cl.nodes n, []⟩ c₁) ⟨cl.nodes n, []⟩ := by
    simp only [silently, wlp_bind, wlp_pure]
    exact hb
  obtain ⟨-, c₁, ⟨os, ho, hs⟩, hnodes, -, hrpcs, -⟩ := exec_outcome h hb'
  rw [hrpcs] at hr
  refine (List.mem_append.mp hr).imp_right fun hr => ?_
  obtain ⟨o, hmem, hsent⟩ := List.mem_filterMap.mp hr
  rw [ho, List.nil_append] at hmem
  rw [hnodes, Function.update_self]
  cases o with
  | send peer req tag =>
      cases hsent
      exact ⟨rfl, hs peer req tag hmem t ht⟩
  | _ => cases hsent

/-- What a node that does not lead sends in an election is in the name of the
leadership it has won. -/
theorem step_standing (h : cl.step a = some (.ok (cl', eff)))
    (hc : cl.Causes a n now cause) (hcamp : cause.Campaigns)
    (hl : (cl.nodes n).isLeader = false) {r : Rpc M} (hr : r ∈ cl'.rpcs)
    {t : ℕ} (ht : r.tag.Replicates t) :
    r ∈ cl.rpcs ∨ r.src = n ∧ (cl'.nodes n).isLeader = true ∧
      (cl'.nodes n).currentTerm = t := by
  cases hc with
  | timeout =>
      simp only [step, hl, Bool.false_eq_true, if_false] at h
      exact exec_standing (Option.some.inj h)
        (onElectionTimeout_standing _) hr ht
  | reply hget he =>
      simp only [step, hget, Option.bind_some, settle, if_pos he] at h
      exact exec_standing (Option.some.inj h)
        (handleEvent_standing _ hl) hr ht
  | fail hget he =>
      simp only [step, hget, Option.bind_some, settle, if_pos he] at h
      exact exec_standing (Option.some.inj h)
        (handleEvent_standing _ hl) hr ht
  | _ => exact hcamp.elim

theorem Causes.not_timeout (hc : cl.Causes a n now cause)
    (hl : (cl.nodes n).isLeader = true) : cause ≠ .timeout := by
  cases hc with
  | timeout hl' =>
      rw [hl] at hl'
      cases hl'
  | _ =>
      intro h
      cases h

end Cluster

/-- Every replication message, however old, was sent by the winner of its
term. -/
theorem Run.replicates_led (run : Run D M) (i : ℕ) :
    ∀ r ∈ (run.state i).rpcs, ∀ t, r.tag.Replicates t →
      run.Led i r.src t := by
  induction i with
  | zero =>
      rw [run.init]
      exact List.forall_mem_nil _
  | succ i ih =>
      intro r hr t ht
      have hold : r ∈ (run.state i).rpcs → run.Led (i + 1) r.src t :=
        fun hr => (ih r hr t ht).mono (Nat.le_succ i)
      cases run.did i with
      | idle hc =>
          rw [hc] at hr
          exact hold hr
      | restart h =>
          rw [h.rpcs] at hr
          exact hold hr
      | turn now cause h =>
          have hr' := hr
          rw [h.rpcs] at hr'
          rcases List.mem_append.mp hr' with hr' | hnew
          · exact hold hr'
          obtain ⟨o, ho, hsent⟩ := List.mem_filterMap.mp hnew
          cases o with
          | send peer req tag =>
              cases hsent
              -- the node led when it sent this; did it lead before or after?
              obtain ⟨y, y', os₁, os', os₂, h₁, hm, ho', h₂⟩ :=
                h.moves.split ho
              obtain ⟨-, hty, l, hl, -⟩ := hm.replicates ho' ht
              by_cases hx : ((run.state i).nodes
                  (run.effect i).node).isLeader = true
              · have hsame := h₁.same_leadership hx
                  (Node.isLeader_iff.mpr ⟨l, hl⟩) (h.causes.not_timeout hx)
                exact ⟨i, Nat.le_succ i, hx, hsame.symm.trans hty⟩
              · rcases h₁.leader hl with ⟨hx', -⟩ | hcamp
                · exact absurd hx' hx
                rcases Cluster.step_standing (run.step i) h.causes hcamp
                  (Bool.not_eq_true _ ▸ hx) hr ht with hr' | ⟨-, hlead⟩
                · exact hold hr'
                · exact ⟨i + 1, le_rfl, hlead⟩
          | _ => cases hsent

/-! ## Hints -/

/-- What a change of a node does to its hint. -/
inductive Hinted (cause : Cause M) (x y : Node M) : Prop
  | kept (hid : y.leaderId = x.leaderId)
      (ht : y.currentTerm = x.currentTerm) (hl : y.isLeader = x.isLeader)
  | told (hl : y.isLeader = false)
      (hid : ∀ m, y.leaderId = some m → cause.Announces y.currentTerm m)
  | won (hl : y.isLeader = true) (hid : y.leaderId = some y.config.id)

theorem Move.hinted (h : Move now cause x y os) : Hinted cause x y := by
  have hlead : ∀ l, x.role = .leader l → true = x.isLeader :=
    fun l hl => (Node.isLeader_iff.mpr ⟨l, hl⟩).symm
  have hnone : y.isLeader = false → y.leaderId = none →
      Hinted cause x y := by
    intro hl hid
    refine .told hl fun m hm => ?_
    rw [hid] at hm
    cases hm
  cases h with
  | quiet h => exact .kept h.leaderId h.currentTerm h.isLeader
  | follow t hint _ ht hhint =>
      refine .told rfl fun m hm => ?_
      rw [Node.currentTerm_follow ht]
      exact hhint m hm
  | adopt _ _ _ hr => exact .kept rfl rfl (isLeader_of_follower hr).symm
  | @accept l S cmd _ hl _ hS =>
      have ht := Node.currentTerm_accepted (Storage.append_hardState hS) l now
        cmd
      cases cmd with
      | configChange new => exact .kept rfl ht (hlead l hl)
      | _ => exact .kept rfl ht rfl
  | win => exact .won rfl rfl
  | preVoted _ _ _ _ hr =>
      refine .kept rfl rfl ?_
      show false = x.isLeader
      rw [Node.isLeader, hr]
  | voted _ _ _ _ hr =>
      refine .kept rfl rfl ?_
      show false = x.isLeader
      rw [Node.isLeader, hr]
  | register _ _ _ hl => exact .kept rfl rfl (hlead _ hl)
  | confirmed _ _ _ _ _ _ hl => exact .kept rfl rfl (hlead _ hl)
  | refused _ _ _ _ _ _ hl => exact .kept rfl rfl (hlead _ hl)
  | installed _ _ _ _ hl => exact .kept rfl rfl (hlead _ hl)
  | contact => exact .kept rfl rfl rfl
  | grant => exact .kept rfl rfl rfl
  | ship => exact .kept rfl rfl rfl
  | retire => exact hnone rfl rfl
  | preCampaign => exact hnone rfl rfl
  | campaign => exact hnone rfl rfl

theorem Moves.hinted (h : Moves now cause x y os) : Hinted cause x y := by
  induction h with
  | refl => exact .kept rfl rfl rfl
  | @step y z os os' h hm ih =>
      cases hm.hinted with
      | told hl hid => exact .told hl hid
      | won hl hid => exact .won hl hid
      | kept hid ht hl =>
          cases ih with
          | kept hid' ht' hl' =>
              exact .kept (hid.trans hid') (ht.trans ht') (hl.trans hl')
          | told hl' hid' =>
              refine .told (hl.trans hl') ?_
              rw [hid, ht]
              exact hid'
          | won hl' hid' =>
              refine .won (hl.trans hl') ?_
              rw [hid, hm.config]
              exact hid'

theorem Run.own_hint (run : Run D M) (i : ℕ) (n : NodeId)
    (hl : ((run.state i).nodes n).isLeader = true) :
    ((run.state i).nodes n).leaderId = some n := by
  have hown := run.node_invariant
    (I := fun x => x.isLeader = true → x.leaderId = some x.config.id)
    (by
      intro x hr hx
      rw [isLeader_of_follower hr] at hx
      cases hx)
    (by
      intro now cause x y os h hx hy
      cases h.hinted with
      | kept hid _ hl =>
          rw [hid, h.config]
          exact hx (hl ▸ hy)
      | told hl =>
          rw [hl] at hy
          cases hy
      | won _ hid => exact hid) i n hl
  rwa [run.id_eq] at hown

theorem Run.announces_led (run : Run D M) {i k t : ℕ} {r : Rpc M}
    (hr : (run.state i).rpcs[k]? = some r)
    (ha : (Cause.inbound r.request : Cause M).Announces t m) :
    run.Led i m t := by
  obtain ⟨T⟩ := run.exists_trace
  have hmem := List.mem_of_getElem? hr
  have hok := (T.inv i).rpcs r hmem
  have hled := run.replicates_led i r hmem t
  cases hreq : r.request with
  | appendEntries a =>
      rw [hreq] at ha hok
      obtain ⟨rfl, rfl⟩ := ha
      obtain ⟨hap, seq, htag, -⟩ := hok
      rw [hap.leaderId]
      exact hled (htag ▸ rfl)
  | installSnapshot a =>
      rw [hreq] at ha hok
      obtain ⟨rfl, rfl⟩ := ha
      obtain ⟨⟨P, hin⟩, htag⟩ := hok
      rw [hin.leaderId]
      exact hled (htag ▸ rfl)
  | requestVote a =>
      rw [hreq] at ha
      exact ha.elim
  | preVote a =>
      rw [hreq] at ha
      exact ha.elim

theorem Run.hint_led (run : Run D M) (i : ℕ) (n : NodeId) :
    ∀ m, ((run.state i).nodes n).leaderId = some m →
      run.Led i m ((run.state i).nodes n).currentTerm := by
  induction i with
  | zero =>
      intro m hm
      rw [run.init] at hm
      cases hm
  | succ i ih =>
      intro m hm
      have hold : (run.state (i + 1)).nodes n = (run.state i).nodes n →
          run.Led (i + 1) m ((run.state (i + 1)).nodes n).currentTerm := by
        intro heq
        rw [heq] at hm ⊢
        exact (ih m hm).mono (Nat.le_succ i)
      cases run.did i with
      | idle hc => exact hold (by rw [hc])
      | restart h =>
          by_cases hn : n = (run.effect i).node
          · subst hn
            obtain ⟨state, hx⟩ := Node.eq_boot_of_spawn h.node
            rw [hx] at hm
            cases hm
          · exact hold (h.others n hn)
      | turn now cause h =>
          by_cases hn : n = (run.effect i).node
          · subst hn
            cases h.moves.hinted with
            | kept hid ht =>
                rw [ht]
                exact (ih m (hid ▸ hm)).mono (Nat.le_succ i)
            | won hl hid =>
                rw [hid, run.id_eq] at hm
                cases hm
                exact ⟨i + 1, le_rfl, hl, rfl⟩
            | told _ hid =>
                have ha := hid m hm
                cases hc : cause with
                | inbound req =>
                    obtain ⟨k, r, -, hr, rfl, -⟩ := h.causes.of_inbound hc
                    rw [hc] at ha
                    exact (run.announces_led hr ha).mono (Nat.le_succ i)
                | _ =>
                    rw [hc] at ha
                    exact ha.elim
          · exact hold (h.others n hn)

/-! ## Redirects -/

def Opens (c c' : Ctx M) (o : Output M) : Prop :=
  ∃ os, c'.out = c.out ++ o :: os

theorem Opens.then_ {o : Output M} (h : Opens c c₁ o)
    (h' : ∃ os, c'.out = c₁.out ++ os) : Opens c c' o := by
  obtain ⟨os, ho⟩ := h
  obtain ⟨os', ho'⟩ := h'
  exact ⟨os ++ os', by rw [ho', ho, List.append_assoc, List.cons_append]⟩

theorem Standing.grows (h : Standing c c') : ∃ os, c'.out = c.out ++ os := by
  obtain ⟨os, ho, -⟩ := h
  exact ⟨os, ho⟩

theorem handlePropose_away (cmd : Command V)
    (hl : c.node.isLeader = false) :
    wlp (handlePropose now cmd) (fun _ c' => c'.out = c.out ++
      [.proposeReply (.error (.notLeader c.node.leaderId))]) c := by
  simp only [handlePropose, wlp_bind, wlp_node]
  cases hr : c.node.role with
  | leader l => exact absurd hr (Node.role_ne_leader hl l)
  | _ => exact wlp_emit.mpr rfl

theorem handleRead_away (hl : c.node.isLeader = false) :
    wlp handleRead (fun _ c' => c'.out = c.out ++
      [.readReply (.error (.notLeader c.node.leaderId))]) c := by
  simp only [handleRead, wlp_bind, wlp_node]
  cases hr : c.node.role with
  | leader l => exact absurd hr (Node.role_ne_leader hl l)
  | _ => exact wlp_emit.mpr rfl

theorem handlePropose_opens (cmd : Command V) (c : Ctx M) :
    wlp (handlePropose now cmd) (fun _ c' => ∃ r,
      Opens c c' (.proposeReply r) ∧ ∀ hint,
        r = .error (.notLeader hint) → hint = c.node.leaderId) c := by
  by_cases hlead : c.node.isLeader = false
  · refine wlp_mono (handlePropose_away cmd hlead) fun _ c' h =>
      ⟨_, ⟨[], h⟩, fun hint heq => ?_⟩
    cases heq
    rfl
  obtain ⟨l, hl⟩ := Node.isLeader_iff.mp (Bool.not_eq_false _ ▸ hlead)
  simp only [handlePropose, wlp_bind, wlp_node, hl]
  cases hv : c.node.validateCommand l now cmd with
  | error reason =>
      exact wlp_emit.mpr ⟨_, ⟨[], rfl⟩, fun hint h => (by cases h)⟩
  | ok u =>
      simp only [wlp_bind, wlp_expect, wlp_update, wlp_emit, wlp_node]
      intro S hS
      have hrest : ∀ c₁ : Ctx M, Opens c c₁ (.proposeReply
          (.ok (c.node.currentTerm, c.node.storage.lastIndex + 1))) →
          wlp maybeAdvanceCommit (fun _ c₂ =>
            wlp (sendAppends c₂.node.replicationTargets) (fun _ c' => ∃ r,
              Opens c c' (.proposeReply r) ∧ ∀ hint,
                r = .error (.notLeader hint) →
                  hint = c.node.leaderId) c₂) c₁ := by
        intro c₁ h₁
        refine wlp_mono (maybeAdvanceCommit_mute c₁) fun _ c₂ h₂ => ?_
        refine wlp_mono (sendAppends_standing _ c₂) fun _ c₃ h₃ => ?_
        exact ⟨_, (h₁.then_ h₂.standing.grows).then_ h₃.1.grows,
          fun hint h => (by cases h)⟩
      cases cmd with
      | put key value session => exact wlp_pure.mpr (hrest _ ⟨[], rfl⟩)
      | delete key session => exact wlp_pure.mpr (hrest _ ⟨[], rfl⟩)
      | noop => exact wlp_pure.mpr (hrest _ ⟨[], rfl⟩)
      | configChange new =>
          simp only [adoptCommand, adoptMembership, publishMembership,
            wlp_bind, wlp_update, hl]
          exact hrest _ ⟨[], rfl⟩

theorem handleRead_opens (c : Ctx M) :
    wlp handleRead (fun _ c' => ∃ r, Opens c c' (.readReply r) ∧ ∀ hint,
      r = .error (.notLeader hint) → hint = c.node.leaderId) c := by
  by_cases hlead : c.node.isLeader = false
  · refine wlp_mono (handleRead_away hlead) fun _ c' h =>
      ⟨_, ⟨[], h⟩, fun hint heq => ?_⟩
    cases heq
    rfl
  obtain ⟨l, hl⟩ := Node.isLeader_iff.mp (Bool.not_eq_false _ ▸ hlead)
  simp only [handleRead, wlp_bind, wlp_node, wlp_update, wlp_emit, hl]
  refine wlp_mono (sendAppends_standing _ _) fun _ c₁ h₁ => ?_
  refine wlp_mono (resolveReads_calm c₁) fun _ c₂ h₂ => ?_
  obtain ⟨⟨-, os, ho, -⟩, -⟩ := h₂
  refine ⟨_, (Opens.then_ ⟨[], rfl⟩ h₁.1.grows).then_ ⟨os, ho⟩, ?_⟩
  intro hint h
  cases h

/-- A client asked node `n` for something on `path` in step `i` and was told
`response` because it failed: a write, by what the proposal was answered and
what became of it, or a read, by what the ticket was. -/
inductive Run.Failed (run : Run D M) (i : ℕ) (n : NodeId)
    (peerUrls : NodeId → Option String) (path : String) :
    Response → Prop
  | write {cmd : Command V} {now : Instant}
      {proposal : Except ProposeError (Nat × Nat)} {committed : Awaited Bool}
      {e : WriteError} (hact : run.action i = .propose n cmd now)
      (hans : (run.effect i).outputs.head? = some (.proposeReply proposal))
      (he : KvNode.write proposal committed = .error e) :
      Failed run i n peerUrls path (writeErrorResponse peerUrls path e)
  | read {ticket : Except ProposeError (Nat × PendingRead)}
      {granted : Awaited Unit} {store : KvStore V} {e : ReadError}
      (hact : run.action i = .read n)
      (hans : (run.effect i).outputs.head? = some (.readReply ticket))
      (he : KvNode.getLinearizable ticket granted store path = .error e) :
      Failed run i n peerUrls path (readErrorResponse peerUrls path e)

theorem redirectToLeader_location {peerUrls : NodeId → Option String}
    {path loc : String} {hint : Option NodeId} {body : String}
    (h : ((redirectToLeader peerUrls path hint).getD
      ⟨503, none, body⟩).location = some loc) :
    ∃ x base, hint = some x ∧ peerUrls x = some base ∧
      loc = base ++ "/" ++ path := by
  cases hint with
  | none => cases h
  | some x =>
      cases hb : peerUrls x with
      | none =>
          rw [redirectToLeader, Option.bind_eq_bind, Option.bind_some, hb] at h
          cases h
      | some base =>
          rw [redirectToLeader, Option.bind_eq_bind, Option.bind_some, hb] at h
          exact ⟨x, base, rfl, hb, (Option.some.inj h).symm⟩

theorem Cluster.exec_outputs {cl cl' : Cluster M} {eff : Effect M}
    {n : NodeId} {body : NodeM M Unit} {Q : List (Output M) → Prop}
    (h : cl.exec n (silently body) = .ok (cl', eff))
    (hb : wlp body (fun _ c₁ => Q c₁.out) ⟨cl.nodes n, []⟩) :
    Q eff.outputs := by
  have hb' : wlp (silently body) (fun _ c₁ => Q c₁.out)
      ⟨cl.nodes n, []⟩ := by
    simp only [silently, wlp_bind, wlp_pure]
    exact hb
  rw [Cluster.exec] at h
  split at h
  · cases h
  · next answers c₁ hx =>
      cases h
      exact hb' answers c₁ hx

theorem Run.sent_away (run : Run D M) {i : ℕ} {n : NodeId}
    {cmd : Command V} (hact : run.action i = .propose n cmd now)
    (hl : ((run.state i).nodes n).isLeader = false) :
    (run.effect i).outputs = [.proposeReply
      (.error (.notLeader ((run.state i).nodes n).leaderId))] := by
  have hstep := run.step i
  rw [hact] at hstep
  exact Cluster.exec_outputs (Q := fun out => out = [.proposeReply
    (.error (.notLeader ((run.state i).nodes n).leaderId))])
    (Option.some.inj hstep) (handlePropose_away cmd hl)

theorem write_location {proposal : Except ProposeError (Nat × Nat)}
    {committed : Awaited Bool} {e : WriteError}
    {peerUrls : NodeId → Option String} {path loc : String}
    (he : KvNode.write proposal committed = .error e)
    (hloc : (writeErrorResponse peerUrls path e).location = some loc) :
    ∃ x base, proposal = .error (.notLeader (some x)) ∧
      peerUrls x = some base ∧ loc = base ++ "/" ++ path := by
  cases e with
  | notLeader hint =>
      obtain ⟨x, base, rfl, hb, hl⟩ := redirectToLeader_location hloc
      refine ⟨x, base, ?_, hb, hl⟩
      cases proposal with
      | error pe =>
          cases pe <;> cases he
          rfl
      | ok p =>
          cases committed with
          | received b => cases b <;> cases he
          | _ => cases he
  | _ => cases hloc

theorem read_location {ticket : Except ProposeError (Nat × PendingRead)}
    {granted : Awaited Unit} {store : KvStore V} {e : ReadError}
    {peerUrls : NodeId → Option String} {key loc : String}
    (he : KvNode.getLinearizable ticket granted store key = .error e)
    (hloc : (readErrorResponse peerUrls key e).location = some loc) :
    ∃ x base, ticket = .error (.notLeader (some x)) ∧
      peerUrls x = some base ∧ loc = base ++ "/" ++ key := by
  cases e with
  | notLeader hint =>
      obtain ⟨x, base, rfl, hb, hl⟩ := redirectToLeader_location hloc
      refine ⟨x, base, ?_, hb, hl⟩
      cases ticket with
      | error pe =>
          cases pe <;> cases he
          rfl
      | ok p => cases granted <;> cases he
  | _ => cases hloc

/-- A redirect is by the hint of the node that was asked. -/
theorem Run.Failed.hint {i : ℕ} {n : NodeId}
    {peerUrls : NodeId → Option String} {path loc : String}
    {response : Response} (h : run.Failed i n peerUrls path response)
    (hloc : response.location = some loc) :
    ∃ x base, ((run.state i).nodes n).leaderId = some x ∧
      peerUrls x = some base ∧ loc = base ++ "/" ++ path := by
  have hstep := run.step i
  cases h with
  | @write cmd now proposal committed e hact hans he =>
      obtain ⟨x, base, rfl, hb, hl⟩ := write_location he hloc
      rw [hact] at hstep
      obtain ⟨r, ⟨os, ho⟩, hhint⟩ := Cluster.exec_outputs
        (Q := fun out => ∃ r, (∃ os, out = [] ++ .proposeReply r :: os) ∧
          ∀ hint, r = .error (.notLeader hint) →
            hint = ((run.state i).nodes n).leaderId)
        (Option.some.inj hstep) (handlePropose_opens cmd _)
      rw [ho] at hans
      cases hans
      exact ⟨x, base, (hhint _ rfl).symm, hb, hl⟩
  | @read ticket granted store e hact hans he =>
      obtain ⟨x, base, rfl, hb, hl⟩ := read_location he hloc
      rw [hact] at hstep
      obtain ⟨r, ⟨os, ho⟩, hhint⟩ := Cluster.exec_outputs
        (Q := fun out => ∃ r, (∃ os, out = [] ++ .readReply r :: os) ∧
          ∀ hint, r = .error (.notLeader hint) →
            hint = ((run.state i).nodes n).leaderId)
        (Option.some.inj hstep) (handleRead_opens _)
      rw [ho] at hans
      cases hans
      exact ⟨x, base, (hhint _ rfl).symm, hb, hl⟩

/-! ## Hints agree -/

theorem Run.Led.unique {i j t : ℕ} {n : NodeId} (hn : run.Led i n t)
    (hm : run.Led j m t) : n = m := by
  obtain ⟨T⟩ := run.exists_trace
  obtain ⟨i', -, hl, rfl⟩ := hn
  obtain ⟨j', -, hl', ht⟩ := hm
  obtain ⟨b, hb, -⟩ := T.leader hl
  obtain ⟨b', hb', -⟩ := T.leader hl'
  rw [ht] at hb'
  exact congrArg Prod.fst (T.led_unique hb hb')

/-- In every state of a run: whom a node's hint names won the election of the
node's term; a leader's hint is itself; two nodes in one term, whenever one
looks at them, have one hint if they have any; and where a failed request is
redirected to is the URL of a node that won the term of the one asked. -/
theorem leader_hints_agree (run : Run D M) (i : ℕ) (n : NodeId) :
    (∀ x, ((run.state i).nodes n).leaderId = some x →
      run.Led i x ((run.state i).nodes n).currentTerm) ∧
    (((run.state i).nodes n).isLeader = true →
      ((run.state i).nodes n).leaderId = some n) ∧
    (∀ j m x y, ((run.state i).nodes n).currentTerm =
        ((run.state j).nodes m).currentTerm →
      ((run.state i).nodes n).leaderId = some x →
      ((run.state j).nodes m).leaderId = some y → x = y) ∧
    ∀ peerUrls path response loc,
      run.Failed i n peerUrls path response → response.location = some loc →
      ∃ x base, peerUrls x = some base ∧ loc = base ++ "/" ++ path ∧
        run.Led i x ((run.state i).nodes n).currentTerm := by
  refine ⟨run.hint_led i n, run.own_hint i n, ?_, ?_⟩
  · intro j m x y ht hx hy
    have hled := run.hint_led j m y hy
    rw [← ht] at hled
    exact (run.hint_led i n x hx).unique hled
  · intro peerUrls path response loc hf hloc
    obtain ⟨x, base, hx, hb, hl⟩ := hf.hint hloc
    exact ⟨x, base, hb, hl, run.hint_led i n x hx⟩

/-- Node 1 wins the first term, node 2 hears of it and is asked to write. -/
def askedRun : Run (Deployment.ofIds [1, 2] none) (KvStore.machine Nat) :=
  Run.ofActions _ _ [.timeout 1 0, .deliver 0 0, .reply 0 0, .deliver 1 0,
    .reply 1 0, .deliver 2 0, .propose 2 (.put "x" 7 none) 0]
    (by decide +kernel)

theorem leader_hints_agree_asked :
    ((askedRun.state 6).nodes 2).leaderId = some 1 ∧
      askedRun.Failed 6 2 (fun n => if n = 1 then some "http://one" else none)
        "x" ⟨307, some "http://one/x", ""⟩ ∧
      askedRun.Led 6 1 ((askedRun.state 6).nodes 2).currentTerm := by
  have hhint : ((askedRun.state 6).nodes 2).leaderId = some 1 := by
    decide +kernel
  have haway := askedRun.sent_away (i := 6) rfl (by decide +kernel)
  rw [hhint] at haway
  have hresponse : writeErrorResponse
      (fun n => if n = 1 then some "http://one" else none) "x"
      (.notLeader (some 1)) = ⟨307, some "http://one/x", ""⟩ := by
    decide +kernel
  rw [← hresponse]
  exact ⟨hhint, .write rfl (congrArg List.head? haway)
    (rfl : KvNode.write _ .closed = _),
    (leader_hints_agree askedRun 6 2).1 1 hhint⟩

end RustKV
