import RustKV.Proofs.Configuration
import RustKV.Proofs.Readmission
import RustKV.Proofs.PreCampaign

/-!
# A removed server cannot disrupt the cluster

A server that has not learned of its removal keeps its old configuration and
keeps timing out. Leader contact is no defence against it: whoever has not
heard from the leader lately answers its probes on the log alone. What stops
it is that the log check is enough. The removal is committed, so a majority of
some configuration holds it or what led up to it; the configuration the
removed server goes by is old, but every majority of it still has a server in
it that acknowledged something committed the removed server lacks
(`Wf.exists_backer`), and that one does not grant.

The argument looks at three moments: when the removal was committed, when the
probe was sent, and when its grants are counted. Between the last two the
removed server may have caught up a little; what it held of the committed
entries it still holds (`retains`).
-/

namespace RustKV

open Rust Consensus History

variable {V : Type} {M : StateMachine V} {D : Deployment} {run : Run D M}
  {F : List (LogEntry V)}

/-! ## Committed entries in the logs of a run -/

namespace Run.Trace

theorem take_tlog (T : run.Trace) {i i' t k m : ℕ}
    (hc : (T.hist i).commit t k m) (h : i ≤ i') :
    ((T.hist i').tlog t).take k = ((T.hist i).tlog t).take k :=
  (T.le h).take_eq ((T.inv i).sound.wf.commit_last hc).2.2.1

theorem acked_held (T : run.Trace) {i i' t k m : ℕ} {n : NodeId}
    (hi : i ≤ i') (hc : (T.hist i).commit t k m)
    (ha : (T.hist i).ack n t k) :
    ((T.hist i).tlog t).take k <+: T.log i' n := by
  have hle := T.le hi
  rw [← T.take_tlog hc hi]
  exact ((T.inv i').nodes n).ok.holds_commit (T.inv i').sound.wf
    (hle.commit hc) (hle.ack ha)

/-- A log at least as up to date as one with a committed part has the part,
whenever it was committed. -/
theorem upToDate_held (T : run.Trace) {i c g t k m : ℕ} {p v : NodeId}
    (hc : (T.hist i).commit t k m)
    (hup : (rules D).UpToDate (T.log c p) (T.log g v))
    (hv : ((T.hist i).tlog t).take k <+: T.log g v) :
    ((T.hist i).tlog t).take k <+: T.log c p := by
  obtain ⟨z, hiz, hcz, hgz⟩ : ∃ z, i ≤ z ∧ c ≤ z ∧ g ≤ z :=
    ⟨max i (max c g), by omega, by omega, by omega⟩
  rw [← T.take_tlog hc hiz] at hv ⊢
  exact (T.inv z).sound.wf.committed_of_upToDate ((T.le hiz).commit hc)
    (((T.inv c).nodes p).ok.valid.mono (T.le hcz))
    (((T.inv g).nodes v).ok.valid.mono (T.le hgz)) hup hv

/-- If a node has a committed part, every leader it may hear from has it
too. -/
theorem held_tlog (T : run.Trace) {i j t k m u : ℕ} {n : NodeId}
    {y : NodeId × List (LogEntry V)} (hc : (T.hist i).commit t k m)
    (hp : ((T.hist i).tlog t).take k <+: T.log j n)
    (hu : ((run.state j).nodes n).currentTerm ≤ u)
    (hl : (T.hist j).led u = some y) :
    ((T.hist i).tlog t).take k <+: (T.hist j).tlog u := by
  have hok := ((T.inv j).nodes n).ok
  obtain ⟨hk, -, hlen, -⟩ := (T.inv i).sound.wf.commit_last hc
  obtain ⟨x, hx, rfl⟩ := (T.inv i).sound.wf.commit_entry hc hp
  have hterm : (rules D).term x ≤ ((run.state j).nodes n).currentTerm :=
    hok.log_le x (List.mem_of_getElem? hx)
  rcases (hterm.trans hu).lt_or_eq with hlt | rfl
  · -- a later leader was elected with it
    obtain ⟨q, b⟩ := y
    have hbase := (T.inv (max i j)).sound.wf.led_holds
      ((T.le (le_max_right i j)).led hl) _ k m hlt
      ((T.le (le_max_left i j)).commit hc)
    rw [T.take_tlog hc (le_max_left i j)] at hbase
    exact hbase.trans ((T.inv j).sound.wf.led_log hl).1
  · -- the node got it from the leader that committed it
    obtain ⟨_, _, -, -, hpre⟩ := hok.valid _ x hx
    refine (List.prefix_take_iff.mpr ⟨hp, ?_⟩).trans hpre
    rw [List.length_take]
    omega

/-- A node keeps what it has of anything that is ever committed. -/
theorem retains (T : run.Trace) {i c e t k m : ℕ} {n : NodeId}
    (hce : c ≤ e) (hc : (T.hist i).commit t k m)
    (hp : ((T.hist i).tlog t).take k <+: T.log c n) :
    ((T.hist i).tlog t).take k <+: T.log e n := by
  induction e, hce using Nat.le_induction with
  | base => exact hp
  | succ e _ ih =>
      obtain ⟨_, htr, -⟩ := (T.advance e).here
      by_cases hn : n = (run.effect e).node
      · subst hn
        exact htr.kept _ ih fun u y hu _ hl => T.held_tlog hc ih hu hl
      · rw [((T.advance e).others n hn).2]
        exact ih

theorem commit_of_applied (T : run.Trace) {j : ℕ} {x : LogEntry V}
    (h : Output.applied x ∈ (run.effect j).outputs) :
    0 < x.index ∧ ∃ t k m, (T.hist (j + 1)).commit t k m ∧
      (((T.hist (j + 1)).tlog t).take k)[x.index - 1]? = some x := by
  obtain ⟨hpos, u, P, rfl | ⟨t, k, m, -, hc, hpre⟩, hx⟩ := T.applied_output h
  · cases hx
  · exact ⟨hpos, t, k, m, hc, getElem?_of_isPrefix hpre hx⟩

end Run.Trace

/-! ## Probes and grants -/

/-- At step `c` node `p` asks `v` for a pre-vote, with `args`. -/
def Run.Probes (run : Run D M) (c : ℕ) (p v : NodeId)
    (args : RequestVoteArgs) : Prop :=
  (run.effect c).node = p ∧
    ∃ tag, Output.send v (.preVote args) tag ∈ (run.effect c).outputs

/-- At step `g` node `v` handles a pre-vote probe of `p` and grants it. -/
def Run.GrantsProbe (run : Run D M) (g : ℕ) (p v : NodeId)
    (args : RequestVoteArgs) : Prop :=
  ∃ i now r reply, run.action g = .deliver i now ∧
    (run.state g).rpcs[i]? = some r ∧ r.src = p ∧ r.dst = v ∧
    r.request = .preVote args ∧
    (run.state (g + 1)).replies =
      (run.state g).replies ++ [⟨r, .preVote reply⟩] ∧
    reply.voteGranted = true

theorem Cluster.exec_preVote {c c' : Cluster M} {r : Rpc M} {now : Instant}
    {args : RequestVoteArgs} {eff : Effect M} (hreq : r.request = .preVote args)
    (h : c.exec r.dst (Cluster.serve now r) = .ok (c', eff)) :
    c'.replies = c.replies ++ [⟨r, .preVote
      ⟨(c.nodes r.dst).currentTerm,
        args.term > (c.nodes r.dst).currentTerm ∧
          (c.nodes r.dst).logUpToDate args ∧
          !(c.nodes r.dst).leaderIsLive now⟩⟩] := by
  obtain ⟨src, epoch, dst, req, tag⟩ := r
  cases hreq
  cases h
  rfl

theorem Run.grantsProbe_iff {g : ℕ} {p v : NodeId} {args : RequestVoteArgs} :
    run.GrantsProbe g p v args ↔ ∃ i now r, run.action g = .deliver i now ∧
      (run.state g).rpcs[i]? = some r ∧ r.src = p ∧ r.dst = v ∧
      r.request = .preVote args ∧
      args.term > ((run.state g).nodes v).currentTerm ∧
      ((run.state g).nodes v).logUpToDate args = true ∧
      ((run.state g).nodes v).leaderIsLive now = false := by
  have hreplies : ∀ {i now r}, run.action g = .deliver i now →
      (run.state g).rpcs[i]? = some r → r.request = .preVote args → _ :=
    fun {i now r} hact hr hreq => by
      have hs := run.step g
      rw [hact, Cluster.step, hr, Option.map_some, Option.some.injEq] at hs
      exact Cluster.exec_preVote hreq hs
  constructor
  · rintro ⟨i, now, r, reply, hact, hr, hsrc, rfl, hreq, hrep, hgr⟩
    rw [hreplies hact hr hreq, List.append_cancel_left_eq,
      List.cons.injEq, Reply.mk.injEq, RpcResponse.preVote.injEq] at hrep
    rw [← hrep.1.2, decide_eq_true_eq, Bool.not_eq_true_eq_eq_false] at hgr
    exact ⟨i, now, r, hact, hr, hsrc, rfl, hreq, hgr⟩
  · rintro ⟨i, now, r, hact, hr, hsrc, rfl, hreq, hgr⟩
    refine ⟨i, now, r, _, hact, hr, hsrc, rfl, hreq,
      hreplies hact hr hreq, ?_⟩
    rwa [decide_eq_true_eq, Bool.not_eq_true_eq_eq_false]

/-- The log a probe was sent with is at least as up to date as that of
whoever grants it. -/
theorem Run.Trace.probe_upToDate (T : run.Trace) {c g : ℕ} {p v : NodeId}
    {args : RequestVoteArgs} (hp : run.Probes c p v args)
    (hg : run.GrantsProbe g p v args) :
    (rules D).UpToDate (T.log c p) (T.log g v) := by
  obtain ⟨rfl, tag, ho⟩ := hp
  obtain ⟨_, htr, -⟩ := (T.advance c).here
  have hargs := (htr.out _ ho).2.2.2 args rfl
  have hrepr := ((T.inv c).nodes (run.effect c).node).body.repr
  obtain ⟨_, _, _, -, -, -, -, -, -, hlog, -⟩ := Run.grantsProbe_iff.mp hg
  refine (logUpToDate_iff ((T.inv g).nodes v).body ?_ ?_).mp hlog
  · rw [hargs]
    exact hrepr.lastIndex
  · rw [hargs]
    exact hrepr.lastTerm

/-! ## A pre-campaign -/

/-- As long as a pre-campaign is open, the configuration is the one it was
started with. -/
theorem Run.members_of_preCampaign (run : Run D M) {c e : ℕ} {p : NodeId}
    (hce : c ≤ e) (hopen : ∀ k, c < k → k ≤ e → ∃ votes,
      ((run.state k).nodes p).role = .preCandidate votes) :
    ((run.state e).nodes p).members = ((run.state c).nodes p).members := by
  induction e, hce using Nat.le_induction with
  | base => rfl
  | succ e hce ih =>
      rw [← ih fun k hk hke => hopen k hk (by omega)]
      obtain ⟨votes, hr⟩ := hopen (e + 1) (by omega) le_rfl
      cases run.did e with
      | idle hc => rw [hc]
      | restart h =>
          by_cases hp : p = (run.effect e).node
          · subst hp
            rw [Node.role_of_spawn h.node] at hr
            cases hr
          · rw [h.others p hp]
      | turn now cause h =>
          by_cases hp : p = (run.effect e).node
          · subst hp
            exact (h.moves.polled hr).members
          · rw [h.others p hp]

/-! ## Removed and added again -/

/-- In step `j` a configuration without `p` is committed. Whoever commits an
entry applies it in the same step, so that is when it is first applied. -/
def Run.Removes (run : Run D M) (j : ℕ) (p : NodeId) : Prop :=
  ∃ x m, x.configChange? = some m ∧ p ∉ m.keySet ∧
    Output.applied x ∈ (run.effect j).outputs ∧
    ∀ i, i < j → Output.applied x ∉ (run.effect i).outputs

/-- `x` adds `p` in the log of `n`: it is a configuration with `p` in it, and
the one in front of it is without. -/
structure Run.Adds (run : Run D M) (k : ℕ) (n : NodeId) (x : LogEntry V)
    (p : NodeId) : Prop where
  keeps : run.Keeps k n x
  with_it : ∃ m, x.configChange? = some m ∧ p ∈ m.keySet
  without : ∃ y m, run.Keeps k n y ∧ y.configChange? = some m ∧
    p ∉ m.keySet ∧ y.index < x.index ∧
    ∀ z, run.Keeps k n z → y.index < z.index → z.index < x.index →
      z.configChange? = none

/-- After the first `i` steps and in the first `e` a configuration that adds
`p` is appended: some node has one then that nobody had before. A
configuration with `p` that follows on others with `p` is not one. -/
def Run.Readds (run : Run D M) (i e : ℕ) (p : NodeId) : Prop :=
  ∃ k n x, k ≤ e ∧ run.Adds k n x p ∧
    ∀ i' n', i' ≤ i → ¬ run.Keeps i' n' x

/-- The configuration a log ends in, found behind all others it carries. -/
theorem Indexed.exists_lastConfig (h : Indexed F) {x : LogEntry V}
    (hx : x ∈ F) (hc : x.configChange? ≠ none) :
    ∃ y m, y ∈ F ∧ y.configChange? = some m ∧ lastConfig F = some m ∧
      ∀ z ∈ F, z.configChange? ≠ none → z.index ≤ y.index := by
  cases hn : newestConfig F with
  | none => exact absurd (newestConfig_eq_none.mp hn x hx) hc
  | some found =>
      obtain ⟨y, hy, hm, hi⟩ := exists_of_newestConfig hn
      have hlast := newestConfig_fst F
      rw [hn] at hlast
      exact ⟨y, found.1, hy, hm, hlast.symm,
        fun z hz hcz => hi ▸ newestConfig_index h.pairwise hn hz hcz⟩

/-- In a log that carries a configuration without `p` and ends in one with
`p`, there is one in between that adds `p`. -/
theorem Indexed.exists_adding (h : Indexed F) {p : NodeId} {x : LogEntry V}
    {m m' : Membership} (hx : x ∈ F) (hm : x.configChange? = some m)
    (hout : p ∉ m.keySet) (hlast : lastConfig F = some m')
    (hin : p ∈ m'.keySet) :
    ∃ y my z mz, y ∈ F ∧ y.configChange? = some my ∧ p ∉ my.keySet ∧
      z ∈ F ∧ z.configChange? = some mz ∧ p ∈ mz.keySet ∧
      x.index < z.index ∧ y.index < z.index ∧
      ∀ w ∈ F, y.index < w.index → w.index < z.index →
        w.configChange? = none := by
  classical
  have hc : x.configChange? ≠ none := by
    rw [hm]
    exact Option.some_ne_none m
  have same : ∀ w ∈ F, w.index = x.index → w = x := by
    intro w hw hwx
    have hget := (h.getElem?_of_mem hw).2
    rw [hwx, (h.getElem?_of_mem hx).2] at hget
    exact (Option.some.inj hget).symm
  -- the first configuration with `p` behind `x`
  have hex : ∃ i, ∃ z ∈ F, z.index = i ∧ x.index < i ∧
      ∃ mz, z.configChange? = some mz ∧ p ∈ mz.keySet := by
    obtain ⟨z, mz, hz, hmz, hlast', hnew⟩ := h.exists_lastConfig hx hc
    rw [hlast] at hlast'
    cases hlast'
    refine ⟨z.index, z, hz, rfl, lt_of_le_of_ne (hnew x hx hc) ?_, _, hmz, hin⟩
    intro heq
    rw [same z hz heq.symm, hm] at hmz
    cases hmz
    exact hout hin
  obtain ⟨z, hz, hzi, hlt, mz, hmz, hinz⟩ := Nat.find_spec hex
  have hfirst : ∀ w ∈ F, x.index < w.index → w.index < z.index →
      ∀ mw, w.configChange? = some mw → p ∉ mw.keySet :=
    fun w hw hxw hwz mw hmw hpw =>
      Nat.find_min hex (hzi ▸ hwz) ⟨w, hw, rfl, hxw, mw, hmw, hpw⟩
  rw [← hzi] at hlt
  -- the one in front of it
  have front : ∀ w ∈ F, w.index < z.index → w ∈ F.take (z.index - 1) := by
    intro w hw hwz
    obtain ⟨hpos, hget⟩ := h.getElem?_of_mem hw
    refine List.mem_of_getElem? (i := w.index - 1) ?_
    rw [List.getElem?_take_of_lt (by omega), hget]
  obtain ⟨y, my, hy, hmy, -, hnew⟩ :=
    (h.shorten <| List.take_prefix _ _).exists_lastConfig
      (front x hx hlt) hc
  have hyF := List.mem_of_mem_take hy
  have hyz : y.index < z.index := by
    have hle := h.le_of_mem_take hy
    have hpos := (h.getElem?_of_mem hz).1
    omega
  refine ⟨y, my, z, mz, hyF, hmy, ?_, hz, hmz, hinz, hlt, hyz, ?_⟩
  · rcases (hnew x (front x hx hlt) hc).lt_or_eq with hxy | hxy
    · exact hfirst y hyF hxy hyz my hmy
    · rw [same y hyF hxy.symm, hm] at hmy
      cases hmy
      exact hout
  · intro w hw hyw hwz
    by_contra hcw
    exact absurd (hnew w (front w hw hwz) hcw) (Nat.not_le_of_lt hyw)

/-- A node that has a configuration without it and goes by one with it has
been added again. -/
theorem Run.Trace.readds (T : run.Trace) {j e : ℕ} {p : NodeId}
    {x : LogEntry V} {m : Membership} (hm : x.configChange? = some m)
    (hout : p ∉ m.keySet)
    (hfirst : ∀ i, i < j → Output.applied x ∉ (run.effect i).outputs)
    (hpos : 0 < x.index) (hx : (T.log e p)[x.index - 1]? = some x)
    (hin : p ∈ ((run.state e).nodes p).members.keySet) :
    run.Readds (j + 1) e p := by
  have hnode := (T.inv e).nodes p
  have hix := hnode.body.repr.indexed
  have hmemx := List.mem_of_getElem? hx
  have hc : x.configChange? ≠ none := by
    rw [hm]
    exact Option.some_ne_none m
  obtain ⟨_, m', -, -, hlast, -⟩ := hix.exists_lastConfig hmemx hc
  have hmem : ((run.state e).nodes p).members = m' := by
    rw [hnode.members.members, membersOf, hlast]
    rfl
  rw [hmem] at hin
  obtain ⟨y, my, z, mz, hy, hmy, houty, hz, hmz, hinz, hxz, hyz, hnone⟩ :=
    hix.exists_adding hmemx hm hout hlast hin
  obtain ⟨hposy, hgety⟩ := hix.getElem?_of_mem hy
  obtain ⟨hposz, hgetz⟩ := hix.getElem?_of_mem hz
  have hcz : z.configChange? ≠ none := by
    rw [hmz]
    exact Option.some_ne_none mz
  -- whoever appended it had the removal applied
  obtain ⟨K, hK, happ, -, -, i, hi, ho⟩ :=
    T.created_behind hpos hx hgetz hc hcz hxz
  have hji : j ≤ i := by
    by_contra hlt
    exact hfirst i (by omega) ho
  refine ⟨e, p, z, le_rfl, ⟨T.keeps hposz hgetz, ⟨mz, hmz, hinz⟩, y, my,
    T.keeps hposy hgety, hmy, houty, hyz, fun w hw hyw hwz => ?_⟩,
    fun i' n' hi' => (happ.absent i' (by omega)).2 n'⟩
  exact hnone w (List.mem_of_getElem? (T.getElem?_of_keeps hw).2) hyw hwz

/-- What the log of a removed server lacks, a majority of the configuration
it goes by has a server for that will not grant. -/
theorem Run.Trace.prevote_minority (T : run.Trace) {j c e : ℕ} {p : NodeId}
    (hrem : run.Removes j p) (hadd : ¬ run.Readds (j + 1) e p) (hj : j < e)
    (hc : c ≤ e) (hp : p ∈ ((run.state e).nodes p).members.keySet)
    {Q : Finset NodeId} (hQ : ∀ v ∈ Q, v = p ∨ ∃ g args, j < g ∧
      run.Probes c p v args ∧ run.GrantsProbe g p v args) :
    ¬ IsMajority Q ((run.state e).nodes p).members.keySet := by
  intro hmaj
  obtain ⟨x, m, hm, hout, ho, hfirst⟩ := hrem
  obtain ⟨hpos, t, k, l, hcm, hx⟩ := T.commit_of_applied ho
  -- `p` lacks the removal
  have hlack : ¬ ((T.hist (j + 1)).tlog t).take k <+: T.log e p := fun h =>
    hadd (T.readds hm hout hfirst hpos (getElem?_of_isPrefix h hx) hp)
  have hnode := (T.inv e).nodes p
  rw [hnode.members.members] at hmaj hp
  rcases membersOf_keySet D p (T.log e p) with hcfg | hnone
  swap
  · rw [hnone] at hp
    cases hp
  rw [hcfg] at hmaj
  obtain ⟨u, hbu, htu⟩ : ∃ u, (rules D).lastTerm (T.log e p) < u ∧ t < u :=
    ⟨max ((rules D).lastTerm (T.log e p)) t + 1, by omega, by omega⟩
  obtain ⟨v, hvQ, s, r, q, -, -, hcs, hack, hlacks⟩ :=
    (T.inv (j + 1)).sound.wf.exists_backer (T.inv e).sound.wf (T.le hj)
      hnode.ok.valid hmaj hbu
      (fun _ _ _ _ hl => (T.inv e).sound.wf.led_holds hl) htu hcm hlack
  refine hlacks ?_
  rcases hQ v hvQ with rfl | ⟨g, args, hg, hprobe, hgrant⟩
  · exact T.acked_held hj hcs hack
  · have hheld := T.acked_held (show j + 1 ≤ g from hg) hcs hack
    have hup := T.probe_upToDate hprobe hgrant
    exact T.retains hc hcs (T.upToDate_held hcs hup hheld)

/-- From the moment the removal of `p` is committed until `p` is added again:
whoever from then on grants the probes `p` sent in one step, together with
`p` they are no majority of the configuration `p` goes by, as long as it is
one with `p` in it; and none of the configuration `p` sent the probes under,
as long as that pre-campaign is open. -/
theorem removed_prevote_minority (run : Run D M) {j c e : ℕ} {p : NodeId}
    (hrem : run.Removes j p) (hadd : ¬ run.Readds (j + 1) e p) (hj : j < e)
    (hc : c ≤ e) (hp : p ∈ ((run.state e).nodes p).members.keySet)
    {Q : Finset NodeId} (hQ : ∀ v ∈ Q, v = p ∨ ∃ g args, j < g ∧
      run.Probes c p v args ∧ run.GrantsProbe g p v args) :
    ¬ IsMajority Q ((run.state e).nodes p).members.keySet ∧
      ((∀ k, c < k → k ≤ e → ∃ votes,
          ((run.state k).nodes p).role = .preCandidate votes) →
        ¬ IsMajority Q ((run.state c).nodes p).members.keySet) := by
  obtain ⟨T⟩ := run.exists_trace
  have hnot := T.prevote_minority hrem hadd hj hc hp hQ
  refine ⟨hnot, fun hopen => ?_⟩
  rwa [← run.members_of_preCampaign hc hopen]

/-- Node 1 leads five nodes and removes 5. Nodes 4 and 5 hear nothing of it;
5 starts a pre-campaign, and 4 grants it. -/
def laggardRun :
    Run (Deployment.ofIds [1, 2, 3, 4, 5] none) (KvStore.machine Nat) :=
  Run.ofActions _ _ [.timeout 1 0, .deliver 0 0, .deliver 1 0, .reply 0 0,
    .reply 1 0, .deliver 4 0, .deliver 5 0, .reply 2 0, .reply 3 0,
    .deliver 8 0, .deliver 9 0, .reply 4 0, .reply 5 0,
    .propose 1 (.configChange (membersOfIds [1, 2, 3, 4])) 20,
    .deliver 12 20, .deliver 13 20, .reply 6 20, .reply 7 20, .timeout 5 30,
    .deliver 19 30] (by decide +kernel)

theorem Run.nodes_of_untouched (run : Run D M) {n : NodeId} {k : ℕ}
    (h : ∀ i, i < k → (run.effect i).node ≠ n) :
    (run.state k).nodes n = (Cluster.init D : Cluster M).nodes n := by
  obtain ⟨T⟩ := run.exists_trace
  induction k with
  | zero => rw [run.init]
  | succ k ih =>
      rw [((T.advance k).others n (h k (Nat.lt_succ_self k)).symm).1]
      exact ih fun i hi => h i (Nat.lt_succ_of_lt hi)

theorem laggardRun_not_readds : ¬ laggardRun.Readds 18 20 5 := by
  rintro ⟨k, n, x, hk, ⟨hkeeps, ⟨m, hm, hin⟩, -⟩, -⟩
  have hlogs : ∀ k, k < 21 → ∀ n, n < 6 →
      ((laggardRun.state k).nodes n).storage.snapshot.isNone = true ∧
      ∀ x ∈ ((laggardRun.state k).nodes n).storage.log, ∀ m,
        m ∈ x.configChange? → 5 ∉ m.keySet := by decide +kernel
  have hnodes : ∀ i, i < 20 → (laggardRun.effect i).node < 6 := by
    decide +kernel
  have hnode : ((laggardRun.state k).nodes n).storage.snapshot = none ∧
      ∀ x ∈ ((laggardRun.state k).nodes n).storage.log, ∀ m,
        m ∈ x.configChange? → 5 ∉ m.keySet := by
    rcases Nat.lt_or_ge n 6 with hn | hn
    · obtain ⟨h1, h2⟩ := hlogs k (by omega) n hn
      exact ⟨Option.isNone_iff_eq_none.mp h1, h2⟩
    · have hnever : ∀ i, i < k → (laggardRun.effect i).node ≠ n := by
        rintro i hi rfl
        exact absurd (hnodes i (by omega)) (Nat.not_lt.mpr hn)
      rw [laggardRun.nodes_of_untouched hnever]
      exact ⟨rfl, fun x hx => by cases hx⟩
  rcases hkeeps with hentry | ⟨snap, _, hs, -⟩
  · obtain ⟨j, -, hj⟩ := Option.bind_eq_some_iff.mp hentry
    exact hnode.2 x (List.mem_of_getElem? hj) m hm hin
  · rw [hnode.1] at hs
    cases hs

theorem laggardRun_removes : laggardRun.Removes 17 5 := by
  refine ⟨⟨1, 2, .configChange (membersOfIds [1, 2, 3, 4])⟩, _, rfl,
    by decide +kernel, Output.mem_of_same (by decide +kernel), ?_⟩
  have hnone : ∀ i, i < 17 → (laggardRun.effect i).outputs.any
      (Output.applied ⟨1, 2, .configChange (membersOfIds [1, 2, 3, 4])⟩).same =
        false := by decide +kernel
  intro i hi ho
  have hany : (laggardRun.effect i).outputs.any
      (Output.applied ⟨1, 2, .configChange (membersOfIds [1, 2, 3, 4])⟩).same =
        true := List.any_eq_true.mpr ⟨_, ho, by simp [Output.same]⟩
  rw [hnone i hi] at hany
  cases hany

def RpcRequest.preVote? {P : Type} :
    RpcRequest V P → Option RequestVoteArgs
  | .preVote args => some args
  | _ => none

theorem RpcRequest.eq_of_preVote? {P : Type} {req : RpcRequest V P}
    {args : RequestVoteArgs} (h : req.preVote? = some args) :
    req = .preVote args := by
  cases req with
  | preVote a =>
      cases h
      rfl
  | _ => cases h

theorem laggardRun_grants : laggardRun.Probes 18 5 4 ⟨1, 5, 0, 0⟩ ∧
    laggardRun.GrantsProbe 19 5 4 ⟨1, 5, 0, 0⟩ := by
  constructor
  · have hsent : ((laggardRun.effect 18).outputs.filterMap
        (Cluster.sent 5 0)).any (fun r => r.dst = 4 ∧
          r.request.preVote? = some ⟨1, 5, 0, 0⟩) = true := by
      decide +kernel
    obtain ⟨r, hr, hprobe⟩ := List.any_eq_true.mp hsent
    obtain ⟨hdst, hreq⟩ := of_decide_eq_true hprobe
    obtain ⟨-, -, ho⟩ := mem_filterMap_sent hr
    rw [hdst, RpcRequest.eq_of_preVote? hreq] at ho
    exact ⟨by decide +kernel, _, ho⟩
  · have hsent : ((laggardRun.state 19).rpcs[19]?).any (fun r =>
        r.src = 5 ∧ r.dst = 4 ∧
          r.request.preVote? = some ⟨1, 5, 0, 0⟩) = true := by
      decide +kernel
    obtain ⟨r, hr, hprobe⟩ := (Option.any_eq_true _ _).mp hsent
    obtain ⟨hsrc, hdst, hreq⟩ := of_decide_eq_true hprobe
    exact Run.grantsProbe_iff.mpr ⟨19, 30, r, rfl, hr, hsrc, hdst,
      RpcRequest.eq_of_preVote? hreq, by decide +kernel, by decide +kernel,
      by decide +kernel⟩

def Role.isPreCandidate : Role → Bool
  | .preCandidate _ => true
  | _ => false

theorem Role.preCandidate_of_open {r : Role} (h : r.isPreCandidate = true) :
    ∃ votes, r = .preCandidate votes := by
  cases r with
  | preCandidate votes => exact ⟨votes, rfl⟩
  | _ => cases h

theorem removed_prevote_minority_laggard :
    laggardRun.Removes 17 5 ∧
      5 ∈ ((laggardRun.state 20).nodes 5).members.keySet ∧
      laggardRun.GrantsProbe 19 5 4 ⟨1, 5, 0, 0⟩ ∧
      ¬ IsMajority {4, 5} ((laggardRun.state 20).nodes 5).members.keySet ∧
      ¬ IsMajority {4, 5} ((laggardRun.state 18).nodes 5).members.keySet := by
  have hp : 5 ∈ ((laggardRun.state 20).nodes 5).members.keySet := by
    decide +kernel
  obtain ⟨hprobe, hgrant⟩ := laggardRun_grants
  have hQ : ∀ v ∈ ({4, 5} : Finset NodeId), v = 5 ∨ ∃ g args, 17 < g ∧
      laggardRun.Probes 18 5 v args ∧ laggardRun.GrantsProbe g 5 v args := by
    intro v hv
    rcases Finset.mem_insert.mp hv with rfl | hv
    · exact .inr ⟨19, _, by decide, hprobe, hgrant⟩
    · exact .inl (Finset.mem_singleton.mp hv)
  obtain ⟨hnow, hstart⟩ := removed_prevote_minority laggardRun
    laggardRun_removes laggardRun_not_readds (by decide) (by decide) hp hQ
  refine ⟨laggardRun_removes, hp, hgrant, hnow, hstart fun k hk hk' => ?_⟩
  obtain rfl | rfl : k = 19 ∨ k = 20 := by omega
  · exact Role.preCandidate_of_open (by decide +kernel)
  · exact Role.preCandidate_of_open (by decide +kernel)

end RustKV
