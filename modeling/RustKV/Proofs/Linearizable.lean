import RustKV.Proofs.Safety

/-!
# Log order linearizes acknowledged operations

Writes first. A write is acknowledged once its entry is committed, and a
proposal is appended behind everything its leader's log holds. If the entry of
a later proposal came to lie at or below the acknowledged one, it would have
been in the committed part all along, hence in the log of its own leader
before that leader created it.

Then reads. A read is granted by a leader that has committed in its own term
and that a majority has answered since the read was registered. Suppose a
later term had been won by the time of registration, and take the first such
win. The winner's log holds the leader's commits, so it ends inside the
leader's own log, and the configurations the two majorities are counted in
are one server apart at most. A server common to both had moved past the
leader's term before it answered, and it would not have answered. So there
was no such win, and everything committed by then was committed by this
leader or its predecessors, below what it has applied at the grant.
-/

namespace RustKV

open Rust Consensus History

variable {V : Type} {M : StateMachine V} {D : Deployment} {run : Run D M}

namespace Run.Trace

variable (T : run.Trace)

/-! ## Leaderships along a run -/

/-- A leadership is held without a gap: whoever leads a term that was won
earlier has led it ever since. -/
theorem led_throughout {i j t : ℕ} (hij : i ≤ j) {n : NodeId}
    {x : NodeId × List (LogEntry V)} (hx : (T.hist i).led t = some x)
    (hl : ((run.state j).nodes n).isLeader = true)
    (ht : ((run.state j).nodes n).currentTerm = t) :
    ((run.state i).nodes n).isLeader = true ∧
      ((run.state i).nodes n).currentTerm = t := by
  induction j, hij using Nat.le_induction with
  | base => exact ⟨hl, ht⟩
  | succ j hij ih =>
      obtain ⟨_, htr, -⟩ := (T.advance j).here
      by_cases hn : n = (run.effect j).node
      · subst hn
        rcases htr.leader hl with ⟨hl', ht'⟩ | hnone
        · exact ih hl' (ht'.trans ht)
        · rw [ht] at hnone
          have := (T.le hij).led hx
          rw [show (T.hist j).led t = none from hnone] at this
          cases this
      · rw [((T.advance j).others n hn).1] at hl ht
        exact ih hl ht

theorem vote_le {i t : ℕ} {v : NodeId} {x : NodeId × List (LogEntry V)}
    (h : (T.hist i).vote v t = some x) :
    t ≤ ((run.state i).nodes v).currentTerm := by
  by_contra hlt
  have := ((T.inv i).nodes v).ok.vote_future t (Nat.lt_of_not_le hlt)
  rw [this] at h
  cases h

/-- An answer to a tag not yet given out comes from a node that is, by then,
not past the leader's term. -/
theorem heard_late {i j t q : ℕ} (hij : i ≤ j) {n v : NodeId}
    (h : (T.hist j).heard n t v q) (hq : (T.hist i).seq n t < q) :
    ∃ k, i ≤ k ∧ ((run.state k).nodes v).currentTerm ≤ t := by
  induction j, hij using Nat.le_induction with
  | base =>
      have := (T.inv i).sound.wf.heard_le h
      omega
  | succ j hij ih =>
      obtain ⟨_, htr, -⟩ := (T.advance j).here
      rcases htr.heard h with h | ⟨rfl, hle⟩
      · exact ih h
      · exact ⟨j, hij, hle⟩

/-! ## Writes -/

theorem acked {i t k : ℕ}
    (h : Output.committed t k true ∈ (run.effect i).outputs) :
    0 < k ∧ ∃ u P, (T.hist (i + 1)).CommittedAt u P ∧ k ≤ P.length := by
  obtain ⟨_, htr, -⟩ := (T.advance i).here
  obtain ⟨hk, u, P, hP, ht⟩ := htr.out _ h
  exact ⟨hk, u, P, hP, le_length_of_termAt ht⟩

/-- A write proposed after another was acknowledged comes later in the log,
if it comes to be applied. -/
theorem writes_ordered (T : run.Trace) {i j l t k : ℕ} {e : LogEntry V}
    (hack : Output.committed t k true ∈ (run.effect i).outputs)
    (hij : i < j) (hprop : Output.proposeReply (.ok (e.term, e.index)) ∈
      (run.effect j).outputs)
    (happ : Output.applied e ∈ (run.effect l).outputs) : k < e.index := by
  obtain ⟨-, u, P, hP, hk⟩ := T.acked hack
  obtain ⟨hpos, u', P', hP', he⟩ := T.applied_output happ
  obtain ⟨_, htr, -⟩ := (T.advance j).here
  obtain ⟨-, hnew⟩ := htr.out _ hprop
  by_contra hle
  have hlt : e.index - 1 < P.length := by omega
  have hx := List.getElem?_eq_getElem hlt
  rw [T.committed_agree hP hP' hx he] at hx
  have hlog : e.index - 1 < ((T.hist j).tlog e.term).length :=
    (T.committed_valid (hP.mono (T.le hij) le_rfl)).lt_tlog hx
  have hnew' : ((T.hist j).tlog e.term).length < e.index := hnew
  omega

/-! ## Reads -/

/-- What is known of a read that was registered at step `i` and granted at
step `j` by node `n` in term `t`. -/
structure Served (i j : ℕ) (n : NodeId) (t q applied : ℕ)
    (state : M.State) : Prop where
  le : i ≤ j
  leader : ((run.state i).nodes n).isLeader = true
  term : ((run.state i).nodes n).currentTerm = t
  fresh : (T.hist i).seq n t < q
  grant : ∃ kind, GrantOk D
    ((run.state j).start (T.hist j) (T.log j) n kind) (T.hist (j + 1)) t q
    applied state

variable {T} {i j t q applied : ℕ} {n : NodeId} {state : M.State}

/-- By the time a granted read was registered, no later term had been
won. -/
theorem Served.no_later (h : T.Served i j n t q applied state) {t' : ℕ}
    {x : NodeId × List (LogEntry V)} (ht : t < t')
    (hx : (T.hist i).led t' = some x) : False := by
  classical
  have hex : ∃ t', t < t' ∧ ∃ x, (T.hist i).led t' = some x :=
    ⟨t', ht, x, hx⟩
  -- the first later term won
  obtain ⟨hlt, ⟨p, b⟩, hb⟩ := Nat.find_spec hex
  have hmin : ∀ u, t < u → (∃ x, (T.hist i).led u = some x) →
      Nat.find hex ≤ u := fun u h1 h2 => Nat.find_min' hex ⟨h1, h2⟩
  generalize Nat.find hex = u at hlt hb hmin
  obtain ⟨_, g⟩ := h.grant
  have hWi := (T.inv i).sound.wf
  have hW := (T.inv (j + 1)).sound.wf
  have hle : Le (T.hist i) (T.hist (j + 1)) := T.le (by have := h.le; omega)
  obtain ⟨bt, hbt⟩ := g.led
  obtain ⟨m, hm⟩ := g.commit
  obtain ⟨_, b₀, hb₀, hb₀lt, -⟩ := hW.commit_ok hm
  obtain ⟨hbv, hbterm⟩ := hWi.base_ok hb
  have holds := hW.led_holds (hle.led hb)
  -- its log holds what the leader of `t` committed and ends in that term
  obtain ⟨e, he, het⟩ := hW.commit_entry hm (holds t _ m hlt hm)
  have hblen := lt_length_of_getElem? he
  have hlast : (rules D).lastTerm b = t := by
    have hge := hbv.term_le_lastTerm hWi he
    rw [het] at hge
    obtain ⟨n', b', hled, -, -⟩ := hbv.last_led (by omega)
    have hlt' := Valid.lastTerm_lt (by omega) hbterm
    by_contra hne
    have := hmin _ (by omega) ⟨_, hled⟩
    omega
  have hbt' : b <+: (T.hist i).tlog t := by
    obtain ⟨_, _, _, _, hpre⟩ := hbv.last_led (by omega)
    rwa [hlast] at hpre
  -- so its configuration is next to the one the read was confirmed in
  obtain ⟨l, Q, hl, hpre, hQ, hheard⟩ := g.quorum
  have hbl : b.length ≤ l := by
    have h1 := hbt'.length_le
    have h2 := ((T.le h.le).tlog t).length_le
    have h3 : ((T.hist j).tlog t).length ≤ _ := hpre.length_le
    rw [List.length_take] at h3
    omega
  have hbtake : ((T.hist (j + 1)).tlog t).take b.length = b := by
    rw [take_eq_of_isPrefix (hbt'.trans (hle.tlog t)) le_rfl,
      List.take_length]
  have hnear := hW.near_same_leader (s := b.length) (m := l) hb₀ (by omega)
    hbl (fun k l' hk _ => by
      have hkl := (hW.commit_last hk).2.2.1
      have := (holds t k l' hlt hk).length_le
      rw [List.length_take] at this
      omega)
  rw [hbtake] at hnear
  obtain ⟨-, Q', hQ', hvotes⟩ := hWi.led_won hb
  obtain ⟨v, hvQ', hvQ⟩ := IsMajority.exists_common hnear hQ' hQ
  -- a server in both majorities was past `t` before it answered
  obtain ⟨K, hK, -⟩ := hvotes v hvQ'
  have hvote := T.vote_le hK
  rcases hheard v hvQ with hvn | ⟨q', hqq', hh⟩
  · rw [show v = n from hvn, h.term] at hvote
    omega
  · obtain ⟨k, hik, hkt⟩ := T.heard_late (i := i) (j := j + 1)
      (by have := h.le; omega) hh (lt_of_lt_of_le h.fresh hqq')
    have := T.term_le hik v
    omega

/-- A granted read has applied whatever was committed when it was
registered. -/
theorem Served.covers (h : T.Served i j n t q applied state) {u : ℕ}
    {P : List (LogEntry V)} (hP : (T.hist i).CommittedAt u P) :
    P.length ≤ applied := by
  obtain ⟨_, g⟩ := h.grant
  rcases hP with rfl | ⟨t₀, k, m, -, hc, hp⟩
  · exact Nat.zero_le _
  have hPk : P.length ≤ k := by
    have := hp.length_le
    rw [List.length_take] at this
    omega
  have hW := (T.inv (j + 1)).sound.wf
  have hle : Le (T.hist i) (T.hist (j + 1)) := T.le (by have := h.le; omega)
  obtain ⟨m', hm'⟩ := g.commit
  obtain ⟨_, b, hb, hbk, -⟩ := hW.commit_ok hm'
  rcases Nat.lt_trichotomy t₀ t with hlt | rfl | hgt
  · -- an earlier term: the leader was elected with it
    have hkl := (hW.commit_last (hle.commit hc)).2.2.1
    have := (hW.led_holds hb t₀ k m hlt (hle.commit hc)).length_le
    rw [List.length_take] at this
    omega
  · exact hPk.trans (g.commit_max k m ((T.le h.le).commit hc))
  · obtain ⟨_, _, hled, -⟩ := (T.inv i).sound.wf.commit_ok hc
    exact (h.no_later hgt hled).elim

end Run.Trace

/-- Log order linearizes acknowledged operations. -/
theorem linearizable (run : Run D M) :
    (∀ i j l t k e, Output.committed t k true ∈ (run.effect i).outputs →
      i < j →
      Output.proposeReply (.ok (e.term, e.index)) ∈
        (run.effect j).outputs →
      Output.applied e ∈ (run.effect l).outputs → k < e.index) ∧
    ∀ i j t r applied state, i ≤ j →
      (run.effect i).node = (run.effect j).node →
      Output.readReply (.ok (t, r)) ∈ (run.effect i).outputs →
      Output.granted t r.neededSeq applied state ∈ (run.effect j).outputs →
      (∀ i' t' k, i' < i →
        Output.committed t' k true ∈ (run.effect i').outputs →
        k ≤ applied) ∧
      (∀ i' t' q' applied' state', i' < i →
        Output.granted t' q' applied' state' ∈ (run.effect i').outputs →
        applied' ≤ applied) ∧
      (∃ P, run.Applied (j + 1) P ∧ P.length = applied ∧
        state = M.replay P) ∧
      ∀ k, i ≤ k → k ≤ j →
        ((run.state k).nodes (run.effect i).node).isLeader = true ∧
        ((run.state k).nodes (run.effect i).node).currentTerm = t := by
  obtain ⟨T⟩ := run.exists_trace
  refine ⟨fun i j l t k e h1 h2 h3 h4 => T.writes_ordered h1 h2 h3 h4, ?_⟩
  intro i j t r applied state hij hnode hreg hgrant
  obtain ⟨_, hi, -⟩ := (T.advance i).here
  obtain ⟨kj, hj, -⟩ := (T.advance j).here
  obtain ⟨hleads, hterm, hseq⟩ := hi.out _ hreg
  have g := hj.out _ hgrant
  have hserved : T.Served i j (run.effect i).node t r.neededSeq applied
      state := ⟨hij, hleads, hterm, hseq, kj, by rw [hnode]; exact g⟩
  refine ⟨fun i' t' k hlt hack => ?_, fun i' t' q' a' s' hlt hg => ?_, ?_,
    fun k hik hkj => ?_⟩
  · obtain ⟨-, u, P, hP, hk⟩ := T.acked hack
    exact hk.trans (hserved.covers (hP.mono (T.le hlt) le_rfl))
  · obtain ⟨_, hi', -⟩ := (T.advance i').here
    have g' := hi'.out _ hg
    obtain ⟨m, hm⟩ := g'.commit
    have hcov := hserved.covers (u := t')
      (P := ((T.hist (i' + 1)).tlog t').take a')
      (CommittedAt.mono (.inr ⟨t', a', m, le_rfl, hm, List.prefix_rfl⟩)
        (T.le hlt) le_rfl)
    rwa [List.length_take, Nat.min_eq_left g'.applied_le] at hcov
  · obtain ⟨m, hm⟩ := g.commit
    refine ⟨((T.hist (j + 1)).tlog t).take applied,
      T.run_applied (t := t) (.inr ⟨t, applied, m, le_rfl, hm,
        List.prefix_rfl⟩), ?_, g.state⟩
    rw [List.length_take, Nat.min_eq_left g.applied_le]
  · obtain ⟨b, hb, -⟩ := T.leader hleads
    have hterm' : ((run.state i).nodes (run.effect i).node).currentTerm = t :=
      hterm
    rw [hterm'] at hb
    have hl : ((run.state j).nodes (run.effect i).node).isLeader = true ∧
        ((run.state j).nodes (run.effect i).node).currentTerm = t := by
      rw [hnode]
      exact g.leader
    exact T.led_throughout hkj ((T.le hik).led hb) hl.1 hl.2

end RustKV
