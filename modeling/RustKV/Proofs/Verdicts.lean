import RustKV.Proofs.Safety
import RustKV.Kv.Service

/-!
# What a failed write says

A write that a leader took on can fail in two ways that the service reports
as safe to retry. The node finds the entry overwritten in its own log and
sends `false`; or the sender goes away without a word, because an installed
snapshot covers the entry or because the process dies, and the closed channel
is taken for a shutdown.

Neither is safe as it stands. That one node lost an entry says nothing about
the others: a server that still holds it can be elected later and commit it.
And a snapshot that covers the entry's index may well contain the entry.

What does decide the matter is what has been applied. If by then some server
applied another entry at or below that index than this node has, the log the
proposal sits in is not the one the cluster agreed on, and the proposal is
dead for good. The other safe case is that the entry is nowhere but in the
log it is being removed from.
-/

namespace RustKV

open Rust Consensus History

variable {V : Type} {M : StateMachine V} {D : Deployment} {run : Run D M}

def Run.NeverApplied (run : Run D M) (t i : Nat) : Prop :=
  ∀ l e, Output.applied e ∈ (run.effect l).outputs → e.term = t →
    e.index ≠ i

/-- Before step `j` an entry was applied, at or below index `i`, in whose
place node `n` has another one. -/
def Run.Overruled (run : Run D M) (j : ℕ) (n : NodeId) (i : Nat) : Prop :=
  ∃ j' e e', j' < j ∧ Output.applied e' ∈ (run.effect j').outputs ∧
    e'.index ≤ i ∧
    ((run.state j).nodes n).storage.entry e'.index = some e ∧ e ≠ e'

/-- Before step `j` the entry `(t, i)` is in no other log than node `n`'s and
on its way to nobody who would still take it. -/
structure Run.Sole (run : Run D M) (j : ℕ) (n : NodeId) (t i : Nat) :
    Prop where
  unapplied : ∀ j' e, j' < j →
    Output.applied e ∈ (run.effect j').outputs → e.term = t → e.index ≠ i
  unheld : ∀ m, m ≠ n → ∀ e,
    ((run.state j).nodes m).storage.entry i = some e → e.term ≠ t
  stale : ∀ r ∈ (run.state j).rpcs, ∀ a, r.request = .appendEntries a →
    ∀ e ∈ a.entries, e.term = t → e.index = i →
    a.term < ((run.state j).nodes r.dst).currentTerm

/-- Whenever a node refuses a proposal, what has happened before makes sure
that it is final. -/
def Run.RefusesFinally (run : Run D M) : Prop :=
  ∀ j t i, Output.committed t i false ∈ (run.effect j).outputs →
    run.Overruled j (run.effect j).node i ∨
      run.Sole j (run.effect j).node t i

namespace Run.Trace

variable {T : run.Trace} {t i j k l : ℕ} {n : NodeId} {e : LogEntry V}

theorem committed_held (T : run.Trace) (h : Committed (T.hist k) e) :
    ∃ v, e ∈ T.log k v := by
  obtain ⟨t, P, rfl | ⟨t₀, l, m, -, hc, hp⟩, he⟩ := h
  · cases he
  · have hW := (T.inv k).sound.wf
    obtain ⟨_, _, -, -, -, -, Q, hQ, hack⟩ := hW.commit_ok hc
    have hQpos : 0 < Q.card := by
      have := hQ.2
      omega
    obtain ⟨v, hv⟩ := Finset.card_pos.mp hQpos
    have hin := ((T.inv k).nodes v).ok.holds_commit hW hc (hack v hv)
    exact ⟨v, hin.subset (hp.subset he)⟩

/-! ## Overruled proposals -/

/-- The log of an overruled proposal is not the one that is applied. -/
theorem overruled (T : run.Trace) (hF : termAt (T.log j n) i = some t)
    (h : run.Overruled j n i) : run.NeverApplied t i := by
  obtain ⟨j', x, e', -, he', hle, hx, hne⟩ := h
  rintro l e ha rfl rfl
  obtain ⟨hpos', u', P', hP', heP'⟩ := T.applied_output he'
  obtain ⟨hpos, u, P, hP, heP⟩ := T.applied_output ha
  obtain ⟨-, hx⟩ := ((T.inv j).nodes n).body.repr.entry_eq_some hx
  have htake : (T.log j n).take e.index = P.take e.index := by
    refine take_eq_of_termAt
      (((T.inv j).nodes n).ok.valid.mono (T.le (le_max_left j (l + 1))))
      ((T.committed_valid hP).mono (T.le (le_max_right j (l + 1)))) hF ?_
    rw [termAt_of_pos hpos, heP]
    rfl
  rw [← getElem?_take_of_lt (k := e.index) (by omega), htake,
    getElem?_take_of_lt (by omega)] at hx
  exact hne (T.committed_agree hP hP' hx heP')

/-! ## Proposals that are gone -/

/-- The entry `(t, i)` was created, nobody has it any more, and nobody will
take it from the network. -/
structure Gone (T : run.Trace) (t i k : ℕ) : Prop where
  created : i ≤ ((T.hist k).tlog t).length
  unheld : ∀ m, ∀ e ∈ T.log k m, e.term = t → e.index ≠ i
  stale : ∀ r ∈ (run.state k).rpcs, ∀ a, r.request = .appendEntries a →
    ∀ e ∈ a.entries, e.term = t → e.index = i →
    a.term < ((run.state k).nodes r.dst).currentTerm

theorem Gone.uncommitted (h : T.Gone t i k) (hc : Committed (T.hist k) e)
    (ht : e.term = t) : e.index ≠ i := by
  obtain ⟨v, hv⟩ := T.committed_held hc
  exact h.unheld v e hv ht

/-- A leader creates an entry once, so what is gone stays gone. -/
theorem Gone.succ (h : T.Gone t i k) : T.Gone t i (k + 1) := by
  obtain ⟨kind, htr, -⟩ := (T.advance k).here
  have hsource : ∀ e, Start.Source ((run.state k).start (T.hist k) (T.log k)
      (run.effect k).node kind) (T.hist (k + 1)) e → e.term = t →
      e.index ≠ i := by
    rintro e (he | hd | ⟨-, hlt⟩) ht hi
    · exact h.unheld _ e he ht hi
    · rcases hd with ⟨r, hr, hdst, a, ha, hterm, he⟩ | hc
      · have := h.stale r hr a ha e he ht hi
        rw [hdst] at this
        omega
      · exact h.uncommitted hc ht hi
    · have hc := h.created
      have hlt' : ((T.hist k).tlog e.term).length < e.index := hlt
      rw [ht] at hlt'
      omega
  refine ⟨h.created.trans ((T.le_succ k).tlog t).length_le,
    fun m e he => ?_, fun r hr a ha e he ht hi => ?_⟩
  · by_cases hm : m = (run.effect k).node
    · subst hm
      exact hsource e (htr.log e he)
    · rw [((T.advance k).others m hm).2] at he
      exact h.unheld m e he
  · rw [(T.advance k).rpcs] at hr
    rcases List.mem_append.mp hr with hr | hr
    · exact (h.stale r hr a ha e he ht hi).trans_le
        (T.term_le (Nat.le_succ k) _)
    · obtain ⟨-, -, ho⟩ := mem_filterMap_sent hr
      exact absurd hi (hsource e ((htr.out _ ho).2.2.1 a ha e he) ht)

theorem Gone.of_le (h : T.Gone t i k) (hkl : k ≤ l) : T.Gone t i l := by
  induction l, hkl using Nat.le_induction with
  | base => exact h
  | succ l hkl ih => exact ih.succ

theorem waiting (T : run.Trace)
    (hp : ⟨t, i⟩ ∈ ((run.state j).nodes n).pending) :
    ((run.state j).nodes n).storage.snapshotIndex < i ∧
      termAt (T.log j n) i = some t :=
  ((T.inv j).nodes n).waiting _ hp

/-- The only copy of an entry is removed by refusing it. -/
theorem gone_of_sole (T : run.Trace)
    (hr : Output.committed t i false ∈ (run.effect j).outputs)
    (h : run.Sole j (run.effect j).node t i) : T.Gone t i (j + 1) := by
  obtain ⟨kind, htr, -⟩ := (T.advance j).here
  obtain ⟨hkind, hp, hlost⟩ := htr.out _ hr
  obtain ⟨hlow, hF⟩ := T.waiting hp
  obtain ⟨x, hx, hxt⟩ := termAt_eq_some hF (by omega)
  refine ⟨?_, fun m e he ht hi => ?_, fun r hmem a ha e he ht hi => ?_⟩
  · have hlt : i - 1 < ((T.hist j).tlog x.term).length :=
      ((T.inv j).nodes (run.effect j).node).ok.valid.lt_tlog hx
    have hle := ((T.le_succ j).tlog t).length_le
    rw [hxt] at hlt
    omega
  · by_cases hm : m = (run.effect j).node
    · subst hm
      obtain ⟨hpos, heq⟩ := htr.inv.body.repr.indexed.getElem?_of_mem he
      rw [hi] at hpos heq
      apply hlost
      rw [termAt_of_pos hpos, heq, Option.map_some, ht]
    · obtain ⟨-, hlog⟩ := (T.advance j).others m hm
      rw [hlog] at he
      have hb := ((T.inv j).nodes m).body
      obtain ⟨hpos, heq⟩ := hb.repr.indexed.getElem?_of_mem he
      rw [hi] at hpos heq
      rcases Nat.lt_or_ge ((run.state j).nodes m).storage.snapshotIndex i
        with hlt | hge
      · exact h.unheld m hm e ((hb.repr.entry hlt).trans heq) ht
      · -- what a snapshot covers has been applied
        have hc := T.applied_committed j m
          (hb.boundary_le.trans hb.applied_le)
        obtain ⟨j', hj', ho⟩ := T.committed_applied ⟨_, _, hc,
          List.mem_of_getElem?
            ((getElem?_take_of_lt (by omega)).trans heq)⟩
        exact h.unapplied j' e hj' ho ht hi
  · rw [(T.advance j).rpcs] at hmem
    rcases List.mem_append.mp hmem with hmem | hmem
    · exact (h.stale r hmem a ha e he ht hi).trans_le
        (T.term_le (Nat.le_succ j) _)
    · -- an event that refuses a proposal sends nothing
      obtain ⟨-, -, ho⟩ := mem_filterMap_sent hmem
      have hacting := (htr.out _ ho).1
      rw [hkind] at hacting
      cases hacting

theorem refused (T : run.Trace)
    (hr : Output.committed t i false ∈ (run.effect j).outputs)
    (h : run.Overruled j (run.effect j).node i ∨
      run.Sole j (run.effect j).node t i) : run.NeverApplied t i := by
  obtain ⟨_, htr, -⟩ := (T.advance j).here
  obtain ⟨-, hp, -⟩ := htr.out _ hr
  rcases h with h | h
  · exact T.overruled (T.waiting hp).2 h
  · intro l e ha ht
    rcases Nat.lt_or_ge l j with hlt | hge
    · exact h.unapplied l e hlt ha ht
    · obtain ⟨-, u, P, hP, he⟩ := T.applied_output ha
      exact ((T.gone_of_sole hr h).of_le (Nat.succ_le_succ hge)).uncommitted
        ⟨u, P, hP, List.mem_of_getElem? he⟩ ht

end Run.Trace

/-! ## The verdict `false` -/

/-- A refusal is final if the proposal was overruled or the only copy of its
entry was the refusing node's. -/
theorem refused_never_applied (run : Run D M) {j t i : ℕ}
    (hr : Output.committed t i false ∈ (run.effect j).outputs)
    (h : run.Overruled j (run.effect j).node i ∨
      run.Sole j (run.effect j).node t i) : run.NeverApplied t i := by
  obtain ⟨T⟩ := run.exists_trace
  exact T.refused hr h

/-- Three nodes. Node 1 leads and takes on a write nobody else sees; node 2 is
elected, has its own first entry applied, and overwrites node 1's log. -/
def overwrittenRun :
    Run (Deployment.ofIds [1, 2, 3] none) (KvStore.machine Nat) :=
  Run.ofActions _ _ [.timeout 1 0, .deliver 0 0, .reply 0 0, .deliver 2 0,
    .reply 1 0, .propose 1 (.put "x" 7 none) 0, .timeout 2 0, .deliver 9 0,
    .reply 2 0, .deliver 11 0, .reply 3 0, .deliver 13 0, .reply 4 0,
    .deliver 12 0] (by decide +kernel)

theorem refused_never_applied_overwritten :
    Output.committed 1 2 false ∈ (overwrittenRun.effect 13).outputs ∧
      overwrittenRun.Overruled 13 1 2 ∧ overwrittenRun.NeverApplied 1 2 := by
  have hr : Output.committed 1 2 false ∈
      (overwrittenRun.effect 13).outputs :=
    Output.mem_of_same (by decide +kernel)
  have ho : overwrittenRun.Overruled 13 1 2 :=
    ⟨12, ⟨1, 1, .noop⟩, ⟨2, 1, .noop⟩, by decide,
      Output.mem_of_same (by decide +kernel), by decide, by decide +kernel,
      by decide⟩
  have hn : (overwrittenRun.effect 13).node = 1 := by decide +kernel
  exact ⟨hr, ho, refused_never_applied overwrittenRun hr
    (.inl (by rw [hn]; exact ho))⟩

/-- Five nodes. Node 1 leads and gets a write to node 2 alone. Node 3 is
elected by nodes 4 and 5 and overwrites node 1's log, which refuses the write.
Then node 2 is elected by nodes 4 and 5, and commits it. -/
def revivedRun :
    Run (Deployment.ofIds [1, 2, 3, 4, 5] none) (KvStore.machine Nat) :=
  Run.ofActions _ _ [.timeout 1 0, .deliver 0 0, .deliver 1 0, .reply 0 0,
    .reply 1 0, .deliver 4 0, .deliver 5 0, .reply 2 0, .reply 3 0,
    .propose 1 (.put "x" 7 none) 0, .deliver 12 0, .timeout 3 0,
    .deliver 18 0, .deliver 19 0, .reply 5 0, .reply 6 0, .deliver 22 0,
    .deliver 23 0, .reply 7 0, .reply 8 0, .deliver 24 0, .timeout 2 0,
    .deliver 30 0, .reply 10 0, .timeout 2 0, .deliver 34 0, .deliver 35 0,
    .reply 11 0, .reply 12 0, .deliver 38 0, .deliver 39 0, .reply 13 0,
    .reply 14 0, .deliver 42 0, .deliver 43 0, .reply 15 0, .reply 16 0,
    .deliver 44 0, .deliver 45 0, .reply 17 0, .reply 18 0, .deliver 46 0,
    .deliver 47 0, .reply 19 0, .reply 20 0] (by decide +kernel)

/-- A write refused as superseded, hence reported as safe to retry, and
applied later on. -/
theorem refused_then_applied :
    Output.proposeReply (.ok (1, 2)) ∈ (revivedRun.effect 9).outputs ∧
      Output.committed 1 2 false ∈ (revivedRun.effect 20).outputs ∧
      KvNode.write (.ok (1, 2)) (.received false) = .error .superseded ∧
      Output.applied ⟨1, 2, .put "x" 7 none⟩ ∈
        (revivedRun.effect 44).outputs :=
  ⟨Output.mem_of_same (by decide +kernel),
    Output.mem_of_same (by decide +kernel), rfl,
    Output.mem_of_same (by decide +kernel)⟩

/-! ## The closed channel -/

/-- A write whose sender is dropped is answered 503. The answer is honest if
the proposal was overruled; and unless the node has just died, this is the
only way it can be. -/
theorem dropped_honest_iff_overruled (run : Run D M) {j t i : ℕ}
    (hd : Output.dropped t i ∈ (run.effect j).outputs) :
    (∃ err, KvNode.write (.ok (t, i)) .closed = .error err ∧
      ∀ peerUrls path, (writeErrorResponse peerUrls path err).status = 503) ∧
    (run.Overruled j (run.effect j).node i → run.NeverApplied t i) ∧
    ((run.state (j + 1)).epochs (run.effect j).node =
        (run.state j).epochs (run.effect j).node →
      run.NeverApplied t i → run.Overruled j (run.effect j).node i) := by
  obtain ⟨T⟩ := run.exists_trace
  obtain ⟨kind, htr, hkind⟩ := (T.advance j).here
  obtain ⟨hp, hcover⟩ := htr.out _ hd
  obtain ⟨hlow, hF⟩ := T.waiting hp
  refine ⟨⟨.shutdown, rfl, fun _ _ => rfl⟩, T.overruled hF,
    fun hepoch hnever => ?_⟩
  rcases hcover with hrestart | ⟨u, P, hP, hi⟩
  · exact absurd hepoch (hkind hrestart)
  -- the snapshot has another entry at `i`, and that one was applied
  have hlt : i - 1 < P.length := by omega
  have hx := List.getElem?_eq_getElem hlt
  have hidx := T.committed_indexed hP _ _ hx
  obtain ⟨j', hj', happ⟩ := T.committed_applied
    ⟨u, P, hP, List.mem_of_getElem? hx⟩
  obtain ⟨e, he, het⟩ := termAt_eq_some hF (by omega)
  refine ⟨j', e, _, hj', happ, by omega, ?_, fun heq => ?_⟩
  · rw [hidx, Nat.sub_add_cancel (by omega)]
    exact (((T.inv j).nodes _).body.repr.entry hlow).trans he
  · refine hnever j' _ happ ?_ (by omega)
    rw [← heq, het]

/-- The same three nodes with snapshots on: node 2 also has a write of its
own applied, and its snapshot replaces node 1's log. -/
def replacedRun :
    Run (Deployment.ofIds [1, 2, 3] (some 1)) (KvStore.machine Nat) :=
  Run.ofActions _ _ [.timeout 1 0, .deliver 0 0, .reply 0 0, .deliver 2 0,
    .reply 1 0, .propose 1 (.put "x" 7 none) 0, .timeout 2 0, .deliver 9 0,
    .reply 2 0, .deliver 11 0, .reply 3 0, .deliver 13 0, .reply 4 0,
    .propose 2 (.put "y" 8 none) 0, .deliver 15 0, .reply 5 0,
    .heartbeat 2 0, .deliver 16 0] (by decide +kernel)

theorem dropped_honest_replaced :
    Output.dropped 1 2 ∈ (replacedRun.effect 17).outputs ∧
      replacedRun.Overruled 17 1 2 ∧ replacedRun.NeverApplied 1 2 := by
  have hd : Output.dropped 1 2 ∈ (replacedRun.effect 17).outputs :=
    Output.mem_of_same (by decide +kernel)
  have ho : replacedRun.Overruled 17 1 2 :=
    ⟨12, ⟨1, 1, .noop⟩, ⟨2, 1, .noop⟩, by decide,
      Output.mem_of_same (by decide +kernel), by decide, by decide +kernel,
      by decide⟩
  have hn : (replacedRun.effect 17).node = 1 := by decide +kernel
  exact ⟨hd, ho, (dropped_honest_iff_overruled replacedRun hd).2.1
    (by rw [hn]; exact ho)⟩

/-- Node 1 gets its write to node 2, which is elected, commits it together
with node 3 and takes a snapshot of it. Node 1 receives the snapshot. -/
def swallowedRun :
    Run (Deployment.ofIds [1, 2, 3] (some 1)) (KvStore.machine Nat) :=
  Run.ofActions _ _ [.timeout 1 0, .deliver 0 0, .reply 0 0, .deliver 2 0,
    .reply 1 0, .propose 1 (.put "x" 7 none) 0, .deliver 6 0, .timeout 2 0,
    .deliver 9 0, .reply 3 0, .deliver 11 0, .reply 4 0, .deliver 13 0,
    .reply 5 0, .deliver 14 0, .reply 6 0, .deliver 15 0, .reply 7 0,
    .heartbeat 2 0, .deliver 16 0] (by decide +kernel)

/-- A write answered 503 that was applied before the answer. -/
theorem dropped_after_applied :
    Output.proposeReply (.ok (1, 2)) ∈ (swallowedRun.effect 5).outputs ∧
      Output.applied ⟨1, 2, .put "x" 7 none⟩ ∈
        (swallowedRun.effect 17).outputs ∧
      Output.dropped 1 2 ∈ (swallowedRun.effect 19).outputs ∧
      KvNode.write (.ok (1, 2)) .closed = .error .shutdown ∧
      (writeErrorResponse (fun _ => none) "x" .shutdown).status = 503 :=
  ⟨Output.mem_of_same (by decide +kernel),
    Output.mem_of_same (by decide +kernel),
    Output.mem_of_same (by decide +kernel), rfl, rfl⟩

end RustKV
