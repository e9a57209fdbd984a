import RustKV.Proofs.Leadership

/-!
# What a node keeps in order, and who waits for it

Every change of a node's log leaves it in order: entries numbered from the
boundary on, everything committed applied, boundary, commit index and end of
log in this order, and every waiting proposal above the commit index with its
entry in place (`Node.Orderly`). None of it needs to know about other nodes.

A waiter is answered `true` in the very change that applies its entry, after
the entry is applied and before anything is compacted away; so the answer is
honest, and no compaction can take it from a waiter (`positive_verdicts`).
-/

namespace RustKV

open Rust Consensus

variable {V : Type} {M : StateMachine V} {D : Deployment} {run : Run D M}
  {now : Instant} {cause : Cause M} {x y z : Node M} {os : List (Output M)}

/-! ## Order -/

/-- What is in order at a node between any two changes. -/
structure Node.Orderly (x : Node M) : Prop where
  numbered : Numbered x.storage.snapshotIndex x.storage.log
  applied : x.lastApplied = x.commitIndex
  boundary_le : x.storage.snapshotIndex ≤ x.commitIndex
  commit_le : x.commitIndex ≤ x.storage.lastIndex
  staged : ∀ st, x.stagedSnapshot = some st → st.index ≤ x.commitIndex
  waiting : ∀ p ∈ x.pending,
    x.commitIndex < p.index ∧ x.storage.term p.index = some p.term

namespace Node.Orderly

theorem entry_index (h : x.Orderly) {i : Nat} {e : LogEntry V}
    (he : x.storage.entry i = some e) : e.index = i := by
  have hlt := (Storage.boundary_of_entry he).1
  rw [Storage.entry_of_lt hlt] at he
  have := h.numbered _ e he
  omega

theorem waiting_entry (h : x.Orderly) {p : PendingProposal}
    (hp : p ∈ x.pending) : ∃ e, x.storage.entry p.index = some e ∧
      e.term = p.term ∧ e.index = p.index := by
  obtain ⟨hlt, ht⟩ := h.waiting p hp
  have := h.boundary_le
  rw [Storage.term_of_lt (by omega)] at ht
  obtain ⟨e, he, ht⟩ := Option.map_eq_some_iff.mp ht
  exact ⟨e, he, ht, h.entry_index he⟩

theorem boot (h : Numbered x.storage.snapshotIndex x.storage.log)
    (config : RaftConfig) (state : M.State) :
    (Node.boot config x.storage state).Orderly where
  numbered := h
  applied := rfl
  boundary_le := le_rfl
  commit_le := Nat.le_add_right _ _
  staged _ hst := by cases hst
  waiting _ hp := by cases hp

theorem unmoved (h : x.Orderly) (hy : Unmoved x y) : y.Orderly := by
  have hb := Storage.snapshotIndex_congr hy.snapshot
  have hterm : ∀ i, y.storage.term i = x.storage.term i := by
    intro i
    simp only [Storage.term, Storage.entry, Storage.pos, Storage.snapshotTerm,
      hb, hy.snapshot, hy.log]
  refine ⟨?_, ?_, ?_, ?_, ?_, ?_⟩
  · rw [hb, hy.log]
    exact h.numbered
  · rw [hy.lastApplied, hy.commitIndex]
    exact h.applied
  · rw [hb, hy.commitIndex]
    exact h.boundary_le
  · rw [hy.lastIndex, hy.commitIndex]
    exact h.commit_le
  · rw [hy.stagedSnapshot, hy.commitIndex]
    exact h.staged
  · rw [hy.pending, hy.commitIndex]
    intro p hp
    rw [hterm]
    exact h.waiting p hp

end Node.Orderly

/-- Who is left after `resolve_pending` still waits for something. -/
theorem Node.mem_settled {p : PendingProposal} :
    p ∈ x.settled.pending ↔ p ∈ x.pending ∧ x.commitIndex < p.index ∧
      x.storage.term p.index = some p.term := by
  rw [Node.settled, List.mem_filter, Node.verdict]
  refine and_congr_right fun _ => ?_
  split
  · next hne => simp [hne]
  · next heq =>
      rw [not_not] at heq
      split
      · next hge => simp [Nat.not_lt_of_le hge]
      · next hlt => simp [heq, Nat.lt_of_not_le hlt]

theorem Node.staging_le {threshold : Nat} {st : StagedSnapshot M.Payload}
    (h : ∀ st, x.stagedSnapshot = some st → st.index ≤ x.lastApplied)
    (hst : x.staging threshold = some st) : st.index ≤ x.lastApplied := by
  rw [Node.staging] at hst
  split at hst
  · next st' hfilter =>
      cases hst
      exact h _ (Option.filter_eq_some_iff.mp hfilter).1
  · split at hst
    · cases hst
      exact le_rfl
    · cases hst

theorem Node.staging_lt {threshold : Nat} {st : StagedSnapshot M.Payload}
    (hst : x.staging threshold = some st) :
    x.storage.snapshotIndex < st.index := by
  rw [Node.staging] at hst
  split at hst
  · next st' hfilter =>
      cases hst
      exact of_decide_eq_true (Option.filter_eq_some_iff.mp hfilter).2
  · split at hst
    · next hlag =>
        cases hst
        have := le_max_right threshold 1
        show x.storage.snapshotIndex < x.lastApplied
        omega
    · cases hst

theorem Compacts.orderly (h : Compacts x y) (hx : x.Orderly) : y.Orderly := by
  have hle : ∀ st, x.stagedSnapshot = some st → st.index ≤ x.lastApplied :=
    fun st hst => hx.applied ▸ hx.staged st hst
  cases h with
  | off => exact hx
  | wait =>
      exact ⟨hx.numbered, hx.applied, hx.boundary_le, hx.commit_le,
        fun st hst => hx.applied ▸ Node.staging_le hle hst, hx.waiting⟩
  | @done threshold st S h hst hw hS =>
      have hst := Node.staging_le hle hst
      rw [hx.applied] at hst
      obtain ⟨hlast, hb⟩ := Storage.lastIndex_compactTo hS
      refine ⟨?_, hx.applied, hb.trans_le hst, hx.commit_le.trans hlast.ge,
        fun _ hst' => (by cases hst'), fun p hp => ?_⟩
      · obtain ⟨e, he, rfl⟩ := Storage.compactTo_eq_ok.mp hS
        have hnum := hx.numbered.drop (st.index - x.storage.snapshotIndex)
        rwa [Nat.add_sub_cancel' (Storage.boundary_of_entry he).1.le] at hnum
      · obtain ⟨hlt, ht⟩ := hx.waiting p hp
        refine ⟨hlt, ?_⟩
        have hbx := hx.boundary_le
        rw [Storage.term_of_lt (by omega)] at ht
        show S.term p.index = some p.term
        rw [Storage.term_of_lt (by omega),
          Storage.entry_compactTo hS (by omega), ht]

theorem Node.Orderly.append {S : Storage V M.Payload}
    {es : List (LogEntry V)} (hx : x.Orderly)
    (hS : x.storage.append es = .ok S) :
    ({ x with storage := S } : Node M).Orderly := by
  have hlast := Storage.lastIndex_append hS
  obtain ⟨hes, hSeq⟩ := Storage.append_eq_ok.mp hS
  have hb : S.snapshotIndex = x.storage.snapshotIndex := by rw [hSeq]; rfl
  refine ⟨?_, hx.applied, hb.trans_le hx.boundary_le, ?_, hx.staged,
    fun p hp => ?_⟩
  · show Numbered S.snapshotIndex S.log
    rw [hb, hSeq]
    exact hx.numbered.append hes
  · show x.commitIndex ≤ S.lastIndex
    have := hx.commit_le
    omega
  · obtain ⟨hlt, ht⟩ := hx.waiting p hp
    obtain ⟨e, he, -⟩ := hx.waiting_entry hp
    have hbx := hx.boundary_le
    refine ⟨hlt, ?_⟩
    show S.term p.index = some p.term
    rw [Storage.term_of_lt (by omega)] at ht
    rw [Storage.term_of_lt (by omega),
      Storage.entry_append hS (Storage.boundary_of_entry he).2, ht]

theorem Node.Orderly.advanced {k : Nat} {es : List (LogEntry V)}
    (hx : x.Orderly) (hk : x.commitIndex < k)
    (hlen : es.length = k - x.lastApplied)
    (hes : ∀ j e, es[j]? = some e →
      x.storage.entry (x.lastApplied + 1 + j) = some e) :
    (x.advanced k es).settled.Orderly := by
  have happ := hx.applied
  have hend : k ≤ x.storage.lastIndex := by
    have he := hes (es.length - 1) _
      (List.getElem?_eq_getElem (by omega))
    have := (Storage.boundary_of_entry he).2
    omega
  refine ⟨hx.numbered, ?_, hx.boundary_le.trans hk.le, hend,
    fun st hst => (hx.staged st hst).trans hk.le, fun p hp => ?_⟩
  · show x.lastApplied + es.length = k
    omega
  · exact (Node.mem_settled.mp hp).2

theorem Change.orderly (h : Change cause x z os) (hx : x.Orderly) :
    z.Orderly := by
  cases h with
  | nothing => exact hx
  | ship => exact hx
  | append es hS => exact hx.append hS
  | propose e hS =>
      have hnew := hx.append hS
      obtain ⟨hidx, he⟩ := Storage.entry_append_last hS
      refine ⟨hnew.numbered, hnew.applied, hnew.boundary_le, hnew.commit_le,
        hnew.staged, fun p hp => ?_⟩
      rcases List.mem_append.mp hp with hp | hp
      · exact hnew.waiting p hp
      · cases List.mem_singleton.mp hp
        have hle := hx.commit_le
        have hb := hnew.boundary_le
        simp only at he hb ⊢
        rw [Storage.term_of_lt (by omega), he]
        exact ⟨by omega, rfl⟩
  | @cut S i hr hi hS =>
      obtain ⟨hb, hSeq⟩ := Storage.truncateFrom_eq_ok.mp hS
      have hsame : S.snapshotIndex = x.storage.snapshotIndex := by
        rw [hSeq]
        rfl
      refine ⟨?_, hx.applied, hsame.trans_le hx.boundary_le, ?_, hx.staged,
        fun p hp => (Node.mem_settled.mp hp).2⟩
      · show Numbered S.snapshotIndex S.log
        rw [hsame, hSeq]
        exact hx.numbered.take _
      · show x.commitIndex ≤ S.lastIndex
        have := hx.commit_le
        rw [Storage.lastIndex] at this ⊢
        rw [hsame, hSeq, List.length_take]
        omega
  | @install S state snap hc hr hlt hS hstate =>
      obtain ⟨hb, hSeq⟩ := Storage.installSnapshot_eq_ok.mp hS
      have hsame : S.snapshotIndex = snap.lastIncludedIndex := by
        rw [hSeq]
        rfl
      refine ⟨?_, rfl, hsame.le, ?_, fun st hst => ?_,
        fun p hp => (Node.mem_settled.mp hp).2⟩
      · show Numbered S.snapshotIndex S.log
        have hnum := hx.numbered.drop
          (snap.lastIncludedIndex - x.storage.snapshotIndex)
        rw [Nat.add_sub_cancel' hb.le] at hnum
        rw [hsame, hSeq]
        simp only
        split
        · exact hnum
        · exact .nil
      · show snap.lastIncludedIndex ≤ S.lastIndex
        rw [Storage.lastIndex, hsame]
        exact Nat.le_add_right _ _
      · exact (hx.staged st hst).trans hlt.le
  | commit k es hk hlen hes hy hz =>
      exact hz.orderly ((hx.advanced hk hlen hes).unmoved hy)

theorem Deed.orderly (h : Deed cause x y os) (hx : x.Orderly) : y.Orderly := by
  obtain ⟨z, hz, hy⟩ := h
  exact (hz.orderly hx).unmoved hy

theorem Acts.orderly (h : Acts now cause x y os) (hx : x.Orderly) :
    y.Orderly :=
  h.keeps (fun _ _ _ _ hd => hd.orderly) hx

theorem Run.orderly (run : Run D M) (i : ℕ) (n : NodeId) :
    ((run.state i).nodes n).Orderly :=
  run.act_invariant
    (fun config => ⟨.nil, rfl, le_rfl, le_rfl, fun _ h => (by cases h),
      fun _ h => (by cases h)⟩)
    (fun _ state hx => .boot hx.numbered _ state)
    (fun _ _ _ _ _ _ hd => hd.orderly) i n

/-! ## Waiters across a change -/

theorem Unmoved.entry (h : Unmoved x y) (i : Nat) :
    y.storage.entry i = x.storage.entry i := by
  simp only [Storage.entry, Storage.pos,
    Storage.snapshotIndex_congr h.snapshot, h.log]

theorem Compacts.pending (h : Compacts x y) : y.pending = x.pending := by
  cases h <;> rfl

theorem Compacts.entry (h : Compacts x y) (hx : x.Orderly) {i : Nat}
    (hi : x.commitIndex < i) : y.storage.entry i = x.storage.entry i := by
  cases h with
  | off => rfl
  | wait => rfl
  | done _ hst _ hS =>
      have hle := Node.staging_le (x := x)
        (fun st hst => hx.applied ▸ hx.staged st hst) hst
      have := hx.applied
      exact Storage.entry_compactTo hS (by omega)

/-- Who waits after a change waited before, with the same entry in place, or
has just been accepted. -/
theorem Change.waits (h : Change cause x z os) (hx : x.Orderly)
    {p : PendingProposal} (hp : p ∈ z.pending) :
    (p ∈ x.pending ∧ z.storage.entry p.index = x.storage.entry p.index) ∨
      os = [.proposeReply (.ok (p.term, p.index))] := by
  have hold : p ∈ x.pending → ∃ e, x.storage.entry p.index = some e ∧
      e.term = p.term ∧ e.index = p.index := hx.waiting_entry
  -- the waiter left over has a term in place, so its entry was not lost
  have hkept : ∀ {S : Storage V M.Payload}, S.snapshotIndex < p.index →
      S.term p.index = some p.term → S.entry p.index ≠ none := by
    intro S hb ht hnone
    rw [Storage.term_of_lt hb, hnone] at ht
    cases ht
  cases h with
  | nothing => exact .inl ⟨hp, rfl⟩
  | ship => exact .inl ⟨hp, rfl⟩
  | append es hS =>
      obtain ⟨e, he, -⟩ := hold hp
      exact .inl ⟨hp, Storage.entry_append hS
        (Storage.boundary_of_entry he).2⟩
  | propose e hS =>
      rcases List.mem_append.mp hp with hp | hp
      · obtain ⟨e', he', -⟩ := hold hp
        exact .inl ⟨hp, Storage.entry_append hS
          (Storage.boundary_of_entry he').2⟩
      · cases List.mem_singleton.mp hp
        exact .inr rfl
  | @cut S i hr hi hS =>
      obtain ⟨hp, hlt, ht⟩ := Node.mem_settled.mp hp
      have hb : S.snapshotIndex = x.storage.snapshotIndex := by
        rw [(Storage.truncateFrom_eq_ok.mp hS).2]
        rfl
      have hbx := hx.boundary_le
      refine .inl ⟨hp, ?_⟩
      have hlt : x.commitIndex < p.index := hlt
      have hne := hkept (S := S) (by omega) ht
      show S.entry p.index = _
      rw [Storage.entry_truncateFrom hS] at hne ⊢
      split
      · rfl
      · next hge => exact absurd (if_neg hge) hne
  | @install S state snap hc hr hlt hS hstate =>
      obtain ⟨hp, hgt, ht⟩ := Node.mem_settled.mp hp
      have hb : S.snapshotIndex = snap.lastIncludedIndex := by
        rw [(Storage.installSnapshot_eq_ok.mp hS).2]
        rfl
      have hgt : snap.lastIncludedIndex < p.index := hgt
      refine .inl ⟨List.mem_of_mem_filter hp, ?_⟩
      exact (Storage.entry_installSnapshot hS hgt).resolve_right
        (hkept (by omega) ht)
  | commit k es hk hlen hes hy hz =>
      have hord := (hx.advanced hk hlen hes).unmoved hy
      rw [hz.pending, hy.pending] at hp
      obtain ⟨hp, hgt, -⟩ := Node.mem_settled.mp hp
      refine .inl ⟨hp, ?_⟩
      rw [hz.entry hord (hy.commitIndex.trans_lt hgt), hy.entry]
      rfl

theorem Deed.waits (hd : Deed cause x y os) (hm : Move now cause x y os)
    (hx : x.Orderly) {p : PendingProposal} (hp : p ∈ y.pending) :
    (p ∈ x.pending ∧ y.storage.entry p.index = x.storage.entry p.index) ∨
      ∃ cmd, cause = .propose cmd ∧
        Output.proposeReply (.ok (p.term, p.index)) ∈ os ∧
        y.storage.entry p.index = some ⟨p.term, p.index, cmd⟩ := by
  obtain ⟨z, hz, hy⟩ := hd
  rw [hy.pending] at hp
  rcases hz.waits hx hp with ⟨hp, he⟩ | hos
  · exact .inl ⟨hp, (hy.entry _).trans he⟩
  · have ho : Output.proposeReply (.ok (p.term, p.index)) ∈ os :=
      List.mem_of_mem_filter (hos ▸ List.mem_singleton.mpr rfl)
    obtain ⟨cmd, l, S, hc, -, -, -, hS, rfl⟩ := hm.accepts ho
    refine .inr ⟨cmd, hc, ho, ?_⟩
    rw [Node.storage_accepted]
    exact (Storage.entry_append_last hS).2

theorem Acts.waits (h : Acts now cause x y os) (hx : x.Orderly)
    {p : PendingProposal} (hp : p ∈ y.pending) :
    (p ∈ x.pending ∧ y.storage.entry p.index = x.storage.entry p.index) ∨
      ∃ cmd, cause = .propose cmd ∧
        Output.proposeReply (.ok (p.term, p.index)) ∈ os ∧
        y.storage.entry p.index = some ⟨p.term, p.index, cmd⟩ := by
  induction h with
  | refl => exact .inl ⟨hp, rfl⟩
  | step h hm hd ih =>
      rcases hd.waits hm (h.orderly hx) hp with ⟨hp, he⟩ | ⟨cmd, hc, ho, he⟩
      · refine (ih hp).imp (fun h => ⟨h.1, he.trans h.2⟩) fun h => ?_
        obtain ⟨cmd, hc, ho, he'⟩ := h
        exact ⟨cmd, hc, List.mem_append_left _ ho, he.trans he'⟩
      · exact .inr ⟨cmd, hc, List.mem_append_right _ ho, he⟩

/-! ## Verdicts of a change -/

theorem Node.of_mem_verdicts {o : Output M} (h : o ∈ x.verdicts) :
    ∃ (p : PendingProposal) (v : Bool),
      o = .committed p.term p.index v := by
  obtain ⟨p, -, heq⟩ := List.mem_filterMap.mp h
  obtain ⟨v, -, rfl⟩ := Option.map_eq_some_iff.mp heq
  exact ⟨p, v, rfl⟩

theorem Node.mem_verdicts {t i : Nat} {v : Bool} :
    Output.committed t i v ∈ x.verdicts ↔
      ⟨t, i⟩ ∈ x.pending ∧ x.verdict ⟨t, i⟩ = some v := by
  rw [Node.verdicts, List.mem_filterMap]
  constructor
  · rintro ⟨p, hp, heq⟩
    obtain ⟨v', hv, heq⟩ := Option.map_eq_some_iff.mp heq
    cases heq
    exact ⟨hp, hv⟩
  · rintro ⟨hp, hv⟩
    exact ⟨_, hp, by rw [hv]; rfl⟩

theorem Node.verdict_eq_true {p : PendingProposal} :
    x.verdict p = some true ↔
      x.storage.term p.index = some p.term ∧ p.index ≤ x.commitIndex := by
  rw [Node.verdict]
  split
  · next hne => simp [hne]
  · next heq =>
      rw [not_not] at heq
      split
      · next hge => simp [heq, hge]
      · next hlt => simp [hlt]

theorem Node.Orderly.applied_at {k : Nat} {es : List (LogEntry V)}
    (hx : x.Orderly) (hlen : es.length = k - x.lastApplied)
    (hes : ∀ j e, es[j]? = some e →
      x.storage.entry (x.lastApplied + 1 + j) = some e) {e : LogEntry V} :
    e ∈ es ↔ x.commitIndex < e.index ∧ e.index ≤ k ∧
      x.storage.entry e.index = some e := by
  have happ := hx.applied
  constructor
  · intro he
    obtain ⟨j, hj⟩ := List.getElem?_of_mem he
    have hlt := (List.getElem?_eq_some_iff.mp hj).1
    have hentry := hes j e hj
    have hidx := hx.entry_index hentry
    rw [hidx]
    exact ⟨by omega, by omega, hentry⟩
  · rintro ⟨hlt, hle, he⟩
    have hj : e.index - (x.lastApplied + 1) < es.length := by omega
    have hentry := hes _ _ (List.getElem?_eq_getElem hj)
    rw [show x.lastApplied + 1 + (e.index - (x.lastApplied + 1)) = e.index
      by omega, he] at hentry
    exact Option.some.inj hentry ▸ List.getElem_mem hj

/-- A change that says `true` to a waiter has said before that it applied the
entry the waiter waits for. -/
theorem Change.honest {t i : Nat} {a b : List (Output M)}
    (h : Change cause x z (a ++ .committed t i true :: b)) (hx : x.Orderly) :
    ⟨t, i⟩ ∈ x.pending ∧ ∃ e, x.storage.entry i = some e ∧
      Output.applied e ∈ a := by
  generalize ho : a ++ .committed t i true :: b = os at h
  have hmem : Output.committed t i true ∈ os := by simp [← ho]
  cases h with
  | nothing => cases hmem
  | append => cases hmem
  | propose => cases List.mem_singleton.mp hmem
  | ship => cases List.mem_singleton.mp hmem
  | cut k hr hi hS =>
      obtain ⟨hp, hv⟩ := Node.mem_verdicts.mp hmem
      have hlt := (hx.waiting _ hp).1
      exact absurd (Node.verdict_eq_true.mp hv).2 (Nat.not_le_of_lt hlt)
  | install snap =>
      rcases List.mem_append.mp hmem with hmem | hmem
      · obtain ⟨p, -, heq⟩ := List.mem_map.mp hmem
        cases heq
      · obtain ⟨hp, hv⟩ := Node.mem_verdicts.mp hmem
        have hgt : snap.lastIncludedIndex < i :=
          of_decide_eq_true (List.mem_filter.mp hp).2
        exact absurd (Node.verdict_eq_true.mp hv).2 (Nat.not_le_of_lt hgt)
  | commit k es hk hlen hes =>
      have hno : Output.committed t i true ∉
          es.map (Output.applied : LogEntry V → Output M) := by
        intro hm
        obtain ⟨e, -, heq⟩ := List.mem_map.mp hm
        cases heq
      obtain ⟨hp, hv⟩ := Node.mem_verdicts.mp
        ((List.mem_append.mp hmem).resolve_left hno)
      obtain ⟨e, he, -, hidx⟩ := hx.waiting_entry hp
      have hin : e ∈ es := (hx.applied_at hlen hes).mpr
        ⟨hidx ▸ (hx.waiting _ hp).1, hidx ▸ (Node.verdict_eq_true.mp hv).2,
          hidx.symm ▸ he⟩
      refine ⟨hp, e, he, ?_⟩
      -- all that is applied stands before all verdicts
      rcases List.append_eq_append_iff.mp ho with ⟨c, hc, hc'⟩ | ⟨c, hc, -⟩
      · cases c with
        | nil =>
            rw [List.append_nil] at hc
            exact hc ▸ List.mem_map_of_mem hin
        | cons o c =>
            rw [List.cons_append] at hc'
            obtain ⟨rfl, -⟩ := List.cons.inj hc'
            exact absurd (hc ▸ List.mem_append_right a
              List.mem_cons_self) hno
      · rw [hc]
        exact List.mem_append_left _ (List.mem_map_of_mem hin)

theorem Acts.honest {t i : Nat} (h : Acts now cause x y os) (hx : x.Orderly)
    {a b : List (Output M)} (ho : os = a ++ .committed t i true :: b) :
    (⟨t, i⟩ ∈ x.pending ∧ ∃ e, x.storage.entry i = some e ∧
        Output.applied e ∈ a) ∨
      ∃ cmd, cause = .propose cmd ∧
        Output.proposeReply (.ok (t, i)) ∈ os ∧
        Output.applied ⟨t, i, cmd⟩ ∈ a := by
  induction h generalizing a b with
  | refl => simp at ho
  | @step y z os os' h hm hd ih =>
      -- the verdict is of the last link, or of the others
      have hcase : (∃ c, a = os ++ c ∧ os' = c ++ .committed t i true :: b) ∨
          ∃ c, os = a ++ .committed t i true :: c := by
        rcases List.append_eq_append_iff.mp ho with ⟨c, hc, hc'⟩ |
          ⟨c, hc, hc'⟩
        · exact .inl ⟨c, hc, hc'⟩
        · cases c with
          | nil =>
              rw [List.append_nil] at hc
              exact .inl ⟨[], by rw [hc, List.append_nil], hc'.symm⟩
          | cons o c =>
              rw [List.cons_append] at hc'
              obtain ⟨rfl, -⟩ := List.cons.inj hc'
              exact .inr ⟨c, hc⟩
      rcases hcase with ⟨c, rfl, hc⟩ | ⟨c, hc⟩
      · obtain ⟨z', hz, -⟩ := hd
        rw [hc, List.filter_append, List.filter_cons_of_pos (by rfl)] at hz
        obtain ⟨hp, e, he, hin⟩ := hz.honest (h.orderly hx)
        have hin := List.mem_append_right os (List.mem_of_mem_filter hin)
        rcases h.waits hx hp with ⟨hp, hsame⟩ | ⟨cmd, hcause, hacc, hsame⟩
        · exact .inl ⟨hp, e, hsame.symm.trans he, hin⟩
        · rw [hsame] at he
          cases he
          exact .inr ⟨cmd, hcause, List.mem_append_left _ hacc, hin⟩
      · refine (ih hc).imp id fun h' => ?_
        obtain ⟨cmd, hcause, hacc, hin⟩ := h'
        exact ⟨cmd, hcause, List.mem_append_left _ hacc, hin⟩

/-! ## No waiter is forgotten -/

theorem Acts.commitIndex_le (h : Acts now cause x y os) :
    x.commitIndex ≤ y.commitIndex :=
  h.keeps (I := fun z => x.commitIndex ≤ z.commitIndex)
    (fun _ _ _ _ hd hx => hx.trans hd.commitIndex_le) le_rfl

/-- What is applied follows what was committed, and its waiter hears of it in
the same change. -/
theorem Change.applies {e : LogEntry V} (h : Change cause x z os)
    (hx : x.Orderly) (he : Output.applied e ∈ os) :
    x.commitIndex < e.index ∧ e.index ≤ z.commitIndex ∧
      (∀ p, Output.proposeReply (.ok p) ∉ os) ∧
      (⟨e.term, e.index⟩ ∈ x.pending →
        Output.committed e.term e.index true ∈ os) := by
  cases h with
  | nothing => cases he
  | append => cases he
  | propose => cases List.mem_singleton.mp he
  | ship => cases List.mem_singleton.mp he
  | cut =>
      obtain ⟨p, v, heq⟩ := Node.of_mem_verdicts he
      cases heq
  | install =>
      rcases List.mem_append.mp he with he | he
      · obtain ⟨p, -, heq⟩ := List.mem_map.mp he
        cases heq
      · obtain ⟨p, v, heq⟩ := Node.of_mem_verdicts he
        cases heq
  | commit k es hk hlen hes hy hz =>
      have hin : e ∈ es := by
        rcases List.mem_append.mp he with he | he
        · obtain ⟨e', he', heq⟩ := List.mem_map.mp he
          cases heq
          exact he'
        · obtain ⟨p, v, heq⟩ := Node.of_mem_verdicts he
          cases heq
      obtain ⟨hlt, hle, hat⟩ := (hx.applied_at hlen hes).mp hin
      have hbx := hx.boundary_le
      refine ⟨hlt, ?_, fun p hp => ?_, fun hp => ?_⟩
      · rw [hz.commitIndex, hy.commitIndex]
        exact hle
      · rcases List.mem_append.mp hp with hp | hp
        · obtain ⟨e', -, heq⟩ := List.mem_map.mp hp
          cases heq
        · obtain ⟨p, v, heq⟩ := Node.of_mem_verdicts hp
          cases heq
      · refine List.mem_append_right _ (Node.mem_verdicts.mpr
          ⟨hp, Node.verdict_eq_true.mpr ⟨?_, hle⟩⟩)
        show x.storage.term e.index = some e.term
        rw [Storage.term_of_lt (by omega), hat]
        rfl

theorem Deed.applies {e : LogEntry V} (h : Deed cause x y os) (hx : x.Orderly)
    (he : Output.applied e ∈ os) :
    x.commitIndex < e.index ∧ e.index ≤ y.commitIndex ∧
      (∀ p, Output.proposeReply (.ok p) ∉ os) ∧
      (⟨e.term, e.index⟩ ∈ x.pending →
        Output.committed e.term e.index true ∈ os) := by
  obtain ⟨z, hz, hy⟩ := h
  obtain ⟨hlt, hle, hno, hyes⟩ := hz.applies hx
    (List.mem_filter.mpr ⟨he, rfl⟩)
  exact ⟨hlt, hle.trans hy.commitIndex.ge,
    fun p hp => hno p (List.mem_filter.mpr ⟨hp, rfl⟩),
    fun hp => List.mem_of_mem_filter (hyes hp)⟩

theorem Node.settles {p : PendingProposal} (hp : p ∈ x.pending) :
    p ∈ x.settled.pending ∨
      Output.committed p.term p.index false ∈ x.verdicts ∨
      p.index ≤ x.commitIndex := by
  by_cases ht : x.storage.term p.index = some p.term
  · rcases Nat.lt_or_ge x.commitIndex p.index with hlt | hge
    · exact .inl (Node.mem_settled.mpr ⟨hp, hlt, ht⟩)
    · exact .inr (.inr hge)
  · exact .inr (.inl (Node.mem_verdicts.mpr ⟨hp, by
      rw [Node.verdict, if_pos ht]⟩))

/-- A waiter goes on waiting until its entry is gone or the commit index has
reached it. -/
theorem Change.resolved {p : PendingProposal} (h : Change cause x z os)
    (hp : p ∈ x.pending) : p ∈ z.pending ∨
      Output.committed p.term p.index false ∈ os ∨
      p.index ≤ z.commitIndex := by
  cases h with
  | nothing => exact .inl hp
  | append => exact .inl hp
  | propose => exact .inl (List.mem_append_left _ hp)
  | ship => exact .inl hp
  | cut => exact Node.settles hp
  | @install S state snap =>
      rcases Nat.lt_or_ge snap.lastIncludedIndex p.index with hlt | hge
      · exact (Node.settles (x := x.replaced S state _)
          (List.mem_filter.mpr ⟨hp, decide_eq_true hlt⟩)).imp id
            (Or.imp (List.mem_append_right _) id)
      · exact .inr (.inr hge)
  | commit k es hk hlen hes hy hz =>
      rw [hz.pending, hy.pending, hz.commitIndex, hy.commitIndex]
      exact (Node.settles (x := x.advanced k es) hp).imp id
        (Or.imp (List.mem_append_right _) id)

theorem Acts.resolved {p : PendingProposal} (h : Acts now cause x y os)
    (hp : p ∈ x.pending ∨
      Output.proposeReply (.ok (p.term, p.index)) ∈ os) :
    p ∈ y.pending ∨ Output.committed p.term p.index false ∈ os ∨
      p.index ≤ y.commitIndex := by
  induction h with
  | refl => exact hp.elim .inl fun h => by cases h
  | @step y z os os' h hm hd ih =>
      have hnew : Output.proposeReply (.ok (p.term, p.index)) ∈ os' →
          p ∈ z.pending := by
        intro ho
        obtain ⟨cmd, l, S, -, -, ht, hi, -, rfl⟩ := hm.accepts ho
        rw [Node.pending_accepted, ← ht, ← hi]
        exact List.mem_append_right _ (List.mem_singleton.mpr rfl)
      have hold : p ∈ y.pending → p ∈ z.pending ∨
          Output.committed p.term p.index false ∈ os ++ os' ∨
          p.index ≤ z.commitIndex := by
        intro hp
        obtain ⟨z', hz, hz'⟩ := hd
        rw [hz'.pending, hz'.commitIndex]
        exact (hz.resolved hp).imp id (Or.imp (fun ho =>
          List.mem_append_right _ (List.mem_of_mem_filter ho)) id)
      have hrest := fun hp => (ih hp).elim hold
        (Or.elim · (fun ho => .inr (.inl (List.mem_append_left _ ho)))
          (fun hle => .inr (.inr (hle.trans hd.commitIndex_le))))
      rcases hp with hp | ho
      · exact hrest (.inl hp)
      · rcases List.mem_append.mp ho with ho | ho
        · exact hrest (.inr ho)
        · exact .inl (hnew ho)

/-- A proposal taken on is above everything committed so far. -/
theorem Acts.accepted_above {t i : Nat} (h : Acts now cause x y os)
    (hx : x.Orderly) (ho : Output.proposeReply (.ok (t, i)) ∈ os) :
    x.commitIndex < i := by
  obtain ⟨y₁, y₂, os₁, os', os₂, h₁, hm, -, ho', -, -⟩ := h.split ho
  obtain ⟨cmd, l, S, -, -, -, hi, -⟩ := hm.accepts ho'
  have hle := h₁.commitIndex_le
  have hend := (h₁.orderly hx).commit_le
  omega

/-- The waiter of an entry hears of it when it is applied, unless it was told
before, in the same event, that the entry is gone. -/
theorem Acts.applies {e : LogEntry V} (h : Acts now cause x y os)
    (hx : x.Orderly) (he : Output.applied e ∈ os) :
    e.index ≤ y.commitIndex ∧
      (⟨e.term, e.index⟩ ∈ x.pending ∨
          Output.proposeReply (.ok (e.term, e.index)) ∈ os →
        Output.committed e.term e.index true ∈ os ∨
          Output.committed e.term e.index false ∈ os) := by
  obtain ⟨y₁, y₂, os₁, os', os₂, h₁, hm, hd, ho, h₂, rfl⟩ := h.split he
  have hy₁ := h₁.orderly hx
  obtain ⟨hlt, hle, hno, hyes⟩ := hd.applies hy₁ ho
  refine ⟨hle.trans h₂.commitIndex_le, fun hp => ?_⟩
  -- nobody proposes what is just being applied, or was applied before
  have hbefore : ⟨e.term, e.index⟩ ∈ x.pending ∨
      Output.proposeReply (.ok (e.term, e.index)) ∈ os₁ := by
    refine hp.imp id fun hp => ?_
    rcases List.mem_append.mp hp with hp | hp
    · exact (List.mem_append.mp hp).resolve_right (hno _)
    · have := h₂.accepted_above (hd.orderly hy₁) hp
      omega
  rcases h₁.resolved hbefore with hp | ho | hge
  · exact .inl (List.mem_append_left _
      (List.mem_append_right _ (hyes hp)))
  · exact .inr (List.mem_append_left _ (List.mem_append_left _ ho))
  · exact absurd hge (Nat.not_le_of_lt hlt)

/-! ## Along a run -/

/-- At step `j` node `n` took on `cmd` and promised `(t, i)` for it. -/
def Run.Accepted (run : Run D M) (j : ℕ) (n : NodeId) (t i : Nat)
    (cmd : Command V) : Prop :=
  (∃ now, run.action j = .propose n cmd now) ∧ (run.effect j).node = n ∧
    Output.proposeReply (.ok (t, i)) ∈ (run.effect j).outputs

/-- Node `n` is asked about `(t, i)` after every step from `j` to `k`. -/
def Run.WaitsFor (run : Run D M) (j k : ℕ) (n : NodeId) (t i : Nat) : Prop :=
  ∀ m, j < m → m ≤ k → ⟨t, i⟩ ∈ ((run.state m).nodes n).pending

/-- Every waiter was accepted by this very process, has waited since, and
what it proposed is in place. -/
theorem Run.waiter_accepted (run : Run D M) {k : ℕ} {n : NodeId} {t i : Nat}
    (hp : ⟨t, i⟩ ∈ ((run.state k).nodes n).pending) :
    ∃ j cmd, j < k ∧ run.Accepted j n t i cmd ∧ run.WaitsFor j k n t i ∧
      ((run.state k).nodes n).storage.entry i = some ⟨t, i, cmd⟩ := by
  induction k with
  | zero =>
      rw [run.init] at hp
      cases hp
  | succ k ih =>
      have hold : ⟨t, i⟩ ∈ ((run.state k).nodes n).pending →
          ((run.state (k + 1)).nodes n).storage.entry i =
            ((run.state k).nodes n).storage.entry i →
          ∃ j cmd, j < k + 1 ∧ run.Accepted j n t i cmd ∧
            run.WaitsFor j (k + 1) n t i ∧
            ((run.state (k + 1)).nodes n).storage.entry i =
              some ⟨t, i, cmd⟩ := by
        intro hpk hsame
        obtain ⟨j, cmd, hj, hacc, hwait, he⟩ := ih hpk
        refine ⟨j, cmd, by omega, hacc, fun m hjm hmk => ?_, hsame.trans he⟩
        rcases Nat.lt_or_eq_of_le hmk with hlt | rfl
        · exact hwait m hjm (by omega)
        · exact hp
      by_cases hn : n = (run.effect k).node
      · cases run.acted k with
        | idle hc =>
            rw [hc] at hp
            exact hold hp (by rw [hc])
        | turn now cause h ha =>
            rw [← hn] at ha
            rcases ha.waits (run.orderly k n) hp with ⟨hpk, hsame⟩ |
              ⟨cmd, hc, ho, he⟩
            · exact hold hpk hsame
            · have hact := h.causes.propose_eq hc
              refine ⟨k, cmd, by omega, ⟨⟨now, hn ▸ hact⟩, hn.symm, ho⟩,
                fun m hkm hmk => ?_, he⟩
              obtain rfl : m = k + 1 := by omega
              exact hp
        | restart h =>
            obtain ⟨state, hboot⟩ := Node.eq_boot_of_spawn (hn ▸ h.node)
            rw [hboot] at hp
            cases hp
      · have hsame : (run.state (k + 1)).nodes n = (run.state k).nodes n := by
          cases run.acted k with
          | idle hc => rw [hc]
          | turn now cause h ha => exact h.others n hn
          | restart h => exact h.others n hn
        rw [hsame] at hp
        exact hold hp (by rw [hsame])

theorem Cluster.Rebirth.drops {c c' : Cluster M} {a : Action V}
    {eff : Effect M} (h : c.Rebirth a c' eff)
    (hs : c.step a = some (.ok (c', eff))) {o : Output M}
    (ho : o ∈ eff.outputs) :
    (∃ t i, o = .dropped t i) ∨ ∃ t q, o = .readDropped t q := by
  rw [h.action, Cluster.step, Cluster.reborn] at hs
  split at hs
  · cases hs
  · have heff := congrArg Prod.snd (Except.ok.inj (Option.some.inj hs))
    have hout : eff.outputs = Cluster.lost (c.nodes eff.node) :=
      congrArg Effect.outputs heff.symm
    rw [hout, Cluster.lost] at ho
    rcases List.mem_append.mp ho with ho | ho
    · obtain ⟨p, -, rfl⟩ := List.mem_map.mp ho
      exact .inl ⟨_, _, rfl⟩
    · obtain ⟨r, -, rfl⟩ := List.mem_map.mp ho
      exact .inr ⟨_, _, rfl⟩

namespace Run.Trace

variable {k t i : ℕ}

theorem not_promised (T : run.Trace)
    (hp : ⟨t, i⟩ ∈ ((run.state k).nodes (run.effect k).node).pending) :
    Output.proposeReply (.ok (t, i)) ∉ (run.effect k).outputs := by
  intro ho
  obtain ⟨_, htr, -⟩ := (T.advance k).here
  have hn := (T.inv k).nodes (run.effect k).node
  obtain ⟨hlow, ht⟩ := hn.waiting _ hp
  obtain ⟨e, he, rfl⟩ := termAt_eq_some ht (by omega)
  have hlt : i - 1 < ((T.hist k).tlog e.term).length :=
    hn.ok.valid.lt_tlog he
  have hgt : ((T.hist k).tlog e.term).length < i := (htr.out _ ho).2
  omega

/-- What a node has applied in an event it does not give up in it. -/
theorem not_refused (T : run.Trace) {e : LogEntry V}
    (he : Output.applied e ∈ (run.effect k).outputs)
    (hle : e.index ≤
      ((run.state (k + 1)).nodes (run.effect k).node).commitIndex) :
    Output.committed e.term e.index false ∉ (run.effect k).outputs := by
  intro ho
  obtain ⟨_, htr, -⟩ := (T.advance k).here
  obtain ⟨-, -, hne⟩ := htr.out _ ho
  obtain ⟨hpos, u, P, hP, hat⟩ := T.applied_output he
  have hlen := hle.trans htr.inv.body.commit_le
  have hget := List.getElem?_eq_getElem
    (l := T.log (k + 1) (run.effect k).node) (i := e.index - 1) (by omega)
  have heq := T.committed_agree (T.applied_committed (k + 1) _ hle) hP
    ((getElem?_take_of_lt (by omega)).trans hget) hat
  rw [heq] at hget
  apply hne
  rw [termAt_of_pos hpos, hget]
  rfl

end Run.Trace

/-- A confirmed proposal was accepted by the node that confirms it, has waited
there, and is applied before the verdict goes out. -/
theorem Run.Trace.confirmed_accepted (T : run.Trace) {k : ℕ} {t i : Nat}
    (ho : Output.committed t i true ∈ (run.effect k).outputs) :
    ∃ j cmd, j ≤ k ∧ run.Accepted j (run.effect k).node t i cmd ∧
      run.WaitsFor j k (run.effect k).node t i ∧
      ∀ a b, (run.effect k).outputs = a ++ .committed t i true :: b →
        Output.applied ⟨t, i, cmd⟩ ∈ a := by
  cases run.acted k with
  | idle hc hos =>
      rw [hos] at ho
      cases ho
  | restart h =>
      obtain ⟨_, _, heq⟩ | ⟨_, _, heq⟩ := h.drops (run.step k) ho <;>
        cases heq
  | turn now cause h ha =>
      have hord := run.orderly k (run.effect k).node
      obtain ⟨a₀, b₀, hab₀⟩ := List.append_of_mem ho
      by_cases hp : ⟨t, i⟩ ∈
          ((run.state k).nodes (run.effect k).node).pending
      · obtain ⟨j, cmd, hj, hacc, hwait, hin⟩ := run.waiter_accepted hp
        refine ⟨j, cmd, hj.le, hacc, hwait, fun a b hab => ?_⟩
        rcases ha.honest hord hab with ⟨-, e, he, hbefore⟩ |
          ⟨_, -, hnew, -⟩
        · rw [hin] at he
          exact Option.some.inj he ▸ hbefore
        · exact absurd hnew (T.not_promised hp)
      · obtain ⟨hp', -⟩ | ⟨cmd, hc, hnew, -⟩ := ha.honest hord hab₀
        · exact absurd hp' hp
        · have hact := h.causes.propose_eq hc
          refine ⟨k, cmd, le_rfl, ⟨⟨now, hact⟩, rfl, hnew⟩,
            fun m hkm hmk => absurd hmk (Nat.not_le_of_lt hkm),
            fun a b hab => ?_⟩
          obtain ⟨hp', -⟩ | ⟨cmd', hc', -, hbefore⟩ :=
            ha.honest hord hab
          · exact absurd hp' hp
          · cases hc.symm.trans hc'
            exact hbefore

theorem Run.applied_of_confirmed (run : Run D M) {k : ℕ} {t i : Nat}
    (ho : Output.committed t i true ∈ (run.effect k).outputs) :
    ∃ j cmd, run.Accepted j (run.effect k).node t i cmd ∧
      Output.applied ⟨t, i, cmd⟩ ∈ (run.effect k).outputs := by
  obtain ⟨T⟩ := run.exists_trace
  obtain ⟨j, cmd, -, hacc, -, hbefore⟩ := T.confirmed_accepted ho
  obtain ⟨a, b, hab⟩ := List.append_of_mem ho
  exact ⟨j, cmd, hacc, hab ▸ List.mem_append_left _ (hbefore a b hab)⟩

/-- Between events every waiter waits for an entry that is in place, above
the commit index. Whoever hears `true` was accepted by this process and has
waited since, and what it proposed was applied before, in the same event. And
when a node applies an entry somebody waits for, it says `true` in that very
event and nothing else, whatever it compacts in it. -/
theorem positive_verdicts (run : Run D M) :
    (∀ k n, ∀ p ∈ ((run.state k).nodes n).pending,
      ((run.state k).nodes n).storage.snapshotIndex ≤
          ((run.state k).nodes n).commitIndex ∧
        ((run.state k).nodes n).commitIndex < p.index ∧
        ((run.state k).nodes n).storage.term p.index = some p.term) ∧
    (∀ k t i, Output.committed t i true ∈ (run.effect k).outputs →
      ∃ j cmd, j ≤ k ∧ run.Accepted j (run.effect k).node t i cmd ∧
        run.WaitsFor j k (run.effect k).node t i ∧
        ∀ a b, (run.effect k).outputs = a ++ .committed t i true :: b →
          Output.applied ⟨t, i, cmd⟩ ∈ a) ∧
    ∀ k e, Output.applied e ∈ (run.effect k).outputs →
      e.index ≤
        ((run.state (k + 1)).nodes (run.effect k).node).lastApplied ∧
      ((⟨e.term, e.index⟩ ∈
          ((run.state k).nodes (run.effect k).node).pending ∨
        Output.proposeReply (.ok (e.term, e.index)) ∈
          (run.effect k).outputs) →
      Output.committed e.term e.index true ∈ (run.effect k).outputs ∧
        Output.committed e.term e.index false ∉ (run.effect k).outputs ∧
        ⟨e.term, e.index⟩ ∉
          ((run.state (k + 1)).nodes (run.effect k).node).pending) := by
  obtain ⟨T⟩ := run.exists_trace
  refine ⟨fun k n p hp => ?_, fun k t i ho => ?_, fun k e he => ?_⟩
  · have hord := run.orderly k n
    exact ⟨hord.boundary_le, hord.waiting p hp⟩
  · exact T.confirmed_accepted ho
  · cases run.acted k with
    | idle hc hos =>
        rw [hos] at he
        cases he
    | restart h =>
        obtain ⟨_, _, heq⟩ | ⟨_, _, heq⟩ := h.drops (run.step k) he <;>
          cases heq
    | turn now cause h ha =>
        obtain ⟨hle, hsaid⟩ := ha.applies
          (run.orderly k (run.effect k).node) he
        have hno := T.not_refused he hle
        have hord := run.orderly (k + 1) (run.effect k).node
        refine ⟨hord.applied ▸ hle, fun hp => ⟨(hsaid hp).resolve_right hno,
          hno, fun hleft => ?_⟩⟩
        exact absurd hle (Nat.not_le_of_lt (hord.waiting _ hleft).1)

end RustKV
