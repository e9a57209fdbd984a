import RustKV.Proofs.Disk

/-!
# Crashes and reopenings

Whole runs over one data directory: calls, crashes anywhere inside them, and
reopenings, any number of times.

The calls that concern only the local log are atomic up to a torn append, and
leave a file that ends where the log does; a run of them can always be
reopened. `install_snapshot` is the one call whose boundary may lie above the
local log. Cut off between its two writes it leaves lines in the file that are
all below the boundary, and an append to such a file cannot be read back.
Short of that, no entry that is owed is ever lost.
-/

namespace RustKV

open Rust

variable {V P : Type} {J : Json V P} {d : Dir} {s s' : Storage V P}
  {K es : List (LogEntry V)} {a b c : Nat} {op : StorageOp V P}
  {ws : List Write}

/-! ## Runs -/

namespace Disk

/-- Of the entries that were owed before an event, those still owed after it:
acknowledged, and not since truncated, compacted or replaced. -/
def owedAfter (J : Json V P) (x : Disk V P) (owed : List (LogEntry V)) :
    DiskEvent V P → List (LogEntry V)
  | .call op =>
      match op.run J x.mem with
      | .error _ => owed
      | .ok _ => owed.filter (!op.removes x.mem ·) ++ op.appended
  | .crash op _ _ =>
      match op.run J x.mem with
      | .error _ => owed
      | .ok _ => owed.filter (!op.removes x.mem ·)

/-- Any number of calls, crashes and reopenings, up to the first reopening
that fails. -/
def run (J : Json V P) (x : Disk V P) (owed : List (LogEntry V)) :
    List (DiskEvent V P) → Except Failure (Disk V P × List (LogEntry V))
  | [] => .ok (x, owed)
  | event :: rest =>
      match x.step J event with
      | .error e => .error e
      | .ok x' => x'.run J (x.owedAfter J owed event) rest

/-- An event that puts no line behind a stale file. An append that is empty,
is refused or breaks off within its first line puts none. -/
def ready (J : Json V P) (x : Disk V P) (event : DiskEvent V P) : Bool :=
  !x.stale J || !(event.op.run J x.mem).isOk ||
    !(event.added J).contains newline

/-- No event of a run puts a line behind a stale file. -/
def careful (J : Json V P) (x : Disk V P) : List (DiskEvent V P) → Bool
  | [] => true
  | event :: rest => x.ready J event &&
      match x.step J event with
      | .error _ => true
      | .ok x' => x'.careful J rest

variable {x : Disk V P} {owed : List (LogEntry V)}

theorem fit_of_ready {event : DiskEvent V P} (hx : Stored J x.dir x.mem a K)
    (hr : x.ready J event = true)
    (hop : event.op.run J x.mem = .ok (ws, s')) :
    ∃ a', Stored J x.dir x.mem a' K ∧ (newline ∈ event.added J →
      x.mem.snapshotIndex ≤ a' + K.length) := by
  cases hst : x.stale J with
  | false =>
      obtain ⟨a', hst, hend⟩ := hx.fit hst
      exact ⟨a', hst, fun _ => hend⟩
  | true =>
      simp only [ready, hst, hop, Except.isOk, Except.toBool] at hr
      exact ⟨a, hx, fun h => absurd h (by simpa using hr)⟩

theorem step_ok {event : DiskEvent V P} (hx : Stored J x.dir x.mem a K)
    (howed : ∀ e ∈ owed, e ∈ x.mem.log) (hr : x.ready J event = true) :
    ∃ x' a' K', x.step J event = .ok x' ∧ Stored J x'.dir x'.mem a' K' ∧
      ∀ e ∈ x.owedAfter J owed event, e ∈ x'.mem.log := by
  have hfilter : ∀ {s' : Storage V P}, (∀ e ∈ x.mem.log,
      event.op.removes x.mem e = false → e ∈ s'.log) →
      ∀ e ∈ owed.filter (!event.op.removes x.mem ·), e ∈ s'.log := by
    intro s' hkeep e he
    obtain ⟨he, hr⟩ := List.mem_filter.mp he
    exact hkeep e (howed e he) (by simpa using hr)
  cases event with
  | call op =>
      simp only [step, owedAfter]
      cases hop : op.run J x.mem with
      | error e => exact ⟨x, a, K, rfl, hx, howed⟩
      | ok r =>
          obtain ⟨a', hst, hend⟩ := fit_of_ready hx hr hop
          have hout := Outcome.of_run hop hst.retained
          obtain ⟨a'', K', hst', -⟩ := hout.completed hst hend
          refine ⟨_, a'', K', rfl, hst', fun e he => ?_⟩
          rcases List.mem_append.mp he with he | he
          · exact hfilter hout.keeps.1 e he
          · exact hout.keeps.2 e he
  | crash op k n =>
      simp only [step, owedAfter]
      cases hop : op.run J x.mem with
      | error e => exact ⟨_, a, K, hx.reopen, hx, howed⟩
      | ok r =>
          obtain ⟨a', hst, hend⟩ := fit_of_ready hx hr hop
          have hout := Outcome.of_run hop hst.retained
          obtain ⟨x', a'', K', hopen, hst', hrem, -⟩ :=
            hout.crash hst k n hend
          exact ⟨x', a'', K', hopen, hst',
            hfilter (hrem.keeps hout hst.retained)⟩

theorem run_ok {events : List (DiskEvent V P)}
    (hx : Stored J x.dir x.mem a K) (howed : ∀ e ∈ owed, e ∈ x.mem.log)
    (hc : x.careful J events = true) :
    ∃ x' owed', x.run J owed events = .ok (x', owed') ∧
      ∀ e ∈ owed', e ∈ x'.mem.log := by
  induction events generalizing x owed a K with
  | nil => exact ⟨x, owed, rfl, howed⟩
  | cons event rest ih =>
      rw [careful, Bool.and_eq_true] at hc
      obtain ⟨hr, hc⟩ := hc
      obtain ⟨x', a', K', hstep, hx', howed'⟩ := step_ok hx howed hr
      rw [hstep] at hc
      rw [run, hstep]
      exact ih hx' howed' hc

end Disk

/-- A call that brings no snapshot from elsewhere. -/
def StorageOp.isLocal : StorageOp V P → Bool
  | .installSnapshot _ => false
  | _ => true

/-- Such a call moves the boundary within the log, if at all, and then keeps
what lies above it. -/
theorem StorageOp.boundary_of_isLocal (hl : op.isLocal = true)
    (h : op.run J s = .ok (ws, s')) : s'.snapshotIndex ≤ s.lastIndex ∧
      (s.snapshotIndex < s'.snapshotIndex → s' = { s with
        snapshot := s'.snapshot
        log := s.log.drop (s'.snapshotIndex - s.snapshotIndex) }) := by
  -- all calls but one leave the snapshot as it is
  have hsame : s'.snapshot = s.snapshot → s'.snapshotIndex ≤ s.lastIndex ∧
      (s.snapshotIndex < s'.snapshotIndex → s' = { s with
        snapshot := s'.snapshot
        log := s.log.drop (s'.snapshotIndex - s.snapshotIndex) }) := by
    intro hsnap
    rw [Storage.snapshotIndex_congr hsnap]
    exact ⟨Nat.le_add_right _ _, fun h => absurd h (Nat.lt_irrefl _)⟩
  cases op with
  | saveHardState hs =>
      cases h
      exact hsame rfl
  | append es =>
      obtain ⟨s₁, h₁, h⟩ := Except.map_eq_ok h
      obtain ⟨-, rfl⟩ := Storage.append_eq_ok.mp h₁
      cases h
      exact hsame rfl
  | truncateFrom start =>
      obtain ⟨s₁, h₁, h⟩ := Except.map_eq_ok h
      obtain ⟨-, rfl⟩ := Storage.truncateFrom_eq_ok.mp h₁
      cases h
      exact hsame rfl
  | compactTo i state membership =>
      obtain ⟨s₁, h₁, h⟩ := Except.map_eq_ok h
      obtain ⟨e, he, rfl⟩ := Storage.compactTo_eq_ok.mp h₁
      cases h
      exact ⟨(Storage.boundary_of_entry he).2, fun _ => rfl⟩
  | installSnapshot snap => cases hl

/-- What an event leaves of a storage `s`: a call its result; a crash inside a
call the state before it or after it, or part of what it was to append. -/
def DiskEvent.Leaves (J : Json V P) (s t : Storage V P) :
    DiskEvent V P → Prop
  | .call op =>
      match op.run J s with
      | .error _ => t = s
      | .ok (_, s') => t = s'
  | .crash op _ _ => t = s ∨ ∃ ws s', op.run J s = .ok (ws, s') ∧
      (t = s' ∨ ∃ es m, op = .append es ∧
        t = { s with log := s.log ++ es.take m })

namespace Disk

/-- The directory holds the memory, and its log file ends where the log
does. -/
def Fits (J : Json V P) (x : Disk V P) : Prop :=
  ∃ a K, Stored J x.dir x.mem a K ∧ x.mem.snapshotIndex ≤ a + K.length

variable {x : Disk V P} {event : DiskEvent V P}

theorem Fits.init (path : String) : (init path : Disk V P).Fits J :=
  ⟨0, [], Stored.init path, le_rfl⟩

theorem Fits.step (h : x.Fits J) (hl : event.op.isLocal = true) :
    ∃ x', x.step J event = .ok x' ∧ x'.Fits J ∧
      event.Leaves J x.mem x'.mem := by
  obtain ⟨a, K, hst, hfit⟩ := h
  cases event with
  | call op =>
      simp only [Disk.step, DiskEvent.Leaves]
      cases hop : op.run J x.mem with
      | error e => exact ⟨x, rfl, ⟨a, K, hst, hfit⟩, rfl⟩
      | ok r =>
          obtain ⟨a', K', hst', hfit'⟩ :=
            (Outcome.of_run hop hst.retained).completed hst fun _ => hfit
          exact ⟨_, rfl, ⟨a', K', hst', hfit' hfit⟩, rfl⟩
  | crash op k n =>
      simp only [Disk.step, DiskEvent.Leaves]
      cases hop : op.run J x.mem with
      | error e =>
          exact ⟨_, hst.reopen, ⟨a, K, hst, hfit⟩, .inl rfl⟩
      | ok r =>
          obtain ⟨ws, s'⟩ := r
          obtain ⟨hle, hbetween⟩ := StorageOp.boundary_of_isLocal hl hop
          obtain ⟨x', a', K', hopen, hst', hrem, hfit'⟩ :=
            (Outcome.of_run hop hst.retained).crash hst k n fun _ => hfit
          refine ⟨x', hopen, ⟨a', K', hst', hfit' hfit hle⟩, ?_⟩
          generalize x'.mem = t at hrem
          cases hrem with
          | before => exact .inl rfl
          | after => exact .inr ⟨ws, s', rfl, .inl rfl⟩
          | part es hes m =>
              exact .inr ⟨ws, s', rfl, .inr ⟨es, m, hes, rfl⟩⟩
          | between hb =>
              -- the old file over the new boundary reads as the new one
              exact .inr ⟨ws, s', rfl, .inl (hbetween hb).symm⟩

theorem Fits.run {events : List (DiskEvent V P)} (h : x.Fits J)
    (owed : List (LogEntry V))
    (hl : ∀ event ∈ events, event.op.isLocal = true) :
    ∃ x' owed', x.run J owed events = .ok (x', owed') ∧ x'.Fits J := by
  induction events generalizing x owed with
  | nil => exact ⟨x, owed, rfl, h⟩
  | cons event rest ih =>
      obtain ⟨x', hstep, hx', -⟩ := h.step (hl event List.mem_cons_self)
      rw [Disk.run, hstep]
      exact ih hx' _ fun e he => hl e (List.mem_cons_of_mem _ he)

end Disk

/-- After any run of calls on the local log, crashes inside them and
reopenings, one more such event succeeds, leaves what it may leave, and leaves
it on disk: reopening reads back exactly that. -/
theorem local_log_recovers (J : Json V P) (path : String)
    (events : List (DiskEvent V P)) (event : DiskEvent V P)
    (hlocal : ∀ ev ∈ events ++ [event], ev.op.isLocal = true) :
    ∃ x owed x', (Disk.init path).run J [] events = .ok (x, owed) ∧
      x.step J event = .ok x' ∧ event.Leaves J x.mem x'.mem ∧
      (openStorage J x'.dir).1 = .ok x'.mem := by
  obtain ⟨x, owed, hrun, hx⟩ := (Disk.Fits.init (J := J) path).run []
    fun ev hev => hlocal ev (List.mem_append_left _ hev)
  obtain ⟨x', hstep, ⟨a, K, hst, -⟩, hleaves⟩ :=
    hx.step (hlocal event (by simp))
  exact ⟨x, owed, x', hrun, hstep, hleaves, by rw [hst.openStorage]⟩

/-- A compaction cut off between its two writes, then an append torn in its
first line. -/
theorem local_log_recovers_compaction :
    ∃ x owed x', (Disk.init "data").run .strings []
        [.call (.append [⟨1, 1, .noop⟩, ⟨1, 2, .noop⟩]),
          .crash (.compactTo 2 () none) 1 0] = .ok (x, owed) ∧
      x.step .strings (.crash (.append [⟨1, 3, .noop⟩]) 0 5) = .ok x' ∧
      DiskEvent.Leaves .strings x.mem x'.mem
        (.crash (.append [⟨1, 3, .noop⟩]) 0 5) ∧
      (openStorage .strings x'.dir).1 = .ok x'.mem :=
  local_log_recovers .strings "data"
    [.call (.append [⟨1, 1, .noop⟩, ⟨1, 2, .noop⟩]),
      .crash (.compactTo 2 () none) 1 0]
    (.crash (.append [⟨1, 3, .noop⟩]) 0 5) (by decide)

/-! ## What reopening reads -/

theorem replayLog_performSnapshot (bytes : List UInt8) :
    (replayLog J (Write.perform d (.snapshot bytes)) c).1 =
      (replayLog J d c).1 := by
  simp only [replayLog, Write.perform]
  cases d.log with
  | none => rfl
  | some bytes =>
      simp only
      split
      · rfl
      · split <;> rfl

theorem openStorage_eq_ok :
    (openStorage J d).1 = .ok s ↔ loadHardState J d = .ok s.hardState ∧
      loadSnapshot J d = .ok s.snapshot ∧
      (replayLog J d s.snapshotIndex).1 = .ok s.log := by
  rw [Storage.snapshotIndex, openStorage]
  constructor
  · intro h
    split at h
    · cases h
    · cases h
    · next hs snap hhs hsnap =>
        split at h
        · cases h
        · next log d' hlog =>
            cases h
            exact ⟨hhs, hsnap, by rw [hlog]⟩
  · rintro ⟨hhs, hsnap, hlog⟩
    simp only [hhs, hsnap]
    split
    · next heq => rw [heq] at hlog; cases hlog
    · next log d' heq =>
        rw [heq] at hlog
        cases hlog
        rfl

/-! ## Crashes inside `install_snapshot` -/

/-- Between the two writes of an installation, reopening reads the old log
over the new boundary. -/
theorem openStorage_performSnapshot {snap : Snapshot P}
    (h : (openStorage J d).1 = .ok s)
    (hb : s.snapshotIndex ≤ snap.lastIncludedIndex) :
    (openStorage J (Write.perform d
      (.snapshot (J.snapshot.encode snap)))).1 = .ok { s with
        snapshot := some snap
        log := s.log.drop (snap.lastIncludedIndex - s.snapshotIndex) } := by
  obtain ⟨hhs, -, hlog⟩ := openStorage_eq_ok.mp h
  refine openStorage_eq_ok.mpr ⟨hhs, ?_, ?_⟩
  · simp only [loadSnapshot, Write.perform, J.snapshot.decode_encode]
  · rw [replayLog_performSnapshot]
    exact (replayLog_raise hlog hb).2

/-- That is what the installation leaves if the local entry at the boundary
is the snapshot's, or there is nothing above the boundary. -/
theorem Storage.drop_eq_retainedBy_iff {snap : Snapshot P}
    (hb : s.snapshotIndex < snap.lastIncludedIndex) :
    s.log.drop (snap.lastIncludedIndex - s.snapshotIndex) =
        s.retainedBy snap ↔
      s.term snap.lastIncludedIndex = some snap.lastIncludedTerm ∨
        s.lastIndex ≤ snap.lastIncludedIndex := by
  rw [Storage.retainedBy_eq hb, Storage.lastIndex]
  split
  · next hterm => exact ⟨fun _ => .inl hterm, fun _ => rfl⟩
  · next hterm =>
      rw [or_iff_right hterm, List.drop_eq_nil_iff]
      omega

/-- After both writes the disk holds what is in memory. -/
theorem stored_installed {snap : Snapshot P}
    (h : (openStorage J d).1 = .ok s)
    (hb : s.snapshotIndex < snap.lastIncludedIndex) :
    Stored J (Write.perform (Write.perform d
        (.snapshot (J.snapshot.encode snap)))
        (.log (J.lines (s.retainedBy snap))))
      { s with snapshot := some snap, log := s.retainedBy snap }
      snap.lastIncludedIndex (s.retainedBy snap) := by
  obtain ⟨hhs, -, hlog⟩ := openStorage_eq_ok.mp h
  have hnum := (replayLog_raise hlog le_rfl).1.retainedBy hb
  refine ⟨hhs, ?_, rfl, hnum, le_rfl, ?_⟩
  · simp only [loadSnapshot, Write.perform, J.snapshot.decode_encode]
  · show _ = (s.retainedBy snap).drop
      (snap.lastIncludedIndex - snap.lastIncludedIndex)
    rw [Nat.sub_self, List.drop_zero]

/-- `install_snapshot` is crash-atomic exactly if the directory could be
reopened before the call and the recovered log is the one the call would have
left: the local entry at the boundary is the snapshot's, or there is nothing
above the boundary. -/
theorem install_crash_atomic_iff (J : Json V P) (d : Dir)
    (s s' : Storage V P) (snap : Snapshot P) (ws : List Write)
    (hd : loadSnapshot J d = .ok s.snapshot)
    (hrun : (StorageOp.installSnapshot snap).run J s = .ok (ws, s')) :
    (∀ k n, (openStorage J (d.crashIn ws k n)).1 = .ok s ∨
      (openStorage J (d.crashIn ws k n)).1 = .ok s') ↔
    (openStorage J d).1 = .ok s ∧
      (s.term snap.lastIncludedIndex = some snap.lastIncludedTerm ∨
        s.lastIndex ≤ snap.lastIncludedIndex) := by
  simp only [StorageOp.run, Storage.installSnapshot] at hrun
  split at hrun
  · cases hrun
  next hlt =>
  cases hrun
  have hb := Nat.lt_of_not_le hlt
  -- memory before and after the call differ in the snapshot
  have hne : s.snapshot ≠ some snap := fun h =>
    absurd (Storage.snapshotIndex_of_some h) hb.ne
  rw [← Storage.drop_eq_retainedBy_iff hb]
  constructor
  · intro h
    have hopen : (openStorage J d).1 = .ok s := by
      rcases h 0 0 with h0 | h0
      · exact h0
      · have := (openStorage_eq_ok.mp h0).2.1
        rw [show d.crashIn _ 0 0 = d from rfl, hd] at this
        exact absurd (Except.ok.inj this) hne
    have h1 := h 1 0
    rw [show d.crashIn _ 1 0 = Write.perform d
      (.snapshot (J.snapshot.encode snap)) from rfl,
      openStorage_performSnapshot hopen hb.le] at h1
    rcases h1 with h1 | h1
    · exact absurd (congrArg Storage.snapshot (Except.ok.inj h1)).symm hne
    · exact ⟨hopen, congrArg Storage.log (Except.ok.inj h1)⟩
  · rintro ⟨hopen, hretained⟩ k n
    rcases k with _ | _ | k
    · exact .inl hopen
    · right
      rw [← hretained]
      exact openStorage_performSnapshot hopen hb.le
    · right
      simp only [writeSnapshot, rewriteLog, Dir.crashIn,
        List.singleton_append, List.take_succ_cons, List.take_nil,
        List.foldl_cons, List.foldl_nil, List.getElem?_cons_succ,
        List.getElem?_nil, Option.elim_none,
        (stored_installed hopen hb).openStorage]

def threeEntries : Disk String Unit :=
  let log := [⟨1, 1, .noop⟩, ⟨1, 2, .noop⟩, ⟨1, 3, .noop⟩]
  ⟨⟨"data", none, none, some (Json.strings.lines log)⟩, default, none, log⟩

def matchingSnapshot : Snapshot Unit := ⟨2, 1, none, ()⟩

theorem install_crash_atomic_matching :
    (openStorage .strings (threeEntries.dir.crashIn
      [.snapshot (Json.strings.snapshot.encode matchingSnapshot),
        .log (Json.strings.lines [⟨1, 3, .noop⟩])] 1 0)).1 =
        .ok threeEntries.mem ∨
      (openStorage .strings (threeEntries.dir.crashIn
        [.snapshot (Json.strings.snapshot.encode matchingSnapshot),
          .log (Json.strings.lines [⟨1, 3, .noop⟩])] 1 0)).1 =
        .ok ⟨default, some matchingSnapshot, [⟨1, 3, .noop⟩]⟩ :=
  (install_crash_atomic_iff .strings threeEntries.dir threeEntries.mem _
    matchingSnapshot _ (by decide +kernel) (by decide +kernel)).mpr
    ⟨by decide +kernel, by decide +kernel⟩ 1 0

/-- A snapshot whose second entry is of term 2. Completed, the installation
clears the log; cut off after the snapshot, the old third entry comes back
above the new boundary. -/
theorem install_crash_keeps_divergent :
    (threeEntries.step .strings
        (.call (.installSnapshot ⟨2, 2, none, ()⟩))).toOption.map
        (·.mem.log) = some [] ∧
      (threeEntries.step .strings
        (.crash (.installSnapshot ⟨2, 2, none, ()⟩) 1 0)).toOption.map
        (·.mem) = some ⟨default, some ⟨2, 2, none, ()⟩, [⟨1, 3, .noop⟩]⟩ ∧
      (Disk.init "data").step .strings (.call (.append
        [⟨1, 1, .noop⟩, ⟨1, 2, .noop⟩, ⟨1, 3, .noop⟩])) =
        .ok threeEntries :=
  ⟨by decide +kernel, by decide +kernel, by decide +kernel⟩

end RustKV
