import RustKV.Raft.Format
import RustKV.Proofs.Replay

/-!
# What a crash leaves of the data directory

The log file always is a run of complete lines with consecutive indexes, save
for a torn end after an interrupted append. `Stored` says so, and how the
memory is read off it: the lines above the snapshot boundary. Reopening reads
back exactly that, whatever torn line follows, so each durable write needs one
lemma about the `Stored` it leads to, and every crash point is one of those.

Two writes in a row are where it goes wrong. After the first write of
`install_snapshot` the log file is still the old one. Recovery keeps its lines
above the new boundary even where the completed call would have cleared them.
And if they all lie below the boundary they stay in the file, which then does
not end where the log does: the next append leaves a gap, and the directory
cannot be opened any more.
-/

namespace RustKV

open Rust

variable {V P : Type} {J : Json V P} {d : Dir} {s s' : Storage V P}
  {K es : List (LogEntry V)} {a b c : Nat}

/-! ## What the directory holds -/

/-- The directory `d` holds the storage `s`: its log file is the lines `K`,
which continue from index `a`, and the memory has those of them above the
boundary. -/
structure Stored (J : Json V P) (d : Dir) (s : Storage V P) (a : Nat)
    (K : List (LogEntry V)) : Prop where
  hardState : loadHardState J d = .ok s.hardState
  snapshot : loadSnapshot J d = .ok s.snapshot
  log : d.log = some (J.lines K)
  numbered : Numbered a K
  base_le : a ≤ s.snapshotIndex
  kept : s.log = K.drop (s.snapshotIndex - a)

namespace Stored

theorem init (path : String) :
    Stored J (Disk.init path : Disk V P).dir Storage.empty 0 [] :=
  ⟨rfl, rfl, rfl, .nil, le_rfl, rfl⟩

theorem retained (h : Stored J d s a K) : Numbered s.snapshotIndex s.log := by
  have hn := h.numbered.drop (s.snapshotIndex - a)
  rwa [Nat.add_sub_cancel' h.base_le, ← h.kept] at hn

/-- Opening reads it back, whatever an interrupted append left behind. -/
theorem openStorage_torn (h : Stored J d s a K) (torn : List UInt8)
    (ht : newline ∉ torn) :
    openStorage J { d with log := some (J.lines K ++ torn) } = (.ok s, d) := by
  have hhs : loadHardState J { d with log := some (J.lines K ++ torn) } =
      .ok s.hardState := h.hardState
  have hsnap : loadSnapshot J { d with log := some (J.lines K ++ torn) } =
      .ok s.snapshot := h.snapshot
  have hlog := replayLog_lines (J := J) (b := s.snapshotIndex)
    (d := { d with log := some (J.lines K ++ torn) }) rfl ht h.numbered
    h.base_le
  rw [Storage.snapshotIndex] at hlog
  simp only [RustKV.openStorage, hhs, hsnap, hlog, Dir.createLog,
    Option.getD_some]
  have hkept := h.kept
  rw [Storage.snapshotIndex] at hkept
  rw [← hkept, ← h.log]

theorem reopen_torn (h : Stored J d s a K) (torn : List UInt8)
    (ht : newline ∉ torn) :
    Disk.reopen J { d with log := some (J.lines K ++ torn) } =
      .ok ⟨d, s⟩ := by
  rw [Disk.reopen, h.openStorage_torn torn ht]

theorem openStorage (h : Stored J d s a K) : openStorage J d = (.ok s, d) := by
  have := h.openStorage_torn [] List.not_mem_nil
  rwa [List.append_nil, ← h.log] at this

theorem reopen (h : Stored J d s a K) : Disk.reopen J d = .ok ⟨d, s⟩ := by
  rw [Disk.reopen, h.openStorage]

/-! ### One lemma per durable write -/

theorem saveHardState (h : Stored J d s a K) (hs : HardState) :
    Stored J (Write.perform d (.hardState (J.hardState.encode hs)))
      (s.saveHardState hs) a K where
  hardState := by
    simp only [loadHardState, Write.perform, J.hardState.decode_encode]
    rfl
  snapshot := h.snapshot
  log := h.log
  numbered := h.numbered
  base_le := h.base_le
  kept := h.kept

/-- A higher boundary over the same file hides more of its lines. -/
theorem replaceSnapshot (h : Stored J d s a K) {snap : Snapshot P}
    (hb : s.snapshotIndex ≤ snap.lastIncludedIndex) :
    Stored J (Write.perform d (.snapshot (J.snapshot.encode snap)))
      { s with
        snapshot := some snap
        log := s.log.drop (snap.lastIncludedIndex - s.snapshotIndex) }
      a K where
  hardState := h.hardState
  snapshot := by
    simp only [loadSnapshot, Write.perform, J.snapshot.decode_encode]
  log := h.log
  numbered := h.numbered
  base_le := h.base_le.trans hb
  kept := by
    have ha := h.base_le
    show s.log.drop (snap.lastIncludedIndex - s.snapshotIndex) =
      K.drop (snap.lastIncludedIndex - a)
    rw [h.kept, List.drop_drop, show s.snapshotIndex - a +
      (snap.lastIncludedIndex - s.snapshotIndex) =
      snap.lastIncludedIndex - a by omega]

theorem rewriteLog (h : Stored J d s a K) {L : List (LogEntry V)}
    (hL : Numbered s.snapshotIndex L) :
    Stored J (Write.perform d (.log (J.lines L))) { s with log := L }
      s.snapshotIndex L where
  hardState := h.hardState
  snapshot := h.snapshot
  log := rfl
  numbered := hL
  base_le := le_rfl
  kept := by
    show L = L.drop (s.snapshotIndex - s.snapshotIndex)
    rw [Nat.sub_self, List.drop_zero]

/-- Appending is sound where the file ends where the log does. -/
theorem append (h : Stored J d s a K)
    (hend : es ≠ [] → s.snapshotIndex ≤ a + K.length)
    (hes : Numbered s.lastIndex es) :
    Stored J (Write.perform d (.append (J.lines es)))
      { s with log := s.log ++ es } a (K ++ es) where
  hardState := h.hardState
  snapshot := h.snapshot
  log := by
    simp only [Write.perform, h.log, Option.getD_some, Json.lines_append]
  numbered := by
    refine h.numbered.append ?_
    rcases eq_or_ne es [] with rfl | hne
    · exact .nil
    have hb := h.base_le
    have hend := hend hne
    rw [Storage.lastIndex, h.kept, List.length_drop] at hes
    rwa [show s.snapshotIndex + (K.length - (s.snapshotIndex - a)) =
      a + K.length by omega] at hes
  base_le := h.base_le
  kept := by
    show s.log ++ es = (K ++ es).drop (s.snapshotIndex - a)
    rcases eq_or_ne es [] with rfl | hne
    · rw [List.append_nil, List.append_nil, h.kept]
    have hb := h.base_le
    have hend := hend hne
    rw [h.kept, List.drop_append_of_le_length (by omega)]

end Stored

/-- A torn append is some complete lines and part of one. -/
theorem Json.lines_take (es : List (LogEntry V)) (n : Nat) :
    ∃ m torn, (J.lines es).take n = J.lines (es.take m) ++ torn ∧
      newline ∉ torn := by
  induction es generalizing n with
  | nil => exact ⟨0, [], by simp [Json.lines], List.not_mem_nil⟩
  | cons e es ih =>
      rcases Nat.lt_or_ge (J.entry.encode e).length n with hlt | hge
      · obtain ⟨m, torn, htake, ht⟩ :=
          ih (n - (J.entry.encode e ++ [newline]).length)
        refine ⟨m + 1, torn, ?_, ht⟩
        rw [List.take_succ_cons, lines_cons, lines_cons, List.take_append,
          htake, List.take_of_length_le]
        · simp only [List.append_assoc]
        · rw [List.length_append, List.length_singleton]
          exact hlt
      · refine ⟨0, (J.entry.encode e).take n, ?_, fun h =>
          J.entry.newline_notMem e (List.mem_of_mem_take h)⟩
        rw [lines_cons, List.append_assoc, List.take_append_of_le_length hge]
        rfl

theorem Json.newline_mem_lines (hes : es ≠ []) : newline ∈ J.lines es := by
  obtain ⟨e, rest, rfl⟩ := List.exists_cons_of_ne_nil hes
  simp [lines_cons]

/-! ## What a call does -/

/-- The entries a call is there to remove: those it truncates, compacts, or
replaces by the installed snapshot. -/
def StorageOp.removes (s : Storage V P) :
    StorageOp V P → LogEntry V → Bool
  | .truncateFrom start, e => start ≤ e.index
  | .compactTo lastIncludedIndex _ _, e => e.index ≤ lastIncludedIndex
  | .installSnapshot snap, e => e.index ≤ snap.lastIncludedIndex ∨
      s.term snap.lastIncludedIndex ≠ some snap.lastIncludedTerm
  | _, _ => false

def StorageOp.appended : StorageOp V P → List (LogEntry V)
  | .append es => es
  | _ => []

/-- The bytes that an event, unless its call is refused, adds to the log
file. -/
def DiskEvent.added (J : Json V P) : DiskEvent V P → List UInt8
  | .call op => J.lines op.appended
  | .crash op k n =>
      if k = 0 then (J.lines op.appended).take n else J.lines op.appended

/-- All that a successful call can write, with the memory it leaves. -/
inductive Outcome (J : Json V P) (s : Storage V P) (op : StorageOp V P) :
    List Write → Storage V P → Prop
  | nothing (hop : op.appended = []) : Outcome J s op [] s
  | hardState (hs : HardState) (hop : op.appended = []) :
      Outcome J s op [.hardState (J.hardState.encode hs)]
        (s.saveHardState hs)
  | append (es : List (LogEntry V)) (hop : op = .append es)
      (hes : Numbered s.lastIndex es) :
      Outcome J s op [.append (J.lines es)] { s with log := s.log ++ es }
  | rewrite (L : List (LogEntry V)) (hop : op.appended = [])
      (hL : Numbered s.snapshotIndex L)
      (hkeep : ∀ e ∈ s.log, op.removes s e = false → e ∈ L) :
      Outcome J s op [.log (J.lines L)] { s with log := L }
  | replace (snap : Snapshot P) (L : List (LogEntry V))
      (hop : op.appended = [])
      (hb : s.snapshotIndex < snap.lastIncludedIndex)
      (hL : Numbered snap.lastIncludedIndex L)
      (habove : ∀ e, op.removes s e = false →
        snap.lastIncludedIndex < e.index)
      (hkeep : ∀ e ∈ s.log, op.removes s e = false → e ∈ L) :
      Outcome J s op
        [.snapshot (J.snapshot.encode snap), .log (J.lines L)]
        { s with snapshot := some snap, log := L }

theorem Storage.retainedBy_eq {snap : Snapshot P}
    (hb : s.snapshotIndex < snap.lastIncludedIndex) :
    s.retainedBy snap =
      if s.term snap.lastIncludedIndex = some snap.lastIncludedTerm then
        s.log.drop (snap.lastIncludedIndex - s.snapshotIndex)
      else [] := by
  rw [Storage.retainedBy, Storage.entriesFrom_succ hb.le]

theorem Numbered.retainedBy {snap : Snapshot P}
    (hs : Numbered s.snapshotIndex s.log)
    (hb : s.snapshotIndex < snap.lastIncludedIndex) :
    Numbered snap.lastIncludedIndex (s.retainedBy snap) := by
  have hdrop := hs.drop (snap.lastIncludedIndex - s.snapshotIndex)
  rw [Nat.add_sub_cancel' hb.le] at hdrop
  rw [Storage.retainedBy_eq hb]
  split
  · exact hdrop
  · exact .nil

theorem Except.map_eq_ok {ε α β : Type} {f : α → β} {x : Except ε α} {y : β}
    (h : x.map f = .ok y) : ∃ z, x = .ok z ∧ f z = y := by
  cases x with
  | error e => cases h
  | ok z => exact ⟨z, rfl, Except.ok.inj h⟩

theorem Outcome.of_run {op : StorageOp V P} {ws : List Write}
    (h : op.run J s = .ok (ws, s')) (hs : Numbered s.snapshotIndex s.log) :
    Outcome J s op ws s' := by
  cases op with
  | saveHardState hs' =>
      cases h
      exact .hardState hs' rfl
  | append es =>
      obtain ⟨s₁, h₁, h⟩ := Except.map_eq_ok h
      obtain ⟨hes, rfl⟩ := Storage.append_eq_ok.mp h₁
      cases h
      split
      · next hnil =>
          rw [List.isEmpty_iff.mp hnil, List.append_nil]
          exact .nothing rfl
      · exact .append es rfl hes
  | truncateFrom start =>
      obtain ⟨s₁, h₁, h⟩ := Except.map_eq_ok h
      obtain ⟨hb, rfl⟩ := Storage.truncateFrom_eq_ok.mp h₁
      cases h
      split
      · next hend =>
          rw [Storage.lastIndex] at hend
          rw [List.take_of_length_le (by omega)]
          exact .nothing rfl
      · refine .rewrite _ rfl (hs.take _) fun e he hr => ?_
        exact hs.mem_take he (Nat.lt_of_not_le (of_decide_eq_false hr))
  | compactTo i state membership =>
      obtain ⟨s₁, h₁, h⟩ := Except.map_eq_ok h
      obtain ⟨e, he, rfl⟩ := Storage.compactTo_eq_ok.mp h₁
      cases h
      have hb := (Storage.boundary_of_entry he).1
      have hL := hs.drop (i - s.snapshotIndex)
      rw [Nat.add_sub_cancel' hb.le] at hL
      have habove : ∀ e, StorageOp.removes s
          (.compactTo i state membership) e = false → i < e.index :=
        fun e hr => Nat.lt_of_not_le (of_decide_eq_false hr)
      exact .replace _ _ rfl hb hL habove
        fun e he hr => hs.mem_drop he (habove e hr)
  | installSnapshot snap =>
      obtain ⟨s₁, h₁, h⟩ := Except.map_eq_ok h
      obtain ⟨hb, rfl⟩ := Storage.installSnapshot_eq_ok.mp h₁
      cases h
      have hremoves : ∀ e, StorageOp.removes s
          (.installSnapshot snap) e = false →
          snap.lastIncludedIndex < e.index ∧
          s.term snap.lastIncludedIndex = some snap.lastIncludedTerm := by
        intro e hr
        have hr := of_decide_eq_false hr
        rw [not_or, not_not] at hr
        exact ⟨Nat.lt_of_not_le hr.1, hr.2⟩
      rw [← Storage.retainedBy_eq hb]
      refine .replace snap _ rfl hb (hs.retainedBy hb)
        (fun e hr => (hremoves e hr).1) fun e he hr => ?_
      obtain ⟨hidx, hterm⟩ := hremoves e hr
      rw [Storage.retainedBy_eq hb, if_pos hterm]
      exact hs.mem_drop he hidx

/-! ## Where the file ends -/

def lastLine (J : Json V P) (d : Dir) : Option (LogEntry V) :=
  (splitInclusive (· = newline) (d.log.getD [])).getLast?.bind
    fun chunk => (J.entry.decode chunk).toOption

/-- The log file has lines but does not end where the log does. -/
def Disk.stale (J : Json V P) (x : Disk V P) : Bool :=
  (lastLine J x.dir).any fun e => e.index ≠ x.mem.lastIndex

theorem splitInclusive_lines (K : List (LogEntry V)) :
    splitInclusive (· = newline) (J.lines K) =
      K.map fun e => J.entry.encode e ++ [newline] := by
  induction K with
  | nil => rfl
  | cons e K ih =>
      have := splitInclusive_lines_cons (J := J) e K []
      rw [List.append_nil, List.append_nil, ih] at this
      exact this

theorem lastLine_lines (h : d.log = some (J.lines K)) :
    lastLine J d = K.getLast? := by
  rw [lastLine, h, Option.getD_some, splitInclusive_lines, List.getLast?_map]
  cases K.getLast? with
  | none => rfl
  | some e =>
      simp only [Option.map_some, Option.bind_some, J.entry.decode_line]
      rfl

theorem Stored.fit (h : Stored J d s a K)
    (hst : Disk.stale J ⟨d, s⟩ = false) :
    ∃ a', Stored J d s a' K ∧ s.snapshotIndex ≤ a' + K.length := by
  rcases List.eq_nil_or_concat' K with rfl | ⟨K, e, rfl⟩
  · refine ⟨s.snapshotIndex, ⟨h.hardState, h.snapshot, h.log, .nil, le_rfl,
      ?_⟩, Nat.le_add_right _ _⟩
    rw [h.kept]
    simp
  · refine ⟨a, h, ?_⟩
    have ha := h.base_le
    have hlast := h.numbered K.length e (by simp)
    rw [Disk.stale, lastLine_lines h.log, List.getLast?_concat,
      Option.any_some, decide_eq_false_iff_not, not_not, Storage.lastIndex,
      h.kept, List.length_drop] at hst
    simp only [List.length_append, List.length_singleton] at hst ⊢
    omega

/-! ## Calls and crashes -/

variable {op : StorageOp V P} {ws : List Write}

/-- A completed call is what the directory then holds. If the file ended
where the log does, it does so again. -/
theorem Outcome.completed (h : Outcome J s op ws s') (hd : Stored J d s a K)
    (hend : newline ∈ (DiskEvent.call op).added J →
      s.snapshotIndex ≤ a + K.length) :
    ∃ a' K', Stored J (ws.foldl Write.perform d) s' a' K' ∧
      (s.snapshotIndex ≤ a + K.length →
        s'.snapshotIndex ≤ a' + K'.length) := by
  cases h with
  | nothing hop => exact ⟨a, K, hd, id⟩
  | hardState hs hop => exact ⟨a, K, hd.saveHardState hs, id⟩
  | append es hop hes =>
      subst hop
      refine ⟨a, _, hd.append (fun hne => hend (Json.newline_mem_lines hne))
        hes, fun hfit => ?_⟩
      rw [List.length_append]
      exact hfit.trans (by omega)
  | rewrite L hop hL hkeep =>
      exact ⟨_, L, hd.rewriteLog hL, fun _ => Nat.le_add_right _ _⟩
  | replace snap L hop hb hL habove hkeep =>
      exact ⟨_, L, (hd.replaceSnapshot hb.le).rewriteLog hL,
        fun _ => Nat.le_add_right _ _⟩

theorem Outcome.keeps (h : Outcome J s op ws s') :
    (∀ e ∈ s.log, op.removes s e = false → e ∈ s'.log) ∧
      ∀ e ∈ op.appended, e ∈ s'.log := by
  have hnone : op.appended = [] → ∀ e ∈ op.appended, e ∈ s'.log :=
    fun hop e he => by rw [hop] at he; cases he
  cases h with
  | nothing hop => exact ⟨fun e he _ => he, hnone hop⟩
  | hardState hs hop => exact ⟨fun e he _ => he, hnone hop⟩
  | append es hop hes =>
      refine ⟨fun e he _ => List.mem_append_left _ he, fun e he => ?_⟩
      rw [hop] at he
      exact List.mem_append_right _ he
  | rewrite L hop hL hkeep => exact ⟨hkeep, hnone hop⟩
  | replace snap L hop hb hL habove hkeep => exact ⟨hkeep, hnone hop⟩

/-- What a crash inside a call from `s` to `s'` can leave: the one or the
other, a part of what was to be appended, or the new snapshot over the old log
file. -/
inductive Remains (s s' : Storage V P) (op : StorageOp V P) :
    Storage V P → Prop
  | before : Remains s s' op s
  | after : Remains s s' op s'
  | part (es : List (LogEntry V)) (hop : op = .append es) (m : Nat) :
      Remains s s' op { s with log := s.log ++ es.take m }
  | between (hb : s.snapshotIndex < s'.snapshotIndex) :
      Remains s s' op { s with
        snapshot := s'.snapshot
        log := s.log.drop (s'.snapshotIndex - s.snapshotIndex) }

/-- An append torn after `n` bytes, and the reopening: the whole lines among
them are there, the rest is cut off. -/
theorem Stored.append_torn (h : Stored J d s a K)
    (hes : Numbered s.lastIndex es) {n : Nat}
    (hend : newline ∈ (J.lines es).take n →
      s.snapshotIndex ≤ a + K.length) :
    ∃ m d', Disk.reopen J (d.crashIn [.append (J.lines es)] 0 n) =
        .ok ⟨d', { s with log := s.log ++ es.take m }⟩ ∧
      Stored J d' { s with log := s.log ++ es.take m } a (K ++ es.take m) := by
  obtain ⟨m, torn, htake, ht⟩ := Json.lines_take (J := J) es n
  have hline (hne : es.take m ≠ []) : newline ∈ (J.lines es).take n := by
    rw [htake]
    exact List.mem_append_left _ (Json.newline_mem_lines hne)
  have hst := h.append (fun hne => hend (hline hne)) (hes.take m)
  have hdir : d.crashIn [.append (J.lines es)] 0 n =
      { Write.perform d (.append (J.lines (es.take m))) with
        log := some (J.lines (K ++ es.take m) ++ torn) } := by
    simp [Dir.crashIn, Write.tear, Write.perform, htake, h.log,
      Json.lines_append]
  exact ⟨m, _, (congrArg _ hdir).trans (hst.reopen_torn torn ht), hst⟩

/-- A crash inside a call, and the reopening. Unless the new boundary lies
above the whole log, the file still ends where the log does. -/
theorem Outcome.crash (h : Outcome J s op ws s') (hd : Stored J d s a K)
    (k n : Nat) (hend : newline ∈ (DiskEvent.crash op k n).added J →
      s.snapshotIndex ≤ a + K.length) :
    ∃ x a' K', Disk.reopen J (d.crashIn ws k n) = .ok x ∧
      Stored J x.dir x.mem a' K' ∧ Remains s s' op x.mem ∧
      (s.snapshotIndex ≤ a + K.length → s'.snapshotIndex ≤ s.lastIndex →
        x.mem.snapshotIndex ≤ a' + K'.length) := by
  -- before the first write nothing has happened
  have hbefore : ∃ x a' K', Disk.reopen J d = .ok x ∧
      Stored J x.dir x.mem a' K' ∧ Remains s s' op x.mem ∧
      (s.snapshotIndex ≤ a + K.length → s'.snapshotIndex ≤ s.lastIndex →
        x.mem.snapshotIndex ≤ a' + K'.length) :=
    ⟨_, a, K, hd.reopen, hd, .before, fun hfit _ => hfit⟩
  -- after the last one the call is complete
  have hafter (hk : k ≠ 0) : ∃ x a' K',
      Disk.reopen J (ws.foldl Write.perform d) = .ok x ∧
      Stored J x.dir x.mem a' K' ∧ Remains s s' op x.mem ∧
      (s.snapshotIndex ≤ a + K.length → s'.snapshotIndex ≤ s.lastIndex →
        x.mem.snapshotIndex ≤ a' + K'.length) := by
    rw [DiskEvent.added, if_neg hk] at hend
    obtain ⟨a', K', hst, hfit⟩ := h.completed hd hend
    exact ⟨_, a', K', hst.reopen, hst, .after, fun h _ => hfit h⟩
  cases h with
  | nothing hop => simpa [Dir.crashIn] using hbefore
  | hardState hs hop =>
      cases k with
      | zero => exact hbefore
      | succ k => simpa [Dir.crashIn] using hafter k.succ_ne_zero
  | append es hop hes =>
      cases k with
      | zero =>
          subst hop
          obtain ⟨m, d', hopen, hst⟩ := hd.append_torn hes hend
          refine ⟨_, a, _, hopen, hst, .part es rfl m, fun hfit _ => ?_⟩
          rw [List.length_append]
          exact hfit.trans (by omega)
      | succ k => simpa [Dir.crashIn] using hafter k.succ_ne_zero
  | rewrite L hop hL hkeep =>
      cases k with
      | zero => exact hbefore
      | succ k => simpa [Dir.crashIn] using hafter k.succ_ne_zero
  | replace snap L hop hb hL habove hkeep =>
      match k with
      | 0 => exact hbefore
      | 1 =>
          have hst := hd.replaceSnapshot hb.le
          refine ⟨_, a, K, hst.reopen, hst, .between hb, fun hfit hlast => ?_⟩
          have hlen := congrArg List.length hd.kept
          rw [List.length_drop] at hlen
          rw [Storage.lastIndex] at hlast
          refine hlast.trans ?_
          have := hd.base_le
          omega
      | k + 2 => simpa [Dir.crashIn] using hafter (by omega)

/-- Whatever remains, everything is in it that the call was not there to
remove. -/
theorem Remains.keeps {t : Storage V P} (h : Remains s s' op t)
    (ho : Outcome J s op ws s') (hs : Numbered s.snapshotIndex s.log) :
    ∀ e ∈ s.log, op.removes s e = false → e ∈ t.log := by
  intro e he hr
  cases h with
  | before => exact he
  | after => exact ho.keeps.1 e he hr
  | part es hop m => exact List.mem_append_left _ he
  | between hb =>
      cases ho with
      | replace snap L hop hb' hL habove hkeep =>
          exact hs.mem_drop he (habove e hr)
      | _ => exact absurd hb (Nat.lt_irrefl _)

end RustKV
