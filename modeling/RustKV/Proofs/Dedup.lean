import RustKV.Kv.Store
import RustKV.Rust.Bits
import Mathlib.Data.Set.Insert

/-!
# What the dedup window remembers

A client's `SessionState` is a window onto a set of sequence numbers, those of
its commands that were performed: it knows the largest of them, and for the 63
below that exactly which belong to the set. `Records` says so, and recording a
number keeps it. Folded over a log this makes the table exact: a tokened
command is skipped if its number was performed before, or lies more than the
window's width below one that was.

The second case is the one the client contract is meant to exclude. It bounds
how many operations are outstanding, though, and the window is one of values:
with the oldest operation still open a client may complete any number of later
ones, and the oldest then arrives below the window. What keeps every write is
a bound on the spread of the outstanding numbers.
-/

namespace RustKV

open Rust

variable {V : Type}

/-! ## One client's window -/

namespace SessionState

/-- `st` is the window onto the set `S`. -/
structure Records (st : SessionState) (S : Set ℕ) : Prop where
  max_mem : st.maxSeq ∈ S
  le_max : ∀ q ∈ S, q ≤ st.maxSeq
  bit : ∀ i, i < 64 →
    (st.recent.getLsbD i = true ↔ i ≤ st.maxSeq ∧ st.maxSeq - i ∈ S)

variable {st : SessionState} {S : Set ℕ} {seq : ℕ}

theorem Records.contains (h : st.Records S) :
    st.contains seq = true ↔ seq ∈ S ∨ seq + sessionWindow ≤ st.maxSeq := by
  rw [SessionState.contains]
  split
  · next hgt =>
      have : seq ∉ S := fun hmem => absurd (h.le_max seq hmem) (by omega)
      simp only [this, false_or, Bool.false_eq_true, false_iff]
      omega
  · next hle =>
      have hle := Nat.le_of_not_lt hle
      rw [Bool.or_eq_true, decide_eq_true_eq, decide_eq_true_eq,
        sessionWindow]
      rcases Nat.lt_or_ge (st.maxSeq - seq) 64 with hlt | hge
      · rw [Ne, and_bit_eq_zero hlt, Bool.not_eq_false, h.bit _ hlt,
          Nat.sub_sub_self hle]
        constructor
        · rintro (hge | ⟨-, hmem⟩)
          · omega
          · exact .inl hmem
        · rintro (hmem | hge)
          · exact .inr ⟨Nat.sub_le _ _, hmem⟩
          · omega
      · exact ⟨fun _ => .inr (by omega), fun _ => .inl hge⟩

theorem Records.new (seq : ℕ) : (SessionState.new seq).Records {seq} where
  max_mem := rfl
  le_max q hq := Nat.le_of_eq hq
  bit i hi := by
    have : (SessionState.new seq).recent = 1#64 <<< 0 := rfl
    rw [this, getLsbD_bit hi, decide_eq_true_eq]
    show i = 0 ↔ i ≤ seq ∧ seq - i = seq
    omega

theorem Records.advance (h : st.Records S) (hgt : st.maxSeq < seq) :
    (st.record seq).Records (insert seq S) := by
  have hbits : ∀ i, i < 64 → ((st.record seq).recent.getLsbD i = true ↔
      i = 0 ∨ (seq - st.maxSeq ≤ i ∧
        st.recent.getLsbD (i - (seq - st.maxSeq)) = true)) := by
    intro i hi
    have hone : (1#64).getLsbD i = decide (i = 0) := by
      have := getLsbD_bit (b := 0) hi
      rwa [BitVec.shiftLeft_zero] at this
    simp only [record, if_pos hgt, checkedShl, BitVec.getLsbD_or,
      Bool.or_eq_true, hone, decide_eq_true_eq]
    split
    · next hshift =>
        rw [Nat.min_eq_left (by omega)] at hshift ⊢
        rw [Option.getD_some, BitVec.getLsbD_shiftLeft]
        simp only [hi, Bool.and_eq_true, decide_eq_true_eq, true_and,
          Bool.not_eq_true', decide_eq_false_iff_not, Nat.not_lt]
        exact or_comm
    · next hshift =>
        rw [Option.getD_none, BitVec.getLsbD_zero]
        have : ¬ seq - st.maxSeq ≤ i := by omega
        simp [this]
  have hmax : (st.record seq).maxSeq = seq := by
    simp only [record, if_pos hgt]
  refine ⟨by rw [hmax]; exact Set.mem_insert _ _, fun q hq => ?_,
    fun i hi => ?_⟩
  · rw [hmax]
    rcases Set.mem_insert_iff.mp hq with rfl | hq
    · exact le_rfl
    · exact (h.le_max q hq).trans hgt.le
  · rw [hbits i hi, hmax, Set.mem_insert_iff]
    rcases Nat.lt_or_ge i (seq - st.maxSeq) with hlt | hge
    · have hnot : seq - i ∉ S := fun hmem =>
        absurd (h.le_max _ hmem) (by omega)
      constructor
      · rintro (rfl | ⟨hge, -⟩)
        · exact ⟨Nat.zero_le _, .inl rfl⟩
        · omega
      · rintro ⟨hle, heq | hmem⟩
        · exact .inl (by omega)
        · exact absurd hmem hnot
    · have hoff : st.maxSeq - (i - (seq - st.maxSeq)) = seq - i ∨
          seq < i := by omega
      rw [h.bit _ (by omega)]
      constructor
      · rintro (rfl | ⟨-, hle, hmem⟩)
        · exact ⟨Nat.zero_le _, .inl rfl⟩
        · rw [hoff.resolve_right (by omega)] at hmem
          exact ⟨by omega, .inr hmem⟩
      · rintro ⟨hle, heq | hmem⟩
        · exact .inl (by omega)
        · rw [← hoff.resolve_right (by omega)] at hmem
          exact .inr ⟨hge, by omega, hmem⟩

theorem Records.mark (h : st.Records S) (hle : seq ≤ st.maxSeq)
    (hwin : st.maxSeq - seq < sessionWindow) :
    (st.record seq).Records (insert seq S) := by
  have hrec : st.record seq =
      { st with recent := st.recent ||| (1#64 <<< (st.maxSeq - seq)) } := by
    rw [record, if_neg (by omega), if_pos hwin]
  rw [hrec]
  refine ⟨Set.mem_insert_of_mem _ h.max_mem, fun q hq => ?_,
    fun i hi => ?_⟩
  · rcases Set.mem_insert_iff.mp hq with rfl | hq
    · exact hle
    · exact h.le_max q hq
  · rw [BitVec.getLsbD_or, Bool.or_eq_true, h.bit i hi, getLsbD_bit hi,
      decide_eq_true_eq, Set.mem_insert_iff]
    show _ ↔ i ≤ st.maxSeq ∧ (st.maxSeq - i = seq ∨ st.maxSeq - i ∈ S)
    constructor
    · rintro (⟨hi, hmem⟩ | rfl)
      · exact ⟨hi, .inr hmem⟩
      · exact ⟨Nat.sub_le _ _, .inl (by omega)⟩
    · rintro ⟨hi, heq | hmem⟩
      · exact .inr (by omega)
      · exact .inl ⟨hi, hmem⟩

theorem Records.record (h : st.Records S)
    (hwin : ¬ seq + sessionWindow ≤ st.maxSeq) :
    (st.record seq).Records (insert seq S) := by
  rcases Nat.lt_or_ge st.maxSeq seq with hgt | hle
  · exact h.advance hgt
  · exact h.mark hle (by omega)

end SessionState

/-! ## The table along a log -/

def Command.session : Command V → Option Session
  | .put _ _ session => session
  | .delete _ session => session
  | .noop => none
  | .configChange _ => none

namespace KvStore

def perform (s : KvStore V) : Command V → KvStore V
  | .put key value session => (s.put key value).recordApplied session
  | .delete key session => (s.delete key).2.recordApplied session
  | .noop => s
  | .configChange _ => s

theorem apply_eq (s : KvStore V) (e : LogEntry V) :
    s.apply e = if s.alreadyApplied e.command.session then s
      else s.perform e.command := by
  rw [apply]
  cases e.command with
  | put key value session => rfl
  | delete key session => rfl
  | noop => rfl
  | configChange members => rfl

def replay (log : List (LogEntry V)) : KvStore V := log.foldl apply new

theorem replay_append (log : List (LogEntry V)) (e : LogEntry V) :
    replay (log ++ [e]) = (replay log).apply e := by
  simp [replay]

theorem sessions_perform (s : KvStore V) (c : Command V) (client : Nat) :
    (s.perform c).sessions client =
      match c.session with
      | none => s.sessions client
      | some ⟨client', seq⟩ =>
          if client = client' then
            some ((s.sessions client).elim (.new seq) (·.record seq))
          else s.sessions client := by
  have hrec : ∀ (s' : KvStore V) (session : Option Session),
      s'.sessions = s.sessions → (s'.recordApplied session).sessions client =
        match session with
        | none => s.sessions client
        | some ⟨client', seq⟩ =>
            if client = client' then
              some ((s.sessions client).elim (.new seq) (·.record seq))
            else s.sessions client := by
    rintro s' (_ | ⟨client', seq⟩) hs
    · simp only [recordApplied, hs]
    · simp only [recordApplied, hs]
      by_cases hc : client = client'
      · subst hc
        rw [Function.update_self, if_pos rfl]
        cases s.sessions client <;> rfl
      · rw [Function.update_of_ne hc, if_neg hc]
  cases c with
  | put key value session => exact hrec _ session rfl
  | delete key session => exact hrec _ session rfl
  | noop => rfl
  | configChange members => rfl

end KvStore

open KvStore

/-- The sequence numbers of the client's commands that a log performed. -/
def Performed (log : List (LogEntry V)) (client : Nat) : Set ℕ :=
  {seq | ∃ l e r, log = l ++ e :: r ∧
    e.command.session = some ⟨client, seq⟩ ∧
    (replay l).alreadyApplied (some ⟨client, seq⟩) = false}

variable {log : List (LogEntry V)} {e : LogEntry V} {client seq : Nat}

theorem mem_performed_append :
    seq ∈ Performed (log ++ [e]) client ↔ seq ∈ Performed log client ∨
      (e.command.session = some ⟨client, seq⟩ ∧
        (replay log).alreadyApplied (some ⟨client, seq⟩) = false) := by
  constructor
  · rintro ⟨l, x, r, heq, hx, hnew⟩
    rcases List.eq_nil_or_concat' r with rfl | ⟨r, y, rfl⟩
    · obtain ⟨rfl, hxe⟩ := List.append_inj' heq rfl
      cases hxe
      exact .inr ⟨hx, hnew⟩
    · rw [← List.cons_append, ← List.append_assoc] at heq
      obtain ⟨rfl, -⟩ := List.append_inj' heq rfl
      exact .inl ⟨l, x, r, rfl, hx, hnew⟩
  · rintro (⟨l, x, r, rfl, hx, hnew⟩ | ⟨hx, hnew⟩)
    · exact ⟨l, x, r ++ [e], by simp, hx, hnew⟩
    · exact ⟨log, e, [], rfl, hx, hnew⟩

theorem performed_mono {l r : List (LogEntry V)} :
    Performed l client ⊆ Performed (l ++ r) client := by
  rintro q ⟨l', x, r', rfl, hx, hnew⟩
  exact ⟨l', x, r' ++ r, by simp, hx, hnew⟩

/-- Every client's window is the one onto what was performed for it. -/
theorem sessions_replay (log : List (LogEntry V)) (client : Nat) :
    ((replay log).sessions client).elim (Performed log client = ∅)
      (·.Records (Performed log client)) := by
  induction log using List.reverseRecOn with
  | nil =>
      refine Set.eq_empty_iff_forall_notMem.mpr ?_
      rintro seq ⟨l, e, r, heq, -⟩
      cases l <;> cases heq
  | append_singleton log e ih =>
      rw [replay_append, apply_eq]
      by_cases hdup : (replay log).alreadyApplied e.command.session = true
      · -- skipped, and nothing new performed
        rw [if_pos hdup]
        have : Performed (log ++ [e]) client = Performed log client := by
          ext seq
          rw [mem_performed_append, or_iff_left]
          rintro ⟨hx, hnew⟩
          rw [hx, hnew] at hdup
          cases hdup
        rwa [this]
      · rw [if_neg hdup, sessions_perform]
        have hother : (∀ seq, e.command.session ≠ some ⟨client, seq⟩) →
            Performed (log ++ [e]) client = Performed log client := by
          intro hne
          ext seq
          rw [mem_performed_append, or_iff_left]
          exact fun h => hne seq h.1
        cases hs : e.command.session with
        | none =>
            rw [hother (by rw [hs]; nofun)]
            exact ih
        | some t =>
            obtain ⟨client', seq⟩ := t
            by_cases hc : client = client'
            · subst hc
              have hnew : Performed (log ++ [e]) client =
                  insert seq (Performed log client) := by
                ext q
                rw [mem_performed_append, hs, Set.mem_insert_iff, or_comm]
                refine or_congr ⟨?_, ?_⟩ Iff.rfl
                · rintro ⟨heq, -⟩
                  cases heq
                  rfl
                · rintro rfl
                  refine ⟨rfl, ?_⟩
                  rw [hs] at hdup
                  exact Bool.eq_false_iff.mpr hdup
              simp only [if_pos, hnew, Option.elim_some]
              rw [hs, alreadyApplied] at hdup
              cases hst : (replay log).sessions client with
              | none =>
                  rw [hst] at ih
                  rw [show Performed log client = ∅ from ih,
                    insert_empty_eq]
                  exact .new seq
              | some st =>
                  rw [hst] at ih hdup
                  have hrec : st.Records (Performed log client) := ih
                  refine hrec.record fun hwin => hdup ?_
                  exact hrec.contains.mpr (.inr hwin)
            · simp only [if_neg hc]
              rw [hother (fun q hq => hc (by rw [hs] at hq; cases hq; rfl))]
              exact ih

/-- A tokened command is skipped exactly if its number was performed, or one
at least a window's width above it. -/
theorem alreadyApplied_iff :
    (replay log).alreadyApplied (some ⟨client, seq⟩) = true ↔
      seq ∈ Performed log client ∨
        ∃ q ∈ Performed log client, seq + sessionWindow ≤ q := by
  have h := sessions_replay log client
  rw [alreadyApplied]
  cases hst : (replay log).sessions client with
  | none =>
      rw [hst] at h
      simp [show Performed log client = ∅ from h]
  | some st =>
      rw [hst] at h
      have hrec : st.Records (Performed log client) := h
      rw [Option.any_some, hrec.contains]
      refine or_congr Iff.rfl ⟨fun hle => ⟨_, hrec.max_mem, hle⟩, ?_⟩
      rintro ⟨q, hq, hle⟩
      exact hle.trans (hrec.le_max q hq)

theorem exists_performed_iff :
    (∃ q ∈ Performed log client, seq + sessionWindow ≤ q) ↔
      ∃ x ∈ log, ∃ q, x.command.session = some ⟨client, q⟩ ∧
        seq + sessionWindow ≤ q := by
  constructor
  · rintro ⟨q, ⟨l, x, r, rfl, hx, -⟩, hle⟩
    exact ⟨x, by simp, q, hx, hle⟩
  · rintro ⟨x, hmem, q, hx, hle⟩
    obtain ⟨l, r, rfl⟩ := List.append_of_mem hmem
    by_cases hdup : (replay l).alreadyApplied (some ⟨client, q⟩) = true
    · rcases alreadyApplied_iff.mp hdup with hq | ⟨q', hq', hle'⟩
      · exact ⟨q, performed_mono hq, hle⟩
      · exact ⟨q', performed_mono hq', by omega⟩
    · exact ⟨q, ⟨l, x, r, rfl, hx, Bool.eq_false_iff.mpr hdup⟩, hle⟩

/-- The first entry of an operation is performed exactly if no entry of the
same client before it has a number a window's width or more above. -/
theorem first_entry_performed_iff (log : List (LogEntry V)) (e : LogEntry V)
    (client seq : Nat) (hs : e.command.session = some ⟨client, seq⟩)
    (hfirst : ∀ x ∈ log, x.command.session ≠ some ⟨client, seq⟩) :
    ((∀ x ∈ log, ∀ q, x.command.session = some ⟨client, q⟩ →
        q < seq + sessionWindow) →
      (replay log).apply e = (replay log).perform e.command) ∧
    ((∃ x ∈ log, ∃ q, x.command.session = some ⟨client, q⟩ ∧
        seq + sessionWindow ≤ q) →
      (replay log).apply e = replay log) := by
  have hdup : (replay log).alreadyApplied e.command.session = true ↔
      ∃ x ∈ log, ∃ q, x.command.session = some ⟨client, q⟩ ∧
        seq + sessionWindow ≤ q := by
    rw [hs, alreadyApplied_iff, exists_performed_iff, or_iff_right]
    rintro ⟨l, x, r, rfl, hx, -⟩
    exact hfirst x (by simp) hx
  rw [apply_eq]
  refine ⟨fun h => if_neg fun hd => ?_, fun h => if_pos (hdup.mpr h)⟩
  obtain ⟨x, hx, q, hq, hle⟩ := hdup.mp hd
  have := h x hx q hq
  omega

/-- A retry in between changes nothing, and neither does another client. -/
theorem first_entry_performed_pipelined :
    (replay [⟨1, 1, .put "a" 1 (some ⟨7, 64⟩)⟩,
        ⟨1, 2, .put "a" 1 (some ⟨7, 64⟩)⟩,
        ⟨1, 3, .put "b" 2 (some ⟨8, 90⟩)⟩]).apply
        ⟨1, 4, .put "c" 3 (some ⟨7, 1⟩)⟩ =
      (replay [⟨1, 1, .put "a" 1 (some ⟨7, 64⟩)⟩,
        ⟨1, 2, .put "a" 1 (some ⟨7, 64⟩)⟩,
        ⟨1, 3, .put "b" 2 (some ⟨8, 90⟩)⟩]).perform
        (.put "c" 3 (some ⟨7, 1⟩)) :=
  (first_entry_performed_iff _ _ 7 1 rfl (by decide)).1
    (by simp [Command.session, sessionWindow])

/-! ## A client and its contract -/

structure ClientWrites (V : Type) where
  id : Nat
  command : Nat → Command V
  token : ∀ seq, (command seq).session = some ⟨id, seq⟩

/-- What may happen to a client's operations and to the log. -/
inductive ClientEvent (V : Type) where
  | issue (seq : Nat)
  /-- An outstanding operation enters the log, once more or for the first
  time. -/
  | append (seq : Nat)
  /-- A command of somebody else enters the log. -/
  | other (command : Command V)
  /-- The next entry of the log is applied. -/
  | apply
  | ack (seq : Nat)

structure Client (V : Type) where
  issued : List Nat
  outstanding : List Nat
  acked : List Nat
  log : List (LogEntry V)
  applied : Nat

namespace Client

def start : Client V := ⟨[], [], [], [], 0⟩

def push (x : Client V) (command : Command V) : Client V :=
  { x with log := x.log ++ [⟨1, x.log.length + 1, command⟩] }

/-- One event, if the documented contract allows it: numbers strictly
increasing, at most `sessionWindow` operations outstanding, appended only
while outstanding and acknowledged only once applied. -/
def step (w : ClientWrites V) (x : Client V) :
    ClientEvent V → Option (Client V)
  | .issue seq =>
      if (∀ q ∈ x.issued, q < seq) ∧
          x.outstanding.length < sessionWindow then
        some { x with
          issued := seq :: x.issued
          outstanding := seq :: x.outstanding }
      else none
  | .append seq =>
      if seq ∈ x.outstanding then some (x.push (w.command seq)) else none
  | .other command =>
      if (command.session.all fun t => t.client ≠ w.id) then
        some (x.push command)
      else none
  | .apply =>
      if x.applied < x.log.length then
        some { x with applied := x.applied + 1 }
      else none
  | .ack seq =>
      if seq ∈ x.outstanding ∧ ∃ e ∈ x.log.take x.applied,
          e.command.session = some ⟨w.id, seq⟩ then
        some { x with
          outstanding := x.outstanding.erase seq
          acked := seq :: x.acked }
      else none

def run (w : ClientWrites V) (x : Client V) :
    List (ClientEvent V) → Option (Client V)
  | [] => some x
  | event :: rest => (x.step w event).bind fun x' => x'.run w rest

/-- What the contract would have to ask of a new number. -/
def narrow (x : Client V) : ClientEvent V → Bool
  | .issue seq => x.outstanding.all fun q => seq < q + sessionWindow
  | _ => true

def narrows (w : ClientWrites V) (x : Client V) :
    List (ClientEvent V) → Bool
  | [] => true
  | event :: rest => x.narrow event &&
      (x.step w event).all fun x' => x'.narrows w rest

/-- All numbers issued so far lie less than a window above every outstanding
one, and so it was whenever an entry was appended. -/
structure Narrow (w : ClientWrites V) (x : Client V) : Prop where
  issued : ∀ q ∈ x.outstanding, q ∈ x.issued
  logged : ∀ e ∈ x.log, ∀ q, e.command.session = some ⟨w.id, q⟩ →
    q ∈ x.issued
  spread : ∀ q ∈ x.outstanding, ∀ q' ∈ x.issued, q' < q + sessionWindow
  log : ∀ i e seq, x.log[i]? = some e →
    e.command.session = some ⟨w.id, seq⟩ → ∀ y ∈ x.log.take i, ∀ q,
    y.command.session = some ⟨w.id, q⟩ → q < seq + sessionWindow

variable {w : ClientWrites V} {x x' : Client V}

theorem Narrow.start : (start : Client V).Narrow w where
  issued := List.forall_mem_nil _
  logged := List.forall_mem_nil _
  spread := List.forall_mem_nil _
  log _ _ _ he := by cases he

theorem Narrow.push (h : x.Narrow w) {command : Command V}
    (hc : ∀ seq, command.session = some ⟨w.id, seq⟩ →
      seq ∈ x.outstanding) : (x.push command).Narrow w where
  issued := h.issued
  logged e he q hq := by
    rcases List.mem_append.mp he with he | he
    · exact h.logged e he q hq
    · cases List.mem_singleton.mp he
      exact h.issued q (hc q hq)
  spread := h.spread
  log i e seq he hs y hy q hq := by
    have hlog : (x.push command).log =
        x.log ++ [⟨1, x.log.length + 1, command⟩] := rfl
    rw [hlog] at he hy
    rcases Nat.lt_or_ge i x.log.length with hlt | hge
    · rw [List.getElem?_append_left hlt] at he
      rw [List.take_append_of_le_length hlt.le] at hy
      exact h.log i e seq he hs y hy q hq
    · obtain ⟨rfl, rfl⟩ : i = x.log.length ∧
          (⟨1, x.log.length + 1, command⟩ : LogEntry V) = e := by
        rw [List.getElem?_append_right hge] at he
        cases hi : i - x.log.length with
        | zero =>
            rw [hi] at he
            exact ⟨by omega, Option.some.inj he⟩
        | succ j =>
            rw [hi] at he
            cases he
      rw [List.take_left] at hy
      exact h.spread seq (hc seq hs) q (h.logged y hy q hq)

theorem Narrow.step (h : x.Narrow w) {event : ClientEvent V}
    (hstep : x.step w event = some x') (hn : x.narrow event = true) :
    x'.Narrow w := by
  cases event with
  | issue seq =>
      rw [Client.step] at hstep
      split at hstep
      · next hok =>
          cases hstep
          refine ⟨fun q hq => ?_, fun e he q hq =>
            List.mem_cons_of_mem _ (h.logged e he q hq),
            fun q hq q' hq' => ?_, h.log⟩
          · rcases List.mem_cons.mp hq with rfl | hq
            · exact List.mem_cons_self
            · exact List.mem_cons_of_mem _ (h.issued q hq)
          · have hwin : 0 < sessionWindow := by decide
            rcases List.mem_cons.mp hq with rfl | hold
            · rcases List.mem_cons.mp hq' with rfl | hq'
              · omega
              · have := hok.1 q' hq'
                omega
            · rcases List.mem_cons.mp hq' with rfl | hq'
              · exact of_decide_eq_true (List.all_eq_true.mp hn q hold)
              · exact h.spread q hold q' hq'
      · cases hstep
  | append seq =>
      rw [Client.step] at hstep
      split at hstep
      · next hok =>
          cases hstep
          refine h.push fun q hq => ?_
          rw [w.token] at hq
          cases hq
          exact hok
      · cases hstep
  | other command =>
      rw [Client.step] at hstep
      split at hstep
      · next hok =>
          cases hstep
          refine h.push fun q hq => ?_
          rw [hq] at hok
          simp at hok
      · cases hstep
  | apply =>
      rw [Client.step] at hstep
      split at hstep
      · cases hstep
        exact ⟨h.issued, h.logged, h.spread, h.log⟩
      · cases hstep
  | ack seq =>
      rw [Client.step] at hstep
      split at hstep
      · cases hstep
        exact ⟨fun q hq => h.issued q (List.mem_of_mem_erase hq), h.logged,
          fun q hq => h.spread q (List.mem_of_mem_erase hq), h.log⟩
      · cases hstep

theorem Narrow.run {events : List (ClientEvent V)} (h : x.Narrow w)
    (hrun : x.run w events = some x') (hn : x.narrows w events = true) :
    x'.Narrow w := by
  induction events generalizing x with
  | nil =>
      cases hrun
      exact h
  | cons event rest ih =>
      rw [narrows, Bool.and_eq_true] at hn
      rw [Client.run, Option.bind_eq_some_iff] at hrun
      obtain ⟨y, hy, hrun⟩ := hrun
      rw [hy] at hn
      exact ih (h.step hy hn.1) hrun hn.2

/-- A client whose outstanding numbers stay less than a window apart loses no
write, whatever the log and the order of completion. -/
theorem no_write_lost {events : List (ClientEvent V)}
    (hrun : start.run w events = some x)
    (hn : start.narrows w events = true) {i seq : Nat} {e : LogEntry V}
    (he : x.log[i]? = some e) (hs : e.command.session = some ⟨w.id, seq⟩)
    (hfirst : ∀ y ∈ x.log.take i,
      y.command.session ≠ some ⟨w.id, seq⟩) :
    (replay (x.log.take i)).apply e =
      (replay (x.log.take i)).perform e.command := by
  have h : x.Narrow w := Narrow.start.run hrun hn
  rw [apply_eq, if_neg]
  rw [hs, alreadyApplied_iff, exists_performed_iff]
  rintro (⟨l, y, r, hl, hy, -⟩ | ⟨y, hy, q, hq, hle⟩)
  · exact hfirst y (by rw [hl]; simp) hy
  · have := h.log i e seq he hs y hy q hq
    omega

end Client

/-- Client 7 writes its first operation to one key and all others to
another. -/
def pipeliningClient : ClientWrites Nat where
  id := 7
  command seq := .put (if seq = 1 then "first" else "rest") seq
    (some ⟨7, seq⟩)
  token _ := rfl

/-- The client issues 64 operations; all but the first go through; it issues
one more, which overtakes the first as well. -/
def overtakingEvents : List (ClientEvent Nat) :=
  (List.range 64).map (fun i => .issue (i + 1)) ++
    (List.range 63).map (fun i => .append (i + 2)) ++
    List.replicate 63 .apply ++
    (List.range 63).map (fun i => .ack (i + 2)) ++
    [.issue 65, .append 65, .append 1, .apply, .apply, .ack 65, .ack 1]

/-- A write within the documented contract that is acknowledged and was never
performed. -/
theorem acked_write_skipped :
    (Client.start.run pipeliningClient overtakingEvents).map
      (fun x => (x.outstanding, decide (1 ∈ x.acked),
        (replay x.log).get "first")) = some ([], true, none) := by
  decide +kernel

end RustKV
