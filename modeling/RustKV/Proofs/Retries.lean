import RustKV.Proofs.Dedup
import Mathlib.Order.Bounds.Basic

/-!
# What a log performs, and what a retry adds to it

The window of `Dedup` read as a whole. Of the entries of a log some are skipped
and the others performed; the performed ones determine everything. Their
numbers are the set each client's window looks onto, hence which entry is
skipped next, and their effects from left to right are the map.

A number that a log has met once, performed or skipped, is skipped ever after:
either it is in the set, or the set has a number a window's width above it, and
the set only grows. So a second entry with the same token changes nothing,
wherever it comes, and neither does going through a snapshot in between.
-/

namespace RustKV

variable {V : Type}

namespace KvStore

def effect (map : String → Option V) : Command V → String → Option V
  | .put key value _ => Function.update map key (some value)
  | .delete key _ => Function.update map key none
  | .noop => map
  | .configChange _ => map

theorem map_perform (s : KvStore V) (c : Command V) :
    (s.perform c).map = effect s.map c := by
  have hrec : ∀ (s' : KvStore V) (session : Option Session),
      (s'.recordApplied session).map = s'.map := by
    rintro s' (_ | ⟨client, seq⟩) <;> rfl
  cases c with
  | put key value session => exact hrec _ session
  | delete key session => exact hrec _ session
  | noop => rfl
  | configChange members => rfl

def unskipped (s : KvStore V) : List (LogEntry V) → List (LogEntry V)
  | [] => []
  | e :: log =>
      if s.alreadyApplied e.command.session then (s.apply e).unskipped log
      else e :: (s.apply e).unskipped log

theorem unskipped_append (s : KvStore V) (log : List (LogEntry V))
    (e : LogEntry V) :
    s.unskipped (log ++ [e]) = s.unskipped log ++
      if (log.foldl apply s).alreadyApplied e.command.session then []
      else [e] := by
  induction log generalizing s with
  | nil => rfl
  | cons x log ih =>
      rw [List.cons_append, unskipped, unskipped, ih, List.foldl_cons]
      split
      · rfl
      · rfl

theorem map_replay (log : List (LogEntry V)) :
    (replay log).map = (new.unskipped log).foldl
      (fun map e => effect map e.command) fun _ => none := by
  induction log using List.reverseRecOn with
  | nil => rfl
  | append_singleton log e ih =>
      rw [replay_append, apply_eq, unskipped_append, List.foldl_append, ← ih]
      show _ = List.foldl _ _
        (if (replay log).alreadyApplied e.command.session then [] else [e])
      split
      · rfl
      · rw [map_perform]
        rfl

/-! ## Other clients -/

theorem sessions_apply_other {s : KvStore V} {e : LogEntry V} {client : Nat}
    (h : ∀ seq, e.command.session ≠ some ⟨client, seq⟩) :
    (s.apply e).sessions client = s.sessions client := by
  rw [apply_eq]
  split
  · rfl
  · rw [sessions_perform]
    cases hs : e.command.session with
    | none => rfl
    | some t =>
        obtain ⟨client', seq⟩ := t
        refine if_neg fun hc => h seq ?_
        rw [hs, hc]

/-- What an entry does to its client's window depends on that window alone. -/
theorem sessions_apply_congr {s s' : KvStore V} {e : LogEntry V}
    {client seq : Nat} (he : e.command.session = some ⟨client, seq⟩)
    (h : s.sessions client = s'.sessions client) :
    (s.apply e).sessions client = (s'.apply e).sessions client := by
  have hdup : s.alreadyApplied e.command.session =
      s'.alreadyApplied e.command.session := by
    rw [he, alreadyApplied, alreadyApplied, h]
  rw [apply_eq, apply_eq, hdup]
  split
  · exact h
  · rw [sessions_perform, sessions_perform, he]
    simp only [h]

end KvStore

open KvStore

def Command.ofClient (client : Nat) (c : Command V) : Bool :=
  c.session.any fun t => t.client = client

theorem Command.ofClient_iff {client : Nat} {c : Command V} :
    c.ofClient client = true ↔ ∃ seq, c.session = some ⟨client, seq⟩ := by
  rw [ofClient, Option.any_eq_true]
  constructor
  · rintro ⟨⟨client', seq⟩, hs, hc⟩
    cases of_decide_eq_true hc
    exact ⟨seq, hs⟩
  · rintro ⟨seq, hs⟩
    exact ⟨_, hs, decide_eq_true rfl⟩

/-- A client's window is the one its own entries alone leave. -/
theorem sessions_replay_filter (log : List (LogEntry V)) (client : Nat) :
    (replay (log.filter fun e => e.command.ofClient client)).sessions client =
      (replay log).sessions client := by
  induction log using List.reverseRecOn with
  | nil => rfl
  | append_singleton log e ih =>
      rw [List.filter_append, replay_append]
      by_cases hown : e.command.ofClient client = true
      · obtain ⟨seq, hs⟩ := Command.ofClient_iff.mp hown
        rw [List.filter_singleton, hown, cond_true, replay_append]
        exact sessions_apply_congr hs ih
      · rw [List.filter_singleton, Bool.eq_false_iff.mpr hown, cond_false,
          List.append_nil, ih]
        refine (sessions_apply_other fun seq hs => hown ?_).symm
        exact Command.ofClient_iff.mpr ⟨seq, hs⟩

theorem performed_eq_unskipped (log : List (LogEntry V)) (client : Nat) :
    Performed log client = {seq | ∃ e ∈ new.unskipped log,
      e.command.session = some ⟨client, seq⟩} := by
  induction log using List.reverseRecOn with
  | nil =>
      refine Set.eq_empty_iff_forall_notMem.mpr ?_ |>.trans ?_
      · rintro seq ⟨l, e, r, heq, -⟩
        cases l <;> cases heq
      · simp [unskipped]
  | append_singleton log e ih =>
      ext seq
      rw [mem_performed_append, ih, unskipped_append]
      show _ ↔ ∃ x ∈ _ ++ (if (replay log).alreadyApplied e.command.session
        then [] else [e]), _
      constructor
      · rintro (⟨x, hx, hs⟩ | ⟨hs, hnew⟩)
        · exact ⟨x, List.mem_append_left _ hx, hs⟩
        · rw [hs, hnew]
          exact ⟨e, by simp, hs⟩
      · rintro ⟨x, hx, hs⟩
        rcases List.mem_append.mp hx with hx | hx
        · exact .inl ⟨x, hx, hs⟩
        · split at hx
          · cases hx
          · next hnew =>
              cases List.mem_singleton.mp hx
              rw [hs] at hnew
              exact .inr ⟨hs, Bool.eq_false_iff.mpr hnew⟩

/-- The numbers of a client that the window makes it skip, when `S` are those
performed for it. -/
def Skips (S : Set ℕ) (seq : ℕ) : Prop :=
  ∃ m, IsGreatest S m ∧ (seq ∈ S ∨ seq + sessionWindow ≤ m)

theorem skips_iff (log : List (LogEntry V)) (client seq : Nat) :
    Skips (Performed log client) seq ↔
      (replay log).alreadyApplied (some ⟨client, seq⟩) = true := by
  have h := sessions_replay log client
  rw [alreadyApplied]
  cases hst : (replay log).sessions client with
  | none =>
      rw [hst] at h
      have hempty : Performed log client = ∅ := h
      simp [Skips, hempty, IsGreatest]
  | some st =>
      rw [hst] at h
      have hrec : st.Records (Performed log client) := h
      have hmax : IsGreatest (Performed log client) st.maxSeq :=
        ⟨hrec.max_mem, hrec.le_max⟩
      rw [Option.any_some, hrec.contains]
      constructor
      · rintro ⟨m, hm, hskip⟩
        rwa [hm.unique hmax] at hskip
      · exact fun hskip => ⟨_, hmax, hskip⟩

/-- The window is exact. With `S` the client's numbers among the entries that
were performed, the next entry of the client is skipped exactly if `S` skips
its number, and otherwise performed and recorded; the stored state is the
window onto `S`; the entries of others have no part in it; and the map is the
effect of the performed entries from left to right. -/
theorem dedup_window_exact (log : List (LogEntry V)) (client : Nat) :
    (Performed log client = {seq | ∃ e ∈ new.unskipped log,
      e.command.session = some ⟨client, seq⟩}) ∧
    (∀ e seq, e.command.session = some ⟨client, seq⟩ →
      (Skips (Performed log client) seq → (replay log).apply e = replay log) ∧
      (¬ Skips (Performed log client) seq →
        ((replay log).apply e).map = effect (replay log).map e.command ∧
        Performed (log ++ [e]) client =
          insert seq (Performed log client))) ∧
    ((replay log).sessions client = none ↔ Performed log client = ∅) ∧
    (∀ st, (replay log).sessions client = some st →
      IsGreatest (Performed log client) st.maxSeq ∧
      ∀ i, i < 64 → (st.recent.getLsbD i = true ↔
        i ≤ st.maxSeq ∧ st.maxSeq - i ∈ Performed log client)) ∧
    ((replay (log.filter fun e => e.command.ofClient client)).sessions client =
      (replay log).sessions client) ∧
    (∀ e : LogEntry V, (∀ seq, e.command.session ≠ some ⟨client, seq⟩) →
      ((replay log).apply e).sessions client = (replay log).sessions client) ∧
    (replay log).map = (new.unskipped log).foldl
      (fun map e => effect map e.command) fun _ => none := by
  have hwin := sessions_replay log client
  refine ⟨performed_eq_unskipped log client, fun e seq hs => ⟨?_, ?_⟩, ?_,
    fun st hst => ?_, sessions_replay_filter log client,
    fun e => sessions_apply_other, map_replay log⟩
  · intro hskip
    rw [apply_eq, hs, if_pos ((skips_iff log client seq).mp hskip)]
  · intro hskip
    have hnew := mt (skips_iff log client seq).mpr hskip
    rw [apply_eq, hs, if_neg hnew, map_perform]
    refine ⟨rfl, ?_⟩
    ext q
    rw [mem_performed_append, hs, Set.mem_insert_iff, or_comm]
    refine or_congr ⟨?_, ?_⟩ Iff.rfl
    · rintro ⟨heq, -⟩
      cases heq
      rfl
    · rintro rfl
      exact ⟨rfl, Bool.eq_false_iff.mpr hnew⟩
  · cases hst : (replay log).sessions client with
    | none =>
        rw [hst] at hwin
        exact ⟨fun _ => hwin, fun _ => rfl⟩
    | some st =>
        rw [hst] at hwin
        have hrec : st.Records (Performed log client) := hwin
        refine ⟨fun h => (Option.some_ne_none _ h).elim, fun h => ?_⟩
        exact absurd hrec.max_mem (h ▸ Set.notMem_empty _)
  · rw [hst] at hwin
    have hrec : st.Records (Performed log client) := hwin
    exact ⟨⟨hrec.max_mem, hrec.le_max⟩, hrec.bit⟩

/-! ## Retries -/

theorem alreadyApplied_of_mem {log : List (LogEntry V)} {e : LogEntry V}
    {t : Session} (he : e ∈ log) (hs : e.command.session = some t) :
    (replay log).alreadyApplied (some t) = true := by
  obtain ⟨client, seq⟩ := t
  obtain ⟨l, r, rfl⟩ := List.append_of_mem he
  rw [alreadyApplied_iff]
  by_cases hdup : (replay l).alreadyApplied (some ⟨client, seq⟩) = true
  · rcases alreadyApplied_iff.mp hdup with hq | ⟨q, hq, hle⟩
    · exact .inl (performed_mono hq)
    · exact .inr ⟨q, performed_mono hq, hle⟩
  · exact .inl ⟨l, e, r, rfl, hs, Bool.eq_false_iff.mpr hdup⟩

/-- What happens to a replica's state machine: an entry is applied, or the
state goes through a snapshot. -/
inductive StoreOp (V : Type) where
  | apply (entry : LogEntry V)
  | reload

namespace StoreOp

def step (s : KvStore V) : StoreOp V → KvStore V
  | .apply entry => s.apply entry
  | .reload => ofSnapshot s.toSnapshot

def run (ops : List (StoreOp V)) : KvStore V := ops.foldl step new

def entry? : StoreOp V → Option (LogEntry V)
  | .apply entry => some entry
  | .reload => none

def entries (ops : List (StoreOp V)) : List (LogEntry V) :=
  ops.filterMap entry?

theorem run_eq_replay (ops : List (StoreOp V)) :
    run ops = replay (entries ops) := by
  induction ops using List.reverseRecOn with
  | nil => rfl
  | append_singleton ops op ih =>
      rw [run, List.foldl_append, entries, List.filterMap_append]
      cases op with
      | apply entry =>
          have : [StoreOp.apply entry].filterMap entry? = [entry] := rfl
          rw [this, replay_append]
          exact congrArg (·.apply entry) ih
      | reload =>
          have : [(.reload : StoreOp V)].filterMap entry? = [] := rfl
          rw [this, List.append_nil]
          exact ih

end StoreOp

/-- A second command with a token the log has met before makes no difference,
wherever either history goes through a snapshot. -/
theorem retry_transparent (xs ys zs : List (LogEntry V)) (c c' : LogEntry V)
    (t : Session) (hc : c.command.session = some t)
    (hc' : c'.command.session = some t) (retried once : List (StoreOp V))
    (hretried : StoreOp.entries retried = xs ++ [c] ++ ys ++ [c'] ++ zs)
    (honce : StoreOp.entries once = xs ++ [c] ++ ys ++ zs) :
    (StoreOp.run retried).map = (StoreOp.run once).map ∧
      (StoreOp.run retried).sessions = (StoreOp.run once).sessions := by
  have hseen : (replay (xs ++ [c] ++ ys)).alreadyApplied (some t) = true :=
    alreadyApplied_of_mem (e := c) (by simp) hc
  have hskip : replay (xs ++ [c] ++ ys ++ [c']) = replay (xs ++ [c] ++ ys) := by
    rw [replay_append, apply_eq, hc', if_pos hseen]
  have hrun : StoreOp.run retried = StoreOp.run once := by
    have hrest : ∀ log : List (LogEntry V),
        replay (log ++ zs) = zs.foldl apply (replay log) :=
      fun log => List.foldl_append
    rw [StoreOp.run_eq_replay, StoreOp.run_eq_replay, hretried, honce, hrest,
      hrest, hskip]
  rw [hrun]
  exact ⟨rfl, rfl⟩

/-- A retry after the window has slid past it, and after a snapshot. -/
theorem retry_transparent_slid :
    (StoreOp.run [.apply ⟨1, 1, .put "k" 1 (some ⟨7, 1⟩)⟩,
        .apply ⟨1, 2, .put "k" 2 (some ⟨7, 100⟩)⟩, .reload,
        .apply ⟨2, 3, .delete "k" (some ⟨7, 1⟩)⟩,
        .apply ⟨2, 4, .put "j" 3 none⟩]).map =
      (StoreOp.run [.apply ⟨1, 1, .put "k" 1 (some ⟨7, 1⟩)⟩,
        .apply ⟨1, 2, .put "k" 2 (some ⟨7, 100⟩)⟩,
        .apply ⟨2, 4, .put "j" 3 none⟩]).map :=
  (retry_transparent [] [⟨1, 2, .put "k" 2 (some ⟨7, 100⟩)⟩]
    [⟨2, 4, .put "j" 3 none⟩] ⟨1, 1, .put "k" 1 (some ⟨7, 1⟩)⟩
    ⟨2, 3, .delete "k" (some ⟨7, 1⟩)⟩ ⟨7, 1⟩ rfl rfl _ _ rfl rfl).1

end RustKV
