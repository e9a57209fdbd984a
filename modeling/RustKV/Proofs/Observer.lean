import Mathlib.Data.List.Pairwise
import RustKV.Rust.FirstSeen
import RustKV.Transport.Observer

/-!
# The safety observer reports exactly what it should

The observer keeps one claimant for each term and one command for each place,
and it leaves a message at its first defect. It is complete all the same:
whatever differs from some earlier claim differs from the first one, or that
one did. So the record of violations is empty just as long as all claims seen
so far agree and every message hangs together (`Sees`), and none of this
depends on the order in which the messages passed.

What it does not survive is the end of the index range: `prev_log_index + 1`
wraps there, and an entry 0 passes as the successor of the last index. A
message with entries beyond the range that passes like this is the one thing
the observer can miss, and it matters only if nothing else is reported.
-/

namespace RustKV

open Rust

variable {V P : Type}

def RpcRequest.append? : RpcRequest V P → Option (AppendEntriesArgs V)
  | .appendEntries args => some args
  | _ => none

def appends (reqs : List (RpcRequest V P)) : List (AppendEntriesArgs V) :=
  reqs.filterMap RpcRequest.append?

/-- "I lead this term." -/
def AppendEntriesArgs.claim (a : AppendEntriesArgs V) : Nat × NodeId :=
  (a.term, a.leaderId)

/-- "This command stands at this term and index." -/
def LogEntry.claim (e : LogEntry V) : (Nat × Nat) × Command V :=
  ((e.term, e.index), e.command)

/-- The entries follow each other from the one in front of them, their terms
never fall and none is above the sender's. -/
structure AppendEntriesArgs.Continues (a : AppendEntriesArgs V) : Prop where
  index : ∀ j e, a.entries[j]? = some e → e.index = a.prevLogIndex + 1 + j
  mono : (a.prevLogTerm :: a.entries.map LogEntry.term).Pairwise (· ≤ ·)
  le_term : ∀ e ∈ a.entries, e.term ≤ a.term

def TwoLeaders (as : List (AppendEntriesArgs V)) : Prop :=
  ∃ a ∈ as, ∃ b ∈ as, a.term = b.term ∧ a.leaderId ≠ b.leaderId

def TwoCommands (as : List (AppendEntriesArgs V)) : Prop :=
  ∃ a ∈ as, ∃ e ∈ a.entries, ∃ b ∈ as, ∃ e' ∈ b.entries,
    e.term = e'.term ∧ e.index = e'.index ∧ e.command ≠ e'.command

/-- The indices of the entries are `u64`s. -/
def AppendEntriesArgs.Unsigned (a : AppendEntriesArgs V) : Prop :=
  ∀ e ∈ a.entries, e.index < 2 ^ 64

instance (a : AppendEntriesArgs V) : Decidable a.Unsigned :=
  inferInstanceAs (Decidable (∀ e ∈ a.entries, _))

/-- There is an index for every entry of the message. -/
def AppendEntriesArgs.InRange (a : AppendEntriesArgs V) : Prop :=
  a.entries ≠ [] → a.prevLogIndex + a.entries.length < 2 ^ 64

instance (a : AppendEntriesArgs V) : Decidable a.InRange :=
  inferInstanceAs (Decidable (_ → _))

namespace Observer

def WellFormed (a : AppendEntriesArgs V) : Prop :=
  shapeDefect a (wrappingSucc a.prevLogIndex) a.prevLogTerm a.entries = none

/-! ## The shape of one message -/

theorem forall_index_cons {e : LogEntry V} {es : List (LogEntry V)}
    {expected : Nat} :
    (∀ j e', (e :: es)[j]? = some e' → e'.index = expected + j) ↔
      e.index = expected ∧
        ∀ j e', es[j]? = some e' → e'.index = expected + 1 + j := by
  constructor
  · intro h
    refine ⟨h 0 e rfl, fun j e' he' => ?_⟩
    have := h (j + 1) e' he'
    omega
  · rintro ⟨hfirst, hrest⟩ j e' he'
    cases j with
    | zero =>
        cases Option.some.inj he'
        exact hfirst
    | succ j =>
        have := hrest j e' he'
        omega

/-- Counting past the last index does no harm once all entries are seen. -/
theorem shapeDefect_eq_none_iff (a : AppendEntriesArgs V)
    (es : List (LogEntry V)) (expected minTerm : Nat)
    (hr : es ≠ [] → expected + es.length ≤ 2 ^ 64) :
    shapeDefect a expected minTerm es = none ↔
      (∀ j e, es[j]? = some e → e.index = expected + j) ∧
      (minTerm :: es.map LogEntry.term).Pairwise (· ≤ ·) ∧
      ∀ e ∈ es, e.term ≤ a.term := by
  induction es generalizing expected minTerm with
  | nil => simp [shapeDefect]
  | cons e es ih =>
      have hlen := hr (List.cons_ne_nil e es)
      rw [List.length_cons] at hlen
      have hsucc : es ≠ [] → wrappingSucc expected = expected + 1 := by
        intro hne
        have := List.length_pos_iff.mpr hne
        exact Nat.mod_eq_of_lt (by omega)
      have hnext : (∀ j e', es[j]? = some e' →
          e'.index = wrappingSucc expected + j) ↔
          ∀ j e', es[j]? = some e' → e'.index = expected + 1 + j := by
        refine forall₃_congr fun j e' he' => ?_
        rw [hsucc (List.ne_nil_of_mem (List.mem_of_getElem? he'))]
      rw [forall_index_cons, List.map_cons,
        List.pairwise_cons_cons_iff_of_trans, List.forall_mem_cons,
        shapeDefect]
      split
      · next hi => exact iff_of_false (by simp) fun h => hi h.1.1
      · next hi =>
          split
          · next ht =>
              refine iff_of_false (by simp) ?_
              rintro ⟨-, ⟨hmin, -⟩, hmax, -⟩
              omega
          · next ht =>
              rw [ih _ _ fun hne => by rw [hsucc hne]; omega, hnext]
              have hi : e.index = expected := by omega
              have ht : minTerm ≤ e.term ∧ e.term ≤ a.term := by omega
              simp only [hi, ht, true_and]

theorem wellFormed_iff {a : AppendEntriesArgs V} (hr : a.InRange) :
    WellFormed a ↔ a.Continues := by
  have hindex : (∀ j e, a.entries[j]? = some e →
      e.index = wrappingSucc a.prevLogIndex + j) ↔
      ∀ j e, a.entries[j]? = some e → e.index = a.prevLogIndex + 1 + j := by
    refine forall₃_congr fun j e he => ?_
    have hne := List.ne_nil_of_mem (List.mem_of_getElem? he)
    have hlen := hr hne
    have hpos := List.length_pos_iff.mpr hne
    rw [wrappingSucc, Nat.mod_eq_of_lt (by omega)]
  rw [WellFormed, shapeDefect_eq_none_iff, hindex]
  · exact ⟨fun h => ⟨h.1, h.2.1, h.2.2⟩, fun h => ⟨h.index, h.mono, h.le_term⟩⟩
  · intro hne
    have hlen := hr hne
    have hmod := Nat.mod_le (a.prevLogIndex + 1) (2 ^ 64)
    rw [wrappingSucc]
    omega

/-- A message continues just when it passes the check and does not run out of
indices. -/
theorem continues_iff {a : AppendEntriesArgs V} (hu : a.Unsigned) :
    a.Continues ↔ WellFormed a ∧ a.InRange := by
  constructor
  · intro h
    have hr : a.InRange := by
      intro hne
      have hpos := List.length_pos_iff.mpr hne
      have hget := List.getElem?_eq_getElem
        (Nat.sub_lt hpos Nat.zero_lt_one)
      have hidx := h.index _ _ hget
      have hlt := hu _ (List.mem_of_getElem? hget)
      omega
    exact ⟨(wellFormed_iff hr).mpr h, hr⟩
  · rintro ⟨hw, hr⟩
    exact (wellFormed_iff hr).mp hw

/-! ## What the observer knows -/

/-- The observer has seen the claims `cs` of leadership and `ss` of entries,
and messages that are all in shape if `shape` holds. -/
structure Sees (st : Observer V) (cs : List (Nat × NodeId))
    (ss : List ((Nat × Nat) × Command V)) (shape : Prop) : Prop where
  leaders : st.leadersPerTerm = firstSeen cs
  entries : st.entriesSeen = firstSeen ss
  clean : st.violations = [] ↔ Agree cs ∧ Agree ss ∧ shape

variable {st : Observer V} {cs : List (Nat × NodeId)}
  {ss : List ((Nat × Nat) × Command V)} {shape : Prop}

theorem report_violations (st : Observer V) (s : String) :
    (st.report s).violations ≠ [] := by
  simp [report]

theorem Sees.new : Sees (new : Observer V) [] [] True where
  leaders := rfl
  entries := rfl
  clean := iff_of_true rfl ⟨Agree.nil, Agree.nil, trivial⟩

theorem Sees.checkClaim (h : Sees st cs ss shape)
    (a : AppendEntriesArgs V) :
    Sees (st.checkClaim a) (cs ++ [a.claim]) ss shape := by
  rw [Observer.checkClaim, AppendEntriesArgs.claim]
  cases hk : st.leadersPerTerm a.term with
  | none =>
      rw [h.leaders] at hk
      refine ⟨?_, h.entries, ?_⟩
      · rw [h.leaders]
        exact (firstSeen_concat_of_none hk).symm
      · rw [agree_concat_of_none hk]
        exact h.clean
  | some known =>
      rw [h.leaders] at hk
      simp only []
      split
      · next hne =>
          refine ⟨?_, h.entries, iff_of_false (report_violations _ _) ?_⟩
          · rw [firstSeen_concat_of_some hk]
            exact h.leaders
          · rintro ⟨ha, -⟩
            exact hne ((agree_concat_of_some hk).mp ha).2
      · next heq =>
          refine ⟨?_, h.entries, ?_⟩
          · rw [firstSeen_concat_of_some hk]
            exact h.leaders
          · rw [agree_concat_of_some hk, and_iff_left (not_not.mp heq)]
            exact h.clean

theorem Sees.checkShape (h : Sees st cs ss shape)
    (a : AppendEntriesArgs V) :
    Sees (st.checkShape a) cs ss (shape ∧ WellFormed a) := by
  rw [Observer.checkShape]
  cases hd : shapeDefect a (wrappingSucc a.prevLogIndex) a.prevLogTerm
    a.entries with
  | none =>
      refine ⟨h.leaders, h.entries, ?_⟩
      rw [h.clean, WellFormed, hd]
      simp
  | some s =>
      refine ⟨h.leaders, h.entries, iff_of_false (report_violations _ _) ?_⟩
      rintro ⟨-, -, -, hw⟩
      rw [WellFormed, hd] at hw
      cases hw

variable [DecidableEq V]

theorem Sees.checkEntry (h : Sees st cs ss shape) (e : LogEntry V) :
    Sees (st.checkEntry e) cs (ss ++ [e.claim]) shape := by
  rw [Observer.checkEntry, LogEntry.claim]
  cases hk : st.entriesSeen (e.term, e.index) with
  | none =>
      rw [h.entries] at hk
      refine ⟨h.leaders, ?_, ?_⟩
      · rw [h.entries]
        exact (firstSeen_concat_of_none hk).symm
      · rw [agree_concat_of_none hk]
        exact h.clean
  | some seen =>
      rw [h.entries] at hk
      simp only []
      split
      · next hne =>
          refine ⟨h.leaders, ?_, iff_of_false (report_violations _ _) ?_⟩
          · rw [firstSeen_concat_of_some hk]
            exact h.entries
          · rintro ⟨-, ha, -⟩
            exact hne ((agree_concat_of_some hk).mp ha).2
      · next heq =>
          refine ⟨h.leaders, ?_, ?_⟩
          · rw [firstSeen_concat_of_some hk]
            exact h.entries
          · rw [agree_concat_of_some hk, and_iff_left (not_not.mp heq)]
            exact h.clean

theorem Sees.checkEntries (es : List (LogEntry V))
    (h : Sees st cs ss shape) :
    Sees (es.foldl Observer.checkEntry st) cs
      (ss ++ es.map LogEntry.claim) shape := by
  induction es generalizing st ss with
  | nil => simpa using h
  | cons e es ih =>
      have := ih (h.checkEntry e)
      rwa [List.append_assoc] at this

theorem Sees.inspect (h : Sees st cs ss shape)
    (a : AppendEntriesArgs V) :
    Sees (st.inspectAppendEntries (P := P) (.appendEntries a))
      (cs ++ [a.claim]) (ss ++ a.entries.map LogEntry.claim)
      (shape ∧ WellFormed a) :=
  ((h.checkClaim a).checkShape a).checkEntries a.entries

theorem sees_foldl (reqs : List (RpcRequest V P))
    (h : Sees st cs ss shape) :
    Sees (reqs.foldl inspectAppendEntries st)
      (cs ++ (appends reqs).map AppendEntriesArgs.claim)
      (ss ++ (appends reqs).flatMap fun a => a.entries.map LogEntry.claim)
      (shape ∧ ∀ a ∈ appends reqs, WellFormed a) := by
  induction reqs generalizing st cs ss shape with
  | nil => simpa [appends] using h
  | cons req reqs ih =>
      cases req with
      | appendEntries a =>
          have := ih (h.inspect (P := P) a)
          simpa [appends, RpcRequest.append?, and_assoc] using this
      | _ => exact ih h

/-- The record stays empty just as long as all claims agree and all messages
are in shape. -/
theorem violations_eq_nil_iff (reqs : List (RpcRequest V P)) :
    (afterAll reqs).violations = [] ↔
      Agree ((appends reqs).map AppendEntriesArgs.claim) ∧
      Agree ((appends reqs).flatMap fun a => a.entries.map LogEntry.claim) ∧
      ∀ a ∈ appends reqs, WellFormed a := by
  have h := (sees_foldl reqs Sees.new).clean
  simpa [afterAll] using h

end Observer

theorem not_agree_claims_iff (as : List (AppendEntriesArgs V)) :
    ¬ Agree (as.map AppendEntriesArgs.claim) ↔ TwoLeaders as := by
  simp [Agree, TwoLeaders, AppendEntriesArgs.claim]

theorem not_agree_ships_iff (as : List (AppendEntriesArgs V)) :
    ¬ Agree (as.flatMap fun a => a.entries.map LogEntry.claim) ↔
      TwoCommands as := by
  simp [Agree, TwoCommands, LogEntry.claim]

theorem perm_appends {reqs reqs' : List (RpcRequest V P)}
    (h : reqs.Perm reqs') : (appends reqs).Perm (appends reqs') :=
  h.filterMap _

variable [DecidableEq V]

/-- When the observer is exact: violations are on record just when two claimed
one term, or two commands were shipped for one place, or a message did not
hang together. That is so unless the one thing to report is a message that
runs out of indices and passes the check all the same. In what order the
messages were seen makes no difference, for any messages. -/
theorem observer_exact (reqs : List (RpcRequest V P))
    (hu : ∀ a ∈ appends reqs, a.Unsigned) :
    (((Observer.afterAll reqs).violations ≠ [] ↔
        TwoLeaders (appends reqs) ∨ TwoCommands (appends reqs) ∨
          ∃ a ∈ appends reqs, ¬ a.Continues) ↔
      TwoLeaders (appends reqs) ∨ TwoCommands (appends reqs) ∨
        (∃ a ∈ appends reqs, ¬ Observer.WellFormed a) ∨
        ∀ a ∈ appends reqs, a.InRange) ∧
    ∀ reqs₁ reqs₂ : List (RpcRequest V P), reqs₁.Perm reqs₂ →
      ((Observer.afterAll reqs₁).violations ≠ [] ↔
        (Observer.afterAll reqs₂).violations ≠ []) := by
  constructor
  · rw [Ne, Observer.violations_eq_nil_iff, not_and_or, not_and_or,
      not_agree_claims_iff, not_agree_ships_iff, not_forall₂]
    have hsome : (∃ a ∈ appends reqs, ¬ a.Continues) ↔
        (∃ a ∈ appends reqs, ¬ Observer.WellFormed a) ∨
          ¬ ∀ a ∈ appends reqs, a.InRange := by
      rw [not_forall₂, ← exists_or]
      refine exists_congr fun a => ?_
      rw [exists_prop, ← and_or_left]
      refine and_congr_right fun ha => ?_
      rw [Observer.continues_iff (hu a ha), not_and_or]
    have hmiss : ∀ flagged inRange : Prop,
        (flagged ↔ flagged ∨ ¬ inRange) ↔ flagged ∨ inRange := by
      intro flagged inRange
      by_cases hf : flagged
      · simp [hf]
      · simp [hf]
    simp only [exists_prop] at hsome ⊢
    rw [hsome]
    simpa only [or_assoc] using hmiss (TwoLeaders (appends reqs) ∨
      TwoCommands (appends reqs) ∨
      ∃ a ∈ appends reqs, ¬ Observer.WellFormed a) _
  · intro reqs₁ reqs₂ h
    have hp := perm_appends h
    rw [Ne, Ne, Observer.violations_eq_nil_iff,
      Observer.violations_eq_nil_iff]
    refine not_congr (and_congr ?_ (and_congr ?_ ?_))
    · exact agree_congr (hp.map _)
    · exact agree_congr (hp.flatMap_right _)
    · exact forall_congr' fun a => by rw [hp.mem_iff]

/-- Two leaders of term 1, one after the other. -/
def twoLeaders : List (RpcRequest Nat Unit) :=
  [.appendEntries ⟨1, 1, 0, 0, [⟨1, 1, .noop⟩], 0⟩,
    .appendEntries ⟨1, 2, 0, 0, [], 0⟩]

theorem observer_exact_twoLeaders :
    (Observer.afterAll twoLeaders).violations =
      ["election safety violated: nodes 1 and 2 both sent AppendEntries " ++
        "as leader of term 1"] ∧
    ((Observer.afterAll twoLeaders).violations ≠ [] ↔
      TwoLeaders (appends twoLeaders) ∨ TwoCommands (appends twoLeaders) ∨
        ∃ a ∈ appends twoLeaders, ¬ a.Continues) := by
  refine ⟨by decide, (observer_exact twoLeaders (by decide)).1.mpr (.inl ?_)⟩
  exact ⟨_, List.mem_cons_self, _, List.mem_cons_of_mem _ List.mem_cons_self,
    rfl, by decide⟩

/-- The last index of all, and an entry 0 behind it. -/
def wrappedAppend : AppendEntriesArgs Nat :=
  ⟨1, 1, 2 ^ 64 - 1, 0, [⟨1, 0, .noop⟩], 0⟩

theorem observer_exact_wrapped :
    (Observer.afterAll ([.appendEntries wrappedAppend] :
      List (RpcRequest Nat Unit))).violations = [] ∧
    ¬ wrappedAppend.Continues := by
  refine ⟨by decide, ?_⟩
  intro h
  have := h.index 0 ⟨1, 0, .noop⟩ rfl
  cases this

end RustKV
