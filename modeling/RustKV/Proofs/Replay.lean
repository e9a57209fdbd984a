import RustKV.Proofs.Storage
import RustKV.Raft.Disk

/-!
# Reading the log file back

What `replay_log` makes of a file. If the file is a run of complete lines with
consecutive indexes, followed by at most a torn one, it delivers those above
the boundary and cuts the torn line off. And whatever the file, a reading that
succeeds is consecutive, starts right after the boundary, and under a higher
boundary only loses its front.

The loop is taken apart once, in `replayLines_cons`.
-/

namespace RustKV

open Rust

variable {V P : Type} {J : Json V P} {d : Dir} {K es : List (LogEntry V)}
  {a b c : Nat} {path : String} {total : Nat}

/-! ## Replaying lines -/

theorem Json.lines_cons (e : LogEntry V) (K : List (LogEntry V)) :
    J.lines (e :: K) = (J.entry.encode e ++ [newline]) ++ J.lines K :=
  List.flatMap_cons

theorem Json.lines_append (es fs : List (LogEntry V)) :
    J.lines (es ++ fs) = J.lines es ++ J.lines fs := List.flatMap_append

theorem notMem_newline {l : List UInt8} (h : newline ∉ l) :
    ∀ y ∈ l, decide (y = newline) = false := fun y hy => by
  rw [decide_eq_false_iff_not]
  rintro rfl
  exact h hy

theorem splitInclusive_lines_cons (e : LogEntry V) (K : List (LogEntry V))
    (rest : List UInt8) :
    splitInclusive (· = newline) (J.lines (e :: K) ++ rest) =
      (J.entry.encode e ++ [newline]) ::
        splitInclusive (· = newline) (J.lines K ++ rest) := by
  rw [Json.lines_cons, List.append_assoc, List.append_assoc,
    List.singleton_append]
  exact splitInclusive_append (notMem_newline (J.entry.newline_notMem e))
    (by simp)

theorem Replay.gap_eq_none {st : Replay V} {e : LogEntry V} :
    st.gap e = none ↔ ∀ i, st.previousIndex = some i → e.index = i + 1 := by
  rw [gap]
  cases st.previousIndex with
  | none => simp
  | some i => simp

theorem misplaced_eq_none {log : List (LogEntry V)} :
    misplaced b log = none ↔ ∀ e, log.head? = some e → e.index = b + 1 := by
  rw [misplaced]
  cases log with
  | nil => simp
  | cons e log => simp

theorem Numbered.misplaced (h : Numbered b es) : misplaced b es = none :=
  misplaced_eq_none.mpr fun e he => h 0 e (by rwa [← List.head?_eq_getElem?])

theorem replayLines_append (path : String) (total : Nat)
    (rest : List UInt8) (st : Replay V) (hK : Numbered a K)
    (hp : ∀ i, st.previousIndex = some i → i = a)
    (hg : st.goodEnd = st.offset) :
    ∃ previous, replayLines J path b total
        (splitInclusive (· = newline) (J.lines K ++ rest)) st =
      replayLines J path b total (splitInclusive (· = newline) rest)
        ⟨st.log ++ K.filter (b < ·.index), previous,
          st.offset + (J.lines K).length, st.offset + (J.lines K).length⟩ := by
  induction K generalizing a st with
  | nil =>
      refine ⟨st.previousIndex, ?_⟩
      obtain ⟨log, previous, goodEnd, offset⟩ := st
      cases hg
      simp [Json.lines]
  | cons e K ih =>
      have he := hK.head
      have hgap : st.gap e = none := Replay.gap_eq_none.mpr
        fun i hi => by rw [hp i hi, he]
      obtain ⟨previous, ih⟩ := ih
        (st.push b e (st.offset + (J.entry.encode e ++ [newline]).length))
        hK.tail (fun i hi => by cases hi; exact he) rfl
      refine ⟨previous, ?_⟩
      rw [splitInclusive_lines_cons, replayLines]
      simp only [J.entry.decode_line, List.getLast?_concat, if_true, hgap]
      rw [ih]
      have hlen : (J.lines (e :: K)).length =
          (J.entry.encode e ++ [newline]).length + (J.lines K).length := by
        rw [Json.lines_cons, List.length_append]
      rw [hlen]
      by_cases hb : b < e.index
      · simp [Replay.push, hb, Nat.add_assoc]
      · simp [Replay.push, hb, Nat.add_assoc]

theorem replayLines_torn {path : String} {total : Nat} {torn : List UInt8}
    {st : Replay V} (ht : newline ∉ torn)
    (htotal : total = st.offset + torn.length) :
    replayLines J path b total (splitInclusive (· = newline) torn) st =
      .ok ({ st with offset := total }, !torn.isEmpty) := by
  cases torn with
  | nil =>
      have : st.offset = total := by simpa using htotal.symm
      simp [splitInclusive, replayLines, ← this]
  | cons x torn =>
      rw [splitInclusive_rest (notMem_newline ht) (List.cons_ne_nil _ _),
        replayLines]
      have hlast : (x :: torn).getLast? ≠ some newline := fun h =>
        ht (List.mem_of_getLast? h)
      simp only [hlast, if_false, ← htotal, if_true]
      split <;> rfl

theorem replayLog_lines {torn : List UInt8}
    (hlog : d.log = some (J.lines K ++ torn)) (ht : newline ∉ torn)
    (hK : Numbered a K) (hab : a ≤ b) :
    replayLog J d b =
      (.ok (K.drop (b - a)), { d with log := some (J.lines K) }) := by
  obtain ⟨previous, hread⟩ := replayLines_append (J := J) (b := b)
    (d.path ++ "/log.jsonl") (J.lines K ++ torn).length torn
    ⟨[], none, 0, 0⟩ hK nofun rfl
  rw [replayLines_torn ht (by simp)] at hread
  have hhead : misplaced b (K.drop (b - a)) = none := by
    have hn := hK.drop (b - a)
    rw [Nat.add_sub_cancel' hab] at hn
    exact hn.misplaced
  rw [replayLog, hlog]
  simp only [hread, List.nil_append, hK.filter_eq_drop, hhead,
    Nat.zero_add, List.take_left]
  cases torn with
  | nil =>
      rw [List.append_nil] at hlog
      simp [← hlog]
  | cons x torn => simp

/-! ## Reading one log file under two boundaries -/

/-- The two ways the loop can go on at a chunk without an error: a valid line
that follows the one before, or a torn end. -/
theorem replayLines_cons {chunk : List UInt8} {chunks : List (List UInt8)}
    {st : Replay V} {r : Replay V × Bool} :
    replayLines J path b total (chunk :: chunks) st = .ok r ↔
      (∃ entry, J.entry.decode chunk = .ok entry ∧
        chunk.getLast? = some newline ∧
        (∀ i, st.previousIndex = some i → entry.index = i + 1) ∧
        replayLines J path b total chunks
          (st.push b entry (st.offset + chunk.length)) = .ok r) ∨
      (¬ ((J.entry.decode chunk).isOk ∧ chunk.getLast? = some newline) ∧
        st.offset + chunk.length = total ∧
        r = ({ st with offset := total }, true)) := by
  rw [replayLines]
  cases hdec : J.entry.decode chunk with
  | error e =>
      by_cases hend : st.offset + chunk.length = total
      · simp [hend, Except.isOk, Except.toBool, eq_comm]
      · simp [hend]
  | ok entry =>
      by_cases hcomplete : chunk.getLast? = some newline
      · cases hgap : st.gap entry with
        | none =>
            have hfollows := Replay.gap_eq_none.mp hgap
            simp only [hcomplete, hgap, Except.isOk, Except.toBool]
            constructor
            · exact fun h => .inl ⟨entry, rfl, trivial, hfollows, h⟩
            · rintro (⟨_, heq, -, -, h⟩ | ⟨hbad, -⟩)
              · cases heq
                exact h
              · exact absurd ⟨trivial, trivial⟩ hbad
        | some i =>
            simp only [hcomplete, hgap, Except.isOk, Except.toBool]
            constructor
            · exact nofun
            · rintro (⟨_, heq, -, hfollows, -⟩ | ⟨hbad, -⟩)
              · cases heq
                rw [Replay.gap_eq_none.mpr hfollows] at hgap
                cases hgap
              · exact absurd ⟨trivial, trivial⟩ hbad
      · simp only [if_neg hcomplete]
        constructor
        · intro h
          split at h
          · next hend =>
              cases h
              exact .inr ⟨fun hbad => hcomplete hbad.2, hend, by rw [hend]⟩
          · cases h
        · rintro (⟨_, -, hc, -⟩ | ⟨-, hend, rfl⟩)
          · exact absurd hc hcomplete
          · rw [if_pos hend, hend]

/-- A higher boundary changes what is kept and nothing else. -/
theorem replayLines_raise {chunks : List (List UInt8)} {st st' : Replay V}
    {torn : Bool} (hbc : b ≤ c)
    (h : replayLines J path b total chunks st = .ok (st', torn)) :
    replayLines J path c total chunks
        { st with log := st.log.filter (c < ·.index) } =
      .ok ({ st' with log := st'.log.filter (c < ·.index) }, torn) := by
  induction chunks generalizing st with
  | nil =>
      cases h
      rfl
  | cons chunk chunks ih =>
      rcases replayLines_cons.mp h with ⟨entry, hdec, hend, hprev, h⟩ |
        ⟨hbad, hend, h⟩
      · refine replayLines_cons.mpr (.inl ⟨entry, hdec, hend, hprev, ?_⟩)
        rw [← ih h]
        congr 1
        by_cases hc : c < entry.index
        · simp [Replay.push, hc, Nat.lt_of_le_of_lt hbc hc]
        · by_cases hb : b < entry.index <;> simp [Replay.push, hc, hb]
      · cases h
        exact replayLines_cons.mpr (.inr ⟨hbad, hend, rfl⟩)

/-- What is read is consecutive, whatever the file. -/
theorem replayLines_numbered {chunks : List (List UInt8)}
    {st st' : Replay V} {torn : Bool}
    (h : replayLines J path b total chunks st = .ok (st', torn))
    (hst : ∃ a, Numbered a st.log ∧ (st.log ≠ [] → b ≤ a ∧
      st.previousIndex = some (a + st.log.length))) :
    ∃ a, Numbered a st'.log := by
  induction chunks generalizing st with
  | nil =>
      cases h
      obtain ⟨a, ha, -⟩ := hst
      exact ⟨a, ha⟩
  | cons chunk chunks ih =>
      obtain ⟨a, ha, hlast⟩ := hst
      rcases replayLines_cons.mp h with ⟨entry, -, -, hprev, h⟩ | ⟨-, -, h⟩
      · refine ih h ?_
        have hone : Numbered (entry.index - 1) [entry] ∨ entry.index = 0 := by
          rcases Nat.eq_zero_or_pos entry.index with h0 | hpos
          · exact .inr h0
          · refine .inl fun j e he => ?_
            obtain ⟨rfl, rfl⟩ : j = 0 ∧ entry = e := by
              cases j <;> simp_all
            omega
        cases hlog : st.log with
        | nil =>
            by_cases hb : b < entry.index
            · refine ⟨entry.index - 1, ?_, fun _ => ⟨by omega, ?_⟩⟩
              · simp only [Replay.push, if_pos hb, hlog, List.nil_append]
                exact hone.resolve_right (by omega)
              · simp only [Replay.push, if_pos hb, hlog, List.nil_append,
                  List.length_singleton]
                congr 1
                omega
            · refine ⟨0, ?_, ?_⟩ <;>
                simp only [Replay.push, if_neg hb, hlog]
              · exact .nil
              · exact fun hne => absurd rfl hne
        | cons e log =>
            obtain ⟨hba, hp⟩ := hlast (by rw [hlog]; exact nofun)
            have hidx := hprev _ hp
            have hb : b < entry.index := by omega
            refine ⟨a, ?_, fun _ => ⟨hba, ?_⟩⟩
            · simp only [Replay.push, if_pos hb]
              refine ha.append ?_
              have := hone.resolve_right (by omega)
              rwa [hidx, Nat.add_sub_cancel] at this
            · simp only [Replay.push, if_pos hb, List.length_append,
                List.length_singleton]
              congr 1
      · cases h
        exact ⟨a, ha⟩

theorem replayLog_raise {log : List (LogEntry V)}
    (h : (replayLog J d b).1 = .ok log) (hbc : b ≤ c) :
    Numbered b log ∧ (replayLog J d c).1 = .ok (log.drop (c - b)) := by
  rw [replayLog] at h ⊢
  cases hbytes : d.log with
  | none =>
      rw [hbytes] at h
      cases h
      exact ⟨.nil, by simp⟩
  | some bytes =>
      simp only [hbytes] at h ⊢
      split at h
      · cases h
      · next st torn hread =>
          split at h
          · cases h
          · next hfirst =>
              cases h
              obtain ⟨a, ha⟩ := replayLines_numbered hread
                ⟨0, .nil, fun hne => absurd rfl hne⟩
              have hb : Numbered b st.log := by
                cases hlog : st.log with
                | nil => exact .nil
                | cons e log =>
                    rw [hlog] at ha hfirst
                    have h1 := ha.head
                    have h2 := misplaced_eq_none.mp hfirst e rfl
                    rwa [show b = a by omega]
              refine ⟨hb, ?_⟩
              have hraise := replayLines_raise hbc hread
              have hdrop := hb.drop (c - b)
              rw [Nat.add_sub_cancel' hbc] at hdrop
              rw [List.filter_nil] at hraise
              simp only [hraise, hb.filter_eq_drop, hdrop.misplaced]

end RustKV
