import RustKV.Rust.Prog

/-!
# One end of a TCP connection

What the peer sends arrives in segments, cut anywhere; a read returns at most
one of them, and no more than it has room for. Reading is `read`,
`read_exact` and `read_to_end` of tokio's `AsyncReadExt`, each a program on
the connection that may fail. After the segments comes the end: the peer
closed the connection, or it broke.
-/

namespace Rust

open Prog

variable {ε α : Type}

/-- Bytes that arrive together. -/
structure Segment where
  bytes : List UInt8
  ne_nil : bytes ≠ []

inductive Ending (ε : Type) where
  | closed
  | failed (e : ε)

structure Socket (ε : Type) where
  incoming : List Segment
  ending : Ending ε
  sent : List UInt8
  /-- The error a write runs into, if it does. -/
  refuses : Option ε

namespace Socket

/-- Everything that has not been read yet. -/
def unread (s : Socket ε) : List UInt8 := s.incoming.flatMap Segment.bytes

/-- `read` into a buffer of `n` bytes; nothing at the end of the stream. -/
def read (n : Nat) : Prog ε (Socket ε) (List UInt8) := fun s =>
  match s.incoming with
  | [] =>
      match s.ending with
      | .closed => .ok ([], s)
      | .failed e => .error e
  | seg :: rest =>
      if h : n < seg.bytes.length then
        .ok (seg.bytes.take n, { s with
          incoming := ⟨seg.bytes.drop n, by simpa using h⟩ :: rest })
      else .ok (seg.bytes, { s with incoming := rest })

/-- `read_exact`: `n` bytes, or the error `early` if the stream ends before. -/
def readExact (early : ε) (n : Nat) : Prog ε (Socket ε) (List UInt8) :=
  if n = 0 then pure []
  else do
    let chunk ← read n
    if _h : chunk = [] then throw early
    else do
      let rest ← readExact early (n - chunk.length)
      pure (chunk ++ rest)
termination_by n
decreasing_by
  have := List.length_pos_iff.mpr ‹¬ chunk = []›
  omega

def readToEnd : Prog ε (Socket ε) (List UInt8) := fun s =>
  match s.ending with
  | .closed => .ok (s.unread, { s with incoming := [] })
  | .failed e => .error e

def writeAll (bytes : List UInt8) : Prog ε (Socket ε) Unit := fun s =>
  match s.refuses with
  | none => .ok ((), { s with sent := s.sent ++ bytes })
  | some e => .error e

/-! ## What is read was there

Whatever a program reads is taken from the front of what was unread. -/

variable {s : Socket ε} {n : Nat}

theorem read_spec : wlp (read n) (fun chunk s' =>
    chunk ++ s'.unread = s.unread ∧ chunk.length ≤ n) s := by
  intro chunk s' h
  rw [read] at h
  split at h
  · next hin =>
      split at h
      · cases h
        exact ⟨rfl, Nat.zero_le n⟩
      · cases h
  · next seg rest hin =>
      split at h
      · next hlt =>
          cases h
          refine ⟨?_, by rw [List.length_take]; omega⟩
          simp only [unread, hin, List.flatMap_cons]
          rw [← List.append_assoc, List.take_append_drop]
      · next hge =>
          cases h
          refine ⟨?_, by omega⟩
          simp only [unread, hin, List.flatMap_cons]

theorem readExact_spec {early : ε} : wlp (readExact early n)
    (fun bytes s' => bytes ++ s'.unread = s.unread ∧ bytes.length = n) s := by
  induction n using Nat.strongRecOn generalizing s with
  | _ n ih =>
      rw [readExact]
      split
      · next h0 => simpa using h0.symm
      · next h0 =>
          rw [wlp_bind]
          refine wlp_mono read_spec ?_
          intro chunk s₁ ⟨hsplit, hle⟩
          split
          · exact wlp_throw.mpr trivial
          · next hne =>
              have hpos := List.length_pos_iff.mpr hne
              rw [wlp_bind]
              refine wlp_mono (ih (n - chunk.length) (by omega)) ?_
              intro rest s₂ ⟨hrest, hlen⟩
              rw [wlp_pure, List.append_assoc, hrest, List.length_append]
              exact ⟨hsplit, by omega⟩

/-! ## Reading goes through

As long as bytes are on their way a read succeeds, and leaves what comes after
them alone. -/

def flat (segs : List Segment) : List UInt8 := segs.flatMap Segment.bytes

theorem flat_eq_nil {segs : List Segment} (h : flat segs = []) :
    segs = [] := by
  cases segs with
  | nil => rfl
  | cons seg rest =>
      rw [flat, List.flatMap_cons, List.append_eq_nil_iff] at h
      exact absurd h.1 seg.ne_nil

variable {segs later : List Segment}

theorem read_delivers (s : Socket ε) (later : List Segment) (hn : 0 < n)
    (hne : segs ≠ []) :
    wp (read n) (fun chunk s' => ∃ segs', s' =
        { s with incoming := segs' ++ later } ∧ chunk ≠ [] ∧
      chunk.length ≤ n ∧ chunk ++ flat segs' = flat segs)
      { s with incoming := segs ++ later } := by
  cases segs with
  | nil => exact absurd rfl hne
  | cons seg rest =>
      rw [wp_iff]
      by_cases hlt : n < seg.bytes.length
      · refine ⟨_, _, dif_pos hlt, ⟨seg.bytes.drop n, by simpa using hlt⟩ ::
          rest, rfl, ?_, by rw [List.length_take]; omega, ?_⟩
        · rw [← List.length_pos_iff, List.length_take]
          omega
        · simp only [flat, List.flatMap_cons]
          rw [← List.append_assoc, List.take_append_drop]
      · refine ⟨_, _, dif_neg hlt, rest, rfl, seg.ne_nil, by omega, ?_⟩
        simp only [flat, List.flatMap_cons]

theorem readExact_delivers {early : ε} (hn : (flat segs).length = n) :
    readExact early n { s with incoming := segs ++ later } =
      .ok (flat segs, { s with incoming := later }) := by
  induction n using Nat.strongRecOn generalizing segs with
  | _ n ih =>
      rw [readExact]
      split
      · next h0 =>
          have hnil : flat segs = [] := List.length_eq_zero_iff.mp (by omega)
          rw [hnil, flat_eq_nil hnil]
          rfl
      · next h0 =>
          have hne : segs ≠ [] := by
            rintro rfl
            exact h0 hn.symm
          obtain ⟨chunk, s₁, heq, segs', rfl, hchunk, hle, hsplit⟩ :=
            wp_iff.mp (read_delivers s later (Nat.pos_of_ne_zero h0) hne)
          have hpos := List.length_pos_iff.mpr hchunk
          have hlen : (flat segs').length = n - chunk.length := by
            rw [← hn, ← hsplit, List.length_append]
            omega
          rw [bind_of_ok heq, dif_neg hchunk,
            bind_of_ok (ih (n - chunk.length) (by omega) hlen), ← hsplit]
          rfl

end Socket

end Rust
