import RustKV.Transport.Http

/-!
# Where a response ends does not depend on how it arrives

`request_response` reads in pieces that the network cuts as it likes: the
blank line after the head may lie across two of them, and the first bytes of
the body come with the last bytes of the head. The reader is right for every
cut because it looks at nothing but the buffer: with `buf` read so far and
`segs` still to come, `buf ++ flat segs` is the response all along, and the
blank line is found at the same place in any buffer that reaches beyond it.

The other direction needs no assumption on the stream at all: a connection
that is reported reusable has been read up to the end of the declared body.
-/

namespace RustKV.Http

open Rust Prog Socket

variable {buf more head body : List UInt8} {i j k : Nat}

/-- No blank line ends before the end of `head` and the one behind it. -/
def Terminated (head : List UInt8) : Prop :=
  ∀ i < head.length, ¬ crlfCrlf <+: (head ++ crlfCrlf).drop i

instance (head : List UInt8) : Decidable (Terminated head) :=
  inferInstanceAs (Decidable (∀ i < head.length, _))

/-! ## The end of the head -/

theorem findHeaderEnd_eq_some_iff : findHeaderEnd buf = some i ↔
    crlfCrlf <+: buf.drop i ∧ ∀ j < i, ¬ crlfCrlf <+: buf.drop j := by
  induction buf generalizing i with
  | nil => simp [findHeaderEnd, crlfCrlf]
  | cons b rest ih =>
      rw [findHeaderEnd]
      split
      · next h =>
          have h := List.isPrefixOf_iff_prefix.mp h
          constructor
          · intro hi
            cases hi
            exact ⟨h, fun j hj => absurd hj (Nat.not_lt_zero j)⟩
          · rintro ⟨-, hmin⟩
            cases i with
            | zero => rfl
            | succ i => exact absurd h (hmin 0 (Nat.succ_pos i))
      · next h =>
          have h : ¬ crlfCrlf <+: b :: rest :=
            fun hp => h (List.isPrefixOf_iff_prefix.mpr hp)
          cases i with
          | zero => simpa using fun hp => h hp
          | succ i =>
              have hmap : (findHeaderEnd rest).map (· + 1) = some (i + 1) ↔
                  findHeaderEnd rest = some i := by simp
              rw [hmap, ih]
              refine and_congr_right fun _ => ⟨fun hmin j hj => ?_,
                fun hmin j hj => hmin (j + 1) (by omega)⟩
              cases j with
              | zero => exact h
              | succ j => exact hmin j (by omega)

/-- Whether the blank line is at `j` can be seen in any buffer that reaches
that far. -/
theorem crlfCrlf_drop_append (more : List UInt8)
    (hj : j + 4 ≤ buf.length) :
    crlfCrlf <+: (buf ++ more).drop j ↔ crlfCrlf <+: buf.drop j := by
  rw [List.drop_append_of_le_length (by omega)]
  constructor
  · intro h
    refine List.prefix_of_prefix_length_le h (List.prefix_append _ _) ?_
    rw [List.length_drop]
    show 4 ≤ _
    omega
  · exact fun h => h.trans (List.prefix_append _ _)

theorem le_length_of_findHeaderEnd (h : findHeaderEnd buf = some i) :
    i + 4 ≤ buf.length := by
  have := (findHeaderEnd_eq_some_iff.mp h).1.length_le
  rw [List.length_drop] at this
  have : crlfCrlf.length = 4 := rfl
  omega

theorem findHeaderEnd_append (more : List UInt8)
    (hi : i + 4 ≤ buf.length) :
    findHeaderEnd (buf ++ more) = some i ↔ findHeaderEnd buf = some i := by
  rw [findHeaderEnd_eq_some_iff, findHeaderEnd_eq_some_iff,
    crlfCrlf_drop_append more hi]
  refine and_congr_right fun _ => forall₂_congr fun j hj => ?_
  rw [crlfCrlf_drop_append more (by omega)]

theorem Terminated.findHeaderEnd (h : Terminated head)
    (body : List UInt8) :
    findHeaderEnd (head ++ crlfCrlf ++ body) = some head.length := by
  have hlen : head.length + 4 ≤ (head ++ crlfCrlf).length := by
    rw [List.length_append]
    exact le_rfl
  rw [findHeaderEnd_append body hlen, findHeaderEnd_eq_some_iff,
    List.drop_left]
  exact ⟨List.prefix_rfl, h⟩

theorem split_of_findHeaderEnd (h : findHeaderEnd buf = some i) :
    Terminated (buf.take i) ∧
      buf = buf.take i ++ crlfCrlf ++ buf.drop (i + 4) := by
  obtain ⟨⟨rest, hrest⟩, hmin⟩ := findHeaderEnd_eq_some_iff.mp h
  have hle := le_length_of_findHeaderEnd h
  have hdrop : buf.drop (i + 4) = rest := by
    rw [← List.drop_drop, ← hrest]
    rfl
  have hsplit : buf = buf.take i ++ crlfCrlf ++ buf.drop (i + 4) := by
    rw [hdrop, List.append_assoc, hrest, List.take_append_drop]
  refine ⟨?_, hsplit⟩
  intro j hj
  have hlen : (buf.take i).length = i := by
    rw [List.length_take]
    omega
  rw [← crlfCrlf_drop_append (buf.drop (i + 4)), ← hsplit]
  · exact hmin j (by omega)
  · rw [List.length_append, hlen]
    have : crlfCrlf.length = 4 := rfl
    omega

/-! ## Reading the head -/

variable {s : Socket IoError} {segs later : List Segment}
  {whole : List UInt8}

/-- With the whole response on its way, the head is read, and what was read
and what is still to come make up the response. -/
theorem readHead_delivers (s : Socket IoError) (later : List Segment)
    (hfind : findHeaderEnd whole = some k)
    (hk : k + 4 ≤ maxResponseHead) (hw : buf ++ flat segs = whole) :
    ∃ buf' segs', readHead buf { s with incoming := segs ++ later } =
        .ok ((buf', k), { s with incoming := segs' ++ later }) ∧
      buf' ++ flat segs' = whole ∧ k + 4 ≤ buf'.length := by
  induction hn : (flat segs).length using Nat.strongRecOn
    generalizing buf segs with
  | _ n ih =>
      subst hn
      rw [readHead]
      by_cases hle : k + 4 ≤ buf.length
      · rw [← hw, findHeaderEnd_append _ hle] at hfind
        rw [hfind]
        exact ⟨buf, segs, rfl, hw, hle⟩
      · -- not there yet: nothing can be found, and more is to come
        have hnone : findHeaderEnd buf = none := by
          by_contra hsome
          obtain ⟨j, hj⟩ := Option.ne_none_iff_exists'.mp hsome
          have hjle := le_length_of_findHeaderEnd hj
          have hj' := (findHeaderEnd_append (flat segs) hjle).mpr hj
          rw [hw, hfind] at hj'
          cases hj'
          exact hle hjle
        have hne : segs ≠ [] := by
          rintro rfl
          have := le_length_of_findHeaderEnd hfind
          rw [← hw, List.length_append] at this
          exact hle this
        obtain ⟨chunk, s₁, heq, segs', rfl, hchunk, -, hsplit⟩ :=
          wp_iff.mp (read_delivers s later (n := 4096) (by decide) hne)
        have hpos := List.length_pos_iff.mpr hchunk
        have hsmall : ¬ buf.length > maxResponseHead := by omega
        rw [hnone]
        simp only [dif_neg hsmall]
        rw [bind_of_ok heq, dif_neg hchunk]
        refine ih (flat segs').length ?_ ?_ rfl
        · rw [← hsplit, List.length_append]
          omega
        · rw [List.append_assoc, hsplit, hw]

theorem readHead_spec : wlp (readHead buf) (fun r s' =>
    r.1 ++ s'.unread = buf ++ s.unread ∧ findHeaderEnd r.1 = some r.2) s := by
  induction hn : maxResponseHead + 1 - buf.length using Nat.strongRecOn
    generalizing buf s with
  | _ n ih =>
      subst hn
      rw [readHead]
      split
      · next k hk => exact wlp_pure.mpr ⟨rfl, hk⟩
      · next hnone =>
          split
          · exact wlp_throw.mpr trivial
          · next hbuf =>
              rw [wlp_bind]
              refine wlp_mono read_spec ?_
              rintro chunk s₁ ⟨hsplit, -⟩
              split
              · exact wlp_throw.mpr trivial
              · next hchunk =>
                  have hpos := List.length_pos_iff.mpr hchunk
                  refine wlp_mono (ih _ ?_ rfl) ?_
                  · rw [List.length_append]
                    omega
                  · rintro r s₂ ⟨hr, hfind⟩
                    rw [hr, List.append_assoc, hsplit]
                    exact ⟨rfl, hfind⟩

/-! ## The whole exchange -/

theorem readResponse_delivers {keepAlive : Bool}
    (hhead : parseResponseHead head = .ok ⟨some body.length, keepAlive⟩)
    (ht : Terminated head) (hlen : head.length + 4 ≤ maxResponseHead)
    (hsegs : flat segs = head ++ crlfCrlf ++ body) :
    readResponse { s with incoming := segs ++ later } =
      .ok ((body, keepAlive), { s with incoming := later }) := by
  have hfind := ht.findHeaderEnd body
  obtain ⟨buf, segs', hread, hbuf, hle⟩ := readHead_delivers s later hfind
    hlen (show [] ++ flat segs = _ from hsegs)
  rw [← hbuf, findHeaderEnd_append _ hle] at hfind
  -- the buffer is the head, the blank line and the front of the body
  obtain ⟨-, hsplit⟩ := split_of_findHeaderEnd hfind
  rw [hsplit, List.append_assoc] at hbuf
  obtain ⟨hfront, hbody⟩ := List.append_inj hbuf (by
    rw [List.length_append, List.length_append, List.length_take]
    omega)
  have hhd : buf.take head.length = head := List.append_cancel_right hfront
  have hblen : (buf.drop (head.length + 4)).length + (flat segs').length =
      body.length := by
    rw [← hbody, List.length_append]
  have hparse : expect (parseResponseHead (buf.take head.length)) id
      { s with incoming := segs' ++ later } =
        .ok (⟨some body.length, keepAlive⟩,
          { s with incoming := segs' ++ later }) := by
    rw [hhd, hhead]
    rfl
  rw [readResponse, bind_of_ok hread]
  simp only []
  rw [bind_of_ok hparse]
  simp only []
  split
  · next hlt =>
      rw [bind_of_ok (readExact_delivers (by omega)), hbody]
      rfl
  · next hge =>
      -- everything is in the buffer already
      have hnil : flat segs' = [] := List.length_eq_zero_iff.mp (by omega)
      have hexact : (buf.drop (head.length + 4)).length = body.length := by
        omega
      rw [hnil, List.append_nil] at hbody
      rw [flat_eq_nil hnil, hbody, List.take_length, decide_eq_true rfl,
        Bool.and_true]
      rfl

/-- Wherever the reading ends with a connection that may be used again, it
has consumed a head and the body this head declares. -/
theorem readResponse_spec : wlp readResponse (fun r s' => r.2 = true →
    ∃ head, Terminated head ∧
      parseResponseHead head = .ok ⟨some r.1.length, true⟩ ∧
      s.unread = head ++ crlfCrlf ++ r.1 ++ s'.unread) s := by
  rw [readResponse, wlp_bind]
  refine wlp_mono readHead_spec ?_
  rintro ⟨buf, k⟩ s₁ ⟨hbuf, hfind⟩
  obtain ⟨ht, hsplit⟩ := split_of_findHeaderEnd hfind
  -- with the rest of the body read up to `s₂`
  have hdone : ∀ {h : ResponseHead} {rest : List UInt8}
      {s₂ : Socket IoError}, rest ++ s₂.unread = s₁.unread →
      parseResponseHead (buf.take k) = .ok h → h.keepAlive = true →
      h.contentLength = some (buf.drop (k + 4) ++ rest).length →
      ∃ head, Terminated head ∧ parseResponseHead head =
          .ok ⟨some (buf.drop (k + 4) ++ rest).length, true⟩ ∧
        s.unread = head ++ crlfCrlf ++ (buf.drop (k + 4) ++ rest) ++
          s₂.unread := by
    intro h rest s₂ hrest hparse hkeep hlen
    refine ⟨buf.take k, ht, ?_, ?_⟩
    · rw [hparse, ← hkeep, ← hlen]
    · rw [← List.append_assoc, ← hsplit, List.append_assoc, hrest]
      exact hbuf.symm
  simp only [wlp_bind, wlp_expect]
  intro h hparse
  split
  · next n hn =>
      split
      · next hlt =>
          rw [wlp_bind]
          refine wlp_mono readExact_spec ?_
          rintro rest s₂ ⟨hrest, hlen⟩
          rw [wlp_pure]
          intro hkeep
          refine hdone hrest hparse hkeep ?_
          rw [hn, List.length_append, hlen, Nat.add_sub_cancel' hlt.le]
      · next hge =>
          rw [wlp_pure]
          intro hreuse
          obtain ⟨hkeep, hexact⟩ := Bool.and_eq_true_iff.mp hreuse
          have hexact := of_decide_eq_true hexact
          have := hdone (List.nil_append s₁.unread) hparse hkeep (by
            rw [hn, List.append_nil, hexact])
          rw [← hexact, List.take_length]
          rwa [List.append_nil] at this
  · next hn =>
      rw [wlp_bind]
      intro rest s₂ _
      exact wlp_pure.mpr fun hfalse => by cases hfalse

def request (addr path : String) (body : List UInt8) : List UInt8 :=
  Wire.bytes (requestHead addr path body.length) ++ body

theorem requestResponse_eq {addr path : String} {req : List UInt8}
    (hs : s.refuses = none) : requestResponse addr path req s =
      readResponse { s with sent := s.sent ++ request addr path req } := by
  simp only [requestResponse, bind, StateT.bind, Except.bind, writeAll, hs,
    request, List.append_assoc]

/-- Framing does not depend on packet boundaries. However a response with a
head that is accepted and declares its length is cut into segments, and
whatever comes after it, exactly its body is returned, with the head's word on
the connection, and nothing of it is left. And whatever arrives, a connection
reported reusable has been read up to the end of the declared body. -/
theorem response_framing (addr path : String) (req : List UInt8) :
    (∀ (s : Socket IoError) (segs later : List Segment)
      (head body : List UInt8) (keepAlive : Bool),
      s.refuses = none → s.incoming = segs ++ later →
      parseResponseHead head = .ok ⟨some body.length, keepAlive⟩ →
      Terminated head → (head ++ crlfCrlf).length ≤ maxResponseHead →
      flat segs = head ++ crlfCrlf ++ body →
      requestResponse addr path req s = .ok ((body, keepAlive), { s with
        incoming := later
        sent := s.sent ++ request addr path req })) ∧
    ∀ (s s' : Socket IoError) (raw : List UInt8),
      requestResponse addr path req s = .ok ((raw, true), s') →
      ∃ head, Terminated head ∧
        parseResponseHead head = .ok ⟨some raw.length, true⟩ ∧
        s.unread = head ++ crlfCrlf ++ raw ++ s'.unread := by
  constructor
  · rintro s segs later head body keepAlive hs hin hhead ht hlen hsegs
    rw [List.length_append] at hlen
    rw [requestResponse_eq hs, hin]
    exact readResponse_delivers
      (s := { s with sent := s.sent ++ request addr path req })
      hhead ht hlen hsegs
  · intro s s' raw h
    cases hs : s.refuses with
    | none =>
        rw [requestResponse_eq hs] at h
        exact readResponse_spec _ _ h rfl
    | some e =>
        rw [requestResponse] at h
        simp only [bind, StateT.bind, writeAll, hs, Except.bind] at h
        cases h

/-- The blank line and the body, each in two pieces. -/
def splitReply : List Segment :=
  [⟨Wire.bytes "HTTP/1.1 200 OK\r\ncontent-length: 4\r", by decide⟩,
    ⟨Wire.bytes "\n\r\n[1", by decide⟩, ⟨Wire.bytes "7]", by decide⟩]

theorem response_framing_split :
    requestResponse "10.0.0.2:7000" "/raft" [] ⟨splitReply, .closed, [],
      none⟩ = .ok ((Wire.bytes "[17]", true),
        ⟨[], .closed, request "10.0.0.2:7000" "/raft" [], none⟩) :=
  (response_framing _ _ _).1 ⟨splitReply, .closed, [], none⟩ splitReply []
    (Wire.bytes "HTTP/1.1 200 OK\r\ncontent-length: 4")
    (Wire.bytes "[17]") true rfl rfl (by decide +kernel) (by decide +kernel)
    (by decide +kernel) (by decide +kernel)

end RustKV.Http
