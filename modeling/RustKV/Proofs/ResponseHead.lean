import RustKV.Transport.Http

/-!
# What a response head says, and what is read off it

A head is a status line and header fields, one a line: a name, a colon, and a
value with any number of blanks around it. `parse_response_head` takes the
Content-Length from the lines, but looks for `transfer-encoding: chunked` and
`connection: close` as texts, anywhere in the head. Each decision is right
exactly for the heads in which the text is found just when the field is there
(`ReadsAs`). Nothing guarantees that: a field without the space after the
colon is missed, and a text inside an unrelated value counts.
-/

namespace RustKV.Http

open Rust

variable {head head' line : List Char} {raw raw' : List UInt8}
  {name value : String}

/-! ## Header fields -/

def isOws (c : Char) : Bool := c = ' ' ∨ c = '\t'

def trimOws (s : List Char) : List Char :=
  (s.dropWhile isOws).rdropWhile isOws

/-- The lines after the status line, in lower case: neither names nor the
values at issue depend on it. -/
def headerLines (head : List Char) : List (List Char) :=
  (Str.lines (Str.toAsciiLowercase head)).drop 1

def field? (line : List Char) : Option (List Char × List Char) :=
  if ':' ∈ line then
    some (line.takeWhile (· ≠ ':'),
      trimOws (line.dropWhile (· ≠ ':')).tail)
  else none

/-- Some header field has this name and this value. -/
def HasField (head : List Char) (name value : String) : Prop :=
  ∃ line ∈ headerLines head, field? line = some (name.toList, value.toList)

instance (head : List Char) (name value : String) :
    Decidable (HasField head name value) :=
  inferInstanceAs (Decidable (∃ line ∈ headerLines head, _))

/-- A field with one space after the colon. -/
def spelling (name value : String) : List Char :=
  (name ++ ": " ++ value).toList

/-- The text is in some line of the head just when the field is there. -/
def ReadsAs (head : List Char) (name value : String) : Prop :=
  (∃ line ∈ Str.lines (Str.toAsciiLowercase head),
    spelling name value <:+: line) ↔ HasField head name value

instance (head : List Char) (name value : String) :
    Decidable (ReadsAs head name value) :=
  inferInstanceAs (Decidable (_ ↔ _))

theorem contains_iff_line (hn : '\n' ∉ spelling name value)
    (hr : '\r' ∉ spelling name value) (hne : spelling name value ≠ []) :
    Str.contains (Str.toAsciiLowercase head) (spelling name value) = true ↔
      ∃ line ∈ Str.lines (Str.toAsciiLowercase head),
        spelling name value <:+: line := by
  rw [Str.contains_iff]
  constructor
  · exact fun hin => Str.exists_line hn hr hne hin
  · rintro ⟨line, hline, hin⟩
    exact hin.trans (Str.isInfix_of_mem_lines hline)

/-! ## The decisions -/

def statusOf (head : List Char) : Option Nat :=
  (Str.splitWhitespace head)[1]?.bind (Str.parseUnsigned (2 ^ 16 - 1))

def chunkedError : IoError := invalidData "chunked responses are not supported"

theorem scanLength_ne_chunked (found : Option Nat)
    (lines : List (List Char)) :
    scanLength found lines ≠ .error chunkedError := by
  induction lines generalizing found with
  | nil => exact fun h => by cases h
  | cons line rest ih =>
      rw [scanLength]
      split
      · exact ih found
      · split
        · intro h
          have hmsg := congrArg IoError.message (Except.error.inj h)
          have hlist := congrArg String.toList hmsg
          simp [chunkedError, invalidData] at hlist
        · next length _ => exact ih (some length)

theorem parseHead_of_ok (hs : statusOf head = some 200) :
    parseHead head =
      if Str.contains (Str.toAsciiLowercase head)
        (spelling "transfer-encoding" "chunked") then .error chunkedError
      else (scanLength none (headerLines head)).map fun contentLength =>
        ⟨contentLength, !Str.contains (Str.toAsciiLowercase head)
          (spelling "connection" "close")⟩ := by
  rw [statusOf] at hs
  rw [parseHead, hs]
  rfl

theorem parseHead_eq_chunked_iff (hs : statusOf head = some 200) :
    parseHead head = .error chunkedError ↔
      ∃ line ∈ Str.lines (Str.toAsciiLowercase head),
        spelling "transfer-encoding" "chunked" <:+: line := by
  rw [← contains_iff_line (by decide) (by decide) (by decide),
    parseHead_of_ok hs]
  split
  · next hin => exact iff_of_true rfl hin
  · next hout =>
      refine iff_of_false ?_ hout
      cases hscan : scanLength none (headerLines head) with
      | ok length => exact fun heq => by cases heq
      | error e =>
          intro heq
          cases Except.error.inj heq
          exact scanLength_ne_chunked none _ hscan

theorem keepAlive_of_parseHead (hs : statusOf head = some 200)
    {r : ResponseHead} (hr : parseHead head = .ok r) :
    r.keepAlive = false ↔
      ∃ line ∈ Str.lines (Str.toAsciiLowercase head),
        spelling "connection" "close" <:+: line := by
  rw [← contains_iff_line (by decide) (by decide) (by decide)]
  rw [parseHead_of_ok hs] at hr
  split at hr
  · cases hr
  · cases hscan : scanLength none (headerLines head) with
    | ok length =>
        rw [hscan] at hr
        cases Except.ok.inj hr
        simp
    | error e =>
        rw [hscan] at hr
        cases hr

/-- When the decisions are those of the header fields. A head with status 200
is rejected as chunked just when it has the field Transfer-Encoding with the
value chunked, exactly if the text and the field go together in it; an
accepted one has the connection closed just when it has the field Connection
with the value close, exactly if the same holds of these. Heads in which they
do, and which have the same fields, are treated alike. -/
theorem head_decisions (hutf : Str.fromUtf8 raw = some head)
    (hs : statusOf head = some 200) :
    ((parseResponseHead raw = .error chunkedError ↔
        HasField head "transfer-encoding" "chunked") ↔
      ReadsAs head "transfer-encoding" "chunked") ∧
    (∀ r, parseResponseHead raw = .ok r →
      ((r.keepAlive = false ↔ HasField head "connection" "close") ↔
        ReadsAs head "connection" "close")) ∧
    ∀ raw' head', Str.fromUtf8 raw' = some head' →
      statusOf head' = some 200 →
      (∀ name value, HasField head name value ↔
        HasField head' name value) →
      (ReadsAs head "transfer-encoding" "chunked" →
        ReadsAs head' "transfer-encoding" "chunked" →
        (parseResponseHead raw = .error chunkedError ↔
          parseResponseHead raw' = .error chunkedError)) ∧
      (ReadsAs head "connection" "close" →
        ReadsAs head' "connection" "close" →
        ∀ r r', parseResponseHead raw = .ok r →
          parseResponseHead raw' = .ok r' → r.keepAlive = r'.keepAlive) := by
  rw [parseResponseHead, hutf]
  refine ⟨?_, fun r hr => ?_, ?_⟩
  · rw [parseHead_eq_chunked_iff hs, ReadsAs]
  · rw [keepAlive_of_parseHead hs hr, ReadsAs]
  intro raw' head' hutf' hs' hsame
  rw [parseResponseHead, hutf']
  constructor
  · intro h h'
    rw [parseHead_eq_chunked_iff hs, parseHead_eq_chunked_iff hs']
    exact h.trans ((hsame _ _).trans h'.symm)
  · intro h h' r r' hr hr'
    have hiff := (keepAlive_of_parseHead hs hr).trans (h.trans
      ((hsame _ _).trans (h'.symm.trans (keepAlive_of_parseHead hs' hr').symm)))
    rwa [← Bool.not_eq_true, ← Bool.not_eq_true, not_iff_not,
      ← Bool.eq_iff_iff] at hiff

def closingHead : String :=
  "HTTP/1.1 200 OK\r\nConnection: close\r\nContent-Length: 2"

theorem head_decisions_closing :
    parseResponseHead (Wire.bytes closingHead) = .ok ⟨some 2, false⟩ ∧
      HasField closingHead.toList "connection" "close" := by
  have hparse : parseResponseHead (Wire.bytes closingHead) =
      .ok ⟨some 2, false⟩ := by decide +kernel
  have hutf : Str.fromUtf8 (Wire.bytes closingHead) =
      some closingHead.toList := by decide +kernel
  refine ⟨hparse, ?_⟩
  exact (((head_decisions hutf (by decide +kernel)).2.1 _ hparse).mpr
    (by decide +kernel)).mp rfl

/-- A field without the space. -/
def tightHead : String :=
  "HTTP/1.1 200 OK\r\nTransfer-Encoding:chunked\r\nContent-Length: 2"

/-- An unrelated field whose value has the text in it. -/
def quotingHead : String :=
  "HTTP/1.1 200 OK\r\nX-Note: connection: close\r\nContent-Length: 2"

theorem head_decisions_substring :
    (parseResponseHead (Wire.bytes tightHead) = .ok ⟨some 2, true⟩ ∧
      HasField tightHead.toList "transfer-encoding" "chunked") ∧
    (parseResponseHead (Wire.bytes quotingHead) = .ok ⟨some 2, false⟩ ∧
      ¬ HasField quotingHead.toList "connection" "close") := by
  decide +kernel

end RustKV.Http
