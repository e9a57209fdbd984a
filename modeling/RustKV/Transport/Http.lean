import RustKV.Rust.Socket
import RustKV.Rust.Str

/-!
# One HTTP exchange (`raft/transport/http.rs`)

The client side of `POST /raft`, hand-rolled over a TCP connection: write the
request, read up to the end of the response head, read the body the head
declares. Texts are lists of characters and messages lists of bytes; the
connection is a `Socket`.
-/

namespace RustKV

open Rust Prog

inductive IoErrorKind where
  | invalidData
  | unexpectedEof
  | other
  deriving DecidableEq, Repr

structure IoError where
  kind : IoErrorKind
  message : String
  deriving DecidableEq, Repr

def invalidData (msg : String) : IoError := ⟨.invalidData, msg⟩

/-- The error of tokio's `read_exact` at the end of the stream. -/
def earlyEof : IoError := ⟨.unexpectedEof, "early eof"⟩

namespace Http

/-- `MAX_RESPONSE_HEAD`. -/
def maxResponseHead : Nat := 16 * 1024

def crlfCrlf : List UInt8 := [13, 10, 13, 10]

/-- The first place where the blank line starts that ends a head. -/
def findHeaderEnd : List UInt8 → Option Nat
  | [] => none
  | b :: rest =>
      if crlfCrlf.isPrefixOf (b :: rest) then some 0
      else (findHeaderEnd rest).map (· + 1)

structure ResponseHead where
  contentLength : Option Nat
  /-- False when the server sent `Connection: close`. -/
  keepAlive : Bool
  deriving DecidableEq, Repr

/-- A formatted text cut after 80 characters, as by `{:.80}`. -/
def cut80 (s : List Char) : String := String.ofList (s.take 80)

/-- The loop over the header lines; the last Content-Length counts, and each
must be a number. -/
def scanLength (found : Option Nat) :
    List (List Char) → Except IoError (Option Nat)
  | [] => .ok found
  | line :: rest =>
      match "content-length:".toList.isPrefixOf? line with
      | none => scanLength found rest
      | some value =>
          match Str.parseUnsigned (2 ^ 64 - 1) (Str.trim value) with
          | none => .error (invalidData ("bad content-length: " ++ cut80 line))
          | some length => scanLength (some length) rest

/-- `parse_response_head` from the text on. -/
def parseHead (head : List Char) : Except IoError ResponseHead :=
  match (Str.splitWhitespace head)[1]?.bind
    (Str.parseUnsigned (2 ^ 16 - 1)) with
  | none => .error (invalidData ("malformed status line: " ++ cut80 head))
  | some status =>
      if status ≠ 200 then
        .error (invalidData s!"raft rpc returned status {status}")
      else
        let lower := Str.toAsciiLowercase head
        if Str.contains lower "transfer-encoding: chunked".toList then
          .error (invalidData "chunked responses are not supported")
        else do
          let contentLength ← scanLength none ((Str.lines lower).drop 1)
          .ok ⟨contentLength,
            !Str.contains lower "connection: close".toList⟩

def parseResponseHead (raw : List UInt8) : Except IoError ResponseHead :=
  match Str.fromUtf8 raw with
  | none => .error (invalidData "non-utf8 response head")
  | some head => parseHead head

def requestHead (addr path : String) (length : Nat) : String :=
  s!"POST {path} HTTP/1.1\r\nHost: {addr}\r\n" ++
    s!"Content-Type: application/json\r\nContent-Length: {length}\r\n\r\n"

/-- The first loop of `request_response`: reads until the buffer has the end
of the head in it, and says where. -/
def readHead (buf : List UInt8) :
    Prog IoError (Socket IoError) (List UInt8 × Nat) :=
  match findHeaderEnd buf with
  | some headerEnd => pure (buf, headerEnd)
  | none =>
      if _hbuf : buf.length > maxResponseHead then
        throw (invalidData "response head too large")
      else do
        let chunk ← Socket.read 4096
        if _hchunk : chunk = [] then
          throw ⟨.unexpectedEof, "connection closed before response head"⟩
        else readHead (buf ++ chunk)
termination_by maxResponseHead + 1 - buf.length
decreasing_by
  have := List.length_pos_iff.mpr ‹¬ chunk = []›
  rw [List.length_append]
  omega

/-- `request_response` from the reading on: the body of one response, and
whether the connection may be used again. -/
def readResponse : Prog IoError (Socket IoError) (List UInt8 × Bool) := do
  let (buf, headerEnd) ← readHead []
  let head ← expect (parseResponseHead (buf.take headerEnd)) id
  let responseBody := buf.drop (headerEnd + 4)
  match head.contentLength with
  | some length =>
      let buffered := responseBody.length
      if buffered < length then do
        let rest ← Socket.readExact earlyEof (length - buffered)
        pure (responseBody ++ rest, head.keepAlive)
      else
        -- bytes beyond the declared body: never to be used again
        pure (responseBody.take length,
          head.keepAlive && decide (buffered = length))
  | none => do
      let rest ← Socket.readToEnd
      pure (responseBody ++ rest, false)

def requestResponse (addr path : String) (body : List UInt8) :
    Prog IoError (Socket IoError) (List UInt8 × Bool) := do
  Socket.writeAll (Wire.bytes (requestHead addr path body.length))
  Socket.writeAll body
  readResponse

end Http

end RustKV
