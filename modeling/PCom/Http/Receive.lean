import PCom.Foundations.Decimal
import PCom.Foundations.Search

/-! # Receiving an HTTP response

The growing buffer with its two searches, and `receive_from_server` over it. The socket is the list
of what the calls of `read` return. A result of `none` stands for a run that waits for bytes that
do not come, or that reads outside the buffer.
-/

namespace PCom.Http
open Foundations

def bufLen : ℕ := 4096

/-- `HEADER_TERMINATOR`, a carriage return and a line feed twice. -/
def headerTerminator : Bytes := [13, 10, 13, 10]

def contentLength : Bytes := ascii "Content-Length: "

/-- What an `int` holds after an assignment from a wider type. -/
def cInt (n : ℤ) : ℤ := Int.bmod n (2 ^ 32)

def toLower (c : UInt8) : UInt8 := if 65 ≤ c.toNat ∧ c.toNat ≤ 90 then c + 32 else c

/-- The test of `buffer_find_insensitive`. -/
def sameLetter (a b : UInt8) : Bool := toLower a == toLower b

/-- `buffer_add`; the buffer's `size` is the number of its bytes. -/
def bufferAdd (buffer data : Bytes) : Bytes := buffer ++ data

def found : Option ℕ → ℤ
  | none => -1
  | some i => cInt i

def bufferFind (buffer data : Bytes) : Option ℤ := (search (· == ·) data buffer).map found

def bufferFindInsensitive (buffer data : Bytes) : Option ℤ := (search sameLetter data buffer).map found

/-- `strtol` in base 10; `none` where it reads past the memory. -/
def strtol (mem : Bytes) : Option ℤ :=
  let text := mem.dropWhile isSpace
  let digits := if text.head? = some 45 ∨ text.head? = some 43 then text.tail else text
  if ∃ c ∈ digits, isDigit c = false then some (max (-2 ^ 63) (min (2 ^ 63 - 1) (atoi mem))) else none

structure Locals where
  buffer : Bytes
  headerEnd : ℤ
  contentLength : ℤ

/-- The first loop's body after a `read` that returned bytes, and whether the loop is left. -/
def Locals.scan (s : Locals) (response : Bytes) : Option (Locals × Bool) :=
  let buffer := bufferAdd s.buffer response
  (bufferFind buffer headerTerminator).bind fun headerEnd =>
    if headerEnd < 0 then some (⟨buffer, headerEnd, s.contentLength⟩, false)
    else
      let headerEnd := cInt (headerEnd + headerTerminator.length)
      (bufferFindInsensitive buffer Http.contentLength).bind fun contentLengthStart =>
        if contentLengthStart < 0 then some (⟨buffer, headerEnd, s.contentLength⟩, false)
        else
          let contentLengthStart := cInt (contentLengthStart + Http.contentLength.length)
          if contentLengthStart < 0 then none
          else (strtol (buffer.drop contentLengthStart.toNat)).map fun n => (⟨buffer, headerEnd, cInt n⟩, true)

/-- The first loop. At the end of the reads a closed connection gives 0 bytes, an open one nothing. -/
def readHeader (closed : Bool) (s : Locals) : List Bytes → Option (Locals × List Bytes)
  | [] => if closed then some (s, []) else none
  | response :: reads =>
    (s.scan response).bind fun r => if r.2 then some (r.1, reads) else readHeader closed r.1 reads

def readBody (closed : Bool) (total : ℕ) (buffer : Bytes) : List Bytes → Option (Bytes × List Bytes)
  | [] => if buffer.length < total ∧ closed = false then none else some (buffer, [])
  | response :: reads =>
    if buffer.length < total then readBody closed total (bufferAdd buffer response) reads
    else some (buffer, response :: reads)

/-- A byte stream as the calls of `read` cut it, and whether the server closes it behind them. -/
structure Stream where
  reads : List Bytes
  read_length : ∀ response ∈ reads, 0 < response.length ∧ response.length ≤ bufLen
  closed : Bool

/-- `receive_from_server`: the memory that it returns, and the reads that it leaves. -/
def receiveFromServer (stream : Stream) : Option (Bytes × List Bytes) :=
  (readHeader stream.closed ⟨[], 0, 0⟩ stream.reads).bind fun r =>
    let total := ((r.1.contentLength + r.1.headerEnd) % 2 ^ 64).toNat
    (readBody stream.closed total r.1.buffer r.2).map fun body => (bufferAdd body.1 [0], body.2)

/-- A header block: what stands in front of the length field, the field's name, blanks, the length,
and what stands behind it. -/
structure HeaderBlock where
  front : Bytes
  name : Bytes
  blanks : Bytes
  value : Bytes
  back : Bytes

def HeaderBlock.bytes (h : HeaderBlock) : Bytes := h.front ++ h.name ++ h.blanks ++ h.value ++ h.back

/-- A response. Its header block ends with the first header terminator and has the name of the
length field, in any letter case, once; the length is the body's. -/
structure Response where
  block : HeaderBlock
  body : Bytes
  name_eq : block.name.map toLower = contentLength.map toLower
  blanks_eq : ∀ c ∈ block.blanks, c = 32 ∨ c = 9
  value_ne : block.value ≠ []
  value_digit : ∀ c ∈ block.value, isDigit c = true
  back_head : ∀ c ∈ block.back.head?, isDigit c = false
  once : ∀ i < block.bytes.length, Occurs sameLetter contentLength block.bytes i → i = block.front.length
  ends : headerTerminator <:+ block.bytes
  first : ∀ i < block.bytes.length, Occurs (· == ·) headerTerminator block.bytes i →
    i + headerTerminator.length = block.bytes.length
  value_eq : digitsVal block.value = body.length
  body_lt : body.length < 2 ^ 31

def Response.bytes (r : Response) : Bytes := r.block.bytes ++ r.body

/-- Where the first reads carry the response, the client returns its bytes and a NUL, and takes no
read behind them. -/
def Reassembles (r : Response) (stream : Stream) : Prop :=
  ∀ first later, stream.reads = first ++ later → first.flatten = r.bytes →
    receiveFromServer stream = some (r.bytes ++ [0], later)

end PCom.Http
