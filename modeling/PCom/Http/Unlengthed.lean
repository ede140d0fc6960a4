import PCom.Http.Find
import PCom.Http.Reassembly

/-! # Responses without a length field

A response whose body ends with the connection is taken whole by the first loop, as long as its search
for the length field finds nothing. It looks in all that has come so far, the body included.
-/

namespace PCom.Http
open Foundations

/-- A response. Its header block ends with the first header terminator, and none of its lines begins
with the name of the length field. -/
structure Unlengthed where
  block : Bytes
  body : Bytes
  ends : headerTerminator <:+ block
  first : ∀ i < block.length, Occurs (· == ·) headerTerminator block i → i + headerTerminator.length = block.length
  no_field : ∀ i < block.length, (i = 0 ∨ [13, 10] <:+ block.take i) →
    ¬ Occurs sameLetter (ascii "Content-Length:") block i

def Unlengthed.bytes (r : Unlengthed) : Bytes := r.block ++ r.body

def ReturnsAll (r : Unlengthed) (stream : Stream) : Prop :=
  (receiveFromServer stream).map Prod.fst = some (r.bytes ++ [0])

def noticed (buffer : Bytes) : Bool :=
  (bufferFind buffer headerTerminator).any (0 ≤ ·) && (bufferFindInsensitive buffer contentLength).any (0 ≤ ·)

/-- The bytes that have come when both searches first find something at the end of a read, and the
reads behind them. -/
def noticedAt (buffer : Bytes) : List Bytes → Option (Bytes × List Bytes)
  | [] => none
  | response :: reads =>
    if noticed (buffer ++ response) then some (buffer ++ response, reads) else noticedAt (buffer ++ response) reads

/-- The number behind the name of the length field is read inside the buffer, and with it the client
waits for the last of the reads. -/
def Covers (buffer : Bytes) (later : List Bytes) : Prop :=
  ∃ headerEnd start n, bufferFind buffer headerTerminator = some headerEnd ∧
    bufferFindInsensitive buffer contentLength = some start ∧ 0 ≤ cInt (start + contentLength.length) ∧
    strtol (buffer.drop (cInt (start + contentLength.length)).toNat) = some n ∧
    (later = [] ∨ (buffer ++ later.dropLast.flatten).length <
      ((cInt n + cInt (headerEnd + headerTerminator.length)) % 2 ^ 64).toNat)

/-- Where the client takes something for the length, it covers the response. -/
def Undisturbed (reads : List Bytes) : Prop := ∀ p, noticedAt [] reads = some p → Covers p.1 p.2

variable {s : Locals} {buffer response : Bytes} {reads later : List Bytes} {total : ℕ}

theorem bufferFind_total (buffer data : Bytes) : ∃ r, bufferFind buffer data = some r := by
  rw [bufferFind]
  rcases search_total (· == ·) data buffer with ⟨hs, -⟩ | ⟨i, hs, -⟩
  · exact ⟨_, by rw [hs]; rfl⟩
  · exact ⟨_, by rw [hs]; rfl⟩

theorem bufferFindInsensitive_total (buffer data : Bytes) : ∃ r, bufferFindInsensitive buffer data = some r := by
  rw [bufferFindInsensitive_eq]
  exact bufferFind_total _ _

def leave (buffer : Bytes) (headerEnd start : ℤ) : Option Locals :=
  if cInt (start + contentLength.length) < 0 then none
  else (strtol (buffer.drop (cInt (start + contentLength.length)).toNat)).map fun n =>
    ⟨buffer, cInt (headerEnd + headerTerminator.length), cInt n⟩

theorem scan_of_not_noticed (h : noticed (s.buffer ++ response) = false) :
    ∃ headerEnd, s.scan response = some (⟨s.buffer ++ response, headerEnd, s.contentLength⟩, false) := by
  obtain ⟨headerEnd, hend⟩ := bufferFind_total (s.buffer ++ response) headerTerminator
  obtain ⟨start, hstart⟩ := bufferFindInsensitive_total (s.buffer ++ response) contentLength
  rw [noticed, hend, hstart, Option.any_some, Option.any_some, Bool.and_eq_false_iff, decide_eq_false_iff_not,
    decide_eq_false_iff_not, not_le, not_le] at h
  by_cases hneg : headerEnd < 0
  · exact ⟨headerEnd, scan_of_neg hend hneg⟩
  · refine ⟨cInt (headerEnd + headerTerminator.length), ?_⟩
    rw [Locals.scan, bufferAdd, hend, Option.bind_some, if_neg hneg, hstart, Option.bind_some,
      if_pos (h.resolve_left hneg)]

theorem scan_of_noticed (h : noticed (s.buffer ++ response) = true) :
    ∃ headerEnd start, bufferFind (s.buffer ++ response) headerTerminator = some headerEnd ∧
      bufferFindInsensitive (s.buffer ++ response) contentLength = some start ∧
      s.scan response = (leave (s.buffer ++ response) headerEnd start).map fun s => (s, true) := by
  obtain ⟨headerEnd, hend⟩ := bufferFind_total (s.buffer ++ response) headerTerminator
  obtain ⟨start, hstart⟩ := bufferFindInsensitive_total (s.buffer ++ response) contentLength
  rw [noticed, hend, hstart, Option.any_some, Option.any_some, Bool.and_eq_true, decide_eq_true_eq,
    decide_eq_true_eq] at h
  refine ⟨headerEnd, start, hend, hstart, ?_⟩
  rw [Locals.scan, bufferAdd, hend, Option.bind_some, if_neg (not_lt.mpr h.1), hstart, Option.bind_some,
    if_neg (not_lt.mpr h.2), leave]
  dsimp only
  split
  · rfl
  · rw [Option.map_map]
    rfl

/-- Where nothing is taken for the length, the first loop takes all reads. -/
theorem readHeader_of_none (h : noticedAt s.buffer reads = none) :
    ∃ s', readHeader true s reads = some (s', []) ∧ s'.buffer = s.buffer ++ reads.flatten := by
  induction reads generalizing s with
  | nil => exact ⟨s, rfl, (List.append_nil _).symm⟩
  | cons response reads ih =>
    rw [noticedAt] at h
    split at h
    · cases h
    · next hnot =>
      obtain ⟨headerEnd, hscan⟩ := scan_of_not_noticed (Bool.eq_false_iff.mpr hnot)
      obtain ⟨s', hs', hbuffer⟩ := ih (s := ⟨s.buffer ++ response, headerEnd, s.contentLength⟩) h
      refine ⟨s', ?_, ?_⟩
      · rw [readHeader, hscan, Option.bind_some]
        exact hs'
      · rw [hbuffer, List.flatten_cons, List.append_assoc]

/-- Where something is taken for the length, the first loop ends with that read. -/
theorem readHeader_of_some {p : Bytes × List Bytes} (h : noticedAt s.buffer reads = some p) :
    p.1 ++ p.2.flatten = s.buffer ++ reads.flatten ∧ (∃ taken, reads = taken ++ p.2) ∧
    ∃ headerEnd start, bufferFind p.1 headerTerminator = some headerEnd ∧
      bufferFindInsensitive p.1 contentLength = some start ∧
      readHeader true s reads = (leave p.1 headerEnd start).map fun s => (s, p.2) := by
  induction reads generalizing s with
  | nil => cases h
  | cons response reads ih =>
    rw [noticedAt] at h
    split at h
    · next hnoticed =>
      obtain rfl := Option.some.inj h
      obtain ⟨headerEnd, start, hend, hstart, hscan⟩ := scan_of_noticed hnoticed
      refine ⟨by rw [List.flatten_cons, List.append_assoc], ⟨[response], rfl⟩, headerEnd, start, hend, hstart, ?_⟩
      rw [readHeader, hscan]
      cases leave (s.buffer ++ response) headerEnd start <;> rfl
    · next hnot =>
      obtain ⟨headerEnd, hscan⟩ := scan_of_not_noticed (Bool.eq_false_iff.mpr hnot)
      obtain ⟨hbytes, ⟨taken, htaken⟩, headerEnd', start, hend, hstart, hread⟩ :=
        ih (s := ⟨s.buffer ++ response, headerEnd, s.contentLength⟩) h
      refine ⟨?_, ⟨response :: taken, by rw [htaken]; rfl⟩, headerEnd', start, hend, hstart, ?_⟩
      · rw [hbytes, List.flatten_cons, List.append_assoc]
      · rw [readHeader, hscan, Option.bind_some]
        exact hread

/-- On a connection that is closed the second loop takes some of the reads: all of them just when those
before the last one are not enough. -/
theorem readBody_closed (total : ℕ) (buffer : Bytes) (reads : List Bytes) :
    ∃ taken rest, reads = taken ++ rest ∧ readBody true total buffer reads = some (buffer ++ taken.flatten, rest) ∧
      (rest = [] ↔ reads = [] ∨ (buffer ++ reads.dropLast.flatten).length < total) := by
  induction reads generalizing buffer with
  | nil =>
    refine ⟨[], [], rfl, ?_, by simp⟩
    rw [readBody, if_neg (by simp), List.flatten_nil, List.append_nil]
  | cons response reads ih =>
    by_cases hlt : buffer.length < total
    · obtain ⟨taken, rest, hreads, hbody, hrest⟩ := ih (bufferAdd buffer response)
      refine ⟨response :: taken, rest, by rw [hreads]; rfl, ?_, hrest.trans ?_⟩
      · rw [readBody, if_pos hlt, hbody, bufferAdd, List.flatten_cons, List.append_assoc]
      · cases reads with
        | nil => simp [hlt]
        | cons response' reads =>
          rw [List.dropLast_cons_cons, List.flatten_cons, bufferAdd, List.append_assoc]
          simp
    · refine ⟨[], response :: reads, rfl, ?_, iff_of_false (List.cons_ne_nil _ _) ?_⟩
      · rw [readBody, if_neg hlt, List.flatten_nil, List.append_nil]
      · rintro (h | h)
        · exact List.cons_ne_nil _ _ h
        · rw [List.length_append] at h
          omega

/-- The bytes of all reads are taken just when the last read is. -/
theorem taken_flatten_iff {taken rest : List Bytes} (hreads : reads = taken ++ rest)
    (hlength : ∀ response ∈ reads, 0 < response.length) : taken.flatten = reads.flatten ↔ rest = [] := by
  rw [hreads, List.flatten_append, List.self_eq_append_right]
  constructor
  · intro hnil
    by_contra hne
    obtain ⟨response, rest, rfl⟩ := List.exists_cons_of_ne_nil hne
    have hpos := hlength response (by rw [hreads]; simp)
    have hlen := congrArg List.length hnil
    rw [List.flatten_cons, List.length_append, List.length_nil] at hlen
    omega
  · rintro rfl
    rfl

theorem covers_iff {headerEnd start : ℤ} (hend : bufferFind buffer headerTerminator = some headerEnd)
    (hstart : bufferFindInsensitive buffer contentLength = some start) :
    Covers buffer later ↔ 0 ≤ cInt (start + contentLength.length) ∧
      ∃ n, strtol (buffer.drop (cInt (start + contentLength.length)).toNat) = some n ∧
        (later = [] ∨ (buffer ++ later.dropLast.flatten).length <
          ((cInt n + cInt (headerEnd + headerTerminator.length)) % 2 ^ 64).toNat) := by
  constructor
  · rintro ⟨headerEnd', start', n, hend', hstart', hnonneg, h⟩
    cases hend.symm.trans hend'
    cases hstart.symm.trans hstart'
    exact ⟨hnonneg, n, h⟩
  · rintro ⟨hnonneg, n, h⟩
    exact ⟨headerEnd, start, n, hend, hstart, hnonneg, h⟩

/-- After the first loop has taken something for the length, all is returned just when it covers the
response. -/
theorem receive_of_noticed {stream : Stream} {p : Bytes × List Bytes} (hclosed : stream.closed = true)
    (h : noticedAt [] stream.reads = some p) :
    (receiveFromServer stream).map Prod.fst = some (stream.reads.flatten ++ [0]) ↔ Covers p.1 p.2 := by
  obtain ⟨hbytes, ⟨front, hfront⟩, headerEnd, start, hend, hstart, hread⟩ :=
    readHeader_of_some (s := ⟨[], 0, 0⟩) h
  have hbytes : p.1 ++ p.2.flatten = stream.reads.flatten := hbytes
  have hlength : ∀ response ∈ p.2, 0 < response.length := fun response hmem =>
    (stream.read_length response (by rw [hfront]; exact List.mem_append_right _ hmem)).1
  rw [covers_iff hend hstart, receiveFromServer, hclosed, hread, leave]
  by_cases hneg : cInt (start + contentLength.length) < 0
  · rw [if_pos hneg]
    exact iff_of_false (by simp) fun h => absurd hneg (not_lt.mpr h.1)
  · rw [if_neg hneg]
    cases hn : strtol (p.1.drop (cInt (start + contentLength.length)).toNat) with
    | none =>
      refine iff_of_false (by simp) ?_
      rintro ⟨-, n, hn', -⟩
      cases hn'
    | some n =>
      obtain ⟨taken, rest, hlater, hbody, hrest⟩ := readBody_closed
        ((cInt n + cInt (headerEnd + headerTerminator.length)) % 2 ^ 64).toNat p.1 p.2
      rw [Option.map_some, Option.map_some, Option.bind_some]
      dsimp only
      rw [hbody, Option.map_some, Option.map_some, bufferAdd, Option.some_inj, List.append_left_inj, ← hbytes,
        List.append_right_inj, taken_flatten_iff hlater hlength, hrest]
      simp [not_lt.mp hneg]

/-- However a response without a length field is cut, the client returns all of it and a NUL exactly
when it takes nothing for the length, or something that covers the response. -/
theorem returnsAll_iff {r : Unlengthed} {stream : Stream} (hclosed : stream.closed = true)
    (hreads : stream.reads.flatten = r.bytes) : ReturnsAll r stream ↔ Undisturbed stream.reads := by
  rw [ReturnsAll, ← hreads]
  cases h : noticedAt [] stream.reads with
  | none =>
    obtain ⟨s', hheader, hbuffer⟩ := readHeader_of_none (s := ⟨[], 0, 0⟩) h
    refine iff_of_true ?_ fun p hp => ?_
    · rw [receiveFromServer, hclosed, hheader, Option.bind_some]
      dsimp only
      rw [readBody, if_neg (by simp), hbuffer]
      rfl
    · rw [h] at hp
      cases hp
  | some p =>
    rw [receive_of_noticed hclosed h]
    constructor
    · intro hcovers q hq
      rw [h] at hq
      cases hq
      exact hcovers
    · exact fun hundisturbed => hundisturbed p h

/-- A response without the name of the length field in it is returned whole. -/
theorem undisturbed_of_not_occurs {text : Bytes} (hreads : reads.flatten = text)
    (h : ∀ i, ¬ Occurs sameLetter contentLength text i) : Undisturbed reads := by
  have hnone : noticedAt [] reads = none := by
    have hprefix : ∀ buffer, buffer ++ reads.flatten = text → noticedAt buffer reads = none := by
      clear hreads
      induction reads with
      | nil => exact fun _ _ => rfl
      | cons response reads ih =>
        intro buffer hbuffer
        rw [List.flatten_cons, ← List.append_assoc] at hbuffer
        have hinsensitive : bufferFindInsensitive (buffer ++ response) contentLength = some (-1) := by
          rw [bufferFindInsensitive, search_eq_none fun i hi => h i (hbuffer ▸ hi.append _)]
          rfl
        rw [noticedAt, noticed, hinsensitive, Option.any_some, decide_eq_false (by decide), Bool.and_false]
        exact ih _ hbuffer
    exact hprefix [] hreads
  intro p hp
  rw [hnone] at hp
  cases hp

/-- A response whose body has the name of the field and a number in it. -/
def talking : Unlengthed where
  block := ascii "HTTP/1.1 200 OK" ++ headerTerminator
  body := ascii "Content-Length: 0 more"
  ends := List.suffix_append _ _
  first := by decide
  no_field := by decide

/-- The response in two reads, the first of which ends behind the number. -/
def talkingReads : Stream where
  reads := [ascii "HTTP/1.1 200 OK" ++ headerTerminator ++ ascii "Content-Length: 0 ", ascii "more"]
  read_length := by decide
  closed := true

theorem bufferFind_talking : bufferFind (ascii "HTTP/1.1 200 OK" ++ headerTerminator ++ ascii "Content-Length: 0 ")
    headerTerminator = some 15 := by
  have hleast : IsLeast {i | Occurs (· == ·) headerTerminator
      (ascii "HTTP/1.1 200 OK" ++ headerTerminator ++ ascii "Content-Length: 0 ") i} 15 := by
    refine ⟨by decide, fun i hi => ?_⟩
    by_contra hlt
    have hnone : ∀ i < 15, ¬ Occurs (· == ·) headerTerminator
        (ascii "HTTP/1.1 200 OK" ++ headerTerminator ++ ascii "Content-Length: 0 ") i := by decide
    exact hnone i (not_le.mp hlt) hi
  exact bufferFind_eq_some hleast (by decide)

theorem bufferFindInsensitive_talking : bufferFindInsensitive
    (ascii "HTTP/1.1 200 OK" ++ headerTerminator ++ ascii "Content-Length: 0 ") contentLength = some 19 := by
  have hleast : IsLeast {i | Occurs sameLetter contentLength
      (ascii "HTTP/1.1 200 OK" ++ headerTerminator ++ ascii "Content-Length: 0 ") i} 19 := by
    refine ⟨by decide, fun i hi => ?_⟩
    by_contra hlt
    have hnone : ∀ i < 19, ¬ Occurs sameLetter contentLength
        (ascii "HTTP/1.1 200 OK" ++ headerTerminator ++ ascii "Content-Length: 0 ") i := by decide
    exact hnone i (not_le.mp hlt) hi
  exact bufferFindInsensitive_eq_some hleast (by decide)

theorem noticedAt_talking : noticedAt [] talkingReads.reads = some
    (ascii "HTTP/1.1 200 OK" ++ headerTerminator ++ ascii "Content-Length: 0 ", [ascii "more"]) := by
  rw [talkingReads, noticedAt, List.nil_append, noticed, bufferFind_talking, bufferFindInsensitive_talking]
  rfl

theorem not_covers_talking :
    ¬ Covers (ascii "HTTP/1.1 200 OK" ++ headerTerminator ++ ascii "Content-Length: 0 ") [ascii "more"] := by
  rintro ⟨headerEnd, start, n, hend, hstart, -, hn, hlater⟩
  cases hend.symm.trans bufferFind_talking
  cases hstart.symm.trans bufferFindInsensitive_talking
  have hzero : strtol (List.drop (cInt (19 + contentLength.length)).toNat
      (ascii "HTTP/1.1 200 OK" ++ headerTerminator ++ ascii "Content-Length: 0 ")) = some 0 := by decide
  cases hn.symm.trans hzero
  exact absurd hlater (by decide)

/-- The rest of the body is not read. -/
theorem not_returnsAll_talking : ¬ ReturnsAll talking talkingReads := by
  have hreads : talkingReads.reads.flatten = talking.bytes := by decide
  rw [ReturnsAll, ← hreads, receive_of_noticed rfl noticedAt_talking]
  exact not_covers_talking

def silent : Unlengthed where
  block := talking.block
  body := ascii "more"
  ends := talking.ends
  first := talking.first
  no_field := talking.no_field

def silentReads : Stream where
  reads := [ascii "HTTP/1.1 200 OK", headerTerminator ++ ascii "more"]
  read_length := by decide
  closed := true

theorem returnsAll_iff_talking : ReturnsAll silent silentReads ∧ ¬ ReturnsAll talking talkingReads := by
  constructor
  · refine (returnsAll_iff rfl (by decide)).mpr (undisturbed_of_not_occurs rfl fun i hi => ?_)
    have hlt : i < 23 := (Nat.lt_add_of_pos_right (by decide)).trans_le hi.1
    have hnone : ∀ i < 23, ¬ Occurs sameLetter contentLength silentReads.reads.flatten i := by decide
    exact hnone i hlt hi
  · exact fun h => not_covers_talking ((returnsAll_iff rfl (by decide)).mp h _ noticedAt_talking)

end PCom.Http
