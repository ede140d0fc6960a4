import PCom.Http.Receive

/-! # Reassembly of HTTP responses

The client finds the end of the header block and the length in it exactly when the block is
complete, however the reads cut the response.
-/

namespace PCom.Http
open Foundations

theorem cInt_of_lt {n : ℤ} (hnonneg : 0 ≤ n) (hlt : n < 2 ^ 31) : cInt n = n := by
  apply Int.bmod_eq_of_le <;> omega

theorem bufferFind_eq_some {buffer data : Bytes} {i : ℕ} (h : IsLeast {i | Occurs (· == ·) data buffer i} i)
    (hi : i < 2 ^ 31) : bufferFind buffer data = some (i : ℤ) := by
  rw [bufferFind, search_eq_some h, Option.map_some, found, cInt_of_lt (by omega) (by omega)]

theorem bufferFind_eq_none {buffer data : Bytes} (h : ∀ i, ¬ Occurs (· == ·) data buffer i) :
    bufferFind buffer data = some (-1) := by
  rw [bufferFind, search_eq_none h]
  rfl

theorem bufferFindInsensitive_eq_some {buffer data : Bytes} {i : ℕ}
    (h : IsLeast {i | Occurs sameLetter data buffer i} i) (hi : i < 2 ^ 31) :
    bufferFindInsensitive buffer data = some (i : ℤ) := by
  rw [bufferFindInsensitive, search_eq_some h, Option.map_some, found, cInt_of_lt (by omega) (by omega)]

variable {r : Response} {s : Locals} {buffer rest : Bytes}

theorem Response.terminator (r : Response) : ∃ n, r.block.bytes.length = n + headerTerminator.length ∧
    IsLeast {i | Occurs (· == ·) headerTerminator r.block.bytes i} n := by
  obtain ⟨front, hfront⟩ := r.ends
  have hlength : r.block.bytes.length = front.length + headerTerminator.length := by
    rw [← hfront, List.length_append]
  refine ⟨front.length, hlength, ?_, fun i hi => ?_⟩
  · have hzero : Occurs (· == ·) headerTerminator headerTerminator 0 := by decide
    rw [Set.mem_ofPred_eq, ← hfront]
    exact (occurs_append_left front).mpr hzero
  · have hpos : 0 < headerTerminator.length := by decide
    have hle := hi.1
    have hend := r.first i (by omega) hi
    omega

/-- The name of the length field stands behind the front, and nowhere before. -/
theorem Response.field (r : Response) :
    IsLeast {i | Occurs sameLetter contentLength r.block.bytes i} r.block.front.length := by
  have hlength := congrArg List.length r.name_eq
  rw [List.length_map, List.length_map] at hlength
  have hname : Occurs sameLetter contentLength r.block.name 0 := by
    refine ⟨by omega, fun j b hb => ?_⟩
    have hj := congrArg (fun l => l[j]?) r.name_eq
    simp only [List.getElem?_map, hb, Option.map_some] at hj
    obtain ⟨a, ha, hab⟩ := Option.map_eq_some_iff.mp hj
    rw [Nat.zero_add]
    exact ⟨a, ha, by rw [sameLetter, hab, beq_self_eq_true]⟩
  have hfield : Occurs sameLetter contentLength r.block.bytes r.block.front.length := by
    have h := (occurs_append_left r.block.front).mpr
      (hname.append (r.block.blanks ++ r.block.value ++ r.block.back))
    simpa [HeaderBlock.bytes] using h
  have hpos : 0 < contentLength.length := by decide
  refine ⟨hfield, fun i hi => ?_⟩
  have hle := hi.1
  exact (r.once i (by omega) hi).ge

/-- Something that is no digit follows the length inside the header block. -/
theorem Response.back_cons (r : Response) : ∃ c back, r.block.back = c :: back ∧ isDigit c = false := by
  cases hback : r.block.back with
  | cons c back => exact ⟨c, back, rfl, r.back_head c (by rw [hback]; rfl)⟩
  | nil =>
    obtain ⟨front, hfront⟩ := r.ends
    have hlast := congrArg List.getLast? hfront
    rw [HeaderBlock.bytes, hback, List.append_nil, List.getLast?_append, List.getLast?_append,
      List.getLast?_eq_some_getLast r.value_ne] at hlast
    have hdigit := r.value_digit _ (List.getLast_mem r.value_ne)
    rw [← Option.some.inj hlast] at hdigit
    cases hdigit

theorem strtol_value (r : Response) (mem : Bytes) :
    strtol (r.block.blanks ++ (r.block.value ++ (r.block.back ++ mem))) = some (r.body.length : ℤ) := by
  have hblanks : ∀ c ∈ r.block.blanks, isSpace c = true := by
    intro c hc
    rcases r.blanks_eq c hc with rfl | rfl <;> decide
  obtain ⟨c, back, hback, hc⟩ := r.back_cons
  have hatoi : atoi (r.block.value ++ (r.block.back ++ mem)) = r.body.length := by
    rw [atoi_digits r.value_ne r.value_digit, r.value_eq]
    rw [hback]
    rintro d ⟨⟩
    exact hc
  have hstop : ∃ c ∈ r.block.value ++ (r.block.back ++ mem), isDigit c = false :=
    ⟨c, by simp [hback], hc⟩
  obtain ⟨d, value, hvalue⟩ := List.exists_cons_of_ne_nil r.value_ne
  have hdigit : isDigit d = true := r.value_digit d (by simp [hvalue])
  have hminus : d ≠ 45 := by rintro rfl; cases hdigit
  have hplus : d ≠ 43 := by rintro rfl; cases hdigit
  have hbody := r.body_lt
  rw [strtol, atoi_spaces hblanks, List.dropWhile_append_of_pos hblanks, hatoi]
  simp only [hvalue, List.cons_append, List.dropWhile_cons, isSpace_of_isDigit hdigit, List.head?_cons,
    Option.some.injEq, hminus, hplus, Bool.false_eq_true, if_false, or_self] at hstop ⊢
  rw [if_pos hstop]
  congr 1
  omega

theorem scan_of_neg {response : Bytes} {headerEnd : ℤ}
    (hfind : bufferFind (s.buffer ++ response) headerTerminator = some headerEnd) (hneg : headerEnd < 0) :
    s.scan response = some (⟨s.buffer ++ response, headerEnd, s.contentLength⟩, false) := by
  rw [Locals.scan, bufferAdd, hfind, Option.bind_some, if_pos hneg]

theorem scan_of_lt {response : Bytes} (hbytes : s.buffer ++ response ++ rest = r.bytes)
    (hlt : (s.buffer ++ response).length < r.block.bytes.length) :
    s.scan response = some (⟨s.buffer ++ response, -1, s.contentLength⟩, false) := by
  have hnone : ∀ i, ¬ Occurs (· == ·) headerTerminator (s.buffer ++ response) i := by
    intro i hi
    obtain ⟨n, hlength, hn⟩ := r.terminator
    have hleast := (isLeast_append hn r.body).2
    have hle : n ≤ i := hleast (by rw [Set.mem_ofPred_eq, ← Response.bytes, ← hbytes]; exact hi.append rest)
    have hend := hi.1
    omega
  exact scan_of_neg (bufferFind_eq_none hnone) (by decide)

theorem scan_of_le {response : Bytes} (hbytes : s.buffer ++ response ++ rest = r.bytes)
    (hle : r.block.bytes.length ≤ (s.buffer ++ response).length) (hblock : r.block.bytes.length < 2 ^ 31) :
    s.scan response =
      some (⟨s.buffer ++ response, r.block.bytes.length, r.body.length⟩, true) := by
  obtain ⟨more, hmore⟩ := List.prefix_of_prefix_length_le (List.prefix_append r.block.bytes r.body)
    (⟨rest, hbytes⟩ : s.buffer ++ response <+: r.block.bytes ++ r.body) hle
  obtain ⟨n, hlength, hn⟩ := r.terminator
  have hfield := r.field
  have hname := congrArg List.length r.name_eq
  rw [List.length_map, List.length_map] at hname
  have hend := hfield.1.1
  have hdrop : (r.block.bytes ++ more).drop (r.block.front.length + contentLength.length) =
      r.block.blanks ++ (r.block.value ++ (r.block.back ++ more)) := by
    rw [← hname, ← List.length_append, HeaderBlock.bytes]
    simp only [List.append_assoc]
    rw [← List.append_assoc, List.drop_left]
  have hstart : ((r.block.front.length : ℤ) + contentLength.length).toNat =
      r.block.front.length + contentLength.length := by omega
  have hbody := r.body_lt
  rw [Locals.scan, bufferAdd, ← hmore, bufferFind_eq_some (isLeast_append hn more) (by omega),
    bufferFindInsensitive_eq_some (isLeast_append hfield more) (by omega)]
  rw [Option.bind_some, if_neg (by omega), Option.bind_some, if_neg (by omega),
    cInt_of_lt (by omega) (by omega), cInt_of_lt (by omega) (by omega), if_neg (by omega)]
  rw [hstart, hdrop, strtol_value, Option.map_some, cInt_of_lt (by omega) (by omega), hlength,
    Int.natCast_add]

/-- The first loop ends with the header block in the buffer. The induction is on the reads, and the
buffer and the reads to come make up the response throughout. -/
theorem readHeader_response (closed : Bool) (first later : List Bytes)
    (hbytes : s.buffer ++ first.flatten = r.bytes) (hlt : s.buffer.length < r.block.bytes.length)
    (hblock : r.block.bytes.length < 2 ^ 31) :
    ∃ s' first', readHeader closed s (first ++ later) = some (s', first' ++ later) ∧
      s'.buffer ++ first'.flatten = r.bytes ∧ first' ⊆ first ∧
      s'.headerEnd = r.block.bytes.length ∧ s'.contentLength = r.body.length := by
  induction first generalizing s with
  | nil =>
    rw [List.flatten_nil, List.append_nil] at hbytes
    rw [hbytes, Response.bytes, List.length_append] at hlt
    omega
  | cons response first ih =>
    rw [List.flatten_cons, ← List.append_assoc] at hbytes
    rw [List.cons_append, readHeader]
    by_cases hlt' : (s.buffer ++ response).length < r.block.bytes.length
    · obtain ⟨s', first', hread, hrest, hsub, hvalues⟩ :=
        ih (s := ⟨s.buffer ++ response, -1, s.contentLength⟩) hbytes hlt'
      refine ⟨s', first', ?_, hrest, List.subset_cons_of_subset _ hsub, hvalues⟩
      rw [scan_of_lt hbytes hlt', Option.bind_some, if_neg (by simp)]
      exact hread
    · refine ⟨⟨s.buffer ++ response, r.block.bytes.length, r.body.length⟩, first, ?_, hbytes,
        List.subset_cons_self _ _, rfl, rfl⟩
      rw [scan_of_le hbytes (not_lt.mp hlt') hblock, Option.bind_some, if_pos rfl]

/-- The second loop takes the reads that carry the rest of the text, and no more. -/
theorem readBody_eq {closed : Bool} {later : List Bytes} {text : Bytes} (first : List Bytes)
    (hfirst : ∀ response ∈ first, 0 < response.length) (htext : buffer ++ first.flatten = text) :
    readBody closed text.length buffer (first ++ later) = some (text, later) := by
  induction first generalizing buffer with
  | nil =>
    rw [List.flatten_nil, List.append_nil] at htext
    subst htext
    cases later <;> simp [readBody]
  | cons response first ih =>
    have hpos := hfirst response List.mem_cons_self
    have hlt : buffer.length < text.length := by
      rw [← htext, List.flatten_cons, List.length_append, List.length_append]
      omega
    rw [List.cons_append, readBody, if_pos hlt]
    apply ih
    · exact fun response h => hfirst response (List.mem_cons_of_mem _ h)
    · rw [← htext, List.flatten_cons, ← List.append_assoc]
      rfl

/-- The client returns a response with a header block below 2 GiB, however it is cut. -/
theorem reassembles_of_lt (r : Response) (stream : Stream) (hblock : r.block.bytes.length < 2 ^ 31) :
    Reassembles r stream := by
  intro first later hreads hfirst
  have hpos : 0 < r.block.bytes.length := by
    have hend := r.field.1.1
    have hname : 0 < contentLength.length := by decide
    omega
  have hbody := r.body_lt
  obtain ⟨s, rest, hheader, hrest, hsub, hend, hlength⟩ :=
    readHeader_response stream.closed (s := ⟨[], 0, 0⟩) first later hfirst hpos hblock
  have htotal : ((s.contentLength + s.headerEnd) % 2 ^ 64).toNat = r.bytes.length := by
    rw [Response.bytes, List.length_append, hend, hlength]
    omega
  have hread : ∀ response ∈ rest, 0 < response.length := by
    intro response hresponse
    refine (stream.read_length response ?_).1
    rw [hreads]
    exact List.mem_append_left _ (hsub hresponse)
  rw [receiveFromServer, hreads, hheader, Option.bind_some]
  simp only [htotal]
  rw [readBody_eq rest hread hrest]
  rfl

def byteReads (bytes : Bytes) (closed : Bool) : Stream where
  reads := bytes.map fun c => [c]
  read_length := by
    intro response hresponse
    obtain ⟨c, -, rfl⟩ := List.mem_map.mp hresponse
    rw [List.length_singleton]
    decide
  closed := closed

theorem byteReads_flatten (bytes : Bytes) (closed : Bool) : (byteReads bytes closed).reads.flatten = bytes := by
  induction bytes with
  | nil => rfl
  | cons c bytes ih => exact congrArg (c :: ·) ih

def statusLine (n : ℕ) : Bytes := ascii "HTTP/1.1 200 " ++ List.replicate n 97

def fields : Bytes := [13, 10] ++ ascii "content-length: " ++ [50] ++ headerTerminator

theorem of_mem_statusLine {n : ℕ} {c : UInt8} (hc : c ∈ statusLine n) :
    (c == 13) = false ∧ sameLetter c 67 = false := by
  rcases List.mem_append.mp hc with h | h
  · have hall : ∀ c ∈ ascii "HTTP/1.1 200 ", (c == 13) = false ∧ sameLetter c 67 = false := by
      decide +kernel
    exact hall c h
  · rw [List.eq_of_mem_replicate h]
    decide

/-- A place of the terminator is the one behind the length, whatever two bytes follow. -/
theorem terminator_place {n i : ℕ} {body : Bytes} (hbody : body = [] ∨ body = ascii "ok")
    (h : Occurs (· == ·) headerTerminator (statusLine n ++ (fields ++ body)) i) :
    i = (statusLine n).length + 19 := by
  obtain ⟨k, rfl, hk⟩ := h.of_front (by decide) fun c hc => (of_mem_statusLine hc).1
  have hall : ∀ k < 25, ∀ body ∈ [[], ascii "ok"],
      Occurs (· == ·) headerTerminator (fields ++ body) k → k = 19 := by decide +kernel
  have hle := hk.1
  have hlength : (fields ++ body).length ≤ 25 := by rcases hbody with rfl | rfl <;> decide
  have hpos : 0 < headerTerminator.length := by decide
  rw [hall k (by omega) body (by simpa using hbody) hk]

theorem field_place {n i : ℕ} (h : Occurs sameLetter contentLength (statusLine n ++ fields) i) :
    i = (statusLine n).length + 2 := by
  obtain ⟨k, rfl, hk⟩ := h.of_front (by decide) fun c hc => (of_mem_statusLine hc).2
  have hall : ∀ k < 23, Occurs sameLetter contentLength fields k → k = 2 := by decide +kernel
  have hle := hk.1
  have hlength : fields.length = 23 := by decide
  have hpos : 0 < contentLength.length := by decide
  rw [hall k (by omega) hk]

def withReason (n : ℕ) : Response where
  block := ⟨statusLine n ++ [13, 10], ascii "content-length: ", [], [50], headerTerminator⟩
  body := ascii "ok"
  name_eq := by dsimp only; decide +kernel
  blanks_eq := by simp
  value_ne := by simp
  value_digit := by dsimp only; decide +kernel
  back_head := by dsimp only; decide +kernel
  once := by
    intro i _ hi
    have hplace := field_place (n := n) (i := i) (by simpa [HeaderBlock.bytes, fields] using hi)
    simpa using hplace
  ends := List.suffix_append _ _
  first := by
    intro i _ hi
    have hplace := terminator_place (n := n) (i := i) (.inl rfl)
      (by simpa [HeaderBlock.bytes, fields] using hi)
    have hlength : (ascii "content-length: ").length = 16 := by decide
    simp [HeaderBlock.bytes, hplace, hlength]
    omega
  value_eq := by dsimp only; decide +kernel
  body_lt := by decide

theorem withReason_bytes (n : ℕ) : (withReason n).bytes = statusLine n ++ (fields ++ ascii "ok") := by
  simp [withReason, Response.bytes, HeaderBlock.bytes, fields]

theorem withReason_received : receiveFromServer (byteReads (withReason 2).bytes false) =
    some ((withReason 2).bytes ++ [0], []) :=
  reassembles_of_lt (withReason 2) _ (by decide) _ [] (List.append_nil _).symm (byteReads_flatten _ _)

/-- Behind 2 GiB the end of the header block is never found. -/
theorem bufferFind_withReason {n : ℕ} (hn : n = 2 ^ 31) (hbytes : buffer ++ rest = (withReason n).bytes) :
    ∃ m < 0, bufferFind buffer headerTerminator = some m := by
  have hplace : ∀ i, Occurs (· == ·) headerTerminator buffer i → i = n + 32 := by
    intro i hi
    have hi' := hi.append rest
    rw [hbytes, withReason_bytes] at hi'
    have hline : (ascii "HTTP/1.1 200 ").length = 13 := by decide
    rw [terminator_place (.inr rfl) hi', statusLine, List.length_append, List.length_replicate, hline]
    omega
  by_cases h : Occurs (· == ·) headerTerminator buffer (n + 32)
  · have hfirst : IsLeast {i | Occurs (· == ·) headerTerminator buffer i} (n + 32) :=
      ⟨h, fun i hi => (hplace i hi).ge⟩
    refine ⟨cInt ((n + 32 : ℕ) : ℤ), ?_, ?_⟩
    · rw [hn]
      decide
    · rw [bufferFind, search_eq_some hfirst]
      rfl
  · refine ⟨-1, by decide, bufferFind_eq_none fun i hi => h ?_⟩
    rw [← hplace i hi]
    exact hi

theorem readHeader_withReason {n : ℕ} (hn : n = 2 ^ 31) (reads : List Bytes)
    (hbytes : s.buffer ++ reads.flatten = (withReason n).bytes) : readHeader false s reads = none := by
  induction reads generalizing s with
  | nil => rfl
  | cons response reads ih =>
    rw [List.flatten_cons, ← List.append_assoc] at hbytes
    obtain ⟨m, hneg, hfind⟩ := bufferFind_withReason hn hbytes
    rw [readHeader, scan_of_neg hfind hneg, Option.bind_some, if_neg (by simp)]
    exact ih hbytes

theorem receive_withReason {n : ℕ} (hn : n = 2 ^ 31) :
    receiveFromServer (byteReads (withReason n).bytes false) = none := by
  have hnone := readHeader_withReason (s := ⟨[], 0, 0⟩) hn (byteReads (withReason n).bytes false).reads
    (byteReads_flatten (withReason n).bytes false)
  have hclosed : (byteReads (withReason n).bytes false).closed = false := rfl
  rw [receiveFromServer, hclosed, hnone]
  rfl

/-- On an open connection the client waits for more than the whole response. -/
theorem longReason_not_reassembled :
    ¬ Reassembles (withReason (2 ^ 31)) (byteReads (withReason (2 ^ 31)).bytes false) := by
  intro h
  have hreceived := h _ [] (List.append_nil _).symm (byteReads_flatten _ _)
  rw [receive_withReason rfl] at hreceived
  cases hreceived

end PCom.Http
