import PCom.PubSub.Subscriber

/-! # The frames of the server's stream

A frame is the size field and then the packet up to the end of its payload. The lemmas follow
the subscriber's loop through one frame.
-/

namespace PCom.PubSub
open Foundations

/-- A packet that `udp_to_tcp` can build. -/
def FromUdp (p : TcpPacket) : Prop :=
  ∃ printDouble udp addr, udpToTcp printDouble udp addr = some p

def sentStream (ps : List TcpPacket) : Bytes := ps.flatMap TcpPacket.frame

@[simp] theorem sentStream_nil : sentStream [] = [] := rfl

@[simp] theorem sentStream_cons (p : TcpPacket) (ps : List TcpPacket) :
    sentStream (p :: ps) = p.frame ++ sentStream ps := rfl

variable {p : TcpPacket} {l : ℕ}

/-- A packet whose size field is the one `udp_to_tcp` writes for its payload. -/
structure Sized (p : TcpPacket) (l : ℕ) : Prop where
  size_eq : p.size.chars = decimal (90 + l)
  length_eq : p.payload.chars.length = l

theorem FromUdp.sized (h : FromUdp p) : Sized p p.payload.chars.length := by
  obtain ⟨_, _, _, h⟩ := h
  exact ⟨udpToTcp_size h, rfl⟩

theorem Sized.le (h : Sized p l) : l ≤ 1500 := by
  have := p.payload.fits
  rw [h.length_eq, maxLen] at this
  omega

theorem Sized.digits_le (h : Sized p l) : (decimal (90 + l)).length ≤ 4 :=
  decimal_length_le (by omega) (by have := h.le; omega)

theorem Sized.size_bytes (h : Sized p l) :
    p.size.bytes = decimal (90 + l) ++ List.replicate (10 - (decimal (90 + l)).length) 0 := by
  rw [CString.bytes, h.size_eq]

theorem bytes_length (p : TcpPacket) : p.bytes.length = sizeofTcpPacket := by
  simp only [TcpPacket.bytes, List.length_append, List.length_cons, CString.bytes_length,
    sizeofTcpPacket]
  omega

theorem isDigit_head_zeros (n : ℕ) (rest : Bytes) (h : 0 < n) :
    ∀ c ∈ (List.replicate n (0 : UInt8) ++ rest).head?, isDigit c = false := by
  obtain ⟨n, rfl⟩ := Nat.exists_eq_succ_of_ne_zero (by omega : n ≠ 0)
  simp [List.replicate_succ, isDigit]

theorem Sized.atoi_bytes (h : Sized p l) : atoi p.size.bytes = ((90 + l : ℕ) : ℤ) := by
  have hdigits := h.digits_le
  rw [h.size_bytes]
  apply atoi_decimal _ _
  simpa using isDigit_head_zeros (10 - (decimal (90 + l)).length) [] (by omega)

theorem Sized.frame_eq (h : Sized p l) : p.frame = p.size.bytes ++ p.bytes.take (90 + l) := by
  rw [TcpPacket.frame, h.atoi_bytes, Int.toNat_natCast]

theorem Sized.frame_length (h : Sized p l) : p.frame.length = 100 + l := by
  have := h.le
  rw [h.frame_eq]
  simp [bytes_length, sizeofTcpPacket, maxLen]
  omega

/-- The size read from a first segment that has all its digits. -/
theorem Sized.atoi_take (h : Sized p l) {c : ℕ} (hc : (decimal (90 + l)).length ≤ c) (hc' : c ≤ 10)
    (rest : Bytes) : (atoi ((p.frame ++ rest).take c)).toNat = 90 + l := by
  have hdigits := h.digits_le
  have htake : (p.frame ++ rest).take c =
      decimal (90 + l) ++ List.replicate (c - (decimal (90 + l)).length) 0 := by
    rw [h.frame_eq, List.append_assoc, List.take_append_of_le_length (by simpa using hc'),
      h.size_bytes, List.take_append, List.take_of_length_le hc, List.take_replicate]
    congr 2
    omega
  rw [htake]
  rcases Nat.eq_zero_or_pos (c - (decimal (90 + l)).length) with hz | hz
  · rw [hz, atoi_decimal _ _ (by simp), Int.toNat_natCast]
  · rw [atoi_decimal _ _ (by simpa using isDigit_head_zeros _ [] hz), Int.toNat_natCast]

/-- A first segment that misses a digit, in front or at the end, reads as a smaller number. -/
theorem Sized.header_lt (h : Sized p l) {y c : ℕ} (hy : y < 10)
    (hmiss : 0 < y ∨ c < (decimal (90 + l)).length) (rest : Bytes) :
    (atoi (((p.frame ++ rest).drop y).take c)).toNat < 10 ^ ((decimal (90 + l)).length - 1) := by
  have hdigits := h.digits_le
  obtain ⟨n, hn⟩ : ∃ n, 10 - (decimal (90 + l)).length - (y - (decimal (90 + l)).length) = n + 1 :=
    ⟨_, (Nat.sub_add_cancel (by omega)).symm⟩
  have hsplit : ((p.frame ++ rest).drop y).take c = ((decimal (90 + l)).drop y).take c ++
      ((List.replicate (n + 1) 0 ++ (p.bytes.take (90 + l) ++ rest)).take
        (c - ((decimal (90 + l)).length - y))) := by
    rw [h.frame_eq, h.size_bytes, List.append_assoc, List.append_assoc, List.drop_append,
      List.take_append, List.length_drop, List.drop_append_of_le_length
        (by rw [List.length_replicate]; omega), List.drop_replicate, hn]
  rw [hsplit]
  refine (atoi_toNat_lt (fun x hx => isDigit_of_mem_decimal (List.mem_of_mem_drop
    (List.mem_of_mem_take hx))) fun x hx => ?_).trans_le (Nat.pow_le_pow_right (by omega) ?_)
  · cases hm : c - ((decimal (90 + l)).length - y) with
    | zero => simp [hm] at hx
    | succ m => simpa [hm, List.replicate_succ, eq_comm] using hx
  · rw [List.length_take, List.length_drop]
    omega

/-- What is printed depends on the bytes after the size field only. -/
theorem printed_congr {buff buff' : Bytes} (h : buff.drop 10 = buff'.drop 10) :
    printed buff = printed buff' := by
  have hdrop : ∀ n, 10 ≤ n → buff.drop n = buff'.drop n := fun n hn => by
    obtain ⟨m, rfl⟩ := Nat.exists_eq_add_of_le hn
    rw [← List.drop_drop, ← List.drop_drop, h]
  have hget : ∀ n, 10 ≤ n → buff.getD n 0 = buff'.getD n 0 := fun n hn => by
    have := congrArg (fun l : Bytes => l.getD 0 0) (hdrop n hn)
    simpa [List.getD_eq_getElem?_getD] using this
  rw [printed, printed, h, hget 26 (by omega), hget 27 (by omega), hdrop 39 (by omega),
    hdrop 28 (by omega), hdrop 90 (by omega)]

theorem bytes_drop_ip (p : TcpPacket) : p.bytes.drop 10 =
    p.ip.bytes ++ (UInt8.ofNat p.port.toNat :: UInt8.ofNat (p.port.toNat / 256) ::
      (p.type.bytes ++ (p.topic.bytes ++ p.payload.bytes))) :=
  List.drop_left' (CString.bytes_length _)

theorem bytes_drop_port (p : TcpPacket) : p.bytes.drop 26 =
    UInt8.ofNat p.port.toNat :: UInt8.ofNat (p.port.toNat / 256) ::
      (p.type.bytes ++ (p.topic.bytes ++ p.payload.bytes)) := by
  rw [show 26 = 10 + 16 by rfl, ← List.drop_drop, bytes_drop_ip]
  exact List.drop_left' (CString.bytes_length _)

theorem bytes_drop_type (p : TcpPacket) :
    p.bytes.drop 28 = p.type.bytes ++ (p.topic.bytes ++ p.payload.bytes) := by
  rw [show 28 = 26 + 2 by rfl, ← List.drop_drop, bytes_drop_port]
  rfl

theorem bytes_drop_topic (p : TcpPacket) : p.bytes.drop 39 = p.topic.bytes ++ p.payload.bytes := by
  rw [show 39 = 28 + 11 by rfl, ← List.drop_drop, bytes_drop_type]
  exact List.drop_left' (CString.bytes_length _)

theorem bytes_drop_payload (p : TcpPacket) : p.bytes.drop 90 = p.payload.bytes := by
  rw [show 90 = 39 + 51 by rfl, ← List.drop_drop, bytes_drop_topic]
  exact List.drop_left' (CString.bytes_length _)

theorem cstr_take_bytes {n : ℕ} (s : CString n) (m : ℕ) (rest : Bytes) (hm : s.chars.length ≤ m) :
    cstr ((s.bytes ++ rest).take m) = s.chars := by
  rw [CString.bytes, List.append_assoc, List.take_append, List.take_of_length_le hm,
    cstr_append_of_nul_free s.nul_free]
  obtain ⟨k, hk⟩ : ∃ k, n - s.chars.length = k + 1 := ⟨n - s.chars.length - 1, by have := s.fits; omega⟩
  rw [hk, List.replicate_succ, List.cons_append]
  cases m - s.chars.length <;> simp

theorem port_bytes (port : UInt16) :
    UInt16.ofNat ((UInt8.ofNat port.toNat).toNat + 256 * (UInt8.ofNat (port.toNat / 256)).toNat) =
      port := by
  have hlt := port.toNat_lt
  have hsum : (UInt8.ofNat port.toNat).toNat + 256 * (UInt8.ofNat (port.toNat / 256)).toNat =
      port.toNat := by
    simp only [UInt8.toNat_ofNat']
    omega
  rw [hsum, UInt16.ofNat_toNat]

/-- The packet up to the end of its payload, or up to the last character of its topic, is
printed as it was sent. -/
theorem printed_take (p : TcpPacket) {m : ℕ} (hm : 89 ≤ m) (hm' : p.payload.chars.length ≤ m - 90) :
    printed (p.bytes.take m) = p.line := by
  have hget : ∀ n < m, (p.bytes.take m).getD n 0 = (p.bytes.drop n).getD 0 0 := fun n hn => by
    simp [List.getD_eq_getElem?_getD, hn]
  have htopic := p.topic.fits
  have htype := p.type.fits
  have hip := p.ip.fits
  rw [printed, TcpPacket.line, hget 26 (by omega), hget 27 (by omega), List.drop_take, List.drop_take,
    List.drop_take, List.drop_take, bytes_drop_ip, bytes_drop_type, bytes_drop_topic,
    bytes_drop_payload, cstr_take_bytes _ _ _ (by omega), cstr_take_bytes _ _ _ (by omega),
    cstr_take_bytes _ _ _ (by omega), ← List.append_nil p.payload.bytes,
    cstr_take_bytes _ _ _ hm', show 27 = 26 + 1 by rfl, ← List.drop_drop, bytes_drop_port]
  exact congrArg (Line.mk _ · _ _ _) (port_bytes p.port)

theorem Sized.bytes_take_length (h : Sized p l) : (p.bytes.take (90 + l)).length = 90 + l := by
  have := h.le
  simp [bytes_length, sizeofTcpPacket, maxLen]
  omega

theorem Sized.frame_drop (h : Sized p l) (rest : Bytes) :
    (p.frame ++ rest).drop 10 = p.bytes.take (90 + l) ++ rest := by
  rw [h.frame_eq, List.append_assoc]
  exact List.drop_left' (CString.bytes_length _)

theorem Sized.stream_drop (h : Sized p l) (rest : Bytes) : (p.frame ++ rest).drop (100 + l) = rest :=
  List.drop_left' h.frame_length

variable {o : Network} {k : ℕ}

theorem Sized.header (h : Sized p l) (o : Network) (k : ℕ) (rest : Bytes) :
    o.recv k 10 (p.frame ++ rest) = min 10 (o.offer k) := by
  have hlen := h.frame_length
  simp only [Network.recv, List.length_append]
  omega

/-- The first segment of a frame and the loop that follows it. -/
theorem Sized.receive_eq (h : Sized p l) (hdigits : (decimal (90 + l)).length ≤ o.offer k) (rest : Bytes) :
    receive o (p.frame ++ rest) k =
      match fill o (90 + l) 0 [] ((p.frame ++ rest).drop (min 10 (o.offer k))) (k + 1) with
      | none => none
      | some none => some []
      | some (some (buff, received, k')) =>
        (receive o ((p.frame ++ rest).drop (min 10 (o.offer k) + received)) k').map (printed buff :: ·) := by
  have hlen := h.frame_length
  have hne : p.frame ++ rest ≠ [] := by
    apply List.ne_nil_of_length_pos
    rw [List.length_append, hlen]
    omega
  have hdigits' := h.digits_le
  rewrite [receive, if_neg hne, h.header, h.atoi_take (by omega) (by omega)]
  rfl

/-- A frame divided as `Intact.frame` says is printed. -/
theorem Sized.receive_frame (h : Sized p l) {j : ℕ} (hdigits : (decimal (90 + l)).length ≤ o.offer k)
    (hpad : o.total (k + 1) j = 10 - min 10 (o.offer k)) (hpkt : 90 + l ≤ o.offer (k + 1 + j))
    (rest : Bytes) : receive o (p.frame ++ rest) k =
      (receive o rest (k + j + 2)).map (p.line :: ·) := by
  have hlen := h.frame_length
  have hle := h.le
  have hfit : 90 + l ≤ tcpSize := by simp [tcpSize, sizeofTcpPacket, maxLen]; omega
  have hpos := o.offer_pos k
  obtain ⟨buff, hb, hskip⟩ : ∃ buff', buff'.length ≤ 0 + o.total (k + 1) j ∧
      fill o (90 + l) 0 [] ((p.frame ++ rest).drop (min 10 (o.offer k))) (k + 1) =
        fill o (90 + l) (0 + o.total (k + 1) j) buff'
          (((p.frame ++ rest).drop (min 10 (o.offer k))).drop (o.total (k + 1) j)) (k + 1 + j) :=
    fill_skip hfit (by omega) (by rw [List.length_drop, List.length_append]; omega) (by simp)
  have hdrop : ((p.frame ++ rest).drop (min 10 (o.offer k))).drop (o.total (k + 1) j) =
      p.bytes.take (90 + l) ++ rest := by
    rw [List.drop_drop, hpad, ← h.frame_drop]
    congr 1
    omega
  have hcount : o.recv (k + 1 + j) (90 + l) (p.bytes.take (90 + l) ++ rest) = 90 + l := by
    simp only [Network.recv, List.length_append, h.bytes_take_length]
    omega
  have hne : p.bytes.take (90 + l) ++ rest ≠ [] := by
    apply List.ne_nil_of_length_pos
    rw [List.length_append, h.bytes_take_length]
    omega
  have hnil : buff.drop (90 + l) = [] := List.drop_eq_nil_of_le (by omega)
  rw [h.receive_eq hdigits, hskip, hdrop, fill_round (by omega) hne (by omega), hcount,
    fill_done (by omega), hnil, List.append_nil, List.take_left' h.bytes_take_length]
  dsimp only
  rw [printed_take p (by omega) (by rw [h.length_eq]; omega),
    show min 10 (o.offer k) + (0 + o.total (k + 1) j + (90 + l)) = 100 + l by omega, h.stream_drop,
    show k + 1 + j + 1 = k + j + 2 by omega]

/-- A frame without payload divided as `Intact.short` says is printed. -/
theorem Sized.receive_short (h : Sized p 0) (hheader : 10 ≤ o.offer k) (hpkt : o.offer (k + 1) = 89)
    {rest : Bytes} (hlast : o.offer (k + 2) = 1 ∨ rest = []) : receive o (p.frame ++ rest) k =
      (receive o rest (k + 3)).map (p.line :: ·) := by
  have hlen := h.bytes_take_length
  have hdigits := h.digits_le
  have hfit : 90 ≤ tcpSize := by simp [tcpSize, sizeofTcpPacket, maxLen]
  set body := p.bytes.take (90 + 0)
  have hmin : min 10 (o.offer k) = 10 := by omega
  have hfirst : o.recv (k + 1) (90 + 0) (body ++ rest) = 89 := by
    simp only [Network.recv, List.length_append]
    omega
  have hsecond : o.recv (k + 1 + 1) (90 + 0) ((body ++ rest).drop 89) = 1 := by
    have := o.offer_pos (k + 1 + 1)
    simp only [Network.recv, List.length_drop, List.length_append]
    rcases hlast with hlast | rfl
    · change o.offer (k + 1 + 1) = 1 at hlast
      omega
    · rw [List.length_nil]
      omega
  have hne : body ++ rest ≠ [] := by
    apply List.ne_nil_of_length_pos
    rw [List.length_append]
    omega
  have hne' : (body ++ rest).drop 89 ≠ [] := by
    apply List.ne_nil_of_length_pos
    rw [List.length_drop, List.length_append]
    omega
  rw [h.receive_eq (by omega), hmin, h.frame_drop, fill_round (by omega) hne (by omega), hfirst,
    fill_round (by omega) hne' (by omega), hsecond, fill_done (by omega)]
  dsimp only
  have hprinted : printed (((body ++ rest).drop 89).take 1 ++ ((body ++ rest).take 89 ++
      ([] : Bytes).drop 89).drop 1) = printed (p.bytes.take 89) := by
    apply printed_congr
    have hone : (((body ++ rest).drop 89).take 1).length = 1 := by
      simp only [List.length_take, List.length_drop, List.length_append]
      omega
    have hbody : (body ++ rest).take 89 = p.bytes.take 89 := by
      rw [List.take_append_of_le_length (by omega), List.take_take]
      rfl
    rw [List.drop_nil, List.append_nil, hbody, List.drop_append, hone,
      List.drop_eq_nil_of_le (by omega), List.nil_append, List.drop_drop]
  rw [hprinted, printed_take p (by omega) (h.length_eq.trans_le (Nat.zero_le _)),
    show 10 + (0 + 89 + 1) = 100 + 0 by omega, h.stream_drop]

end PCom.PubSub
