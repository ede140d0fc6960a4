import PCom.PubSub.Output

/-! # What udp_to_tcp reads and builds

The receive buffer of the server has the size of a `UDP_Packet`, and `recvfrom` can fill it. A string
without a NUL then goes on behind the buffer.
-/

namespace PCom.PubSub
open Foundations

/-- The bytes from the receive buffer on; `beyond` is what lies behind it. -/
def receiveMemory (d beyond : Bytes) : Bytes := recvfrom d ++ beyond

/-- The strings of the packet end in their arrays, and its size field holds the number of bytes up to the
end of the payload text, which `send_tcp` sends and the struct has. -/
structure WellFormed (p : TcpPacket) : Prop where
  topic : 0 ∈ p.topic.bytes
  payload : 0 ∈ p.payload.bytes
  size : p.size.chars = decimal (sizeofTcpPacket - maxLen + (cstr p.payload.bytes).length)
  size_le : sizeofTcpPacket - maxLen + (cstr p.payload.bytes).length ≤ sizeofTcpPacket
  sent_le : (atoi p.size.bytes).toNat ≤ p.bytes.length

/-- The datagram becomes a well-formed packet, whatever lies behind the receive buffer. -/
def ConvertsWell (printDouble : Bool → ℕ → ℤ → Bytes) (d : Bytes) (addr : SockAddr) : Prop :=
  ∃ p, (∀ beyond, udpToTcp printDouble (.ofBuffer (receiveMemory d beyond)) addr = some p) ∧ WellFormed p

variable {printDouble : Bool → ℕ → ℤ → Bytes} {d beyond type text : Bytes} {udp : UdpPacket} {addr : SockAddr}
  {p : TcpPacket} {n : ℕ}

theorem zero_mem_bytes (s : CString n) : 0 ∈ s.bytes := by
  have := s.fits
  rw [CString.bytes, List.mem_append, List.mem_replicate]
  exact .inr ⟨by omega, rfl⟩

theorem cstr_bytes (s : CString n) : cstr s.bytes = s.chars := by
  rw [CString.bytes, cstr_append_zeros, cstr_of_nul_free s.nul_free]

theorem wellFormed_of_udpToTcp (h : udpToTcp printDouble udp addr = some p) : WellFormed p := by
  have hsized : Sized p p.payload.chars.length := FromUdp.sized ⟨_, _, _, h⟩
  have hle := hsized.le
  have hsum : sizeofTcpPacket - maxLen = 90 := rfl
  have htotal : sizeofTcpPacket = 1591 := rfl
  refine ⟨zero_mem_bytes _, zero_mem_bytes _, ?_, ?_, ?_⟩
  · rw [cstr_bytes]
    exact hsized.size_eq
  · rw [cstr_bytes]
    omega
  · rw [hsized.atoi_bytes, bytes_length, Int.toNat_natCast]
    omega

/-- What is known of `%lf`: the text of a double has no NUL and at most 317 characters. -/
def DoubleText (printDouble : Bool → ℕ → ℤ → Bytes) : Prop :=
  ∀ neg n e, 0 ∉ printDouble neg n e ∧ (printDouble neg n e).length ≤ 317

theorem signed_natAbs (mem : Bytes) (i : ℕ) (P : Prop) [Decidable P] :
    ((if P then -1 else 1) * (be32 mem i : ℤ)).natAbs < 10 ^ 10 := by
  have hlt := be32_lt mem i
  split <;> simp <;> omega

/-- Of every type but a string that is too long, the name and the text fit. -/
theorem udpText_fits (hprint : DoubleText printDouble) (h : udpText printDouble udp = some (type, text))
    (hstring : udp.type = 3 → (cstr udp.payload).length < maxLen) :
    (0 ∉ type ∧ type.length < 11) ∧ 0 ∉ text ∧ text.length < maxLen := by
  unfold udpText at h
  dsimp only at h
  split at h
  · split at h
    · cases h
    · cases h
      refine ⟨by decide, decimalInt_nul_free _, ?_⟩
      exact (decimalInt_length_le (by decide) (signed_natAbs _ _ _)).trans_lt (by decide)
  split at h
  · cases h
    refine ⟨by decide, twoDecimals_nul_free _, ?_⟩
    exact (twoDecimals_length_le (be16_lt _ _)).trans_lt (by decide)
  split at h
  · split at h
    · cases h
    · cases h
      obtain ⟨hnul, hlen⟩ := hprint (udp.payload.getD 0 0 ≠ 0) (be32 udp.payload 1) (schar (udp.payload.getD 5 0))
      exact ⟨by decide, hnul, hlen.trans_lt (by decide)⟩
  split at h
  · next htype =>
    cases h
    exact ⟨by decide, cstr_nul_free _, hstring htype⟩
  · cases h

theorem recvfrom_length (d : Bytes) : (recvfrom d).length = bufLen := by
  rw [recvfrom, List.length_append, List.length_take, List.length_replicate]
  omega

theorem receiveMemory_getD {i : ℕ} (hi : i < bufLen) (d beyond : Bytes) :
    (receiveMemory d beyond).getD i 0 = (recvfrom d).getD i 0 := by
  rw [receiveMemory, List.getD_eq_getElem?_getD, List.getElem?_append_left (by rwa [recvfrom_length]),
    ← List.getD_eq_getElem?_getD]

theorem receiveMemory_topic (d beyond : Bytes) :
    (UdpPacket.ofBuffer (receiveMemory d beyond)).topic = (UdpPacket.ofBuffer (recvfrom d)).topic := by
  rw [UdpPacket.ofBuffer, receiveMemory, List.take_append_of_le_length (by rw [recvfrom_length]; decide)]
  rfl

theorem receiveMemory_type (d beyond : Bytes) :
    (UdpPacket.ofBuffer (receiveMemory d beyond)).type = (UdpPacket.ofBuffer (recvfrom d)).type :=
  receiveMemory_getD (by decide) d beyond

theorem receiveMemory_payload (d beyond : Bytes) : (UdpPacket.ofBuffer (receiveMemory d beyond)).payload =
    (UdpPacket.ofBuffer (recvfrom d)).payload ++ beyond := by
  rw [UdpPacket.ofBuffer, receiveMemory, List.drop_append_of_le_length (by rw [recvfrom_length]; decide)]
  rfl

theorem receiveMemory_payload_getD {i : ℕ} (hi : i < maxLen) (d beyond : Bytes) :
    (UdpPacket.ofBuffer (receiveMemory d beyond)).payload.getD i 0 =
      (UdpPacket.ofBuffer (recvfrom d)).payload.getD i 0 := by
  have hlt : 51 + i < bufLen := by
    simp only [bufLen, maxLen] at *
    omega
  rw [UdpPacket.ofBuffer, UdpPacket.ofBuffer, getD_drop, getD_drop, receiveMemory_getD hlt]

/-- What lies behind the buffer is read only for a string without a NUL in it. -/
theorem udpText_receiveMemory (hstring : d.getD 50 0 = 3 → 0 ∈ (UdpPacket.ofBuffer (recvfrom d)).payload)
    (beyond : Bytes) : udpText printDouble (.ofBuffer (receiveMemory d beyond)) =
      udpText printDouble (.ofBuffer (recvfrom d)) := by
  have hget {i : ℕ} (hi : i < maxLen) := receiveMemory_payload_getD hi d beyond
  have hbe16 {i : ℕ} (hi : i + 1 < maxLen) : be16 (UdpPacket.ofBuffer (receiveMemory d beyond)).payload i =
      be16 (UdpPacket.ofBuffer (recvfrom d)).payload i := by
    rw [be16, be16, hget (by omega), hget hi]
  have hbe32 : be32 (UdpPacket.ofBuffer (receiveMemory d beyond)).payload 1 =
      be32 (UdpPacket.ofBuffer (recvfrom d)).payload 1 := by
    rw [be32, be32, hbe16 (by decide), hbe16 (by decide)]
  rw [udpText, udpText, receiveMemory_type, hget (by decide), hget (by decide), hbe32, hbe16 (by decide)]
  by_cases htype : d.getD 50 0 = 3
  · rw [receiveMemory_payload, cstr_append_of_nul (hstring htype)]
  · have hthree : ¬ (UdpPacket.ofBuffer (recvfrom d)).type = 3 := by rwa [type_recvfrom]
    rw [if_neg hthree, if_neg hthree]

theorem udpToTcp_receiveMemory (hstring : d.getD 50 0 = 3 → 0 ∈ (UdpPacket.ofBuffer (recvfrom d)).payload)
    (beyond : Bytes) : udpToTcp printDouble (.ofBuffer (receiveMemory d beyond)) addr =
      udpToTcp printDouble (.ofBuffer (recvfrom d)) addr := by
  rw [udpToTcp, udpToTcp, udpText_receiveMemory hstring, receiveMemory_topic]

theorem payload_length (d : Bytes) : (UdpPacket.ofBuffer (recvfrom d)).payload.length = maxLen := by
  rw [UdpPacket.ofBuffer, List.length_drop, recvfrom_length]
  rfl

theorem cstr_length_lt {s : Bytes} (h : 0 ∈ s) : (cstr s).length < s.length := by
  apply lt_of_le_of_ne (cstr_length_le s)
  intro hlen
  have hall : cstr s = s := (List.takeWhile_prefix _).eq_of_length hlen
  rw [← hall] at h
  exact cstr_nul_free s h

theorem udpText_of_string {b : Bytes} (htype : (UdpPacket.ofBuffer b).type = 3) :
    udpText printDouble (.ofBuffer b) = some (ascii "STRING", cstr (UdpPacket.ofBuffer b).payload) := by
  rw [udpText, if_neg (by rw [htype]; decide), if_neg (by rw [htype]; decide), if_neg (by rw [htype]; decide),
    if_pos htype]

theorem udpToTcp_unterminated (htype : d.getD 50 0 = 3)
    (hnul : 0 ∉ (UdpPacket.ofBuffer (recvfrom d)).payload) (beyond : Bytes) :
    udpToTcp printDouble (.ofBuffer (receiveMemory d beyond)) addr = none := by
  have hthree : (UdpPacket.ofBuffer (receiveMemory d beyond)).type = 3 := by
    rw [receiveMemory_type, type_recvfrom, htype]
  have hlong : maxLen ≤ (cstr (UdpPacket.ofBuffer (receiveMemory d beyond)).payload).length := by
    rw [receiveMemory_payload, cstr_append_of_nul_free hnul, List.length_append, payload_length]
    exact Nat.le_add_right _ _
  rw [Option.eq_none_iff_forall_ne_some]
  intro p hp
  rw [udpToTcp, udpText_of_string hthree] at hp
  simp only [Option.bind_eq_bind, Option.bind_some, Option.bind_eq_some_iff] at hp
  obtain ⟨ip, -, topic, -, ty, -, payload, hpayload, -⟩ := hp
  have hfits := payload.fits
  rw [CString.strcpy_eq_some.mp hpayload, cstr_of_nul_free (cstr_nul_free _)] at hfits
  omega

/-- `recvfrom` leaves no NUL in the payload when the datagram fills the buffer without one. -/
theorem nul_not_mem_payload (hlen : d.length ≤ bufLen) :
    0 ∉ (UdpPacket.ofBuffer (recvfrom d)).payload ↔ d.length = bufLen ∧ 0 ∉ d.drop 51 := by
  rw [UdpPacket.ofBuffer, recvfrom, List.take_of_length_le hlen]
  by_cases hfull : d.length = bufLen
  · rw [hfull, Nat.sub_self, List.replicate_zero, List.append_nil]
    simp
  · have hmem : 0 ∈ (d ++ List.replicate (bufLen - d.length) 0).drop 51 := by
      apply List.mem_of_getElem? (i := 1500)
      rw [List.getElem?_drop, List.getElem?_append_right (by rw [bufLen] at *; omega), List.getElem?_replicate]
      exact if_pos (by rw [bufLen] at *; omega)
    exact iff_of_false (not_not.mpr hmem) fun h => hfull h.1

/-- A datagram that is not rejected becomes a well-formed packet just when it is no string that fills
the whole buffer with bytes that are not NUL. -/
theorem convertsWell_iff (hprint : DoubleText printDouble) (addr : SockAddr)
    (hlen : 0 < d.length ∧ d.length ≤ bufLen) (haccepted : udpText printDouble (.ofBuffer (recvfrom d)) ≠ none) :
    ConvertsWell printDouble d addr ↔ ¬ (d.getD 50 0 = 3 ∧ d.length = bufLen ∧ 0 ∉ d.drop 51) := by
  rw [← nul_not_mem_payload hlen.2]
  constructor
  · rintro ⟨p, hp, -⟩ ⟨htype, hnul⟩
    have hnone : udpToTcp printDouble (.ofBuffer (receiveMemory d [])) addr = none :=
      udpToTcp_unterminated htype hnul []
    rw [hp []] at hnone
    cases hnone
  · intro h
    have hstring (htype : d.getD 50 0 = 3) : 0 ∈ (UdpPacket.ofBuffer (recvfrom d)).payload := by
      by_contra hnul
      exact h ⟨htype, hnul⟩
    obtain ⟨⟨type, text⟩, htext⟩ := Option.ne_none_iff_exists'.mp haccepted
    obtain ⟨htype, hnul, hfit⟩ := udpText_fits hprint htext fun hthree => by
      rw [type_recvfrom] at hthree
      have hlt := cstr_length_lt (hstring hthree)
      rwa [payload_length] at hlt
    obtain ⟨p, hp, -⟩ := udpToTcp_line addr htext (List.length_take_le _ _) htype hnul hfit
    exact ⟨p, fun beyond => (udpToTcp_receiveMemory hstring beyond).trans hp, wellFormed_of_udpToTcp hp⟩

def fullString : Bytes := List.replicate 50 116 ++ 3 :: List.replicate 1501 97

theorem fullString_type : fullString.getD 50 0 = 3 := by
  rw [← Nat.add_zero 50, ← getD_drop, fullString, List.drop_left' List.length_replicate]
  rfl

theorem fullString_length : fullString.length = bufLen := by
  rw [fullString, List.length_append, List.length_cons, List.length_replicate, List.length_replicate]
  rfl

theorem fullString_nul_free : 0 ∉ fullString.drop 51 := by
  rw [fullString, show 51 = 50 + 1 from rfl, ← List.drop_drop, List.drop_left' List.length_replicate,
    List.drop_one, List.tail_cons, List.mem_replicate]
  exact fun h => absurd h.2 (by decide)

theorem fullString_accepted (printDouble : Bool → ℕ → ℤ → Bytes) :
    udpText printDouble (.ofBuffer (recvfrom fullString)) ≠ none := by
  rw [udpText_of_string (by rw [type_recvfrom, fullString_type])]
  exact Option.some_ne_none _

/-- The string is not rejected, and its copy goes on behind the buffer and the field. -/
theorem fullString_overruns : 0 < fullString.length ∧ fullString.length ≤ bufLen ∧
    udpText (fun _ _ _ => []) (.ofBuffer (recvfrom fullString)) ≠ none ∧
    ¬ ConvertsWell (fun _ _ _ => []) fullString ⟨(10, 0, 0, 1), (0, 80)⟩ := by
  have hlen := fullString_length
  have hnul : 0 ∉ (UdpPacket.ofBuffer (recvfrom fullString)).payload :=
    (nul_not_mem_payload hlen.le).mpr ⟨hlen, fullString_nul_free⟩
  refine ⟨by rw [hlen]; decide, hlen.le, fullString_accepted _, ?_⟩
  rintro ⟨p, hp, -⟩
  have hsome := hp []
  rw [udpToTcp_unterminated fullString_type hnul] at hsome
  cases hsome

def shortString : Bytes := List.replicate 50 116 ++ [3, 97]

theorem fullString_convertsWell_iff : ConvertsWell (fun _ _ _ => []) shortString ⟨(10, 0, 0, 1), (0, 80)⟩ ∧
    ¬ ConvertsWell (fun _ _ _ => []) fullString ⟨(10, 0, 0, 1), (0, 80)⟩ := by
  have hprint : DoubleText fun _ _ _ => [] := fun _ _ _ => ⟨by simp, by simp⟩
  constructor
  · have haccepted : udpText (fun _ _ _ => []) (.ofBuffer (recvfrom shortString)) ≠ none := by
      rw [udpText_of_string (by rw [type_recvfrom]; decide)]
      exact Option.some_ne_none _
    have hlen : shortString.length = 52 := by decide
    refine (convertsWell_iff hprint _ ⟨by decide, by rw [hlen]; decide⟩ haccepted).mpr fun h => ?_
    exact absurd (hlen.symm.trans h.2.1) (by decide)
  · have hlen := fullString_length
    intro h
    refine (convertsWell_iff hprint _ ⟨by rw [hlen]; decide, hlen.le⟩ (fullString_accepted _)).mp h ?_
    exact ⟨fullString_type, hlen, fullString_nul_free⟩

end PCom.PubSub
