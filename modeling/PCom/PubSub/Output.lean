import PCom.PubSub.Frames

/-! # From a datagram to the printed line

What the subscriber prints of a datagram whose frame it receives whole. The topic, the number and
the string are read off the datagram's own bytes.
-/

namespace PCom.PubSub
open Foundations

/-- The server's zero-filled buffer after `recvfrom`, which cuts a datagram at `BUFLEN` bytes. -/
def recvfrom (datagram : Bytes) : Bytes :=
  datagram.take bufLen ++ List.replicate (bufLen - datagram.length) 0

def UdpPacket.ofBuffer (buffer : Bytes) : UdpPacket where
  topic := buffer.take 50
  type := buffer.getD 50 0
  payload := buffer.drop 51

variable {d : Bytes} {udp : UdpPacket} {type text : Bytes}

theorem recvfrom_getD {i : ℕ} (hi : i < bufLen) : (recvfrom d).getD i 0 = d.getD i 0 := by
  rw [recvfrom, List.getD_eq_getElem?_getD, List.getD_eq_getElem?_getD, List.getElem?_append]
  split
  · rw [List.getElem?_take_of_lt hi]
  · next hlen =>
    rw [List.getElem?_replicate, List.getElem?_eq_none (l := d) (by simp at hlen; omega)]
    split <;> rfl

theorem topic_recvfrom (d : Bytes) : cstr (UdpPacket.ofBuffer (recvfrom d)).topic = cstr (d.take 50) := by
  have htake : (recvfrom d).take 50 = d.take 50 ++
      List.replicate (min (50 - (d.take bufLen).length) (bufLen - d.length)) 0 := by
    rw [recvfrom, List.take_append, List.take_take, List.take_replicate]
    rfl
  rw [UdpPacket.ofBuffer, htake, cstr_append_zeros]

theorem payload_recvfrom (hfit : (cstr (d.drop 51)).length < maxLen) :
    cstr (UdpPacket.ofBuffer (recvfrom d)).payload = cstr (d.drop 51) := by
  have hdrop : (recvfrom d).drop 51 = (d.drop 51).take maxLen ++
      List.replicate (bufLen - d.length - (51 - (d.take bufLen).length)) 0 := by
    rw [recvfrom, List.drop_append, List.drop_take, List.drop_replicate]
    rfl
  rw [UdpPacket.ofBuffer, hdrop, cstr_append_zeros, cstr_take, List.take_of_length_le hfit.le]

theorem payload_getD {i : ℕ} (hi : i < maxLen) :
    (UdpPacket.ofBuffer (recvfrom d)).payload.getD i 0 = d.getD (51 + i) 0 := by
  have hlt : 51 + i < bufLen := by
    simp only [bufLen, maxLen] at *
    omega
  rw [UdpPacket.ofBuffer, getD_drop, recvfrom_getD hlt]

theorem inetNtoa_nul_free (addr : SockAddr) : 0 ∉ addr.inetNtoa := by
  have hpoint : 0 ∉ ascii "." := by decide
  simp [SockAddr.inetNtoa, decimal_nul_free, hpoint]

theorem inetNtoa_length_lt (addr : SockAddr) : addr.inetNtoa.length < 16 := by
  have hbyte : ∀ c : UInt8, (decimal c.toNat).length ≤ 3 := fun c =>
    decimal_length_le (by omega) (c.toNat_lt.trans (by decide))
  have h₁ := hbyte addr.sinAddr.1
  have h₂ := hbyte addr.sinAddr.2.1
  have h₃ := hbyte addr.sinAddr.2.2.1
  have h₄ := hbyte addr.sinAddr.2.2.2
  have hpoint : (ascii ".").length = 1 := rfl
  simp only [SockAddr.inetNtoa, List.length_append, hpoint]
  omega

/-- A message whose type name and text fit their fields becomes a packet that prints them. -/
theorem udpToTcp_line {printDouble : Bool → ℕ → ℤ → Bytes} (addr : SockAddr)
    (htext : udpText printDouble udp = some (type, text)) (htopic : udp.topic.length ≤ 50)
    (htype : 0 ∉ type ∧ type.length < 11) (hnul : 0 ∉ text) (hlen : text.length < maxLen) :
    ∃ p, udpToTcp printDouble udp addr = some p ∧
      p.line = ⟨addr.inetNtoa, addr.ntohs, cstr udp.topic, type, text⟩ := by
  have hipfit : (cstr addr.inetNtoa).length < 16 := by
    rw [cstr_of_nul_free (inetNtoa_nul_free addr)]
    exact inetNtoa_length_lt addr
  have htopicfit : (cstr udp.topic).length < 51 := Nat.lt_succ_of_le ((cstr_length_le _).trans htopic)
  have htypefit : (cstr type).length < 11 := by
    rw [cstr_of_nul_free htype.1]
    exact htype.2
  have htextfit : (cstr text).length < maxLen := by
    rw [cstr_of_nul_free hnul]
    exact hlen
  obtain ⟨ip, hip⟩ := CString.strcpy_isSome hipfit
  obtain ⟨topic, htop⟩ := CString.strcpy_isSome htopicfit
  obtain ⟨ty, hty⟩ := CString.strcpy_isSome htypefit
  obtain ⟨payload, hpay⟩ := CString.strcpy_isSome htextfit
  have hsizefit : (cstr (decimal (sizeofTcpPacket - maxLen + payload.chars.length))).length < 10 := by
    have hpayload := payload.fits
    rw [cstr_of_nul_free (decimal_nul_free _)]
    refine (decimal_length_le (k := 4) (by omega) ?_).trans_lt (by omega)
    simp only [sizeofTcpPacket, maxLen] at *
    omega
  obtain ⟨size, hsize⟩ := CString.strcpy_isSome hsizefit
  refine ⟨⟨size, ip, addr.ntohs, ty, topic, payload⟩, ?_, ?_⟩
  · rw [udpToTcp, htext]
    simp only [Option.bind_eq_bind, Option.bind_some, hip, htop, hty, hpay, hsize]
    rfl
  · rw [TcpPacket.line, CString.strcpy_eq_some.mp hip, CString.strcpy_eq_some.mp htop,
      CString.strcpy_eq_some.mp hty, CString.strcpy_eq_some.mp hpay,
      cstr_of_nul_free (inetNtoa_nul_free addr), cstr_of_nul_free htype.1, cstr_of_nul_free hnul]

theorem twoDecimals_fixedText (n : ℕ) : FixedText 2 (twoDecimals n) (n / 100) := by
  refine ⟨n / 100, [digitChar (n / 10 % 10), digitChar (n % 10)], ?_, rfl, ?_, ?_⟩
  · have hpoint : ascii "." = [46] := by decide
    simp [twoDecimals, hpoint]
  · intro c hc
    rcases List.mem_pair.mp hc with rfl | rfl
    · exact isDigit_digitChar (by omega)
    · exact isDigit_digitChar (by omega)
  · have hval : digitsVal [digitChar (n / 10 % 10), digitChar (n % 10)] = n % 100 := by
      simp only [digitsVal, List.map_cons, List.map_nil, digitChar_toNat (Nat.mod_lt _ (by omega : 10 > 0)),
        List.reverse_cons, List.reverse_nil, List.nil_append, List.cons_append, Nat.ofDigits_cons,
        Nat.ofDigits_nil]
      omega
    have hsplit : (n : ℚ) = 100 * (n / 100 : ℕ) + (n % 100 : ℕ) := by
      exact_mod_cast (Nat.div_add_mod n 100).symm
    rw [hval, hsplit]
    ring

/-- The datagrams of the types whose text is exact: an INT has a sign byte of 0 or 1, and a STRING
ends inside the payload field. -/
structure ExactType (d : Bytes) : Prop where
  type : d.getD 50 0 = 0 ∨ d.getD 50 0 = 1 ∨ d.getD 50 0 = 3
  sign : d.getD 50 0 = 0 → (d.getD 51 0).toNat ≤ 1
  string : d.getD 50 0 = 3 → (cstr (d.drop 51)).length < maxLen

def intNumber (d : Bytes) : ℤ := (if d.getD 51 0 = 0 then 1 else -1) * be32 d 52

/-- The line says what the datagram says. -/
structure Line.Faithful (l : Line) (d : Bytes) (addr : SockAddr) : Prop where
  ip : l.ip = addr.inetNtoa
  port : l.port = addr.ntohs
  topic : l.topic = cstr (d.take 50)
  int : d.getD 50 0 = 0 → l.type = ascii "INT" ∧ l.payload = decimalInt (intNumber d) ∧
    atoi l.payload = intNumber d
  short : d.getD 50 0 = 1 → l.type = ascii "SHORT_REAL" ∧ FixedText 2 l.payload (be16 d 51 / 100)
  string : d.getD 50 0 = 3 → l.type = ascii "STRING" ∧ l.payload = cstr (d.drop 51)

theorem be16_payload {i : ℕ} (hi : i + 1 < maxLen) :
    be16 (UdpPacket.ofBuffer (recvfrom d)).payload i = be16 d (51 + i) := by
  rw [be16, be16, payload_getD (by omega), payload_getD hi, Nat.add_assoc]

theorem be32_payload {i : ℕ} (hi : i + 3 < maxLen) :
    be32 (UdpPacket.ofBuffer (recvfrom d)).payload i = be32 d (51 + i) := by
  rw [be32, be32, be16_payload (by omega), be16_payload hi, Nat.add_assoc]

theorem type_recvfrom (d : Bytes) : (UdpPacket.ofBuffer (recvfrom d)).type = d.getD 50 0 :=
  recvfrom_getD (by decide)

theorem natAbs_intNumber (d : Bytes) : (intNumber d).natAbs < 10 ^ 10 := by
  have hlt := be32_lt d 52
  have habs : (intNumber d).natAbs = be32 d 52 := by
    rw [intNumber]
    split
    · simp
    · simp
  rw [habs]
  exact hlt.trans (by norm_num)

theorem udpText_int (printDouble : Bool → ℕ → ℤ → Bytes) (htype : d.getD 50 0 = 0)
    (hsign : (d.getD 51 0).toNat ≤ 1) :
    udpText printDouble (UdpPacket.ofBuffer (recvfrom d)) =
      some (ascii "INT", decimalInt (intNumber d)) := by
  have hchar : ¬ 1 < schar (d.getD 51 0) := by
    have hcases : d.getD 51 0 = 0 ∨ d.getD 51 0 = 1 := by
      rw [← UInt8.toNat_inj, ← UInt8.toNat_inj]
      exact Nat.le_one_iff_eq_zero_or_eq_one.mp hsign
    rcases hcases with h | h
    · rw [h]
      decide
    · rw [h]
      decide
  rw [udpText, if_pos ((type_recvfrom d).trans htype), payload_getD (by decide),
    be32_payload (by decide), if_neg hchar, intNumber]
  simp only [ne_eq, ite_not]

theorem udpText_short (printDouble : Bool → ℕ → ℤ → Bytes) (htype : d.getD 50 0 = 1) :
    udpText printDouble (UdpPacket.ofBuffer (recvfrom d)) =
      some (ascii "SHORT_REAL", twoDecimals (be16 d 51)) := by
  have hone : (UdpPacket.ofBuffer (recvfrom d)).type = 1 := (type_recvfrom d).trans htype
  rw [udpText, if_neg (by rw [hone]; decide), if_pos hone, be16_payload (by decide)]

theorem udpText_string (printDouble : Bool → ℕ → ℤ → Bytes) (htype : d.getD 50 0 = 3)
    (hfit : (cstr (d.drop 51)).length < maxLen) :
    udpText printDouble (UdpPacket.ofBuffer (recvfrom d)) =
      some (ascii "STRING", cstr (d.drop 51)) := by
  have hthree : (UdpPacket.ofBuffer (recvfrom d)).type = 3 := (type_recvfrom d).trans htype
  rw [udpText, if_neg (by rw [hthree]; decide), if_neg (by rw [hthree]; decide),
    if_neg (by rw [hthree]; decide), if_pos hthree, payload_recvfrom hfit]

theorem twoDecimals_nul_free (n : ℕ) : 0 ∉ twoDecimals n := by
  have hpoint : 0 ∉ ascii "." := by decide
  have hdigit : ∀ k, 0 ≠ digitChar (k % 10) := fun k h =>
    ne_zero_of_isDigit (isDigit_digitChar (Nat.mod_lt k (by omega))) h.symm
  simp [twoDecimals, decimal_nul_free, hpoint, hdigit]

theorem twoDecimals_length_le {n : ℕ} (hn : n < 65536) : (twoDecimals n).length ≤ 6 := by
  have hwhole : (decimal (n / 100)).length ≤ 3 := decimal_length_le (by omega) (by omega)
  have hpoint : (ascii ".").length = 1 := rfl
  simp only [twoDecimals, List.length_append, List.length_cons, List.length_nil, hpoint]
  omega

/-- The packet made from a datagram prints what the datagram says. -/
theorem udpToTcp_faithful (printDouble : Bool → ℕ → ℤ → Bytes) (addr : SockAddr) (h : ExactType d) :
    ∃ p, udpToTcp printDouble (UdpPacket.ofBuffer (recvfrom d)) addr = some p ∧
      p.line.Faithful d addr := by
  have htopic : (UdpPacket.ofBuffer (recvfrom d)).topic.length ≤ 50 := List.length_take_le _ _
  have hne : ∀ {a b : UInt8}, a ≠ b → d.getD 50 0 = a → ¬ d.getD 50 0 = b :=
    fun hab ha hb => hab (ha.symm.trans hb)
  rcases h.type with htype | htype | htype
  · obtain ⟨p, hp, hline⟩ := udpToTcp_line addr
      (udpText_int printDouble htype (h.sign htype)) htopic (by decide) (decimalInt_nul_free _)
      ((decimalInt_length_le (by omega) (natAbs_intNumber d)).trans_lt (by decide))
    rw [topic_recvfrom] at hline
    refine ⟨p, hp, ?_⟩
    rw [hline]
    exact ⟨rfl, rfl, rfl, fun _ => ⟨rfl, rfl, atoi_decimalInt _⟩,
      fun h' => absurd h' (hne (by decide) htype), fun h' => absurd h' (hne (by decide) htype)⟩
  · obtain ⟨p, hp, hline⟩ := udpToTcp_line addr (udpText_short printDouble htype) htopic
      (by decide) (twoDecimals_nul_free _)
      ((twoDecimals_length_le (be16_lt d 51)).trans_lt (by decide))
    rw [topic_recvfrom] at hline
    refine ⟨p, hp, ?_⟩
    rw [hline]
    exact ⟨rfl, rfl, rfl, fun h' => absurd h' (hne (by decide) htype),
      fun _ => ⟨rfl, twoDecimals_fixedText _⟩, fun h' => absurd h' (hne (by decide) htype)⟩
  · obtain ⟨p, hp, hline⟩ := udpToTcp_line addr
      (udpText_string printDouble htype (h.string htype)) htopic (by decide) (cstr_nul_free _)
      (h.string htype)
    rw [topic_recvfrom] at hline
    refine ⟨p, hp, ?_⟩
    rw [hline]
    exact ⟨rfl, rfl, rfl, fun h' => absurd h' (hne (by decide) htype),
      fun h' => absurd h' (hne (by decide) htype), fun _ => ⟨rfl, rfl⟩⟩

/-- A datagram of an exact type becomes a frame. A subscriber that receives the frame and no more, its
size in one `recv` and the rest in the next, prints one line and this is a faithful one; of a longer
stream it is the first line. The payload ends with a NUL inside the zero-filled buffer. -/
theorem datagram_printed (printDouble : Bool → ℕ → ℤ → Bytes) (d : Bytes) (addr : SockAddr)
    (h : ExactType d) : ∃ p, udpToTcp printDouble (UdpPacket.ofBuffer (recvfrom d)) addr = some p ∧
      p.line.Faithful d addr ∧ 90 + p.payload.chars.length < tcpSize ∧
      ∀ (o : Network) (k : ℕ) (rest : Bytes), 10 ≤ o.offer k → p.frame.length ≤ 10 + o.offer (k + 1) →
        receive o p.frame k = some [p.line] ∧
          receive o (p.frame ++ rest) k = (receive o rest (k + 2)).map (p.line :: ·) := by
  obtain ⟨p, hp, hline⟩ := udpToTcp_faithful printDouble addr h
  have hsized : Sized p p.payload.chars.length := FromUdp.sized ⟨_, _, _, hp⟩
  refine ⟨p, hp, hline, ?_, fun o k rest hsize hpkt => ?_⟩
  · have := hsized.le
    simp only [tcpSize, sizeofTcpPacket, maxLen]
    omega
  rw [hsized.frame_length] at hpkt
  have hfirst (rest : Bytes) : receive o (p.frame ++ rest) k = (receive o rest (k + 2)).map (p.line :: ·) :=
    hsized.receive_frame (j := 0) (hsized.digits_le.trans (by omega))
      (by rw [total_zero, min_eq_left hsize]) (by rw [Nat.add_zero]; omega) rest
  refine ⟨?_, hfirst rest⟩
  have hend : receive o [] (k + 2) = some [] := by rw [receive, if_pos rfl]
  have hwhole := hfirst []
  rwa [List.append_nil, hend] at hwhole

/-- A datagram with the topic `t` and the number -5. -/
def minusFive : Bytes := ascii "t" ++ List.replicate 49 0 ++ [0, 1, 0, 0, 0, 5]

def wholeFrames : Network := ⟨fun _ => 2000, fun _ => by decide⟩

theorem minusFive_printed : ∃ p l,
    udpToTcp (fun _ _ _ => []) (UdpPacket.ofBuffer (recvfrom minusFive)) ⟨(10, 0, 0, 1), (0, 80)⟩ = some p ∧
      receive wholeFrames p.frame 0 = some [l] ∧ l.Faithful minusFive ⟨(10, 0, 0, 1), (0, 80)⟩ ∧
      l.payload = ascii "-5" := by
  have hexact : ExactType minusFive := ⟨by decide, by decide, by decide⟩
  obtain ⟨p, hp, hline, -, hreceive⟩ :=
    datagram_printed (fun _ _ _ => []) minusFive ⟨(10, 0, 0, 1), (0, 80)⟩ hexact
  have hpkt : p.frame.length ≤ 10 + wholeFrames.offer 1 := by
    have hsized : Sized p p.payload.chars.length := FromUdp.sized ⟨_, _, _, hp⟩
    have hfits := p.payload.fits
    rw [hsized.frame_length]
    simp only [wholeFrames, maxLen] at *
    omega
  obtain ⟨hwhole, -⟩ := hreceive wholeFrames 0 [] (by decide) hpkt
  obtain ⟨-, hpayload, -⟩ := hline.int rfl
  exact ⟨p, p.line, hp, hwhole, hline, hpayload.trans (by decide)⟩

end PCom.PubSub
