import PCom.PubSub.Frames
import PCom.PubSub.Probes

/-! # What the subscriber makes of the server's stream

The loop counts what it received but puts every segment at the start of the buffer, and asks
for the whole packet each time. It prints the packets that were sent only when the network
divides each frame in one of a few ways.
-/

namespace PCom.PubSub
open Foundations

/-- For all packets with these payload lengths, the subscriber prints what was sent. -/
def PrintsExactly (o : Network) (ls : List (Fin maxLen)) : Prop :=
  ∀ ps : List TcpPacket, (∀ p ∈ ps, FromUdp p) →
    ps.map (fun p => p.payload.chars.length) = ls.map Fin.val →
    receive o (sentStream ps) 0 = some (ps.map TcpPacket.line)

/-- How the network may divide the frames of packets with these payload lengths, from the
`k`-th `recv` on. The first count has all digits of the size; the next ones bring the rest of
the size field and no more; then the whole packet comes at once. The last byte of a packet
without payload is a NUL that may also come by itself, after the whole size field. -/
inductive Intact (o : Network) : ℕ → List ℕ → Prop
  | nil {k : ℕ} : Intact o k []
  | frame {k j l : ℕ} {ls : List ℕ} (digits : (decimal (90 + l)).length ≤ o.offer k)
      (padding : o.total (k + 1) j = 10 - min 10 (o.offer k))
      (packet : 90 + l ≤ o.offer (k + 1 + j)) (rest : Intact o (k + j + 2) ls) : Intact o k (l :: ls)
  | short {k : ℕ} {ls : List ℕ} (header : 10 ≤ o.offer k) (packet : o.offer (k + 1) = 89)
      (last : o.offer (k + 2) = 1 ∨ ls = []) (rest : Intact o (k + 3) ls) : Intact o k (0 :: ls)

/-- A stream divided in these ways is printed packet by packet. -/
theorem receive_of_intact {o : Network} {k : ℕ} {ls : List ℕ} (h : Intact o k ls) :
    ∀ ps : List TcpPacket, List.Forall₂ Sized ps ls →
      receive o (sentStream ps) k = some (ps.map TcpPacket.line) := by
  induction h with
  | nil =>
    intro ps hps
    cases hps
    rw [receive]
    rfl
  | @frame k j l ls digits padding packet _ ih =>
    intro ps hps
    obtain _ | ⟨hp, hps⟩ := hps
    rw [sentStream_cons, hp.receive_frame digits padding packet, ih _ hps]
    rfl
  | @short k ls header packet last _ ih =>
    intro ps hps
    obtain _ | ⟨hp, hps⟩ := hps
    rw [sentStream_cons, hp.receive_short header packet]
    · rw [ih _ hps]
      rfl
    · apply last.imp_right
      intro hnil
      subst hnil
      cases hps
      rfl

variable {o : Network} {k : ℕ} {stream : Bytes}

/-- A printed line comes from a header and a loop that ended. -/
theorem receive_cons {line : Line} {lines : List Line} (h : receive o stream k = some (line :: lines)) :
    ∃ buff n k', fill o (atoi (stream.take (o.recv k 10 stream))).toNat 0 []
        (stream.drop (o.recv k 10 stream)) (k + 1) = some (some (buff, n, k')) ∧
      printed buff = line ∧ receive o (stream.drop (o.recv k 10 stream + n)) k' = some lines := by
  rw [receive] at h
  split at h
  · simp at h
  split at h
  · simp at h
  · simp at h
  · next buff n k' hfill =>
    obtain ⟨lines', hrec, heq⟩ := Option.map_eq_some_iff.mp h
    obtain ⟨rfl, rfl⟩ := List.cons.inj heq
    exact ⟨buff, n, k', hfill, rfl, hrec⟩

def probeLines (ls : List (Fin maxLen)) : List Line := (ls.map probe).map TcpPacket.line

def needed (l : Fin maxLen) : ℕ := if l.val = 0 then 89 else 90 + l.val

theorem pow_digits_le_needed (l : Fin maxLen) :
    10 ^ ((decimal (90 + l.val)).length - 1) ≤ needed l := by
  by_cases hl : l.val = 0
  · rw [needed, if_pos hl, hl]
    exact (Nat.pow_le_pow_right (by omega) (Nat.sub_le_sub_right
      (decimal_length_le (n := 90 + 0) (k := 2) (by omega) (by omega)) 1)).trans (by decide)
  · rw [needed, if_neg hl]
    by_contra hlt
    have hpos := List.length_pos_of_ne_nil (decimal_ne_nil (90 + l.val))
    rcases Nat.eq_zero_or_pos ((decimal (90 + l.val)).length - 1) with hz | hz
    · rw [hz] at hlt
      omega
    · have := decimal_length_le hz (not_le.mp hlt)
      omega

theorem needed_pos (l : Fin maxLen) : 0 < needed l := by
  unfold needed
  split <;> omega

/-- Where the next header reads as a small number, a probe is not printed. -/
theorem needed_le_header {l : Fin maxLen} {ls : List (Fin maxLen)}
    (h : receive o stream k = some (probeLines (l :: ls))) :
    needed l ≤ (atoi (stream.take (o.recv k 10 stream))).toNat := by
  obtain ⟨buff, n, k', hfill, hprinted, -⟩ := receive_cons h
  exact (buff_of_printed hprinted).2.2.trans (length_of_fill (by simp) hfill)

/-- A NUL left in front of the next frame is taken for a packet of its own. -/
theorem receive_zero_cons (o : Network) (k : ℕ) (rest : Bytes) (ls : List (Fin maxLen)) :
    receive o (0 :: rest) k ≠ some (probeLines ls) := by
  intro h
  obtain ⟨c, hc⟩ : ∃ c, o.recv k 10 (0 :: rest) = c + 1 :=
    ⟨_, (Nat.sub_add_cancel (recv_pos (by omega) (by simp))).symm⟩
  have hdim : (atoi ((0 :: rest : Bytes).take (o.recv k 10 (0 :: rest)))).toNat = 0 := by
    rw [hc, List.take_succ_cons, atoi_zero_cons, Int.toNat_zero]
  cases ls with
  | nil =>
    rw [receive, if_neg (by simp), hdim, fill_done (le_refl 0)] at h
    obtain ⟨_, -, hnil⟩ := Option.map_eq_some_iff.mp h
    exact List.cons_ne_nil _ _ hnil
  | cons l ls =>
    have := needed_le_header h
    have := needed_pos l
    omega

/-- A header that starts inside the size field of the next frame reads as a small number. -/
theorem receive_overread (o : Network) (k : ℕ) (ls : List (Fin maxLen)) {y : ℕ} (hy : 0 < y)
    (hy' : y < 10) (hs : (sentStream (ls.map probe)).drop y ≠ []) :
    receive o ((sentStream (ls.map probe)).drop y) k ≠ some (probeLines ls) := by
  intro h
  cases ls with
  | nil => simp at hs
  | cons l ls =>
    have hlow := needed_le_header h
    have hhigh := (probe_sized l).header_lt hy' (.inl hy) (sentStream (ls.map probe))
      (c := o.recv k 10 ((sentStream ((l :: ls).map probe)).drop y))
    have := pow_digits_le_needed l
    rw [List.map_cons, sentStream_cons] at hlow hhigh
    omega

/-- The whole packet came in the last round: the rounds before it brought the size field. -/
theorem offset_of_printed {l : Fin maxLen} {ls : List (Fin maxLen)} {m c : ℕ} (hm : m < 100 + l.val)
    (hc : 89 ≤ c)
    (h : printed (((sentStream ((l :: ls).map probe)).drop m).take c) = (probe l).line) : m = 10 := by
  obtain ⟨htopic, -, -⟩ := buff_of_printed h
  have hat : ∀ i < 50, (sentStream ((l :: ls).map probe)).getD (m + (39 + i)) 0 = 97 := fun i hi => by
    rw [← getD_drop, ← getD_take (by omega : 39 + i < c)]
    exact htopic i hi
  have hfirst := place_of_a (hat 0 (by omega)) (by omega)
  have hlast := place_of_a (hat 49 (by omega)) (by omega)
  omega

variable {l : Fin maxLen} {ls : List (Fin maxLen)}

theorem sentStream_probe (l : Fin maxLen) (ls : List (Fin maxLen)) :
    sentStream ((l :: ls).map probe) = (probe l).frame ++ sentStream (ls.map probe) := rfl

theorem length_sentStream_cons (l : Fin maxLen) (ls : List (Fin maxLen)) :
    (sentStream ((l :: ls).map probe)).length = 100 + l.val + (sentStream (ls.map probe)).length := by
  rw [sentStream_probe, List.length_append, (probe_sized l).frame_length]

theorem drop_sentStream_cons (l : Fin maxLen) (ls : List (Fin maxLen)) (m : ℕ) :
    (sentStream ((l :: ls).map probe)).drop (100 + l.val + m) = (sentStream (ls.map probe)).drop m := by
  rw [← List.drop_drop, sentStream_probe, (probe_sized l).stream_drop]

theorem nil_or_frame (ls : List (Fin maxLen)) :
    ls = [] ∧ (sentStream (ls.map probe)).length = 0 ∨ 100 ≤ (sentStream (ls.map probe)).length := by
  cases ls with
  | nil => exact .inl ⟨rfl, rfl⟩
  | cons l ls =>
    right
    rw [length_sentStream_cons]
    omega

theorem size_end (ls : List (Fin maxLen)) : (sentStream (ls.map probe)).getD 9 0 = 0 := by
  cases ls with
  | nil => rfl
  | cons l ls =>
    have hdigits := (probe_sized l).digits_le
    rw [sentStream_probe, (probe_sized l).frame_eq, (probe_sized l).size_bytes, List.append_assoc,
      List.append_assoc, List.getD_append_right _ _ _ _ (by omega),
      List.getD_append _ _ _ _ (by rw [List.length_replicate]; omega), List.getD_replicate _ (by omega)]

/-- The first segment of a printed frame had all digits of the size. -/
theorem digits_of_printed (h : receive o (sentStream ((l :: ls).map probe)) k =
    some (probeLines (l :: ls))) : (decimal (90 + l.val)).length ≤ min 10 (o.offer k) := by
  by_contra hlt
  have hlow := needed_le_header h
  have hhigh := (probe_sized l).header_lt (y := 0) (by omega) (.inr (not_le.mp hlt))
    (sentStream (ls.map probe))
  have := pow_digits_le_needed l
  rw [sentStream_probe, (probe_sized l).header] at hlow
  rw [List.drop_zero] at hhigh
  omega

/-- The last round of a frame without payload, when the round before it brought 89 bytes: the
buffer is printed as it should be only when this round brings one byte. -/
theorem short_of_printed {c₀ r k' : ℕ} (hl : l.val = 0) (hc₀ : 2 ≤ c₀) (hc₀' : c₀ ≤ 10) (hr : 0 < r)
    (hfit : c₀ + 89 + r ≤ (sentStream ((l :: ls).map probe)).length)
    (hprinted : printed (((sentStream ((l :: ls).map probe)).drop (c₀ + 89)).take r ++
      (((sentStream ((l :: ls).map probe)).drop c₀).take 89).drop r) = (probe l).line)
    (h : receive o ((sentStream ((l :: ls).map probe)).drop (c₀ + (89 + r))) k' = some (probeLines ls)) :
    c₀ = 10 ∧ r = 1 := by
  obtain ⟨htopic, hip, -⟩ := buff_of_printed hprinted
  set S := sentStream ((l :: ls).map probe)
  set buff := (S.drop (c₀ + 89)).take r ++ ((S.drop c₀).take 89).drop r with hbuff
  have hlen : ((S.drop (c₀ + 89)).take r).length = r := by
    rw [List.length_take, List.length_drop]
    omega
  have hlow : ∀ i < r, buff.getD i 0 = S.getD (c₀ + 89 + i) 0 := fun i hi => by
    rw [hbuff, List.getD_append _ _ _ _ (by omega), getD_take hi, getD_drop]
  have hhigh : ∀ i, r ≤ i → i < 89 → buff.getD i 0 = S.getD (c₀ + i) 0 := fun i hi hi' => by
    rw [hbuff, List.getD_append_right _ _ _ _ (by omega), hlen, getD_drop,
      Nat.add_sub_cancel' hi, getD_take hi', getD_drop]
  have hten : c₀ = 10 := by
    have ha := htopic 0 (by omega)
    by_cases hr39 : 39 < r
    · rw [hlow _ (by omega)] at ha
      have := place_of_a ha (by omega)
      omega
    · rw [hhigh _ (by omega) (by omega)] at ha
      have := place_of_a ha (by omega)
      omega
  subst hten
  refine ⟨rfl, ?_⟩
  by_contra hne
  by_cases hr11 : 10 < r
  · -- the byte at the place of the ip is the end of the next size field
    have hend : S.getD (10 + 89 + 10) 0 = (sentStream (ls.map probe)).getD 9 0 := by
      rw [show 10 + 89 + 10 = 100 + l.val + 9 by omega, ← getD_drop]
      exact congrArg (List.getD · 9 0) (drop_sentStream_cons l ls 0)
    rw [hlow 10 hr11, hend, size_end] at hip
    exact absurd hip (by decide)
  · have hS : S.length = 100 + l.val + (sentStream (ls.map probe)).length :=
      length_sentStream_cons l ls
    rw [show 10 + (89 + r) = 100 + l.val + (r - 1) by omega, drop_sentStream_cons] at h
    refine receive_overread o k' ls (by omega) (by omega) ?_ h
    intro hnil
    have hshort := congrArg List.length hnil
    rw [List.length_drop, List.length_nil] at hshort
    rcases nil_or_frame ls with ⟨-, hzero⟩ | hframe <;> omega

theorem drop_topic (l : Fin maxLen) (ls : List (Fin maxLen)) :
    (sentStream ((l :: ls).map probe)).drop 99 =
      0 :: (List.replicate l.val 98 ++ sentStream (ls.map probe)) := by
  rw [sentStream_probe, probe_frame, List.append_assoc, List.append_assoc, ← List.append_assoc]
  exact List.drop_left' (by rw [List.length_append, intro_length, List.length_replicate])

/-- A frame without payload of which 89 bytes came at once, right after the header. -/
theorem short_division {c₀ n k' : ℕ} {buff : Bytes} (hl : l.val = 0) (hc₀ : 2 ≤ c₀) (hc₀' : c₀ ≤ 10)
    (hfirst : o.recv (k + 1) (90 + l.val) ((sentStream ((l :: ls).map probe)).drop c₀) = 89)
    (hfill : fill o (90 + l.val) 89 (((sentStream ((l :: ls).map probe)).drop c₀).take 89)
      ((sentStream ((l :: ls).map probe)).drop (c₀ + 89)) (k + 2) = some (some (buff, n, k')))
    (hprinted : printed buff = (probe l).line)
    (hrest : receive o ((sentStream ((l :: ls).map probe)).drop (c₀ + n)) k' = some (probeLines ls)) :
    c₀ = 10 ∧ o.offer (k + 1) = 89 ∧ (o.offer (k + 2) = 1 ∨ ls = []) ∧
      receive o (sentStream (ls.map probe)) (k + 3) = some (probeLines ls) := by
  have hlen := length_sentStream_cons l ls
  rcases fill_eq_done hfill with ⟨hle, -⟩ | ⟨-, hne, hround⟩
  · omega
  set r := o.recv (k + 2) (90 + l.val) ((sentStream ((l :: ls).map probe)).drop (c₀ + 89)) with hr
  have hrpos : 0 < r := recv_pos (by omega) hne
  rw [fill_done (by omega)] at hround
  simp only [Option.some.injEq, Prod.mk.injEq] at hround
  obtain ⟨rfl, rfl, rfl⟩ := hround
  simp only [Network.recv, List.length_drop] at hfirst hr
  have hpos := List.length_pos_of_ne_nil hne
  rw [List.length_drop] at hpos
  obtain ⟨rfl, hone⟩ := short_of_printed hl hc₀ hc₀' hrpos (by omega) hprinted hrest
  refine ⟨rfl, by omega, ?_, ?_⟩
  · rcases nil_or_frame ls with ⟨hnil, -⟩ | hframe
    · exact .inr hnil
    · left
      omega
  · rwa [show 10 + (89 + r) = 100 + l.val + 0 by omega, drop_sentStream_cons, List.drop_zero] at hrest

/-- How the network divided the first frame of probes that were printed. -/
theorem division_of_printed (h : receive o (sentStream ((l :: ls).map probe)) k =
    some (probeLines (l :: ls))) :
    (∃ j, o.total (k + 1) j = 10 - min 10 (o.offer k) ∧ 90 + l.val ≤ o.offer (k + 1 + j) ∧
      receive o (sentStream (ls.map probe)) (k + j + 2) = some (probeLines ls)) ∨
    (l.val = 0 ∧ 10 ≤ o.offer k ∧ o.offer (k + 1) = 89 ∧ (o.offer (k + 2) = 1 ∨ ls = []) ∧
      receive o (sentStream (ls.map probe)) (k + 3) = some (probeLines ls)) := by
  have hdigits := digits_of_printed h
  have htwo : 2 ≤ (decimal (90 + l.val)).length := lt_decimal_length (by omega)
  have hrecv : o.recv k 10 (sentStream ((l :: ls).map probe)) = min 10 (o.offer k) :=
    (probe_sized l).header o k _
  obtain ⟨buff, n, k', hfill, hprinted, hrest⟩ := receive_cons h
  rw [hrecv, sentStream_probe, (probe_sized l).atoi_take hdigits (by omega), ← sentStream_probe] at hfill
  rw [hrecv] at hrest
  set S := sentStream ((l :: ls).map probe)
  set c₀ := min 10 (o.offer k)
  have hneeded : 89 ≤ needed l ∧ (l.val ≠ 0 → needed l = 90 + l.val) ∧ needed l ≤ 90 + l.val := by
    unfold needed
    split <;> omega
  obtain ⟨j, hlt, hbig, hfill⟩ := fill_cases (needed_pos l) hneeded.2.2
    (by rw [List.length_nil]; exact needed_pos l) hfill
    (buff_of_printed hprinted).2.2
  rw [Nat.zero_add] at hlt hfill
  rw [List.drop_drop] at hbig hfill
  set c := o.recv (k + 1 + j) (90 + l.val) (S.drop (c₀ + o.total (k + 1) j)) with hc
  have hoffer : c ≤ o.offer (k + 1 + j) := (min_le_right _ _).trans (min_le_left _ _)
  have hcle : c ≤ 90 + l.val := min_le_left _ _
  by_cases hall : 90 + l.val ≤ o.total (k + 1) j + c
  · rw [fill_done hall] at hfill
    simp only [Option.some.injEq, Prod.mk.injEq] at hfill
    obtain ⟨rfl, rfl, rfl⟩ := hfill
    have hten := offset_of_printed (by omega) (by omega) hprinted
    by_cases hfull : c = 90 + l.val
    · refine .inl ⟨j, by omega, by omega, ?_⟩
      rwa [show c₀ + (o.total (k + 1) j + c) = 100 + l.val + 0 by omega, drop_sentStream_cons,
        show k + 1 + j + 1 = k + j + 2 by omega] at hrest
    · -- the last NUL of the packet is left for the next header
      rw [show c₀ + (o.total (k + 1) j + c) = 99 by omega, drop_topic] at hrest
      exact absurd hrest (receive_zero_cons o _ _ ls)
  · have hl : l.val = 0 := by omega
    obtain rfl : j = 0 := by
      by_contra hj
      obtain ⟨j, rfl⟩ := Nat.exists_eq_succ_of_ne_zero hj
      have := o.offer_pos (k + 1)
      rw [total_succ] at hall
      omega
    simp only [total_zero, Nat.zero_add, Nat.add_zero, List.drop_drop] at hall hfill hc
    have hc89 : c = 89 := by omega
    rw [hc89] at hfill hc
    obtain ⟨hten, hpkt, hlast, hrest'⟩ := short_division hl (by omega) (by omega) hc.symm hfill hprinted hrest
    exact .inr ⟨hl, by omega, hpkt, hlast, hrest'⟩

/-- Probes are printed only when each frame was divided in one of the ways of `Intact`. -/
theorem intact_of_receive (ls : List (Fin maxLen)) :
    ∀ k, receive o (sentStream (ls.map probe)) k = some (probeLines ls) →
      Intact o k (ls.map Fin.val) := by
  induction ls with
  | nil => exact fun k _ => .nil
  | cons l ls ih =>
    intro k h
    have hdigits := digits_of_printed h
    rw [List.map_cons]
    rcases division_of_printed h with ⟨j, hpad, hpkt, hrest⟩ | ⟨hl, hheader, hpkt, hlast, hrest⟩
    · exact .frame (hdigits.trans (min_le_right _ _)) hpad hpkt (ih _ hrest)
    · rw [hl]
      exact .short hheader hpkt (hlast.imp_right fun hnil => by rw [hnil, List.map_nil]) (ih _ hrest)

/-- The subscriber prints exactly the packets that were sent just when the network divides every
frame in one of the ways of `Intact`. -/
theorem printsExactly_iff (o : Network) (ls : List (Fin maxLen)) :
    PrintsExactly o ls ↔ Intact o 0 (ls.map Fin.val) := by
  constructor
  · intro h
    refine intact_of_receive ls 0 (h (ls.map probe) ?_ ?_)
    · intro p hp
      obtain ⟨l, -, rfl⟩ := List.mem_map.mp hp
      exact probe_fromUdp l
    · rw [List.map_map]
      exact List.map_congr_left fun l _ => (probe_sized l).length_eq
  · intro h ps hfrom hlens
    apply receive_of_intact h ps
    rw [← hlens, List.forall₂_map_right_iff, List.forall₂_same]
    exact fun p hp => (hfrom p hp).sized

/-- A network that has fifty bytes for the second `recv` and everything for the others. -/
def fiftyBytes : Network where
  offer k := if k = 1 then 50 else 2000
  offer_pos k := by split <;> omega

def threeChars : Fin maxLen := ⟨3, by decide⟩

/-- A packet of 93 bytes that comes in two segments is not printed as it was sent. -/
theorem twoSegments_differ : FromUdp (probe threeChars) ∧
    receive fiftyBytes (sentStream [probe threeChars]) 0 ≠ some [(probe threeChars).line] := by
  refine ⟨probe_fromUdp threeChars, fun h => ?_⟩
  cases intact_of_receive [threeChars] 0 h with
  | @frame _ j _ _ _ padding packet _ =>
    cases j with
    | zero => exact absurd packet (by decide)
    | succ j =>
      rw [total_succ] at padding
      simp [fiftyBytes] at padding

end PCom.PubSub
