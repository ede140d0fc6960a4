import PCom.PubSub.Packets

/-! # The subscriber's receive loop

The branch of the subscriber's `main` that receives from the server: ten bytes for the size of
a packet, then a loop that counts received bytes and puts every segment at the start of the
buffer. The server keeps the connection open, so a `recv` on a stream that is used up waits.
-/

namespace PCom.PubSub
open Foundations

/-- `TCP_SIZE`, the size of `tcp_buff`. -/
def tcpSize : ℕ := sizeofTcpPacket + 1

/-- How the network divides the stream: the most bytes it has for each `recv` call. -/
structure Network where
  offer : ℕ → ℕ
  offer_pos : ∀ k, 0 < offer k

/-- The count that the `k`-th `recv` returns when it is asked for `len` bytes. -/
def Network.recv (o : Network) (k len : ℕ) (stream : Bytes) : ℕ :=
  min len (min (o.offer k) stream.length)

structure Line where
  ip : Bytes
  port : UInt16
  topic : Bytes
  type : Bytes
  payload : Bytes
deriving DecidableEq

def TcpPacket.line (p : TcpPacket) : Line :=
  ⟨p.ip.chars, p.port, p.topic.chars, p.type.chars, p.payload.chars⟩

/-- The buffer seen as a `TCP_Packet`; bytes that were not received are zero. -/
def printed (buff : Bytes) : Line where
  ip := cstr (buff.drop 10)
  port := UInt16.ofNat ((buff.getD 26 0).toNat + 256 * (buff.getD 27 0).toNat)
  topic := cstr (buff.drop 39)
  type := cstr (buff.drop 28)
  payload := cstr (buff.drop 90)

/-- The loop `while (received < dim)`. The result is `none` where `recv` writes outside the
buffer, and `some none` where it waits for ever; otherwise it is the buffer, the count and the
number of the next `recv` call. -/
def fill (o : Network) (dim received : ℕ) (buff stream : Bytes) (k : ℕ) :
    Option (Option (Bytes × ℕ × ℕ)) :=
  if received < dim then
    if stream = [] then some none
    else if tcpSize < o.recv k dim stream then none
    else
      fill o dim (received + o.recv k dim stream)
        (stream.take (o.recv k dim stream) ++ buff.drop (o.recv k dim stream))
        (stream.drop (o.recv k dim stream)) (k + 1)
  else some (some (buff, received, k))
termination_by dim - received
decreasing_by
  have := o.offer_pos k
  have : 0 < stream.length := List.length_pos_of_ne_nil ‹_›
  simp only [Network.recv]
  omega

/-- The lines printed for a stream, from the `k`-th `recv` call on; `none` where a `recv` writes outside the
buffer. The two calls of `memset`, whose `TCP_SIZE+1` is one byte more than `tcp_buff` has, are left out: that
byte is not printed. -/
def receive (o : Network) (stream : Bytes) (k : ℕ) : Option (List Line) :=
  if stream = [] then some []
  else
    match fill o (atoi (stream.take (o.recv k 10 stream))).toNat 0 []
        (stream.drop (o.recv k 10 stream)) (k + 1) with
    | none => none
    | some none => some []
    | some (some (buff, received, k')) =>
      (receive o (stream.drop (o.recv k 10 stream + received)) k').map (printed buff :: ·)
termination_by stream.length
decreasing_by
  have := o.offer_pos k
  have : 0 < stream.length := List.length_pos_of_ne_nil ‹_›
  simp only [Network.recv, List.length_drop]
  omega

variable {o : Network} {dim received k n k' : ℕ} {buff buff' stream : Bytes}

theorem recv_pos (hlen : 0 < dim) (hs : stream ≠ []) : 0 < o.recv k dim stream := by
  have := o.offer_pos k
  have : 0 < stream.length := List.length_pos_of_ne_nil hs
  simp only [Network.recv]
  omega

theorem fill_done (h : dim ≤ received) : fill o dim received buff stream k = some (some (buff, received, k)) := by
  rw [fill, if_neg (by omega)]

theorem fill_round (h : received < dim) (hs : stream ≠ []) (hfit : o.recv k dim stream ≤ tcpSize) :
    fill o dim received buff stream k =
      fill o dim (received + o.recv k dim stream)
        (stream.take (o.recv k dim stream) ++ buff.drop (o.recv k dim stream))
        (stream.drop (o.recv k dim stream)) (k + 1) := by
  rw [fill, if_pos h, if_neg hs, if_neg (by omega)]

/-- A finished loop either had nothing to do, or made a round and went on. -/
theorem fill_eq_done (h : fill o dim received buff stream k = some (some (buff', n, k'))) :
    (dim ≤ received ∧ buff' = buff ∧ n = received ∧ k' = k) ∨
      (received < dim ∧ stream ≠ [] ∧
        fill o dim (received + o.recv k dim stream)
          (stream.take (o.recv k dim stream) ++ buff.drop (o.recv k dim stream))
          (stream.drop (o.recv k dim stream)) (k + 1) = some (some (buff', n, k'))) := by
  rw [fill] at h
  split at h
  · next hlt =>
    split at h
    · simp at h
    · next hs =>
      split at h
      · simp at h
      · exact .inr ⟨hlt, hs, h⟩
  · next hle =>
    simp only [Option.some.injEq, Prod.mk.injEq] at h
    obtain ⟨rfl, rfl, rfl⟩ := h
    exact .inl ⟨by omega, rfl, rfl, rfl⟩

theorem length_overlay (c : ℕ) : (stream.take c ++ buff.drop c).length ≤ max c buff.length := by
  simp only [List.length_append, List.length_take, List.length_drop]
  omega

theorem length_of_fill (hb : buff.length ≤ dim)
    (h : fill o dim received buff stream k = some (some (buff', n, k'))) : buff'.length ≤ dim := by
  induction hm : dim - received using Nat.strong_induction_on
    generalizing received buff stream k with
  | _ m ih =>
    rcases fill_eq_done h with ⟨-, rfl, -, -⟩ | ⟨hlt, hs, hrec⟩
    · exact hb
    · have hpos : 0 < o.recv k dim stream := recv_pos (by omega) hs
      refine ih _ (by omega) ?_ hrec rfl
      refine (length_overlay _).trans (max_le ?_ hb)
      exact min_le_left _ _

/-- The counts that the network offers for `j` calls from the `k`-th on. -/
def Network.total (o : Network) (k j : ℕ) : ℕ := ((List.range j).map fun i => o.offer (k + i)).sum

@[simp] theorem total_zero : o.total k 0 = 0 := rfl

theorem total_succ (j : ℕ) : o.total k (j + 1) = o.offer k + o.total (k + 1) j := by
  simp only [Network.total, List.range_succ_eq_map, List.map_cons, List.map_map, List.sum_cons]
  congr 2
  apply List.map_congr_left
  intro i _
  simp only [Function.comp_apply]
  congr 1
  omega

/-- When the buffer has at least `θ` bytes at the end, there was a round of at least `θ` bytes;
before it the network gave exactly what it offered. -/
theorem fill_cases {θ : ℕ} (hθ : 0 < θ) (hle : θ ≤ dim) (hb : buff.length < θ)
    (h : fill o dim received buff stream k = some (some (buff', n, k'))) (hb' : θ ≤ buff'.length) :
    ∃ j, received + o.total k j < dim ∧
      θ ≤ o.recv (k + j) dim (stream.drop (o.total k j)) ∧
      fill o dim (received + o.total k j + o.recv (k + j) dim (stream.drop (o.total k j)))
        ((stream.drop (o.total k j)).take (o.recv (k + j) dim (stream.drop (o.total k j))))
        (stream.drop (o.total k j + o.recv (k + j) dim (stream.drop (o.total k j)))) (k + j + 1) =
        some (some (buff', n, k')) := by
  induction hm : dim - received using Nat.strong_induction_on
    generalizing received buff stream k with
  | _ m ih =>
    rcases fill_eq_done h with ⟨-, rfl, -, -⟩ | ⟨hlt, hs, hrec⟩
    · omega
    by_cases hbig : θ ≤ o.recv k dim stream
    · refine ⟨0, by simpa using hlt, by simpa using hbig, ?_⟩
      rw [List.drop_eq_nil_of_le (hb.le.trans hbig), List.append_nil] at hrec
      simpa using hrec
    · have hpos : 0 < o.recv k dim stream := recv_pos (by omega) hs
      obtain ⟨j, hlt', hbig', hrest⟩ := ih _ (by omega)
        ((length_overlay _).trans_lt (max_lt (by omega) hb)) hrec rfl
      -- a count below the offer would have used up the stream
      have hoffer : o.recv k dim stream = o.offer k := by
        by_contra hne
        have hall : stream.length ≤ o.recv k dim stream := by
          simp only [Network.recv] at hne hbig ⊢
          omega
        rw [List.drop_eq_nil_of_le hall] at hbig'
        simp only [Network.recv, List.drop_nil, List.length_nil, Nat.min_zero] at hbig'
        omega
      rw [hoffer, List.drop_drop] at hrest hbig'
      rw [List.drop_drop] at hrest
      refine ⟨j + 1, by rw [total_succ]; omega, ?_, ?_⟩
      · rwa [total_succ, show k + (j + 1) = k + 1 + j by omega]
      · rw [total_succ, show k + (j + 1) = k + 1 + j by omega]
        simpa only [Nat.add_assoc] using hrest

/-- Rounds that together stay below the size: the buffer keeps at most the bytes they brought. -/
theorem fill_skip {j : ℕ} (hfit : dim ≤ tcpSize) (hlt : received + o.total k j < dim)
    (hs : o.total k j < stream.length) (hb : buff.length ≤ received) :
    ∃ buff', buff'.length ≤ received + o.total k j ∧
      fill o dim received buff stream k =
        fill o dim (received + o.total k j) buff' (stream.drop (o.total k j)) (k + j) := by
  induction j generalizing received buff stream k with
  | zero => exact ⟨buff, by simpa using hb, by simp⟩
  | succ j ih =>
    rw [total_succ] at hlt hs ⊢
    have hne : stream ≠ [] := by
      rintro rfl
      simp at hs
    have hoffer : o.recv k dim stream = o.offer k := by
      simp only [Network.recv]
      omega
    have hrec : o.recv k dim stream ≤ tcpSize := (min_le_left _ _).trans hfit
    obtain ⟨buff', hb', hfill⟩ : ∃ buff', buff'.length ≤ received + o.offer k + o.total (k + 1) j ∧
        fill o dim (received + o.offer k) (stream.take (o.offer k) ++ buff.drop (o.offer k))
          (stream.drop (o.offer k)) (k + 1) =
        fill o dim (received + o.offer k + o.total (k + 1) j) buff'
          ((stream.drop (o.offer k)).drop (o.total (k + 1) j)) (k + 1 + j) :=
      ih (by omega) (by rw [List.length_drop]; omega) ((length_overlay _).trans (by omega))
    refine ⟨buff', by omega, ?_⟩
    rw [fill_round (by omega) hne hrec, hoffer, hfill, List.drop_drop]
    congr 1 <;> omega

end PCom.PubSub
