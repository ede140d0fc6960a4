import PCom.Foundations.Streaming
import PCom.SlidingWindow.Agreement
import PCom.SlidingWindow.Checksum

/-! # Corrupted messages

The link may flip one bit of a message. The receiver's check of the checksum only prints what it
finds, so a corrupted chunk is written like any other. The transfer is right where no chunk is
corrupted and the size that arrives makes the receiver wait for the last one.
-/

namespace PCom.SlidingWindow
open Foundations Pair

/-- What `run_forwarding` does to a message: nothing, or it flips a bit of a byte that is in use.
The two numbers are what `rand` returns. -/
def Msg.flip (m : Msg) : Option (ℕ × ℕ) → Msg
  | none => m
  | some (i, j) =>
    if m.len = 0 then m else { m with payload := flipBit m.payload (i % m.len) (j % 8) }

/-- What happens to the messages of one run, in both directions. -/
structure Noise where
  forth : ℕ → Option (ℕ × ℕ)
  back : ℕ → Option (ℕ × ℕ)

def noisyTransfer (job : Job) (noise : Noise) : Pair (Sender × ℕ) (Receiver × ℕ) Msg Msg :=
  (transfer job).noisy (fun k m => m.flip (noise.forth k)) (fun k m => m.flip (noise.back k))

def noisyStart : Config (Sender × ℕ) (Receiver × ℕ) Msg Msg :=
  ⟨(start.left, 0), (start.right, 0), [], []⟩

/-- The receiver's next step writes the chunk `m`. -/
def Writes (c : Config (Sender × ℕ) (Receiver × ℕ) Msg Msg) (m : Msg) : Prop :=
  c.right.1.pc = .loop ∧ (c.right.1.receivedSize : ℤ) < c.right.1.size ∧ c.forth.head? = some m

/-- In every interleaving, no chunk with a wrong checksum is written, and a receiver that has
returned has written the sender's file. -/
structure RefusesCorrupted (job : Job) (noise : Noise) : Prop where
  checked : ∀ c, (noisyTransfer job noise).Reach noisyStart c → ∀ m, Writes c m →
    m.checksum = getChecksum m.payload
  same_file : ∀ c, (noisyTransfer job noise).Reach noisyStart c → c.right.1.act = .halt →
    c.right.1.file = job.file

variable {job : Job} {noise : Noise} {s s' : Sender} {r : Receiver} {m : Msg} {k : ℕ}

def text (job : Job) : ℕ → Bytes
  | 0 => job.name.chars ++ ascii "_copy" ++ [0]
  | 1 => decimal job.file.length ++ [0]
  | k + 2 => chunk job k

def Sent (job : Job) : ℕ → Sender → Prop
  | 0, s => s.pc = .name ∧ s.fp = 0
  | 1, s => (s.pc = .nameAck ∨ s.pc = .size) ∧ s.fp = 0
  | k + 2, s => (s.pc ≠ .name ∧ s.pc ≠ .nameAck ∧ s.pc ≠ .size) ∧ s.fp = sent job k

theorem read_of_fp (h : s.fp = sent job k) :
    s.read job = { s with t := s.t.write (chunk job k), fp := sent job (k + 1) } := by
  rw [Sender.read, h, ← chunk, sent_succ]

/-- A sender that sends something from its loops sends the next chunk. -/
theorem rest_send (h : s.fp = sent job k) (hact : s.rest job = .send m s') :
    m = s.t.write (chunk job k) ∧ Sent job (k + 3) s' := by
  unfold Sender.rest at hact
  split at hact
  · rw [read_of_fp h] at hact
    cases hact
    exact ⟨rfl, ⟨by simp, rfl⟩⟩
  · unfold Sender.drain at hact
    split at hact <;> cases hact

theorem window_send {i : ℕ} (h : s.fp = sent job k) (hact : s.window job i = .send m s') :
    m = s.t.write (chunk job k) ∧ Sent job (k + 3) s' := by
  unfold Sender.window at hact
  split at hact
  · rw [read_of_fp h] at hact
    cases hact
    exact ⟨rfl, ⟨by simp, rfl⟩⟩
  · exact rest_send h hact

theorem drain_recv {i : ℕ} {next : Msg → Sender} (hact : s.drain i = .recv next) :
    next m = { s with t := m, pc := .drain (i + 1) } := by
  unfold Sender.drain at hact
  split at hact <;> cases hact
  rfl

theorem rest_recv {next : Msg → Sender} (hact : s.rest job = .recv next) :
    next m = { s with t := m, pc := .drain 1 } := by
  unfold Sender.rest at hact
  split at hact
  · cases hact
  · exact drain_recv hact

theorem window_recv {i : ℕ} {next : Msg → Sender} (hact : s.window job i = .recv next) :
    next m = { s with t := m, pc := .drain 1 } := by
  unfold Sender.window at hact
  split at hact
  · cases hact
  · exact rest_recv hact

theorem Sent.send (h : Sent job k s) (hact : s.act job = .send m s') :
    (∃ t : Msg, m = t.write (text job k)) ∧ Sent job (k + 1) s' := by
  match k, h with
  | 0, ⟨hpc, hfp⟩ =>
    rw [Sender.act, hpc] at hact
    cases hact
    exact ⟨⟨_, rfl⟩, .inl rfl, hfp⟩
  | 1, ⟨hpc, hfp⟩ =>
    rcases hpc with hpc | hpc
    · rw [Sender.act, hpc] at hact
      cases hact
    · rw [Sender.act, hpc] at hact
      cases hact
      exact ⟨⟨_, rfl⟩, by simp, hfp.trans sent_zero.symm⟩
  | k + 2, ⟨⟨hname, hnameAck, hsize⟩, hfp⟩ =>
    unfold Sender.act at hact
    split at hact
    · next hpc => exact absurd hpc hname
    · cases hact
    · next hpc => exact absurd hpc hsize
    · cases hact
    · obtain ⟨rfl, hsent⟩ := window_send hfp hact
      exact ⟨⟨_, rfl⟩, hsent⟩
    · obtain ⟨rfl, hsent⟩ := rest_send hfp hact
      exact ⟨⟨_, rfl⟩, hsent⟩
    · cases hact
    · unfold Sender.drain at hact
      split at hact <;> cases hact
    · cases hact

theorem Sent.wait {next : Msg → Sender} (h : Sent job k s) (hact : s.act job = .recv next) :
    Sent job k (next m) := by
  match k, h with
  | 0, ⟨hpc, hfp⟩ =>
    rw [Sender.act, hpc] at hact
    cases hact
  | 1, ⟨hpc, hfp⟩ =>
    rcases hpc with hpc | hpc
    · rw [Sender.act, hpc] at hact
      cases hact
      exact ⟨.inr rfl, hfp⟩
    · rw [Sender.act, hpc] at hact
      cases hact
  | k + 2, ⟨⟨hname, hnameAck, hsize⟩, hfp⟩ =>
    unfold Sender.act at hact
    split at hact
    · cases hact
    · next hpc => exact absurd hpc hnameAck
    · cases hact
    · cases hact
      dsimp only
      split
      · exact ⟨by simp, hfp⟩
      · exact ⟨by simp, hfp⟩
    · rw [window_recv hact]
      exact ⟨by simp, hfp⟩
    · rw [rest_recv hact]
      exact ⟨by simp, hfp⟩
    · cases hact
      exact ⟨by simp, hfp⟩
    · rw [drain_recv hact]
      exact ⟨by simp, hfp⟩
    · cases hact

/-- The `k`-th message has the `k`-th text, whatever was acknowledged. -/
theorem transfer_sends (job : Job) :
    Sends (transfer job) (Sent job) fun k m => ∃ t : Msg, m = t.write (text job k) where
  send _ _ _ _ h hact := h.send hact
  wait _ _ _ _ h hact := h.wait hact

def arrivingSize (job : Job) (noise : Noise) : ℤ :=
  atoi ((⟨(text job 1).length, text job 1, 0⟩ : Msg).flip (noise.forth 1)).payload

theorem atoi_flipBit (n : ℕ) {i j : ℕ} (hi : i < (decimal n ++ [0]).length) (hj : j < 8) (rest : Bytes) :
    atoi (flipBit (decimal n ++ [0]) i j ++ rest) = atoi (flipBit (decimal n ++ [0]) i j) := by
  rcases Nat.lt_or_ge i (decimal n).length with hlt | hge
  · -- a digit is flipped, and the NUL still ends the text
    rw [flipBit_append hlt, List.append_assoc]
    exact atoi_append (by decide) (by decide) (by decide) (by decide) _ _
  · -- the NUL is flipped, and does not become a digit
    have hend : i = (decimal n).length := by
      rw [List.length_append, List.length_singleton] at hi
      omega
    have hflip : flipBit (decimal n ++ [0]) i j = decimal n ++ [UInt8.ofNat (1 <<< j)] := by
      rw [flipBit, hend, List.set_append_right _ _ (le_refl _), Nat.sub_self, List.set_cons_zero]
      simp
    have hdigit : isDigit (UInt8.ofNat (1 <<< j)) = false := by
      have hall : ∀ j < 8, isDigit (UInt8.ofNat (1 <<< j)) = false := by decide
      exact hall j hj
    rw [hflip, List.append_assoc, atoi_decimal _ _ (by simpa using hdigit),
      atoi_decimal _ _ (by simpa using hdigit)]

theorem atoi_size_flip (t : Msg) :
    atoi (((t.write (text job 1)).flip (noise.forth 1)).payload) = arrivingSize job noise := by
  have hlen : 0 < (text job 1).length := by simp [text]
  rw [arrivingSize]
  cases noise.forth 1 with
  | none =>
    simp only [Msg.flip, Msg.write, overwrite, text]
    rw [List.append_assoc]
    exact atoi_append (c := 0) (by decide) (by decide) (by decide) (by decide) _ _
  | some e =>
    have hi : e.1 % (text job 1).length < (text job 1).length := Nat.mod_lt _ hlen
    simp only [Msg.flip, Msg.write, overwrite, hlen.ne', if_false]
    rw [flipBit_append hi]
    exact atoi_flipBit _ hi (Nat.mod_lt _ (by omega)) _

/-- The corruption does no harm: it leaves the chunks of the file alone, and the size that arrives
is greater than what the chunks before the last one hold. -/
structure Noise.Harmless (noise : Noise) (job : Job) : Prop where
  chunks : ∀ k < packets job, noise.forth (k + 2) = none
  size : job.file = [] ∨ (sent job (packets job - 1) : ℤ) < arrivingSize job noise

theorem chunk_eq_nil (h : packets job ≤ k) : chunk job k = [] := by
  rw [chunk, sent_of_packets_le h, List.drop_length, List.take_nil]

theorem Noise.Harmless.flip_chunk (h : noise.Harmless job) (t : Msg) (k : ℕ) :
    (t.write (chunk job k)).flip (noise.forth (k + 2)) = t.write (chunk job k) := by
  rcases Nat.lt_or_ge k (packets job) with hlt | hge
  · rw [h.chunks k hlt, Msg.flip]
  · have hlen : (t.write (chunk job k)).len = 0 := by
      rw [chunk_eq_nil hge]
      rfl
    cases noise.forth (k + 2) with
    | none => rfl
    | some e => rw [Msg.flip, if_pos hlen]

def Got (job : Job) (noise : Noise) : ℕ → Receiver → Prop
  | 0, r => r.pc = .name ∧ r.receivedSize = 0
  | 1, r => (r.pc = .nameAck ∨ r.pc = .size) ∧ r.receivedSize = 0 ∧ r.file = []
  | k + 2, r => (r.pc = .sizeAck ∨ r.pc = .loop ∨ r.pc = .loopAck) ∧ r.size = arrivingSize job noise ∧
      r.receivedSize = sent job k ∧ r.file = job.file.take (sent job k)

/-- What the sender's `k`-th message is when it arrives. -/
def Arrives (job : Job) (noise : Noise) (k : ℕ) (m : Msg) : Prop :=
  ∃ t : Msg, m = (t.write (text job k)).flip (noise.forth k)

theorem Got.take {next : Msg → Receiver} (hgot : Got job noise k r) (h : noise.Harmless job)
    (hact : r.act = .recv next) (hm : Arrives job noise k m) : Got job noise (k + 1) (next m) := by
  obtain ⟨t, rfl⟩ := hm
  match k, hgot with
  | 0, ⟨hpc, hreceived⟩ =>
    rw [Receiver.act, hpc] at hact
    cases hact
    exact ⟨.inl rfl, hreceived, rfl⟩
  | 1, ⟨hpc, hreceived, hfile⟩ =>
    rcases hpc with hpc | hpc
    · rw [Receiver.act, hpc] at hact
      cases hact
    · rw [Receiver.act, hpc] at hact
      cases hact
      refine ⟨.inl rfl, atoi_size_flip t, hreceived.trans sent_zero.symm, ?_⟩
      rw [sent_zero]
      exact hfile
  | k + 2, ⟨hpc, hsize, hreceived, hfile⟩ =>
    rcases hpc with hpc | hpc | hpc
    · rw [Receiver.act, hpc] at hact
      cases hact
    · rw [Receiver.act, hpc] at hact
      dsimp only at hact
      split at hact
      · cases hact
        rw [text, h.flip_chunk t k]
        refine ⟨.inr (.inr rfl), hsize, ?_, ?_⟩
        · change r.receivedSize + (chunk job k).length = _
          rw [hreceived, sent_succ]
        · change r.file ++ (t.write (chunk job k)).payload.take (t.write (chunk job k)).len = _
          rw [hfile, take_write, take_sent_succ]
      · cases hact
    · rw [Receiver.act, hpc] at hact
      cases hact

theorem Got.answer {r' : Receiver} (hgot : Got job noise k r) (hact : r.act = .send m r') :
    Got job noise k r' := by
  match k, hgot with
  | 0, ⟨hpc, hreceived⟩ =>
    rw [Receiver.act, hpc] at hact
    cases hact
  | 1, ⟨hpc, hreceived, hfile⟩ =>
    rcases hpc with hpc | hpc
    · rw [Receiver.act, hpc] at hact
      cases hact
      exact ⟨.inr rfl, hreceived, hfile⟩
    · rw [Receiver.act, hpc] at hact
      cases hact
  | k + 2, ⟨hpc, hsize, hreceived, hfile⟩ =>
    rcases hpc with hpc | hpc | hpc
    · rw [Receiver.act, hpc] at hact
      cases hact
      exact ⟨.inr (.inl rfl), hsize, hreceived, hfile⟩
    · rw [Receiver.act, hpc] at hact
      dsimp only at hact
      split at hact <;> cases hact
    · rw [Receiver.act, hpc] at hact
      cases hact
      exact ⟨.inr (.inl rfl), hsize, hreceived, hfile⟩

theorem transfer_takes (h : noise.Harmless job) : Takes (transfer job) (Arrives job noise) (Got job noise) where
  take _ _ _ _ hgot hact hm := hgot.take h hact hm
  answer _ _ _ _ hgot hact := hgot.answer hact

theorem noisy_sends (job : Job) (noise : Noise) :
    Sends (noisyTransfer job noise) (fun k s => s.2 = k ∧ Sent job k s.1) (Arrives job noise) := by
  apply (transfer_sends job).noisy
  rintro k _ ⟨t, rfl⟩
  exact ⟨t, rfl⟩

theorem noisy_streaming (h : noise.Harmless job) {c : Config (Sender × ℕ) (Receiver × ℕ) Msg Msg}
    (hc : (noisyTransfer job noise).Reach noisyStart c) :
    Streaming (fun k s => s.2 = k ∧ Sent job k s.1) (Arrives job noise)
      (fun k r => Got job noise k r.1) c := by
  have hstart : Streaming (fun k s => s.2 = k ∧ Sent job k s.1) (Arrives job noise)
      (fun k r => Got job noise k r.1) noisyStart := by
    refine ⟨0, ⟨rfl, rfl⟩, ⟨rfl, rfl, rfl⟩, fun i m hi => ?_⟩
    cases hi
  exact hstart.reach (noisy_sends job noise) ((transfer_takes h).noisy _ _) hc

/-- A receiver in its loop has taken the name, the size and some chunks. -/
theorem Got.loop (h : Got job noise k r) (hpc : r.pc = .loop) :
    ∃ n, k = n + 2 ∧ r.size = arrivingSize job noise ∧ r.receivedSize = sent job n ∧
      r.file = job.file.take (sent job n) := by
  match k, h with
  | 0, ⟨hpc', _⟩ => exact absurd (hpc.symm.trans hpc') (by decide)
  | 1, ⟨hpc', _⟩ =>
    rcases hpc' with hpc' | hpc'
    · exact absurd (hpc.symm.trans hpc') (by decide)
    · exact absurd (hpc.symm.trans hpc') (by decide)
  | n + 2, ⟨_, hgot⟩ => exact ⟨n, rfl, hgot⟩

theorem loop_of_halt (h : r.act = .halt) : r.pc = .loop ∧ r.size ≤ r.receivedSize := by
  unfold Receiver.act at h
  split at h
  · cases h
  · cases h
  · cases h
  · cases h
  · next hpc =>
    split at h
    · cases h
    · next hle => exact ⟨hpc, not_lt.mp hle⟩
  · cases h

/-- What is more than the chunks before the last one hold is the whole file. -/
theorem packets_le_of_sent_lt {n : ℕ} (h : sent job (packets job - 1) < sent job n) : packets job ≤ n := by
  by_contra hlt
  have hmono : sent job n ≤ sent job (packets job - 1) := by
    simp only [sent, msgSize]
    omega
  omega

/-- Where the corruption does no harm, the receiver writes only what has the right checksum, and
returns only with the whole file. -/
theorem refusesCorrupted_of_harmless (job : Job) (noise : Noise) (h : noise.Harmless job) :
    RefusesCorrupted job noise where
  checked c hc m hm := by
    obtain ⟨k, hgot, -, hmessage⟩ := noisy_streaming h hc
    obtain ⟨hpc, -, hhead⟩ := hm
    have harrives : Arrives job noise k m := hmessage 0 m (by rw [← List.head?_eq_getElem?, hhead])
    obtain ⟨n, rfl, -⟩ := hgot.loop hpc
    obtain ⟨t, rfl⟩ := harrives
    rw [text, h.flip_chunk t n]
    rfl
  same_file c hc hhalt := by
    obtain ⟨k, hgot, -, -⟩ := noisy_streaming h hc
    obtain ⟨hpc, hle⟩ := loop_of_halt hhalt
    obtain ⟨n, rfl, hsize, hreceived, hfile⟩ := hgot.loop hpc
    rw [hsize, hreceived] at hle
    rw [hfile]
    rcases h.size with hempty | hlast
    · rw [hempty, List.take_nil]
    · rw [sent_of_packets_le (packets_le_of_sent_lt (by omega)), List.take_length]

def oneByte : Job where
  name := ⟨ascii "one.in", by decide, by decide⟩
  file := ascii "A"
  count := 0
  file_lt := by decide
  count_lt := by decide

def quiet : Noise := ⟨fun _ => none, fun _ => none⟩

theorem oneByte_refusesCorrupted : RefusesCorrupted oneByte quiet :=
  refusesCorrupted_of_harmless oneByte quiet ⟨fun _ _ => rfl, .inr (by decide)⟩

def flipChunk : Noise := ⟨fun k => if k = 2 then some (0, 0) else none, fun _ => none⟩

theorem flipChunk_reach : ∃ c t, (noisyTransfer oneByte flipChunk).Reach noisyStart c ∧
    Writes c (Msg.flip (Msg.write t (ascii "A")) (some (0, 0))) := by
  have h₁ := reach_left_send (P := noisyTransfer oneByte flipChunk) (c := noisyStart) rfl
  have h₂ := h₁.trans (reach_right_recv (P := noisyTransfer oneByte flipChunk) rfl rfl)
  have h₃ := h₂.trans (reach_right_send (P := noisyTransfer oneByte flipChunk) rfl)
  have h₄ := h₃.trans (reach_left_recv (P := noisyTransfer oneByte flipChunk) rfl rfl)
  have h₅ := h₄.trans (reach_left_send (P := noisyTransfer oneByte flipChunk) rfl)
  have h₆ := h₅.trans (reach_right_recv (P := noisyTransfer oneByte flipChunk) rfl rfl)
  have h₇ := h₆.trans (reach_right_send (P := noisyTransfer oneByte flipChunk) rfl)
  have h₈ := h₇.trans (reach_left_recv (P := noisyTransfer oneByte flipChunk) rfl rfl)
  have h₉ := h₈.trans (reach_left_send (P := noisyTransfer oneByte flipChunk) rfl)
  refine ⟨_, _, h₉, rfl, ?_, rfl⟩
  refine (Int.natCast_pos.mpr (by decide)).trans_eq (atoi_size _ 1).symm

/-- A chunk with a flipped bit is written. -/
theorem flipChunk_written : ¬ RefusesCorrupted oneByte flipChunk := by
  intro h
  obtain ⟨c, t, hc, hw⟩ := flipChunk_reach
  have heq := h.checked c hc _ hw
  have hlen : 0 < (Msg.write t (ascii "A")).payload.length := by simp [Msg.write, overwrite, ascii]
  exact getChecksum_flipBit_ne hlen (by decide) heq.symm

end PCom.SlidingWindow
