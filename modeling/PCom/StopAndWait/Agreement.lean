import PCom.Foundations.Lockstep
import PCom.StopAndWait.Transfer

/-! # The transfer is in lockstep

Every message is acknowledged before the next one is sent. Between two exchanges the sender's
counter, its offset in the file and the receiver's counter are the same number, and the receiver's
file is that much of the sender's.
-/

namespace PCom.StopAndWait
open Foundations Pair

variable {job : Job} {s : Sender} {r : Receiver}

theorem cstr_print {text : Bytes} (htext : 0 ∉ text) (t : Msg) : cstr (t.print text).payload = text := by
  apply cstr_of_prefix_eq htext
  rw [Msg.print, putAt, List.take_zero, List.nil_append]
  exact List.prefix_append _ _

theorem atoi_print (t : Msg) (n : ℕ) : atoi (t.print (decimal n)).payload = n := by
  rw [Msg.print, putAt, List.take_zero, List.nil_append, List.append_assoc]
  apply atoi_decimal
  simp [isDigit]

theorem take_fill (t : Msg) (data : Bytes) : (t.fill data).payload.take (t.fill data).len = data := by
  rw [Msg.fill, putAt, List.take_zero, List.nil_append]
  exact List.take_left' rfl

inductive Ready (job : Job) : Sender → Receiver → Prop
  | dummy (t r : Msg) (path file : Bytes) (size : ℤ) :
      Ready job ⟨.dummy, t, 0, 0, 0⟩ ⟨.dummy, r, path, file, size, 0⟩
  | name (t r : Msg) (path file : Bytes) (size : ℤ) :
      Ready job ⟨.name, t, 0, 0, 0⟩ ⟨.name, r, path, file, size, 0⟩
  | size (t r : Msg) (size : ℤ) :
      Ready job ⟨.size, t, 0, 0, 0⟩ ⟨.size, r, job.name.chars ++ ascii "_copy", [], size, 0⟩
  | loop (t r : Msg) (n k : ℕ) (hn : n ≤ job.file.length) :
      Ready job ⟨.loop, t, n, n, k⟩
        ⟨.loop, r, job.name.chars ++ ascii "_copy", job.file.take n, job.file.length, n⟩

def rounds (job : Job) (s : Sender) : ℕ :=
  match s.pc with
  | .dummy => job.file.length + 3
  | .name => job.file.length + 2
  | .size => job.file.length + 1
  | _ => job.file.length - s.sentSize

theorem name_nul_free (job : Job) : 0 ∉ job.name.chars ++ ascii "_copy" := by
  have hcopy : 0 ∉ ascii "_copy" := by decide
  simp [job.name.nul_free, hcopy]

theorem dummy_exchange (t r : Msg) (path file : Bytes) (size : ℤ) : ∃ m,
    Nonempty (Exchange (transfer job) ⟨.dummy, t, 0, 0, 0⟩ ⟨.dummy, r, path, file, size, 0⟩
      ⟨.name, ack m, 0, 0, 0⟩ ⟨.name, m, path, file, size, 0⟩) :=
  ⟨t.print (ascii "This is a dummy."), Exchange.of_acts rfl rfl rfl rfl rfl rfl⟩

theorem name_exchange (t r : Msg) (path file : Bytes) (size : ℤ) : ∃ m,
    Nonempty (Exchange (transfer job) ⟨.name, t, 0, 0, 0⟩ ⟨.name, r, path, file, size, 0⟩
      ⟨.size, ack m, 0, 0, 0⟩ ⟨.size, m, job.name.chars ++ ascii "_copy", [], size, 0⟩) := by
  refine ⟨t.print (job.name.chars ++ ascii "_copy"), ?_⟩
  have hpath := cstr_print (name_nul_free job) t
  exact Exchange.of_acts rfl rfl (congrArg (Receiver.mk _ _ · _ _ _) hpath) rfl rfl rfl

theorem size_exchange (t r : Msg) (path file : Bytes) (size : ℤ) : ∃ m,
    Nonempty (Exchange (transfer job) ⟨.size, t, 0, 0, 0⟩ ⟨.size, r, path, file, size, 0⟩
      ⟨.loop, ack m, 0, 0, 0⟩ ⟨.loop, m, path, file, job.file.length, 0⟩) := by
  refine ⟨t.print (decimal job.file.length), ?_⟩
  have hsize := atoi_print t job.file.length
  exact Exchange.of_acts rfl rfl (congrArg (Receiver.mk _ _ _ _ · _) hsize) rfl rfl rfl

theorem loop_exchange (t r : Msg) (path : Bytes) {n : ℕ} (k : ℕ) (hn : n < job.file.length) :
    ∃ m d, 0 < d ∧ n + d ≤ job.file.length ∧
      Nonempty (Exchange (transfer job) ⟨.loop, t, n, n, k⟩
        ⟨.loop, r, path, job.file.take n, job.file.length, n⟩ ⟨.loop, ack m, n + d, n + d, k + 1⟩
          ⟨.loop, m, path, job.file.take (n + d), job.file.length, n + d⟩) := by
  set data := Sender.read job ⟨.loop, t, n, n, k⟩ with hdata
  have hlen : data.length = min (min maxLen (job.reads k)) (job.file.length - n) := by
    rw [hdata, Sender.read, List.length_take, List.length_drop]
  have hpos := job.reads_pos k
  have hmax : 0 < maxLen := by decide
  have hfile : job.file.take n ++ (t.fill data).payload.take (t.fill data).len =
      job.file.take (n + data.length) := by
    rw [take_fill, List.take_add, hdata, Sender.read, List.length_take]
    congr 1
    rw [List.take_eq_take_iff]
    simp
  have hsend : Sender.act job ⟨.loop, t, n, n, k⟩ =
      .send (t.fill data) ⟨.loopAck data.length, t.fill data, n + data.length, n, k + 1⟩ := by
    rw [Sender.act]
    exact if_pos hn
  have htake : Receiver.act ⟨.loop, r, path, job.file.take n, job.file.length, n⟩ = .recv fun m =>
      ⟨.loopAck, m, path, job.file.take n ++ m.payload.take m.len, job.file.length, n + m.len⟩ := by
    rw [Receiver.act]
    exact if_pos (Int.ofNat_lt.mpr hn)
  refine ⟨t.fill data, data.length, by omega, by omega, ?_⟩
  exact Exchange.of_acts hsend htake (congrArg (Receiver.mk _ _ _ · _ _) hfile) rfl rfl rfl

theorem loop_halt (t r : Msg) (path : Bytes) (k : ℕ) :
    Sender.act job ⟨.loop, t, job.file.length, job.file.length, k⟩ = .halt ∧
      Receiver.act ⟨.loop, r, path, job.file.take job.file.length, job.file.length, job.file.length⟩ =
        .halt := by
  rw [Sender.act, Receiver.act]
  exact ⟨if_neg (lt_irrefl _), if_neg (lt_irrefl _)⟩

theorem transfer_lockstep (job : Job) : Lockstep (transfer job) (Ready job) (rounds job) where
  next s r h := by
    cases h with
    | dummy t r path file size =>
      obtain ⟨m, he⟩ := dummy_exchange t r path file size
      exact .inr ⟨_, _, he, .name _ _ _ _ _, by simp [rounds]⟩
    | name t r path file size =>
      obtain ⟨m, he⟩ := name_exchange t r path file size
      exact .inr ⟨_, _, he, .size _ _ _, by simp [rounds]⟩
    | size t r size =>
      obtain ⟨m, he⟩ := size_exchange t r (job.name.chars ++ ascii "_copy") [] size
      exact .inr ⟨_, _, he, .loop _ _ 0 0 (Nat.zero_le _), by simp [rounds]⟩
    | loop t r n k hn =>
      rcases hn.lt_or_eq with hlt | rfl
      · obtain ⟨m, d, hd, hle, he⟩ := loop_exchange t r (job.name.chars ++ ascii "_copy") k hlt
        refine .inr ⟨_, _, he, .loop _ _ _ _ hle, ?_⟩
        simp only [rounds]
        omega
      · exact .inl (loop_halt t r _ k)

theorem start_ready (job : Job) : Ready job (start job).left (start job).right := .dummy _ _ _ _ _

/-- Related programs that have both returned have transferred the file. -/
theorem Ready.file_eq (h : Ready job s r) (hs : s.act job = .halt) :
    r.path = job.name.chars ++ ascii "_copy" ∧ r.file = job.file := by
  cases h with
  | dummy => cases hs
  | name => cases hs
  | size => cases hs
  | loop t r n k hn =>
    have hle : job.file.length ≤ n := by
      by_contra hlt
      rw [Sender.act] at hs
      dsimp only at hs
      rw [if_pos (not_le.mp hlt)] at hs
      cases hs
    exact ⟨rfl, List.take_of_length_le hle⟩

theorem transfers (job : Job) : Transfers job where
  one_in_flight c hc := ((transfer_lockstep job).reach (.ready _ _ (start_ready job)) hc).forth_back_length_le
  no_deadlock c hc := by
    rintro ⟨hl, hr, hforth, hback⟩
    exact (transfer_lockstep job).not_both_wait
      ((transfer_lockstep job).reach (.ready _ _ (start_ready job)) hc) hforth hback hl hr
  returns c hc := (transfer_lockstep job).halts_of_reach (start_ready job) hc
  same_file c hc hl hr := by
    obtain ⟨hready, hforth, hback⟩ :=
      ((transfer_lockstep job).reach (.ready _ _ (start_ready job)) hc).of_halt hl
    obtain ⟨hpath, hfile⟩ := hready.file_eq hl
    exact ⟨hpath, hfile, hforth, hback⟩

end PCom.StopAndWait
