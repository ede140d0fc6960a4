import PCom.SlidingWindow.Transfer

/-! # When the transfer agrees

One order of the steps is followed to its end: each message is received and acknowledged before
the next one is sent. If both programs return there, they do so in every order. If the window has
more messages than the file, the receiver returns too early and the sender waits for ever.
-/

namespace PCom.SlidingWindow
open Foundations Pair

variable {job : Job} {c c' : Config Sender Receiver Msg Msg} {i j n w : ℕ}

def sent (job : Job) (j : ℕ) : ℕ := min (msgSize * j) job.file.length

def packets (job : Job) : ℕ := (job.file.length + (msgSize - 1)) / msgSize

theorem sent_lt_iff : sent job j < job.file.length ↔ j < packets job := by
  simp only [sent, packets, msgSize]
  omega

theorem sent_of_packets_le (h : packets job ≤ j) : sent job j = job.file.length := by
  simp only [sent, packets, msgSize] at h ⊢
  omega

def chunk (job : Job) (j : ℕ) : Bytes := (job.file.drop (sent job j)).take msgSize

theorem sent_succ : sent job j + (chunk job j).length = sent job (j + 1) := by
  simp only [chunk, List.length_take, List.length_drop, sent, msgSize]
  omega

theorem take_sent_succ :
    job.file.take (sent job j) ++ chunk job j = job.file.take (sent job (j + 1)) := by
  rw [← sent_succ, chunk, List.take_add]
  congr 1
  rw [List.length_take, List.take_eq_take_iff]
  simp

theorem take_write (t : Msg) (text : Bytes) : (t.write text).payload.take (t.write text).len = text := by
  rw [Msg.write, overwrite]
  exact List.take_left' rfl

/-- The variables of a sender that has read `j` messages and counted them. -/
structure Sending (job : Job) (w j : ℕ) (s : Sender) : Prop where
  fp : s.fp = sent job j
  sentSize : s.sentSize = sent job j
  windowSize : s.windowSize = w

/-- A receiver that has stored `j` messages and is ready for the next one; `n` acknowledgements
are on the way. -/
structure Stored (job : Job) (j n : ℕ) (c : Config Sender Receiver Msg Msg) : Prop where
  pc : c.right.pc = .loop
  size : c.right.size = job.file.length
  received : c.right.receivedSize = sent job j
  file : c.right.file = job.file.take (sent job j)
  forth : c.forth = []
  back : c.back.length = n

theorem Stored.act (h : Stored job j n c) : c.right.act =
    if (sent job j : ℤ) < job.file.length then
      .recv fun m => { c.right.check m with
        file := c.right.file ++ m.payload.take m.len, receivedSize := c.right.receivedSize + m.len,
        pc := .loopAck }
    else .halt := by
  rw [Receiver.act, h.pc]
  dsimp only
  rw [h.received, h.size]

theorem Stored.halt (h : Stored job j n c) (hj : packets job ≤ j) : c.right.act = .halt := by
  rw [h.act, if_neg]
  have hle : ¬ sent job j < job.file.length := fun h => absurd (sent_lt_iff.mp h) (by omega)
  omega

theorem Stored.exchange (h : Stored job j n c) (hj : j < packets job) {t : Msg} {s : Sender}
    (hact : c.left.act job = .send (t.write (chunk job j)) s) :
    ∃ c', (transfer job).Reach c c' ∧ c'.left = s ∧ Stored job (j + 1) (n + 1) c' := by
  have hlt := sent_lt_iff.mpr hj
  set m := t.write (chunk job j) with hm
  have h₁ : (transfer job).Reach c ⟨s, c.right, [m], c.back⟩ := by
    have := reach_left_send (P := transfer job) (c := c) hact
    rwa [h.forth] at this
  have hrecv := h.act
  rw [if_pos (by omega)] at hrecv
  have h₂ := reach_right_recv (P := transfer job) (c := ⟨s, c.right, [m], c.back⟩) hrecv rfl
  have h₃ := reach_right_send (P := transfer job) (c := ⟨s, { c.right.check m with
        file := c.right.file ++ m.payload.take m.len, receivedSize := c.right.receivedSize + m.len,
        pc := .loopAck }, [], c.back⟩) rfl
  refine ⟨_, (h₁.trans h₂).trans h₃, rfl, rfl, h.size, ?_, ?_, rfl, ?_⟩
  · change c.right.receivedSize + m.len = _
    rw [h.received, ← sent_succ]
    rfl
  · change c.right.file ++ m.payload.take m.len = _
    rw [h.file, take_write, take_sent_succ]
  · rw [List.length_append, h.back]
    rfl

variable {s : Sender}

theorem Sending.read (h : Sending job w j s) :
    s.read job = { s with t := s.t.write (chunk job j), fp := sent job (j + 1) } := by
  rw [Sender.read, h.fp, ← chunk, sent_succ]

theorem Sending.window (h : Sending job w j s) (hpc : s.pc = .window i) (hi : i < w) :
    ∃ s', s.act job = .send (s.t.write (chunk job j)) s' ∧ Sending job w (j + 1) s' ∧
      s'.pc = .window (i + 1) := by
  rw [Sender.act, hpc]
  dsimp only
  rw [Sender.window, if_pos (h.windowSize.symm ▸ hi), h.read]
  refine ⟨_, rfl, ⟨rfl, ?_, h.windowSize⟩, rfl⟩
  change s.sentSize + (chunk job j).length = _
  rw [h.sentSize, sent_succ]

theorem Sending.rest (h : Sending job w j s) (hrest : s.act job = s.rest job) (hj : j < packets job) :
    ∃ s' next, s.act job = .send (s.t.write (chunk job j)) s' ∧ s'.act job = .recv next ∧
      ∀ m, Sending job w (j + 1) (next m) ∧ (next m).act job = (next m).rest job := by
  have hlt : s.sentSize < job.file.length := h.sentSize.trans_lt (sent_lt_iff.mpr hj)
  rw [hrest, Sender.rest, if_pos hlt, h.read]
  refine ⟨_, _, rfl, rfl, fun m => ⟨⟨rfl, ?_, h.windowSize⟩, rfl⟩⟩
  change s.sentSize + (chunk job j).length = _
  rw [h.sentSize, sent_succ]

theorem window_reach (h : Sending job w 0 c.left) (hpc : c.left.pc = .window 0) (hs : Stored job 0 0 c) :
    ∀ i, i ≤ w → i ≤ packets job → ∃ c', (transfer job).Reach c c' ∧ Sending job w i c'.left ∧
      c'.left.pc = .window i ∧ Stored job i i c' := by
  intro i
  induction i with
  | zero => exact fun _ _ => ⟨c, .refl, h, hpc, hs⟩
  | succ i ih =>
    intro hw hp
    obtain ⟨c₁, hc₁, hsend, hpc₁, hstored⟩ := ih (by omega) (by omega)
    obtain ⟨s', hact, hsend', hpc'⟩ := hsend.window hpc₁ (by omega)
    obtain ⟨c₂, hc₂, rfl, hstored'⟩ := hstored.exchange (by omega) hact
    exact ⟨c₂, hc₁.trans hc₂, hsend', hpc', hstored'⟩

/-- The sender's first loop after the whole file was read, with nothing received. -/
theorem idle_reach (h : Sending job w (packets job) c.left) (hpc : c.left.pc = .window (packets job)) :
    ∀ d, packets job + d ≤ w → ∃ c', (transfer job).Reach c c' ∧
      Sending job w (packets job + d) c'.left ∧ c'.left.pc = .window (packets job + d) ∧
      c'.right = c.right ∧ c'.back = c.back := by
  intro d
  induction d with
  | zero => exact fun _ => ⟨c, .refl, h, hpc, rfl, rfl⟩
  | succ d ih =>
    intro hd
    obtain ⟨c₁, hc₁, hsend, hpc₁, hright, hback⟩ := ih (by omega)
    obtain ⟨s', hact, hsend', hpc'⟩ := hsend.window hpc₁ (by omega)
    exact ⟨_, hc₁.trans (reach_left_send (P := transfer job) hact), hsend', hpc', hright, hback⟩

theorem rest_reach (h : Sending job w j c.left) (hrest : c.left.act job = c.left.rest job)
    (hs : Stored job j n c) : ∀ d, j + d ≤ packets job → ∃ c', (transfer job).Reach c c' ∧
      Sending job w (j + d) c'.left ∧ c'.left.act job = c'.left.rest job ∧ Stored job (j + d) n c' := by
  intro d
  induction d with
  | zero => exact fun _ => ⟨c, .refl, h, hrest, hs⟩
  | succ d ih =>
    intro hd
    obtain ⟨c₁, hc₁, hsend, hrest₁, hstored⟩ := ih (by omega)
    obtain ⟨s', next, hact, hwait, hnext⟩ := hsend.rest hrest₁ (by omega)
    obtain ⟨c₂, hc₂, rfl, hstored'⟩ := hstored.exchange (by omega) hact
    obtain ⟨m, back, hback⟩ := List.exists_cons_of_ne_nil
      (List.length_pos_iff.mp (by rw [hstored'.back]; omega))
    have hc₃ := reach_left_recv (P := transfer job) hwait hback
    refine ⟨_, (hc₁.trans hc₂).trans hc₃, (hnext m).1, (hnext m).2, hstored'.pc, hstored'.size,
      hstored'.received, hstored'.file, hstored'.forth, ?_⟩
    have hlen := hstored'.back
    rw [hback, List.length_cons] at hlen
    exact Nat.succ.inj hlen

theorem drain_reach (hdrain : c.left.act job = c.left.drain 0) (hw : c.left.windowSize = w) :
    ∀ i, i ≤ w → i ≤ c.back.length → ∃ c', (transfer job).Reach c c' ∧
      c'.left.act job = c'.left.drain i ∧ c'.left.windowSize = w ∧ c'.right = c.right ∧
      c'.back.length = c.back.length - i := by
  intro i
  induction i with
  | zero => exact fun _ _ => ⟨c, .refl, hdrain, hw, rfl, rfl⟩
  | succ i ih =>
    intro hi hb
    obtain ⟨c₁, hc₁, hact, hw₁, hright, hback⟩ := ih (by omega) (by omega)
    rw [Sender.drain, if_pos (by omega)] at hact
    obtain ⟨m, back, hm⟩ := List.exists_cons_of_ne_nil (List.length_pos_iff.mp (by omega : 0 < c₁.back.length))
    refine ⟨_, hc₁.trans (reach_left_recv (P := transfer job) hact hm), rfl, hw₁, hright, ?_⟩
    rw [hm, List.length_cons] at hback
    dsimp only
    omega

theorem atoi_size (t : Msg) (size : ℕ) : atoi (t.write (decimal size ++ [0])).payload = size := by
  rw [Msg.write, overwrite]
  dsimp only
  rw [List.append_assoc]
  apply atoi_decimal size _
  intro b hb
  obtain rfl : (0 : UInt8) = b := by simpa using hb
  decide

theorem sent_zero : sent job 0 = 0 := by simp [sent]

theorem size_reach (job : Job) : ∃ c, (transfer job).Reach start c ∧ c.left.pc = .sizeAck ∧
    c.left.fp = 0 ∧ c.left.sentSize = 0 ∧ Stored job 0 1 c := by
  have h₁ := reach_left_send (P := transfer job) (c := start) rfl
  have h₂ := h₁.trans (reach_right_recv (P := transfer job) rfl rfl)
  have h₃ := h₂.trans (reach_right_send (P := transfer job) rfl)
  have h₄ := h₃.trans (reach_left_recv (P := transfer job) rfl rfl)
  have h₅ := h₄.trans (reach_left_send (P := transfer job) rfl)
  have h₆ := h₅.trans (reach_right_recv (P := transfer job) rfl rfl)
  have h₇ := h₆.trans (reach_right_send (P := transfer job) rfl)
  refine ⟨_, h₇, rfl, rfl, rfl, rfl, atoi_size _ _, sent_zero.symm, ?_, rfl, rfl⟩
  rw [sent_zero]
  rfl

/-- Where the window size is computed the sender goes on, or fails. -/
theorem start_reach (job : Job) : ∃ c, (transfer job).Reach start c ∧ Stored job 0 0 c ∧
    match windowSize job.count job.file.length with
    | none => c.left.act job = .fail
    | some w => Sending job w 0 c.left ∧ c.left.pc = .window 0 := by
  obtain ⟨c, hc, hpc, hfp, hsent, hs⟩ := size_reach job
  obtain ⟨m, back, hback⟩ := List.exists_cons_of_ne_nil
    (List.length_pos_iff.mp (by rw [hs.back]; omega))
  have hact : c.left.act job = .recv fun m =>
      match windowSize job.count job.file.length with
      | none => { c.left with t := m, pc := .failed }
      | some w => { c.left with t := m, windowSize := w, pc := .window 0 } := by
    rewrite [Sender.act, hpc]
    rfl
  have hnil : back = [] := by
    have := hs.back
    rw [hback, List.length_cons] at this
    exact List.length_eq_zero_iff.mp (by omega)
  refine ⟨_, hc.trans (reach_left_recv (P := transfer job) hact hback),
    ⟨hs.pc, hs.size, hs.received, hs.file, hs.forth, by rw [hnil]; rfl⟩, ?_⟩
  cases windowSize job.count job.file.length with
  | none => rfl
  | some w => exact ⟨⟨hfp.trans sent_zero.symm, hsent.trans sent_zero.symm, rfl⟩, rfl⟩

theorem run_halt {inbox : List Msg} {σ : Type} {a : Act σ Msg Msg} (h : a = .halt) :
    a.run inbox = none := by
  rw [h]
  rfl

/-- Both programs have returned, and the receiver has written the file. -/
structure Finished (job : Job) (t : Config Sender Receiver Msg Msg) : Prop where
  left : t.left.act job = .halt
  right : t.right.act = .halt
  file : t.right.file = job.file

theorem Finished.terminal (h : Finished job c) : (transfer job).Terminal c :=
  terminal_of_stuck (fun _ => run_halt h.left) (fun _ => run_halt h.right)

/-- A window that is not larger than the file lets both programs return. -/
theorem finished_reach (hw : windowSize job.count job.file.length = some w) (hle : w ≤ packets job) :
    ∃ t, (transfer job).Reach start t ∧ Finished job t := by
  obtain ⟨c₀, hc₀, hs₀, hstart⟩ := start_reach job
  rw [hw] at hstart
  obtain ⟨hsend₀, hpc₀⟩ := hstart
  obtain ⟨c₁, hc₁, hsend₁, hpc₁, hs₁⟩ := window_reach hsend₀ hpc₀ hs₀ w (le_refl w) hle
  have hrest₁ : c₁.left.act job = c₁.left.rest job := by
    rw [Sender.act, hpc₁]
    dsimp only
    rw [Sender.window, if_neg (by rw [hsend₁.windowSize]; omega)]
  obtain ⟨c₂, hc₂, hsend₂, hrest₂, hs₂⟩ := rest_reach hsend₁ hrest₁ hs₁ (packets job - w) (by omega)
  rw [Nat.add_sub_cancel' hle] at hsend₂ hs₂
  have hdrain₂ : c₂.left.act job = c₂.left.drain 0 := by
    rw [hrest₂, Sender.rest, if_neg (by rw [hsend₂.sentSize, sent_of_packets_le (le_refl _)]; omega)]
  obtain ⟨c₃, hc₃, hact₃, hw₃, hright₃, -⟩ := drain_reach hdrain₂ hsend₂.windowSize w (le_refl w)
    (by rw [hs₂.back])
  refine ⟨c₃, ((hc₀.trans hc₁).trans hc₂).trans hc₃, ?_, ?_, ?_⟩
  · rw [hact₃, Sender.drain, if_neg (by omega)]
  · rw [hright₃, hs₂.halt (le_refl _)]
  · rw [hright₃, hs₂.file, sent_of_packets_le (le_refl _), List.take_length]

theorem agrees_of_finished {t : Config Sender Receiver Msg Msg} (ht : (transfer job).Reach start t)
    (hfin : Finished job t) : Agrees job := by
  have hreach : ∀ c, (transfer job).Reach start c → (transfer job).Reach c t :=
    fun c hc => hfin.terminal.reach ht hc
  refine ⟨fun c hc hfail => ?_, fun c hc hdead => ?_, fun c hc hl hr => ?_⟩
  · rcases hfail with hfail | hfail
    · have := Reach.left_eq (hreach c hc) (fun _ => by
        change (c.left.act job).run _ = none
        rw [hfail]
        rfl)
      rw [← this, hfin.left] at hfail
      cases hfail
    · have := Reach.right_eq (hreach c hc) (fun _ => by
        change c.right.act.run _ = none
        rw [hfail]
        rfl)
      rw [← this, hfin.right] at hfail
      cases hfail
  · obtain ⟨⟨next, hwait⟩, hret, hflight⟩ := hdead
    have hback : c.back = [] := by
      by_contra hne
      exact hflight (.inr ⟨hne, by rw [hwait]; nofun⟩)
    have hterm : (transfer job).Terminal c := by
      rintro c' (h | h)
      · rw [stepLeft, hback, show (transfer job).left c.left = _ from hwait] at h
        cases h
      · rw [stepRight, show (transfer job).right c.right = _ from hret] at h
        cases h
    rw [hfin.terminal.unique hterm ht hc, hfin.left] at hwait
    cases hwait
  · have hterm : (transfer job).Terminal c :=
      terminal_of_stuck (fun _ => run_halt hl) (fun _ => run_halt hr)
    rw [hfin.terminal.unique hterm ht hc, hfin.file]

/-- A larger window leaves the sender waiting for the receiver, which has returned. -/
theorem deadlock_reach (hw : windowSize job.count job.file.length = some w) (hlt : packets job < w) :
    ∃ c, (transfer job).Reach start c ∧ Deadlocked job c := by
  obtain ⟨c₀, hc₀, hs₀, hstart⟩ := start_reach job
  rw [hw] at hstart
  obtain ⟨hsend₀, hpc₀⟩ := hstart
  obtain ⟨c₁, hc₁, hsend₁, hpc₁, hs₁⟩ := window_reach hsend₀ hpc₀ hs₀ (packets job) hlt.le (le_refl _)
  obtain ⟨c₂, hc₂, hsend₂, hpc₂, hright₂, hback₂⟩ := idle_reach hsend₁ hpc₁ (w - packets job) (by omega)
  rw [Nat.add_sub_cancel' hlt.le] at hsend₂ hpc₂
  have hdrain₂ : c₂.left.act job = c₂.left.drain 0 := by
    rw [Sender.act, hpc₂]
    dsimp only
    rw [Sender.window, if_neg (by rw [hsend₂.windowSize]; omega), Sender.rest,
      if_neg (by rw [hsend₂.sentSize, sent_of_packets_le hlt.le]; omega)]
  have hlen₂ : c₂.back.length = packets job := by rw [hback₂, hs₁.back]
  obtain ⟨c₃, hc₃, hact₃, hw₃, hright₃, hback₃⟩ := drain_reach hdrain₂ hsend₂.windowSize (packets job)
    hlt.le hlen₂.ge
  have hret : c₃.right.act = .halt := by rw [hright₃, hright₂, hs₁.halt (le_refl _)]
  have hempty : c₃.back = [] := List.length_eq_zero_iff.mp (by omega)
  refine ⟨c₃, ((hc₀.trans hc₁).trans hc₂).trans hc₃, ?_, hret, ?_⟩
  · rw [hact₃, Sender.drain, if_pos (by omega)]
    exact ⟨_, rfl⟩
  · rintro (⟨-, hrun⟩ | ⟨hne, -⟩)
    · exact hrun hret
    · exact hne hempty

/-- The transfer agrees just when the window size can be computed and the window is not larger
than the file. -/
theorem agrees_iff (job : Job) : Agrees job ↔
    0 < job.file.length ∧ 8 * job.file.length < 2 ^ 31 ∧ 100 * job.count < 2 ^ 31 ∧
      100 * job.count / (8 * job.file.length) ≤ (job.file.length + 1395) / 1396 := by
  have hsize : windowSize job.count job.file.length =
      if job.count * 100 < 2 ^ 31 ∧ 0 < 8 * job.file.length ∧ 8 * job.file.length < 2 ^ 31 then
        some (job.count * 100 / (8 * job.file.length)) else none := rfl
  split at hsize
  · next hok =>
    have hiff : Agrees job ↔ job.count * 100 / (8 * job.file.length) ≤ packets job := by
      constructor
      · intro h
        by_contra hlt
        obtain ⟨c, hc, hdead⟩ := deadlock_reach hsize (not_le.mp hlt)
        exact h.no_deadlock c hc hdead
      · intro hle
        obtain ⟨t, ht, hfin⟩ := finished_reach hsize hle
        exact agrees_of_finished ht hfin
    rw [hiff, mul_comm job.count]
    have : 100 * job.count < 2 ^ 31 := by omega
    simp only [packets, msgSize]
    constructor
    · exact fun h => ⟨by omega, hok.2.2, this, h⟩
    · exact fun h => h.2.2.2
  · next hbad =>
    constructor
    · intro h
      obtain ⟨c, hc, -, hfail⟩ := start_reach job
      rw [hsize] at hfail
      exact absurd (.inl hfail) (h.no_fail c hc)
    · rintro ⟨hpos, hlt, hcount, -⟩
      exact absurd ⟨by omega, by omega, hlt⟩ hbad

def emptyJob : Job where
  name := ⟨ascii "file.in", by decide, by decide⟩
  file := []
  count := 100
  file_lt := by decide
  count_lt := by decide

/-- The window size of an empty file is a division by zero. -/
theorem emptyJob_fails : ¬ Agrees emptyJob := by
  intro h
  obtain ⟨c, hc, -, hfail⟩ := start_reach emptyJob
  rw [show windowSize emptyJob.count emptyJob.file.length = none by decide] at hfail
  exact h.no_fail c hc (.inl hfail)

end PCom.SlidingWindow
