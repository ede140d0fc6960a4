import PCom.LinkEmulator.Draining
import PCom.SlidingWindow.Agreement

/-! # The sliding-window programs through the link emulator

The two `main` functions, with the messages that they exchange before the file, and the emulator between
them. Each message is acknowledged by one, and the sender counts: it returns only when nothing was lost.
-/

namespace PCom.SlidingWindow
open Foundations Pair Relation

variable {job : Job} {c c' : Config Sender Receiver Msg Msg} {n w : ℕ}

def count : ℕ := 100

inductive SenderMain where
  | dummy (i : ℕ)
  | dummyAck (i : ℕ)
  | file (s : Sender)

inductive ReceiverMain where
  | dummy (i : ℕ)
  | dummyAck (i : ℕ) (r : Msg)
  | file (r : Receiver)

/-- The loop of `main` from its `i`-th round on; `t` has what was received last. -/
def SenderMain.loop (i : ℕ) (t : Msg) : SenderMain := if i < count then .dummy i else .file ⟨.name, t, 0, 0, 0⟩

def ReceiverMain.loop (i : ℕ) (r : Msg) : ReceiverMain :=
  if i < count then .dummy i else .file ⟨.name, r, [], [], 0, 0, 0⟩

variable (job) in
def SenderMain.act : SenderMain → Act SenderMain Msg Msg
  | .dummy i => .send SlidingWindow.dummy (.dummyAck i)
  | .dummyAck i => .recv fun m => loop (i + 1) m
  | .file s => (s.act job).map .file

def ReceiverMain.act : ReceiverMain → Act ReceiverMain Msg Msg
  | .dummy i => .recv fun m => .dummyAck i m
  | .dummyAck i r => .send r (loop (i + 1) r)
  | .file r => r.act.map .file

variable (job) in
def mains : Pair SenderMain ReceiverMain Msg Msg := ⟨SenderMain.act job, ReceiverMain.act⟩

def mainStart : Config SenderMain ReceiverMain Msg Msg := ⟨.dummy 0, .dummy 0, [], []⟩

/-- A dummy message goes to the receiver and comes back as it was. -/
theorem dummy_reach (i : ℕ) : (mains job).Reach ⟨.dummy i, .dummy i, [], []⟩
    ⟨.loop (i + 1) dummy, .loop (i + 1) dummy, [], []⟩ := by
  have h₁ := reach_left_send (P := mains job) (c := ⟨.dummy i, .dummy i, [], []⟩) rfl
  have h₂ := h₁.trans (reach_right_recv (P := mains job) rfl rfl)
  have h₃ := h₂.trans (reach_right_send (P := mains job) rfl)
  exact h₃.trans (reach_left_recv (P := mains job) rfl rfl)

theorem file_reach (job : Job) : (mains job).Reach mainStart (start.map .file .file) := by
  have hloop : ∀ k, k ≤ count → (mains job).Reach mainStart
      ⟨.loop k dummy, .loop k dummy, [], []⟩ := by
    intro k
    induction k with
    | zero => exact fun _ => .refl
    | succ k ih =>
      intro hk
      have hlt : k < count := hk
      have hprev := ih hlt.le
      rw [SenderMain.loop, ReceiverMain.loop, if_pos hlt, if_pos hlt] at hprev
      exact hprev.trans (dummy_reach k)
  exact hloop count le_rfl

theorem mains_reach (h : (transfer job).Reach start c) : (mains job).Reach mainStart (c.map .file .file) :=
  (file_reach job).trans (h.embed (fun _ => rfl) fun _ => rfl)

def Sender.Counted (s : Sender) : Prop :=
  match s.pc with
  | .window i => i ≤ s.windowSize
  | _ => True

/-- The number of acknowledgements that the sender has still to receive for what it has sent. -/
def Sender.awaits (s : Sender) : ℕ :=
  match s.pc with
  | .nameAck | .sizeAck => 1
  | .window i => i
  | .rest => s.windowSize
  | .restAck _ => s.windowSize + 1
  | .drain i => s.windowSize - i
  | .name | .size | .failed => 0

def Receiver.owes (r : Receiver) : ℕ :=
  match r.pc with
  | .nameAck | .sizeAck | .loopAck => 1
  | .name | .size | .loop => 0

def Sender.Counts (s : Sender) : Act Sender Msg Msg → Prop
  | .send _ s' => s'.Counted ∧ s'.awaits = s.awaits + 1
  | .recv next => ∀ m, (next m).Counted ∧ s.awaits = (next m).awaits + 1
  | .halt => s.awaits = 0
  | .fail => True

theorem counts_drain {s : Sender} {i : ℕ} (h : s.awaits = s.windowSize - i) : s.Counts (s.drain i) := by
  rw [Sender.drain]
  split
  · next hi =>
    intro m
    refine ⟨trivial, ?_⟩
    rw [h, Sender.awaits]
    dsimp only
    omega
  · next hi =>
    change s.awaits = 0
    omega

theorem counts_rest {s : Sender} (h : s.awaits = s.windowSize) : s.Counts (s.rest job) := by
  rw [Sender.rest]
  split
  · exact ⟨trivial, congrArg (· + 1) h.symm⟩
  · exact counts_drain h

theorem counts_act (job : Job) {s : Sender} (h : s.Counted) : s.Counts (s.act job) := by
  obtain ⟨pc, t, fp, sentSize, windowSize⟩ := s
  cases pc with
  | name => exact ⟨trivial, rfl⟩
  | nameAck => exact fun m => ⟨trivial, rfl⟩
  | size => exact ⟨trivial, rfl⟩
  | sizeAck =>
    intro m
    dsimp only
    split
    · exact ⟨trivial, rfl⟩
    · exact ⟨Nat.zero_le _, rfl⟩
  | window i =>
    have hle : i ≤ windowSize := h
    rw [Sender.act]
    dsimp only
    rw [Sender.window]
    split
    · next hi => exact ⟨hi, rfl⟩
    · next hi => exact counts_rest (le_antisymm hle (not_lt.mp hi))
  | rest => exact counts_rest rfl
  | restAck fp2 => exact fun m => ⟨trivial, rfl⟩
  | drain i => exact counts_drain rfl
  | failed => trivial

def SenderMain.Counted : SenderMain → Prop
  | .file s => s.Counted
  | _ => True

def SenderMain.awaits : SenderMain → ℕ
  | .dummy _ => 0
  | .dummyAck _ => 1
  | .file s => s.awaits

def ReceiverMain.owes : ReceiverMain → ℕ
  | .dummy _ => 0
  | .dummyAck _ _ => 1
  | .file r => r.owes

theorem loop_awaits (i : ℕ) (t : Msg) : (SenderMain.loop i t).Counted ∧ (SenderMain.loop i t).awaits = 0 := by
  rw [SenderMain.loop]
  split <;> exact ⟨trivial, rfl⟩

theorem loop_owes (i : ℕ) (r : Msg) : (ReceiverMain.loop i r).owes = 0 := by
  rw [ReceiverMain.loop]
  split <;> rfl

theorem owes_recv {r : Receiver} {next : Msg → Receiver} (h : r.act = .recv next) (m : Msg) :
    (next m).owes = r.owes + 1 := by
  obtain ⟨pc, t, path, file, size, receivedSize, errors⟩ := r
  cases pc with
  | loop =>
    rw [Receiver.act] at h
    dsimp only at h
    split at h
    · cases h
      rfl
    · cases h
  | name | size =>
    cases h
    rfl
  | nameAck | sizeAck | loopAck => cases h

theorem owes_send {r r' : Receiver} {m : Msg} (h : r.act = .send m r') : r.owes = r'.owes + 1 := by
  obtain ⟨pc, t, path, file, size, receivedSize, errors⟩ := r
  cases pc with
  | loop =>
    rw [Receiver.act] at h
    dsimp only at h
    split at h <;> cases h
  | nameAck | sizeAck | loopAck =>
    cases h
    rfl
  | name | size => cases h

theorem mains_answers (job : Job) : Answers (mains job) SenderMain.Counted SenderMain.awaits ReceiverMain.owes where
  send := by
    intro s m s' h hact
    cases s with
    | dummy i =>
      cases hact
      exact ⟨trivial, rfl⟩
    | dummyAck i => cases hact
    | file s =>
      have hcounts := counts_act job h
      change (s.act job).map SenderMain.file = _ at hact
      cases hs : s.act job with
      | send m next =>
        rw [hs] at hact hcounts
        cases hact
        exact hcounts
      | recv next | halt | fail =>
        rw [hs] at hact
        cases hact
  recv := by
    intro s next h hact m
    cases s with
    | dummy i => cases hact
    | dummyAck i =>
      cases hact
      exact ⟨(loop_awaits _ _).1, by rw [(loop_awaits _ _).2]; rfl⟩
    | file s =>
      have hcounts := counts_act job h
      change (s.act job).map SenderMain.file = _ at hact
      cases hs : s.act job with
      | recv next =>
        rw [hs] at hact hcounts
        cases hact
        exact hcounts m
      | send m next | halt | fail =>
        rw [hs] at hact
        cases hact
  take := by
    intro r next hact m
    cases r with
    | dummy i =>
      cases hact
      rfl
    | dummyAck i r => cases hact
    | file r =>
      change r.act.map ReceiverMain.file = _ at hact
      cases hr : r.act with
      | recv next =>
        rw [hr] at hact
        cases hact
        exact owes_recv hr m
      | send m next | halt | fail =>
        rw [hr] at hact
        cases hact
  answer := by
    intro r m r' hact
    cases r with
    | dummy i => cases hact
    | dummyAck i r =>
      cases hact
      rw [loop_owes]
      rfl
    | file r =>
      change r.act.map ReceiverMain.file = _ at hact
      cases hr : r.act with
      | send m next =>
        rw [hr] at hact
        cases hact
        exact owes_send hr
      | recv next | halt | fail =>
        rw [hr] at hact
        cases hact

theorem awaits_of_halt {s : SenderMain} (h : s.Counted) (hact : s.act job = .halt) : s.awaits = 0 := by
  cases s with
  | dummy i => cases hact
  | dummyAck i => cases hact
  | file s =>
    have hcounts := counts_act job h
    change (s.act job).map SenderMain.file = _ at hact
    cases hs : s.act job with
    | halt =>
      rw [hs] at hcounts
      exact hcounts
    | send m next | recv next | fail =>
      rw [hs] at hact
      cases hact

theorem run_nil_of_owes {r : ReceiverMain} (h : r.owes = 0) : ((mains job).right r).run [] = none := by
  cases hact : (mains job).right r with
  | send m next =>
    have hanswer := (mains_answers job).answer hact
    omega
  | recv next => rfl
  | halt => rfl
  | fail => rfl

variable {d t : Config SenderMain ReceiverMain Msg Msg}

theorem terminal_of_halt (h : (mains job).Lossy mainStart n d) (hact : d.left.act job = .halt) :
    n = 0 ∧ (mains job).Terminal d := by
  have hanswers := mains_answers job
  obtain ⟨hcounted, hsum⟩ := hanswers.lossy (show mainStart.left.Counted from trivial) rfl h
  rw [awaits_of_halt hcounted hact] at hsum
  have hforth : d.forth = [] := List.length_eq_zero_iff.mp (by omega)
  refine ⟨by omega, fun c' hstep => ?_⟩
  rcases hstep with hstep | hstep
  · rw [stepLeft, show (mains job).left d.left = _ from hact] at hstep
    cases hstep
  · rw [stepRight, hforth, run_nil_of_owes (by omega)] at hstep
    cases hstep

def Fits (job : Job) : Prop := ∃ w, windowSize job.count job.file.length = some w ∧ w ≤ packets job

theorem mains_terminal {t : Config Sender Receiver Msg Msg} (hfin : Finished job t) :
    (mains job).Terminal (t.map .file .file) := by
  apply terminal_of_stuck
  · intro inbox
    change ((t.left.act job).map SenderMain.file).run inbox = none
    rw [hfin.left]
    rfl
  · intro inbox
    change (t.right.act.map ReceiverMain.file).run inbox = none
    rw [hfin.right]
    rfl

theorem fits_of_halt (hreach : (mains job).Reach mainStart d) (hterm : (mains job).Terminal d)
    (hact : d.left.act job = .halt) : Fits job := by
  by_contra hnot
  cases hw : windowSize job.count job.file.length with
  | none =>
    obtain ⟨c, hc, -, hfail⟩ := start_reach job
    rw [hw] at hfail
    -- a sender that has failed has not returned
    have hcd := hterm.reach hreach (mains_reach hc)
    have hleft := hcd.left_eq fun inbox => by
      change ((c.left.act job).map SenderMain.file).run inbox = none
      rw [hfail]
      rfl
    rw [hleft] at hact
    change (c.left.act job).map SenderMain.file = _ at hact
    rw [hfail] at hact
    cases hact
  | some w =>
    have hlt : packets job < w := by
      by_contra hle
      exact hnot ⟨w, hw, not_lt.mp hle⟩
    obtain ⟨c, hc, ⟨next, hwait⟩, hret, hflight⟩ := deadlock_reach hw hlt
    have hback : c.back = [] := by
      by_contra hne
      exact hflight (.inr ⟨hne, by rw [hwait]; simp⟩)
    -- neither has one that waits for ever
    have hstuck : (mains job).Terminal (c.map .file .file) := by
      rintro c' (h | h)
      · rw [stepLeft, show (mains job).left _ = (c.left.act job).map SenderMain.file from rfl, hwait,
          show (c.map SenderMain.file ReceiverMain.file).back = [] from hback] at h
        cases h
      · rw [stepRight, show (mains job).right _ = c.right.act.map ReceiverMain.file from rfl, hret] at h
        cases h
    have heq := hstuck.unique hterm (mains_reach hc) hreach
    rw [heq] at hact
    change (c.left.act job).map SenderMain.file = _ at hact
    rw [hwait] at hact
    cases hact

/-- `send`, `link` and `recv`; `init` sends whatever the memory of its message holds. -/
def emulated (job : Job) (cfg : LinkEmulator.Config Msg) (hello1 hello2 : Msg) :
    LinkEmulator.Setup SenderMain ReceiverMain Msg Msg where
  cfg := cfg
  programs := mains job
  left := .dummy 0
  right := .dummy 0
  hello1 := hello1
  hello2 := hello2

/-- What holds of the three programs wherever they are. -/
structure EmulatedTransfer (S : LinkEmulator.Setup SenderMain ReceiverMain Msg Msg) (job : Job)
    (p : LinkEmulator.Peers SenderMain ReceiverMain Msg Msg) : Prop where
  complete : ∀ s, p.left = some s → s.act job = .halt →
    p.losses = 0 ∧ Fits job ∧ ∃ r : Receiver, p.right = some (.file r) ∧ r.act = .halt ∧ r.file = job.file
  stuck : p.losses ≠ 0 → ∀ p', S.Reach p p' → ∀ s, p'.left = some s → s.act job ≠ .halt
  returns : S.cfg.Passable → p.link.Running → p.losses = 0 →
    ((∃ p' s, S.Reach p p' ∧ p'.left = some s ∧ s.act job = .halt) ↔ Fits job)

variable {cfg : LinkEmulator.Config Msg} {hello1 hello2 : Msg}
  {p p' : LinkEmulator.Peers SenderMain ReceiverMain Msg Msg}

theorem complete_of_reach {s : SenderMain} (hcorrupt : cfg.corrupt ≤ 0)
    (hreach : (emulated job cfg hello1 hello2).Reach (emulated job cfg hello1 hello2).start p)
    (hleft : p.left = some s) (hhalt : s.act job = .halt) :
    p.losses = 0 ∧ Fits job ∧
      ∃ r : Receiver, p.right = some (.file r) ∧ r.act = .halt ∧ r.file = job.file := by
  have hlossy := (LinkEmulator.lossy_of_reach hcorrupt hreach).2
  have hact : (p.config (emulated job cfg hello1 hello2)).left.act job = .halt := by
    rw [LinkEmulator.Peers.config, hleft]
    exact hhalt
  obtain ⟨hlost, hterm⟩ := terminal_of_halt hlossy hact
  have hfits := fits_of_halt (hlossy.reach hlost) hterm hact
  -- the one order that finishes ends where every order does
  obtain ⟨w, hw, hle⟩ := hfits
  obtain ⟨t, ht, hfin⟩ := finished_reach hw hle
  have hconfig := (mains_terminal hfin).unique hterm (mains_reach ht) (hlossy.reach hlost)
  have hright := congrArg Config.right hconfig
  refine ⟨hlost, ⟨w, hw, hle⟩, t.right, ?_, hfin.right, hfin.file⟩
  rw [LinkEmulator.Peers.config] at hright
  cases hr : p.right with
  | none =>
    rw [hr] at hright
    cases hright
  | some r =>
    rw [hr] at hright
    exact congrArg some hright

/-- Through the emulator, without corruption and in whatever order everything happens: a sender that
returns has lost no message and the receiver has returned too, with the same file; and after a loss the
sender never returns. As long as nothing is lost and the emulator's assertion has not failed, the sender can
still return just when the window can be computed and is not larger than the file, when the link is
`Passable`: not everything is lost, the buffer has room and sending a message takes time. -/
theorem emulated_windows (hcorrupt : cfg.corrupt ≤ 0)
    (hreach : (emulated job cfg hello1 hello2).Reach (emulated job cfg hello1 hello2).start p) :
    EmulatedTransfer (emulated job cfg hello1 hello2) job p := by
  obtain ⟨hsound, hlossy⟩ := LinkEmulator.lossy_of_reach hcorrupt hreach
  refine ⟨fun s => complete_of_reach hcorrupt hreach, ?_, ?_⟩
  · intro hlost p' hreach' s hleft hhalt
    have hmono := LinkEmulator.losses_mono hcorrupt hsound hreach'
    have hzero := (complete_of_reach hcorrupt (hreach.trans hreach') hleft hhalt).1
    omega
  · intro hcfg hrun hlost
    constructor
    · rintro ⟨p', s, hreach', hleft, hhalt⟩
      exact (complete_of_reach hcorrupt (hreach.trans hreach') hleft hhalt).2.1
    · rintro ⟨w, hw, hle⟩
      obtain ⟨t, ht, hfin⟩ := finished_reach hw hle
      have hto := (mains_terminal hfin).reach (mains_reach ht) (hlossy.reach hlost)
      obtain ⟨p', hreach', hconfig, -⟩ := LinkEmulator.reach_of_pair hcfg hsound hrun hto
      have hleft := congrArg Config.left hconfig
      rw [LinkEmulator.Peers.config] at hleft
      cases hl : p'.left with
      | none =>
        rw [hl] at hleft
        cases hleft
      | some s =>
        rw [hl, Option.getD_some] at hleft
        obtain rfl : s = .file t.left := hleft
        refine ⟨p', _, hreach', hl, ?_⟩
        change (t.left.act job).map SenderMain.file = _
        rw [hfin.left]
        rfl

def letter : Job where
  name := ⟨ascii "y.in", by decide, by decide⟩
  file := ascii "y"
  count := 9
  file_lt := by decide
  count_lt := by decide

def fastLink : LinkEmulator.Config Msg := ⟨1, 1, 1, 0, 0, fun _ _ _ => none⟩

def underWay : List (LinkEmulator.PeerEvent Msg) := [.initRight, .receive2, .initLeft, .receive1, .left]

theorem emulated_windows_under_way : ∃ p, (emulated letter fastLink dummy dummy).Reach
    (emulated letter fastLink dummy dummy).start p ∧ p.port1 = [dummy] ∧
      EmulatedTransfer (emulated letter fastLink dummy dummy) letter p := by
  obtain ⟨p, hp, hport⟩ : ∃ p, (emulated letter fastLink dummy dummy).after
      (emulated letter fastLink dummy dummy).start underWay = some p ∧ p.port1 = [dummy] := ⟨_, rfl, rfl⟩
  have hreach := LinkEmulator.reach_of_after hp
  exact ⟨p, hreach, hport, emulated_windows (by decide) hreach⟩

end PCom.SlidingWindow
