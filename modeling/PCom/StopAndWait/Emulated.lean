import PCom.LinkEmulator.Draining
import PCom.StopAndWait.Agreement

/-! # The stop-and-wait transfer through the link emulator

One lost message stops the transfer for good, and nothing else does. A message is also lost when it comes
out of the link before the receiver's first message has brought the other side up.
-/

namespace PCom.StopAndWait
open Foundations Pair

variable {job : Job} {s : Sender} {r : Receiver} {c : Config Sender Receiver Msg Msg} {n : ℕ}

/-- The file is empty until its name has come. -/
def Fresh (r : Receiver) : Prop := r.pc = .dummy ∨ r.pc = .dummyAck ∨ r.pc = .name → r.file = []

theorem Fresh.recv {next : Msg → Receiver} (h : Fresh r) (hact : r.act = .recv next) (m : Msg) :
    r.file <+: (next m).file ∧ Fresh (next m) := by
  rw [Receiver.act] at hact
  cases hpc : r.pc with
  | dummy =>
    rw [hpc] at hact
    cases hact
    exact ⟨List.prefix_rfl, fun _ => h (.inl hpc)⟩
  | name =>
    rw [hpc] at hact
    cases hact
    rw [h (.inr (.inr hpc))]
    exact ⟨List.prefix_rfl, fun _ => rfl⟩
  | size =>
    rw [hpc] at hact
    cases hact
    exact ⟨List.prefix_rfl, by rintro (h | h | h) <;> cases h⟩
  | loop =>
    rw [hpc] at hact
    dsimp only at hact
    split at hact
    · cases hact
      exact ⟨List.prefix_append _ _, by rintro (h | h | h) <;> cases h⟩
    · cases hact
  | dummyAck | nameAck | sizeAck | loopAck =>
    rw [hpc] at hact
    cases hact

theorem Fresh.send {r' : Receiver} {m : Msg} (h : Fresh r) (hact : r.act = .send m r') :
    r'.file = r.file ∧ Fresh r' := by
  rw [Receiver.act] at hact
  cases hpc : r.pc with
  | dummyAck =>
    rw [hpc] at hact
    cases hact
    exact ⟨rfl, fun _ => h (.inr (.inl hpc))⟩
  | nameAck | sizeAck | loopAck =>
    rw [hpc] at hact
    cases hact
    exact ⟨rfl, by rintro (h | h | h) <;> cases h⟩
  | loop =>
    rw [hpc] at hact
    dsimp only at hact
    split at hact <;> cases hact
  | dummy | name | size =>
    rw [hpc] at hact
    cases hact

theorem Fresh.of_lossy (h : (transfer job).Lossy (start job) n c) : Fresh c.right := by
  induction h with
  | refl => exact fun _ => rfl
  | step _ step ih =>
    rcases step with step | step
    · rw [stepLeft_right step]
      exact ih
    · rcases stepRight_cases step with ⟨m, next, hact, rfl⟩ | ⟨next, m, forth, hact, -, rfl⟩
      · exact (ih.send hact).2
      · exact (ih.recv hact m).2
  | drop _ drop ih => cases drop <;> exact ih

theorem Ready.file_prefix (h : Ready job s r) (hfresh : Fresh r) : r.file <+: job.file := by
  cases h with
  | dummy t r path file size => exact (hfresh (.inl rfl)).symm ▸ List.nil_prefix
  | name t r path file size => exact (hfresh (.inr (.inr rfl))).symm ▸ List.nil_prefix
  | size t r size => exact List.nil_prefix
  | loop t r n k hn => exact List.take_prefix _ _

/-- Before an exchange the receiver has at most what it has after it. -/
theorem Ready.file_prefix_of_exchange {s' : Sender} {r' : Receiver} (e : Exchange (transfer job) s r s' r')
    (h : Ready job s' r') (hfresh : Fresh r) : r.file <+: job.file := by
  obtain ⟨next, hact, hgot⟩ := e.receive
  obtain ⟨hle, hfresh'⟩ := hfresh.recv hact e.request
  rw [hgot] at hle hfresh'
  obtain ⟨heq, hfresh''⟩ := hfresh'.send e.reply
  exact hle.trans (heq ▸ h.file_prefix hfresh'')

theorem file_prefix (h : InStep (transfer job) (Ready job) c ∨ Broken (transfer job) (Ready job) c)
    (hfresh : Fresh c.right) : c.right.file <+: job.file := by
  rcases h with h | h
  · cases h with
    | ready s r h => exact h.file_prefix hfresh
    | requested e h => exact h.file_prefix_of_exchange e hfresh
    | taken e h =>
      obtain ⟨heq, hfresh'⟩ := Fresh.send hfresh e.reply
      exact heq ▸ h.file_prefix hfresh'
    | answered e h => exact h.file_prefix hfresh
  · cases h with
    | request e h => exact h.file_prefix_of_exchange e hfresh
    | answer e h => exact h.file_prefix hfresh

/-- `send`, `link` and `recv`; `init` sends whatever the memory of its message holds. -/
def emulated (job : Job) (cfg : LinkEmulator.Config Msg) (hello1 hello2 : Msg) :
    LinkEmulator.Setup Sender Receiver Msg Msg where
  cfg := cfg
  programs := transfer job
  left := (start job).left
  right := (start job).right
  hello1 := hello1
  hello2 := hello2

/-- What holds of the three programs wherever they are. A sender that has returned has had every message
acknowledged. -/
structure EmulatedTransfer (S : LinkEmulator.Setup Sender Receiver Msg Msg) (job : Job)
    (p : LinkEmulator.Peers Sender Receiver Msg Msg) : Prop where
  losses_le : p.losses ≤ 1
  complete : ∀ s, p.left = some s → s.act job = .halt →
    ∃ r, p.right = some r ∧ r.path = job.name.chars ++ ascii "_copy" ∧ r.file = job.file
  file_prefix : ∀ r, p.right = some r → r.file <+: job.file
  stuck : p.losses = 1 → ∀ p', S.Reach p p' → ∀ s, p'.left = some s → s.act job ≠ .halt
  returns : S.cfg.Passable → p.link.Running → p.losses = 0 → ∃ p' s r, S.Reach p p' ∧
    p'.left = some s ∧ p'.right = some r ∧ s.act job = .halt ∧ r.act = .halt

variable {cfg : LinkEmulator.Config Msg} {hello1 hello2 : Msg}
  {p p' : LinkEmulator.Peers Sender Receiver Msg Msg}

/-- What the programs reach is in lockstep as long as nothing is lost. -/
theorem lockstep_of_reach (hcorrupt : cfg.corrupt ≤ 0)
    (hreach : (emulated job cfg hello1 hello2).Reach (emulated job cfg hello1 hello2).start p) :
    (p.losses = 0 ∧ InStep (transfer job) (Ready job) (p.config (emulated job cfg hello1 hello2))) ∨
      (p.losses = 1 ∧ Broken (transfer job) (Ready job) (p.config (emulated job cfg hello1 hello2))) :=
  (transfer_lockstep job).lossy (.ready _ _ (start_ready job)) (LinkEmulator.lossy_of_reach hcorrupt hreach).2

theorem complete_of_reach (hcorrupt : cfg.corrupt ≤ 0)
    (hreach : (emulated job cfg hello1 hello2).Reach (emulated job cfg hello1 hello2).start p)
    (hleft : p.left = some s) (hhalt : s.act job = .halt) :
    p.losses = 0 ∧ ∃ r, p.right = some r ∧ r.path = job.name.chars ++ ascii "_copy" ∧ r.file = job.file := by
  have hconfig : (p.config (emulated job cfg hello1 hello2)).left = s := by
    rw [LinkEmulator.Peers.config, hleft, Option.getD_some]
  rcases lockstep_of_reach hcorrupt hreach with ⟨hlost, h⟩ | ⟨-, h⟩
  · have hready := (h.of_halt (by rw [hconfig]; exact hhalt)).1
    rw [hconfig] at hready
    obtain ⟨hpath, hfile⟩ := hready.file_eq hhalt
    cases hright : p.right with
    | none =>
      -- a receiver that has not started has no path yet
      rw [LinkEmulator.Peers.config, hright] at hpath
      have hlen := congrArg List.length hpath
      rw [List.length_append] at hlen
      exact absurd hlen (by simp [emulated, start, ascii])
    | some r =>
      rw [LinkEmulator.Peers.config, hright] at hpath hfile
      exact ⟨hlost, r, rfl, hpath, hfile⟩
  · obtain ⟨next, hwait⟩ := h.waits
    rw [hconfig] at hwait
    cases hwait.symm.trans hhalt

/-- Through the emulator, without corruption and in whatever order everything happens: a sender that
returns has had its whole file written, the receiver has never written anything but the beginning of that
file, and at most one message is lost, after which the sender never returns. As long as none is lost and
the emulator's assertion has not failed, both programs can still return, when the link is `Passable`: not
everything is lost, the buffer has room and sending a message takes time. -/
theorem emulated_transfers (hcorrupt : cfg.corrupt ≤ 0)
    (hreach : (emulated job cfg hello1 hello2).Reach (emulated job cfg hello1 hello2).start p) :
    EmulatedTransfer (emulated job cfg hello1 hello2) job p := by
  obtain ⟨hsound, hlossy⟩ := LinkEmulator.lossy_of_reach hcorrupt hreach
  have hlock := lockstep_of_reach hcorrupt hreach
  refine ⟨?_, ?_, ?_, ?_, ?_⟩
  · rcases hlock with ⟨hlost, -⟩ | ⟨hlost, -⟩ <;> omega
  · intro s hleft hhalt
    exact (complete_of_reach hcorrupt hreach hleft hhalt).2
  · intro r hright
    have hfile := file_prefix (hlock.imp And.right And.right) (Fresh.of_lossy hlossy)
    rwa [LinkEmulator.Peers.config, hright] at hfile
  · intro hlost p' hreach' s hleft hhalt
    have hmono := LinkEmulator.losses_mono hcorrupt hsound hreach'
    have hzero := (complete_of_reach hcorrupt (hreach.trans hreach') hleft hhalt).1
    omega
  · intro hcfg hrun hlost
    obtain ⟨t, ht, hl, hr⟩ := (transfer_lockstep job).halts_of_reach (start_ready job) (hlossy.reach hlost)
    obtain ⟨p', hreach', hconfig, -⟩ := LinkEmulator.reach_of_pair hcfg hsound hrun ht
    rw [← hconfig, LinkEmulator.Peers.config] at hl hr
    -- programs that have not started have not returned
    cases hleft : p'.left with
    | none =>
      rw [hleft] at hl
      cases hl
    | some s =>
      cases hright : p'.right with
      | none =>
        rw [hright] at hr
        cases hr
      | some r =>
        rw [hleft] at hl
        rw [hright] at hr
        exact ⟨p', s, r, hreach', hleft, hright, hl, hr⟩

def letter : Job where
  name := ⟨ascii "x.in", by decide, by decide⟩
  file := ascii "x"
  file_lt := by decide
  reads := fun _ => 1
  reads_pos := fun _ => Nat.one_pos
  t := ⟨0, List.replicate maxLen 0⟩
  t_length := List.length_replicate
  r := ⟨0, List.replicate maxLen 0⟩
  r_length := List.length_replicate

def fastLink : LinkEmulator.Config Msg := ⟨1, 1, 1, 0, 0, fun _ _ _ => none⟩

/-- The sender's first message comes out of the link before the receiver has started. -/
def tooEarly : List (LinkEmulator.PeerEvent Msg) :=
  [.initLeft, .receive1, .left, .receive1, .thread (.check 0 0 0 0), .thread .enqueue, .thread (.now 5),
    .thread .scheduler, .thread .scheduler, .thread .scheduler, .thread (.now 7), .initRight, .receive2]

theorem emulated_transfers_too_early : ∃ p, (emulated letter fastLink letter.t letter.r).Reach
    (emulated letter fastLink letter.t letter.r).start p ∧ p.losses = 1 ∧
      EmulatedTransfer (emulated letter fastLink letter.t letter.r) letter p := by
  obtain ⟨p, hp, hlost⟩ : ∃ p, (emulated letter fastLink letter.t letter.r).after
      (emulated letter fastLink letter.t letter.r).start tooEarly = some p ∧ p.losses = 1 :=
    ⟨_, rfl, rfl⟩
  have hreach := LinkEmulator.reach_of_after hp
  exact ⟨p, hreach, hlost, emulated_transfers (by decide) hreach⟩

end PCom.StopAndWait
