import PCom.LinkEmulator.Idle
import PCom.LinkEmulator.Peers

/-! # What the link can still pass on

As long as the assertion has not failed, the threads of the emulator can bring every message that is on
the way to its program. So every step of two programs over two channels is one of the programs with the
emulator between them, after the steps that carry the messages there.
-/

namespace PCom.LinkEmulator
open Foundations Relation

universe u v w x
variable {σ : Type u} {τ : Type v} {α : Type w} {β : Type x} {S : Setup σ τ α β} {p p' : Peers σ τ α β}
  {cfg : Config α} {s s' s'' : Link α} {ms ms' : List α}

/-- Nothing is corrupted, not everything is lost, and the link takes its time for a message. -/
structure Config.Passable (cfg : Config α) : Prop where
  corrupt : cfg.corrupt ≤ 0
  loss : cfg.loss < 100
  serialization : 0 < cfg.serializationDelay
  buffer : 0 < cfg.bufferSize

/-- Steps of the threads that receive nothing and drop nothing, and what they send. -/
inductive Passes (cfg : Config α) (s : Link α) : List α → Link α → Prop
  | refl : Passes cfg s [] s
  | step {ms : List α} {s' s'' : Link α} {e : Event α} {o : List (Output α)} (h : Passes cfg s ms s')
      (he : e.receives = false) (clock : Clock [] s' e) (act : linkStep cfg s' e = some (s'', o))
      (kept : droppedOf o = []) : Passes cfg s (ms ++ (sentOf o).map Prod.fst) s''

theorem Passes.trans (h : Passes cfg s ms s') (h' : Passes cfg s' ms' s'') : Passes cfg s (ms ++ ms') s'' := by
  induction h' with
  | refl => simpa using h
  | step _ he clock act kept ih =>
    rw [← List.append_assoc]
    exact ih.step he clock act kept

theorem Passes.single {e : Event α} {o : List (Output α)} (he : e.receives = false) (clock : Clock [] s e)
    (act : linkStep cfg s e = some (s', o)) (kept : droppedOf o = []) :
    Passes cfg s ((sentOf o).map Prod.fst) s' := by
  simpa using Passes.refl.step he clock act kept

theorem passes_scheduler {o : List (Output α)} (act : s.schedulerStep cfg = some (s', o)) :
    ∃ ms, Passes cfg s ms s' := by
  refine ⟨_, .single (e := .scheduler) rfl trivial act ?_⟩
  cases linkStep_scheduler act with
  | start pc stuff idle => rfl
  | settle pc quiet => exact droppedOf_settle s
  | leave pc front taken => exact droppedOf_settle _
  | wait pc empty => rfl
  | wake pc => rfl

structure AtTop (s s' : Link α) : Prop where
  top : s'.scheduler = .top
  forwarding : s'.forwarding = s.forwarding
  buffer : s'.buffer = s.buffer
  inFlight : s'.inFlight = s.inFlight

theorem passes_wake (cfg : Config α) (hpc : s.scheduler = .sleeping ∨ s.scheduler = .waiting) :
    ∃ ms s', Passes cfg s ms s' ∧ AtTop s s' := by
  have hact : s.schedulerStep cfg = some ({ s with scheduler := .top }, []) := by
    unfold Link.schedulerStep
    rcases hpc with hpc | hpc <;> rw [hpc]
  obtain ⟨ms, h⟩ := passes_scheduler hact
  exact ⟨ms, _, h, ⟨rfl, rfl, rfl, rfl⟩⟩

theorem passes_assert (cfg : Config α) (hpc : s.scheduler = .asserting) (hempty : s.buffer = []) :
    ∃ ms s', Passes cfg s ms s' ∧ AtTop s s' := by
  have hact : s.schedulerStep cfg = some ({ s with scheduler := .waiting }, []) := by
    unfold Link.schedulerStep
    rw [hpc]
    exact if_pos (by rw [hempty]; rfl)
  obtain ⟨ms, h⟩ := passes_scheduler hact
  obtain ⟨ms', s', h', htop⟩ := passes_wake cfg (s := { s with scheduler := .waiting }) (.inr rfl)
  exact ⟨ms ++ ms', s', h.trans h', htop.top, htop.forwarding, htop.buffer, htop.inFlight⟩

theorem passes_settle (cfg : Config α) (hempty : s.settle.1.scheduler = .asserting → s.buffer = []) :
    ∃ ms s', Passes cfg s.settle.1 ms s' ∧ AtTop s s' := by
  have hround : ∃ ms s', Passes cfg s.settle.1 ms s' ∧ AtTop s.settle.1 s' := by
    rcases settle_scheduler s with hpc | hpc
    · exact passes_wake cfg (.inl hpc)
    · exact passes_assert cfg hpc (by rw [settle_buffer]; exact hempty hpc)
  obtain ⟨ms, s', h, htop⟩ := hround
  exact ⟨ms, s', h, htop.top, htop.forwarding.trans (settle_forwarding s),
    htop.buffer.trans (settle_buffer s), htop.inFlight.trans (settle_inFlight s)⟩

/-- The message in front goes onto the wire, and the scheduler sleeps until it is serialized. -/
theorem passes_take {m : α} {buffer : List α} (hcfg : cfg.Passable) (hpc : s.scheduler = .take)
    (hidle : s.idleTime = s.crtTime + cfg.serializationDelay) (hbuffer : s.buffer = m :: buffer) :
    ∃ ms s', Passes cfg s ms s' ∧ s'.scheduler = .top ∧ s'.forwarding = s.forwarding ∧ s'.buffer = buffer := by
  set s₁ : Link α := { s with
    buffer := buffer
    inFlight := enqueue s.inFlight (m, s.crtTime + cfg.serializationDelay + cfg.delay) } with hs₁
  have hact : s.schedulerStep cfg = some (s₁.settle.1, .left m s.crtTime :: s₁.settle.2) := by
    unfold Link.schedulerStep
    rw [hpc]
    dsimp only
    rw [hbuffer]
    rfl
  have hsleeps : s₁.settle.1.scheduler ≠ .asserting := by
    intro hassert
    have hover := (settle_asserting hassert).1
    have hser := hcfg.serialization
    rw [hs₁] at hover
    dsimp only at hover
    omega
  obtain ⟨ms, h⟩ := passes_scheduler hact
  obtain ⟨ms', s', h', htop⟩ := passes_settle cfg (s := s₁) fun hassert => absurd hassert hsleeps
  exact ⟨ms ++ ms', s', h.trans h', htop.top, htop.forwarding, htop.buffer⟩

theorem passes_sample (hcfg : cfg.Passable) (hpc : s.scheduler = .sample) :
    ∃ ms s', Passes cfg s ms s' ∧ s'.scheduler = .top ∧ s'.forwarding = s.forwarding ∧
      if s.buffer ≠ [] ∧ s.idleTime ≤ s.crtTime then s'.buffer = s.buffer.tail
      else s'.buffer = s.buffer ∧ s'.inFlight = s.inFlight := by
  split
  · next hgo =>
    obtain ⟨m, buffer, hbuffer⟩ := List.exists_cons_of_ne_nil hgo.1
    have hact : s.schedulerStep cfg =
        some ({ s with idleTime := s.crtTime + cfg.serializationDelay, scheduler := .take }, []) := by
      unfold Link.schedulerStep
      rw [hpc]
      exact if_pos ⟨List.length_pos_iff.mpr hgo.1, hgo.2⟩
    obtain ⟨ms, h⟩ := passes_scheduler hact
    obtain ⟨ms', s', h', htop, hforwarding, hrest⟩ := passes_take hcfg
      (s := { s with idleTime := s.crtTime + cfg.serializationDelay, scheduler := .take }) rfl rfl hbuffer
    exact ⟨ms ++ ms', s', h.trans h', htop, hforwarding, by rw [hrest, hbuffer]; rfl⟩
  · next hquiet =>
    have hact : s.schedulerStep cfg = some s.settle := by
      unfold Link.schedulerStep
      rw [hpc]
      exact if_neg (by rwa [List.length_pos_iff])
    obtain ⟨ms, h⟩ : ∃ ms, Passes cfg s ms s.settle.1 := passes_scheduler hact
    obtain ⟨ms', s', h', htop⟩ := passes_settle cfg (s := s) fun hassert => by
      by_contra hne
      exact hquiet ⟨hne, (settle_asserting hassert).1⟩
    exact ⟨ms ++ ms', s', h.trans h', htop.top, htop.forwarding, htop.buffer, htop.inFlight⟩

def Link.Running (s : Link α) : Prop := s.scheduler = .asserting → s.buffer = []

/-- The scheduler comes to the top of its loop, wherever it is. -/
theorem passes_top (hcfg : cfg.Passable) (h : s.Taking cfg) (hrun : s.Running) :
    ∃ ms s', Passes cfg s ms s' ∧ s'.scheduler = .top ∧ s'.forwarding = s.forwarding := by
  cases hpc : s.scheduler with
  | top => exact ⟨[], s, .refl, hpc, rfl⟩
  | sample =>
    obtain ⟨ms, s', h', htop, hforwarding, -⟩ := passes_sample hcfg hpc
    exact ⟨ms, s', h', htop, hforwarding⟩
  | take =>
    obtain ⟨hne, hidle⟩ := h hpc
    obtain ⟨m, buffer, hbuffer⟩ := List.exists_cons_of_ne_nil hne
    obtain ⟨ms, s', h', htop, hforwarding, -⟩ := passes_take hcfg hpc hidle hbuffer
    exact ⟨ms, s', h', htop, hforwarding⟩
  | asserting =>
    obtain ⟨ms, s', h', htop⟩ := passes_assert cfg hpc (hrun hpc)
    exact ⟨ms, s', h', htop.top, htop.forwarding⟩
  | sleeping =>
    obtain ⟨ms, s', h', htop⟩ := passes_wake cfg (.inl hpc)
    exact ⟨ms, s', h', htop.top, htop.forwarding⟩
  | waiting =>
    obtain ⟨ms, s', h', htop⟩ := passes_wake cfg (.inr hpc)
    exact ⟨ms, s', h', htop.top, htop.forwarding⟩

/-- A time that everything on the wire, the clock and the idle time have passed. -/
theorem exists_late (s : Link α) : ∃ t : ℤ, s.crtTime ≤ t ∧ s.idleTime ≤ t ∧ ∀ mif ∈ s.inFlight, mif.2 ≤ t := by
  obtain ⟨t, ht⟩ : ∃ t : ℤ, ∀ mif ∈ s.inFlight, mif.2 ≤ t := by
    induction s.inFlight with
    | nil => exact ⟨0, fun mif hmif => absurd hmif List.not_mem_nil⟩
    | cons mif inFlight ih =>
      obtain ⟨t, ht⟩ := ih
      refine ⟨max t mif.2, fun x hx => ?_⟩
      rcases List.mem_cons.mp hx with rfl | hx
      · exact le_max_right _ _
      · exact (ht x hx).trans (le_max_left _ _)
  exact ⟨max t (max s.crtTime s.idleTime), by omega, by omega, fun x hx => (ht x hx).trans (le_max_left _ _)⟩

/-- A round of the scheduler at a late time sends all that is on the wire, and takes one message out of
the buffer. -/
theorem passes_round (hcfg : cfg.Passable) (hpc : s.scheduler = .top) :
    ∃ ms s', Passes cfg s ms s' ∧ s'.scheduler = .top ∧ s'.forwarding = s.forwarding ∧
      s'.buffer = s.buffer.tail ∧ (s.buffer = [] → s'.inFlight = []) := by
  obtain ⟨t, hcrt, hidle, hdue⟩ := exists_late s
  set s₁ : Link α := { s with crtTime := t, inFlight := [], scheduler := .sample } with hs₁
  have hdrop : s.inFlight.dropWhile (fun mif => mif.2 ≤ t) = [] :=
    List.dropWhile_eq_nil_iff.mpr fun mif hmif => by simpa using hdue mif hmif
  have hact : linkStep cfg s (.now t) =
      some (s₁, (s.inFlight.takeWhile fun mif => mif.2 ≤ t).map fun mif => .sent mif.1 t) := by
    rw [linkStep, Link.readClock, if_pos hpc, hdrop]
  have hnow := Passes.single (e := .now t) rfl hcrt hact (droppedOf_sent _ t)
  obtain ⟨ms, s', h, htop, hforwarding, hrest⟩ := passes_sample hcfg (s := s₁) rfl
  refine ⟨_, s', hnow.trans h, htop, hforwarding, ?_⟩
  split at hrest
  · next hgo => exact ⟨hrest, fun hnil => absurd hnil hgo.1⟩
  · next hquiet =>
    have hnil : s.buffer = [] := by
      by_contra hne
      exact hquiet ⟨hne, hidle⟩
    exact ⟨hrest.1.trans (by rw [hs₁, hnil]; rfl), fun _ => hrest.2⟩

structure Link.Emptied (s : Link α) : Prop where
  top : s.scheduler = .top
  buffer : s.buffer = []
  inFlight : s.inFlight = []

theorem passes_emptied (hcfg : cfg.Passable) (hpc : s.scheduler = .top) :
    ∃ ms s', Passes cfg s ms s' ∧ s'.Emptied ∧ s'.forwarding = s.forwarding := by
  induction hbuffer : s.buffer generalizing s with
  | nil =>
    obtain ⟨ms, s', h, htop, hforwarding, htail, hflight⟩ := passes_round hcfg hpc
    exact ⟨ms, s', h, ⟨htop, by rw [htail, hbuffer]; rfl, hflight hbuffer⟩, hforwarding⟩
  | cons m buffer ih =>
    obtain ⟨ms, s', h, htop, hforwarding, htail, -⟩ := passes_round hcfg hpc
    obtain ⟨ms', s'', h', hempty, hforwarding'⟩ := ih htop (by rw [htail, hbuffer]; rfl)
    exact ⟨ms ++ ms', s'', h.trans h', hempty, hforwarding'.trans hforwarding⟩

theorem passes_check {m : α} (hcfg : cfg.Passable) (hpc : s.forwarding = .checking m) (hempty : s.buffer = []) :
    ∃ ms, Passes cfg s ms { s with forwarding := .enqueuing m } := by
  have hloss := hcfg.loss
  have hcorrupt := hcfg.corrupt
  have hbuffer := hcfg.buffer
  have hact : linkStep cfg s (.check 99 0 0 0) = some ({ s with forwarding := .enqueuing m }, []) := by
    rw [linkStep, Link.checkStep, hpc]
    dsimp only
    rw [if_neg (by rw [hempty, List.length_nil, not_or]; omega), if_neg (by omega)]
  exact ⟨_, .single (e := .check 99 0 0 0) rfl trivial hact rfl⟩

theorem passes_enqueue (cfg : Config α) {m : α} (hpc : s.forwarding = .enqueuing m) :
    ∃ ms, Passes cfg s ms { s with buffer := s.buffer ++ [m], forwarding := .receiving } := by
  have hact : linkStep cfg s .enqueue =
      some ({ s with buffer := s.buffer ++ [m], forwarding := .receiving }, [.enqueued m]) := by
    rw [linkStep, hpc]
    rfl
  exact ⟨_, .single (e := .enqueue) rfl trivial hact rfl⟩

/-- The message that `run_forwarding` holds goes into the buffer. -/
theorem passes_held (hcfg : cfg.Passable) (hempty : s.Emptied) :
    ∃ ms s', Passes cfg s ms s' ∧ s'.scheduler = .top ∧ s'.forwarding = .receiving := by
  cases hpc : s.forwarding with
  | receiving => exact ⟨[], s, .refl, hempty.top, hpc⟩
  | enqueuing m =>
    obtain ⟨ms, h⟩ := passes_enqueue cfg hpc
    exact ⟨ms, _, h, hempty.top, rfl⟩
  | checking m =>
    obtain ⟨ms, h⟩ := passes_check hcfg hpc hempty.buffer
    obtain ⟨ms', h'⟩ := passes_enqueue cfg (s := { s with forwarding := .enqueuing m }) rfl
    exact ⟨ms ++ ms', _, h.trans h', hempty.top, rfl⟩

structure Link.Drained (s : Link α) : Prop extends Link.Emptied s where
  forwarding : s.forwarding = .receiving

theorem Link.Drained.content_eq (h : s.Drained) : s.content = [] := by
  rw [Link.content, h.inFlight, h.buffer, h.forwarding]
  rfl

/-- All that the emulator holds can be passed on. -/
theorem passes_drained (hcfg : cfg.Passable) (h : s.Taking cfg) (hrun : s.Running) :
    ∃ ms s', Passes cfg s ms s' ∧ s'.Drained := by
  obtain ⟨ms₁, s₁, h₁, htop₁, -⟩ := passes_top hcfg h hrun
  obtain ⟨ms₂, s₂, h₂, hempty₂, -⟩ := passes_emptied hcfg htop₁
  obtain ⟨ms₃, s₃, h₃, htop₃, hforwarding₃⟩ := passes_held hcfg hempty₂
  obtain ⟨ms₄, s₄, h₄, hempty₄, hforwarding₄⟩ := passes_emptied hcfg htop₃
  exact ⟨_, s₄, ((h₁.trans h₂).trans h₃).trans h₄, hempty₄, hforwarding₄.trans hforwarding₃⟩

/-- Steps other than those of the two programs, with no loss. -/
def Setup.Carry (S : Setup σ τ α β) : Peers σ τ α β → Peers σ τ α β → Prop :=
  ReflTransGen fun p p' => ∃ e, e.ofProgram = false ∧ p.Admits e ∧ S.step p e = some p' ∧ p'.losses = p.losses

theorem carry_reach (h : S.Carry p p') : S.Reach p p' :=
  ReflTransGen.mono (fun _ _ hstep => hstep.imp fun _ h => ⟨h.2.1, h.2.2.1⟩) _ _ h

/-- Steps of `Carry` change nothing for the two programs. -/
theorem carry_config (hcorrupt : S.cfg.corrupt ≤ 0) (hsound : p.Sound S.cfg) (h : S.Carry p p') :
    p'.Sound S.cfg ∧ p'.losses = p.losses ∧ p'.config S = p.config S := by
  induction h with
  | refl => exact ⟨hsound, rfl, rfl⟩
  | @tail p₁ p₂ _ hstep ih =>
    obtain ⟨hsound₁, hlost₁, hconfig₁⟩ := ih
    obtain ⟨e, he, -, hstep, hlost⟩ := hstep
    have step := peerStep_cases hstep
    obtain ⟨k, hk, hdrops⟩ := drops_of_step hcorrupt hsound₁ step he
    obtain rfl : k = 0 := by omega
    exact ⟨hsound₁.step step, hlost.trans hlost₁, hdrops.eq.trans hconfig₁⟩

theorem carry_passes (hup : p.linkUp2 = true) (h : Passes S.cfg p.link ms s) :
    S.Carry p { p with link := s, inbox2 := p.inbox2 ++ ms } := by
  induction h with
  | refl =>
    rw [List.append_nil]
    exact .refl
  | @step ms s s' e o _ he clock act kept ih =>
    refine ih.tail ⟨.thread e, rfl, clock, ?_, rfl⟩
    rw [step_thread he, act, Option.map_some, Peers.deliver, if_pos hup, kept, List.append_nil, List.append_assoc]

theorem carry_single {e : PeerEvent α} (he : e.ofProgram = false) (admitted : p.Admits e)
    (step : S.step p e = some p') (hlost : p'.losses = p.losses) : S.Carry p p' :=
  .single ⟨e, he, admitted, step, hlost⟩

theorem carry_up1 (h : p.Sound S.cfg) : ∃ p', S.Carry p p' ∧ p'.linkUp1 = true ∧ p'.linkUp2 = p.linkUp2 ∧
    p'.link = p.link := by
  cases hup : p.linkUp1 with
  | true => exact ⟨p, .refl, hup, rfl, rfl⟩
  | false =>
    have hport : ∃ p', S.Carry p p' ∧ p'.port1 ≠ [] ∧ p'.linkUp1 = false ∧ p'.linkUp2 = p.linkUp2 ∧
        p'.link = p.link := by
      cases hleft : p.left with
      | none =>
        have hstep : S.step p .initLeft =
            some { p with left := some S.left, port1 := p.port1 ++ [S.hello1] } := by
          rw [Setup.step, hleft]
        exact ⟨_, carry_single (e := .initLeft) rfl trivial hstep rfl, by simp, hup, rfl, rfl⟩
      | some s =>
        refine ⟨p, .refl, fun hnil => ?_, hup, rfl, rfl⟩
        rw [h.hello1.mpr ⟨hup, hnil⟩] at hleft
        cases hleft
    obtain ⟨p₁, hcarry, hne, hdown, hup2, hlink⟩ := hport
    obtain ⟨m, port1, hwaits⟩ := List.exists_cons_of_ne_nil hne
    have hfree : p₁.link.forwarding = .receiving := by rw [hlink]; exact h.idle1 hup
    have hstep := step_receive1 (S := S) hfree hwaits
    rw [if_neg (by rw [hdown]; decide)] at hstep
    exact ⟨_, hcarry.trans (carry_single (e := .receive1) rfl trivial hstep rfl), rfl, hup2, hlink⟩

theorem carry_up2 (h : p.Sound S.cfg) : ∃ p', S.Carry p p' ∧ p'.linkUp2 = true ∧ p'.linkUp1 = p.linkUp1 ∧
    p'.link = p.link := by
  cases hup : p.linkUp2 with
  | true => exact ⟨p, .refl, hup, rfl, rfl⟩
  | false =>
    have hport : ∃ p', S.Carry p p' ∧ p'.port2 ≠ [] ∧ p'.linkUp2 = false ∧ p'.linkUp1 = p.linkUp1 ∧
        p'.link = p.link ∧ p'.reverse = none := by
      cases hright : p.right with
      | none =>
        have hstep : S.step p .initRight =
            some { p with right := some S.right, port2 := p.port2 ++ [S.hello2] } := by
          rw [Setup.step, hright]
        exact ⟨_, carry_single (e := .initRight) rfl trivial hstep rfl, by simp, hup, rfl, rfl, h.idle2 hup⟩
      | some s =>
        refine ⟨p, .refl, fun hnil => ?_, hup, rfl, rfl, h.idle2 hup⟩
        rw [h.hello2.mpr ⟨hup, hnil⟩] at hright
        cases hright
    obtain ⟨p₁, hcarry, hne, hdown, hup1, hlink, hfree⟩ := hport
    obtain ⟨m, port2, hwaits⟩ := List.exists_cons_of_ne_nil hne
    have hstep : S.step p₁ .receive2 = some { p₁ with port2 := port2, linkUp2 := true } := by
      simp only [Setup.step, hwaits, hfree]
      rw [if_neg (by rw [hdown]; decide)]
    exact ⟨_, hcarry.trans (carry_single (e := .receive2) rfl trivial hstep rfl), rfl, hup1, hlink⟩

/-- Both sides of the link are up and the emulator holds no message. -/
structure Peers.Up (p : Peers σ τ α β) : Prop where
  up1 : p.linkUp1 = true
  up2 : p.linkUp2 = true
  drained : p.link.Drained

theorem carry_up (hcfg : S.cfg.Passable) (h : p.Sound S.cfg) (hrun : p.link.Running) :
    ∃ p', S.Carry p p' ∧ p'.Up := by
  obtain ⟨p₁, hcarry₁, hup1, -, hlink₁⟩ := carry_up1 h
  have hsound₁ := (carry_config hcfg.corrupt h hcarry₁).1
  obtain ⟨p₂, hcarry₂, hup2, hup1', hlink₂⟩ := carry_up2 hsound₁
  have hsound₂ := (carry_config hcfg.corrupt hsound₁ hcarry₂).1
  obtain ⟨ms, s, hpass, hdrained⟩ := passes_drained hcfg hsound₂.taking (by rw [hlink₂, hlink₁]; exact hrun)
  exact ⟨_, (hcarry₁.trans hcarry₂).trans (carry_passes hup2 hpass), hup1'.trans hup1, hup2, hdrained⟩

/-- What waits at the first port is received and passed on, one message after the other. -/
theorem carry_port1 (hcfg : S.cfg.Passable) (h : p.Up) : ∃ p', S.Carry p p' ∧ p'.Up ∧ p'.port1 = [] := by
  induction hport : p.port1 generalizing p with
  | nil => exact ⟨p, .refl, h, hport⟩
  | cons m port1 ih =>
    have hstep := step_receive1 (S := S) h.drained.forwarding hport
    rw [if_pos h.up1] at hstep
    set p₁ : Peers σ τ α β := { p with port1 := port1, link := { p.link with forwarding := .checking m } }
    have htop : p₁.link.scheduler = .top := h.drained.top
    obtain ⟨ms, s, hpass, hdrained⟩ := passes_drained hcfg (s := p₁.link) (by intro hpc; rw [htop] at hpc; cases hpc)
      (by intro hpc; rw [htop] at hpc; cases hpc)
    obtain ⟨p', hcarry, hup, hempty⟩ := ih (p := { p₁ with link := s, inbox2 := p₁.inbox2 ++ ms })
      ⟨h.up1, h.up2, hdrained⟩ rfl
    have hreceive := carry_single (e := .receive1) rfl trivial hstep rfl
    exact ⟨p', (hreceive.trans (carry_passes h.up2 hpass)).trans hcarry, hup, hempty⟩

/-- What `run_reverse_forwarding` has received is sent. -/
theorem carry_send1 (h : p.Up) : ∃ p', S.Carry p p' ∧ p'.Up ∧ p'.port1 = p.port1 ∧ p'.port2 = p.port2 ∧
    p'.reverse = none := by
  cases hheld : p.reverse with
  | none => exact ⟨p, .refl, h, rfl, rfl, hheld⟩
  | some m =>
    have hstep : S.step p .send1 = some { p with reverse := none, inbox1 := p.inbox1 ++ [m] } := by
      rw [Setup.step, hheld, Option.map_some, if_pos h.up1]
    exact ⟨_, carry_single (e := .send1) rfl trivial hstep rfl, ⟨h.up1, h.up2, h.drained⟩, rfl, rfl, rfl⟩

/-- Nothing is on the way: all that was sent waits at the sockets of the programs. -/
structure Peers.Flushed (p : Peers σ τ α β) : Prop extends p.Up where
  port1 : p.port1 = []
  port2 : p.port2 = []
  reverse : p.reverse = none

theorem carry_port2 (h : p.Up) (hport1 : p.port1 = []) (hfree : p.reverse = none) :
    ∃ p', S.Carry p p' ∧ p'.Flushed := by
  induction hport : p.port2 generalizing p with
  | nil => exact ⟨p, .refl, h, hport1, hport, hfree⟩
  | cons m port2 ih =>
    have hstep : S.step p .receive2 = some { p with port2 := port2, reverse := some m } := by
      simp only [Setup.step, hport, hfree]
      rw [if_pos h.up2]
    have hreceive := carry_single (S := S) (e := .receive2) rfl trivial hstep rfl
    obtain ⟨p₁, hcarry₁, hup₁, hport1₁, hport2₁, hfree₁⟩ :=
      carry_send1 (S := S) (p := { p with port2 := port2, reverse := some m }) ⟨h.up1, h.up2, h.drained⟩
    obtain ⟨p', hcarry, hflushed⟩ := ih hup₁ (hport1₁.trans hport1) hfree₁ hport2₁
    exact ⟨p', (hreceive.trans hcarry₁).trans hcarry, hflushed⟩

theorem carry_flushed (hcfg : S.cfg.Passable) (h : p.Sound S.cfg) (hrun : p.link.Running) :
    ∃ p', S.Carry p p' ∧ p'.Flushed := by
  obtain ⟨p₁, hcarry₁, hup₁⟩ := carry_up hcfg h hrun
  obtain ⟨p₂, hcarry₂, hup₂, hport1₂⟩ := carry_port1 hcfg hup₁
  obtain ⟨p₃, hcarry₃, hup₃, hport1₃, -, hfree₃⟩ := carry_send1 (S := S) hup₂
  obtain ⟨p₄, hcarry₄, hflushed⟩ := carry_port2 (S := S) hup₃ (hport1₃.trans hport1₂) hfree₃
  exact ⟨p₄, ((hcarry₁.trans hcarry₂).trans hcarry₃).trans hcarry₄, hflushed⟩

theorem Peers.Flushed.config_eq {l : σ} {r : τ} (h : p.Flushed) (hleft : p.left = some l) (hright : p.right = some r) :
    p.config S = ⟨l, r, p.inbox2, p.inbox1⟩ := by
  rw [Peers.config, h.drained.content_eq, h.port1, h.port2, h.reverse, h.up1, h.up2, hleft, hright]
  simp [waiting]

/-- With nothing on the way, a step over the channels is a step at the sockets. -/
theorem Peers.Flushed.realizes {c : Foundations.Config σ τ α β} (h : p.Flushed) (hsound : p.Sound S.cfg)
    (hstep : S.programs.Step (p.config S) c) : ∃ p', S.Step p p' ∧ p'.config S = c ∧ p'.Sound S.cfg ∧
      p'.losses = p.losses ∧ p'.link.Running := by
  have hrun : p.link.Running := by
    intro hpc
    rw [h.drained.top] at hpc
    cases hpc
  obtain ⟨l, hleft⟩ := Option.ne_none_iff_exists'.mp (mt hsound.hello1.mp (by simp [h.up1]))
  obtain ⟨r, hright⟩ := Option.ne_none_iff_exists'.mp (mt hsound.hello2.mp (by simp [h.up2]))
  rcases hstep with hstep | hstep
  · have hact := hstep
    rw [h.config_eq hleft hright] at hact
    obtain ⟨⟨l', inbox, out⟩, hact, -⟩ := Option.map_eq_some_iff.mp hact
    have hstep' : S.step p .left =
        some { p with left := some l', inbox1 := inbox, port1 := p.port1 ++ out } := by
      rw [Setup.step, hleft, Option.bind_some, hact, Option.map_some]
    have step := peerStep_cases hstep'
    obtain ⟨hlost, hpair⟩ := pairStep_left hsound step
    exact ⟨_, ⟨.left, trivial, hstep'⟩, Option.some.inj (hpair.symm.trans hstep), hsound.step step, hlost, hrun⟩
  · have hact := hstep
    rw [h.config_eq hleft hright] at hact
    obtain ⟨⟨r', inbox, out⟩, hact, -⟩ := Option.map_eq_some_iff.mp hact
    have hstep' : S.step p .right =
        some { p with right := some r', inbox2 := inbox, port2 := p.port2 ++ out } := by
      rw [Setup.step, hright, Option.bind_some, hact, Option.map_some]
    have step := peerStep_cases hstep'
    obtain ⟨hlost, hpair⟩ := pairStep_right hsound step
    exact ⟨_, ⟨.right, trivial, hstep'⟩, Option.some.inj (hpair.symm.trans hstep), hsound.step step, hlost, hrun⟩

/-- What the two programs reach over channels that keep everything they reach with the emulator between
them, from wherever they are. -/
theorem reach_of_pair {c : Foundations.Config σ τ α β} (hcfg : S.cfg.Passable) (hsound : p.Sound S.cfg)
    (hrun : p.link.Running) (hreach : S.programs.Reach (p.config S) c) :
    ∃ p', S.Reach p p' ∧ p'.config S = c ∧ p'.losses = p.losses := by
  suffices h : ∃ p', S.Reach p p' ∧ p'.config S = c ∧ p'.losses = p.losses ∧ p'.Sound S.cfg ∧ p'.link.Running by
    obtain ⟨p', h, hc, hlost, -⟩ := h
    exact ⟨p', h, hc, hlost⟩
  induction hreach with
  | refl => exact ⟨p, .refl, rfl, rfl, hsound, hrun⟩
  | tail _ hstep ih =>
    obtain ⟨p₁, hreach₁, rfl, hlost₁, hsound₁, hrun₁⟩ := ih
    obtain ⟨p₂, hcarry, hflushed⟩ := carry_flushed hcfg hsound₁ hrun₁
    obtain ⟨hsound₂, hlost₂, hconfig₂⟩ := carry_config hcfg.corrupt hsound₁ hcarry
    rw [← hconfig₂] at hstep
    obtain ⟨p₃, hstep₃, hc₃, hsound₃, hlost₃, hrun₃⟩ := hflushed.realizes hsound₂ hstep
    exact ⟨p₃, (hreach₁.trans (carry_reach hcarry)).tail hstep₃, hc₃, (hlost₃.trans hlost₂).trans hlost₁,
      hsound₃, hrun₃⟩

end PCom.LinkEmulator
