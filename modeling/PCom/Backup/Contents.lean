import PCom.Backup.Server

/-! # What the server backs up

The server takes a datagram for the end of a file when the first bytes of its buffer say so, also
where they come from the file itself or from datagrams before. It opens its output under the name
without the first seven characters, and empties what another file has left there. Where neither
happens, and the name can be opened, the output has the bytes of the file.
-/

namespace PCom.Backup
open Foundations

variable {host : Host} {s s' : State} {d buf content : Bytes} {ds rest : List Bytes} {fd : ℕ}
  {f : File} {fs : List File}

def CountRead (host : Host) (n : ℕ) : Prop :=
  (∃ c ∈ putAt host.buf 0 (decimal n), isDigit c = false) ∧ atoi (putAt host.buf 0 (decimal n)) = n

/-- The file that the server opens for the `i`-th file, when it can. -/
def output (host : Host) (i : ℕ) (f : File) : Option ℕ :=
  host.file (outputPath (putAt (host.nF i) 0 f.name.chars))

/-- The name of the `i`-th file is terminated in `nF`, at or after its eighth character, and the path
made of it can be opened. -/
def NameOpens (host : Host) (i : ℕ) (f : File) : Prop :=
  0 ∈ (putAt (host.nF i) 0 f.name.chars).drop 7 ∧ (output host i f).isSome = true

instance (i : ℕ) (f : File) : Decidable (NameOpens host i f) := inferInstanceAs (Decidable (_ ∧ _))

/-- None of the chunks, put into the buffer one after the other, looks like the end of a file. -/
def Kept : Bytes → List Bytes → Prop
  | _, [] => True
  | buf, c :: cs => ¬ Ends (putAt buf 0 c) ∧ Kept (putAt buf 0 c) cs

def filled (buf : Bytes) (ds : List Bytes) : Bytes := ds.foldl (fun buf d => putAt buf 0 d) buf

/-- From the `i`-th file on, the names open and the chunks are kept. -/
def Clean (host : Host) : ℕ → Bytes → List File → Prop
  | _, _, [] => True
  | i, buf, f :: fs => NameOpens host i f ∧ Kept (putAt buf 0 f.name.chars) f.chunks ∧
      Clean host (i + 1) (filled buf f.datagrams) fs

def outputs (host : Host) : ℕ → List File → List (Option ℕ)
  | _, [] => []
  | i, f :: fs => output host i f :: outputs host (i + 1) fs

theorem take_putAt_zero (mem bytes : Bytes) : (putAt mem 0 bytes).take bytes.length = bytes := by
  rw [putAt, List.take_zero, List.nil_append]
  exact List.take_left' rfl

theorem nameMemory_eq (host : Host) (i : ℕ) (buf : Bytes) (f : File) :
    nameMemory host i (putAt buf 0 f.name.chars) f.name.chars.length =
      putAt (host.nF i) 0 f.name.chars := by
  rw [nameMemory, strncpy, take_putAt_zero, cstr_of_nul_free f.name.nul_free, Nat.sub_self,
    List.replicate_zero, List.append_nil]

theorem ends_gataBoss (buf : Bytes) : Ends (putAt buf 0 gataBoss) := by
  have hnul : 0 ∉ gataBoss := by decide
  have hlen : 7 ≤ gataBoss.length := by decide
  rw [Ends, strncmpEq, putAt, List.take_zero, List.nil_append, cstr_append_of_nul_free hnul,
    List.take_append_of_le_length hlen, cstr_of_nul_free hnul]

theorem serve_cons (h : ¬ s.Stopped) :
    serve host s (d :: ds) = (s.receive host d).bind fun s' => serve host s' ds := by
  rw [serve, if_neg h]

def State.writing (s : State) (fd : ℕ) (buf content : Bytes) : State :=
  { s with phase := .data fd, buf := buf, opened := s.opened ++ [fd], disk := Function.update s.disk fd content }

def State.next (s : State) (fd : ℕ) (buf content : Bytes) : State :=
  { s with
    phase := .name, buf := buf, i := s.i + 1, opened := s.opened ++ [fd], disk := Function.update s.disk fd content }

theorem not_stopped_writing (s : State) (fd : ℕ) (buf content : Bytes) : ¬ (s.writing fd buf content).Stopped :=
  fun h => nomatch h.1

theorem receive_name (hphase : s.phase = .name) (h : NameOpens host s.i f) (hfd : output host s.i f = some fd) :
    s.receive host f.name.chars = some (s.writing fd (putAt s.buf 0 f.name.chars) []) := by
  rw [State.receive, hphase]
  dsimp only
  rw [nameMemory_eq, if_pos h.1, ← output, hfd]
  rfl

theorem receive_name_eq_none (hphase : s.phase = .name) (h : ¬ NameOpens host s.i f) :
    s.receive host f.name.chars = none := by
  rw [State.receive, hphase]
  dsimp only
  rw [nameMemory_eq]
  split
  · next hnul =>
    have hclosed : output host s.i f = none := by
      by_contra hopen
      exact h ⟨hnul, Option.isSome_iff_ne_none.mpr hopen⟩
    rw [← output, hclosed]
    rfl
  · rfl

theorem receive_end (h : Ends (putAt buf 0 d)) :
    (s.writing fd buf content).receive host d = some (s.next fd (putAt buf 0 d) content) :=
  if_pos h

theorem receive_chunk (h : ¬ Ends (putAt buf 0 d)) : (s.writing fd buf content).receive host d =
    some (s.writing fd (putAt buf 0 d) (content ++ d)) := by
  refine (if_neg h).trans ?_
  have hdisk : Function.update (s.writing fd buf content).disk fd
      ((s.writing fd buf content).disk fd ++ (putAt buf 0 d).take d.length) =
        Function.update s.disk fd (content ++ d) := by
    rw [take_putAt_zero]
    change Function.update (Function.update s.disk fd content) fd (Function.update s.disk fd content fd ++ d) = _
    rw [Function.update_self, Function.update_idem]
  exact congrArg (fun disk => some { s.writing fd (putAt buf 0 d) content with disk := disk }) hdisk

/-- The server has opened more files; the others that were not open hold what they held. -/
def Later (s s' : State) : Prop :=
  ∃ more, s'.opened = s.opened ++ more ∧
    ∀ k ∉ more, s.phase ≠ .data k → s'.phase ≠ .data k ∧ s'.disk k = s.disk k

theorem Later.refl (s : State) : Later s s := ⟨[], (List.append_nil _).symm, fun _ _ h => ⟨h, rfl⟩⟩

theorem Later.trans {s₁ s₂ : State} (h : Later s s₁) (h' : Later s₁ s₂) : Later s s₂ := by
  obtain ⟨more, hopened, hkeep⟩ := h
  obtain ⟨more', hopened', hkeep'⟩ := h'
  refine ⟨more ++ more', by rw [hopened', hopened, List.append_assoc], fun k hk hphase => ?_⟩
  rw [List.mem_append, not_or] at hk
  obtain ⟨hphase₁, hdisk₁⟩ := hkeep k hk.1 hphase
  obtain ⟨hphase₂, hdisk₂⟩ := hkeep' k hk.2 hphase₁
  exact ⟨hphase₂, hdisk₂.trans hdisk₁⟩

theorem later_receive (h : s.receive host d = some s') : Later s s' := by
  unfold State.receive at h
  dsimp only at h
  split at h
  · split at h <;> cases h
    exact ⟨[], (List.append_nil _).symm, fun k _ _ => ⟨Phase.noConfusion, rfl⟩⟩
  · split at h
    · obtain ⟨fd, -, rfl⟩ := Option.map_eq_some_iff.mp h
      refine ⟨[fd], rfl, fun k hk _ => ?_⟩
      have hne : k ≠ fd := List.ne_of_not_mem_cons hk
      exact ⟨fun heq => hne (Phase.data.inj heq).symm, Function.update_of_ne hne _ _⟩
    · cases h
  · next fd hphase =>
    split at h
    · cases h
      exact ⟨[], (List.append_nil _).symm, fun k _ _ => ⟨Phase.noConfusion, rfl⟩⟩
    · cases h
      refine ⟨[], (List.append_nil _).symm, fun k _ hk => ⟨hk, ?_⟩⟩
      have hne : k ≠ fd := fun heq => hk (heq ▸ hphase)
      exact Function.update_of_ne hne _ _

theorem later_serve (h : serve host s ds = some (s', rest)) : Later s s' := by
  induction ds generalizing s with
  | nil =>
    cases h
    exact .refl _
  | cons d ds ih =>
    rw [serve] at h
    split at h
    · cases h
      exact .refl _
    · obtain ⟨s₁, hs₁, h⟩ := Option.bind_eq_some_iff.mp h
      exact (later_receive hs₁).trans (ih h)

/-- An output that is opened once keeps what was written to it. -/
theorem disk_of_later (h : Later (s.next fd buf content) s') (hnodup : s'.opened.Nodup) :
    (∃ more, s'.opened = s.opened ++ fd :: more) ∧ fd ∉ s.opened ∧ s'.disk fd = content := by
  obtain ⟨more, hopened, hkeep⟩ := h
  have hlist : s'.opened = s.opened ++ fd :: more := by
    rw [hopened, State.next, List.append_assoc]
    rfl
  rw [hlist] at hnodup
  have hmore : fd ∉ more := (List.nodup_cons.mp hnodup.of_append_right).1
  refine ⟨⟨more, hlist⟩, fun hfd => ?_, ?_⟩
  · exact List.disjoint_of_nodup_append hnodup hfd List.mem_cons_self
  · rw [(hkeep fd hmore Phase.noConfusion).2]
    exact Function.update_self ..

theorem serve_kept {cs : List Bytes} (h : Kept buf cs) : serve host (s.writing fd buf content) (cs ++ ds) =
    serve host (s.writing fd (filled buf cs) (content ++ cs.flatten)) ds := by
  induction cs generalizing buf content with
  | nil =>
    rw [List.flatten_nil, List.append_nil]
    rfl
  | cons c cs ih =>
    rw [List.cons_append, serve_cons (not_stopped_writing _ _ _ _), receive_chunk h.1, Option.bind_some, ih h.2,
      List.flatten_cons, ← List.append_assoc]
    rfl

/-- A chunk that looks like the end of the file closes the output too early. -/
theorem serve_lost {cs : List Bytes} (h : ¬ Kept buf cs) (hcs : ∀ c ∈ cs, 0 < c.length) :
    ∃ ds₁ buf₁ content₁, serve host (s.writing fd buf content) (cs ++ ds) =
      serve host (s.next fd buf₁ content₁) ds₁ ∧ content₁.length < (content ++ cs.flatten).length := by
  induction cs generalizing buf content with
  | nil => exact absurd trivial h
  | cons c cs ih =>
    have hc := hcs c (by simp)
    rw [List.cons_append, serve_cons (not_stopped_writing _ _ _ _)]
    by_cases hend : Ends (putAt buf 0 c)
    · refine ⟨_, _, content, by rw [receive_end hend, Option.bind_some], ?_⟩
      simp only [List.length_append, List.flatten_cons]
      omega
    · have hkept : ¬ Kept (putAt buf 0 c) cs := fun hk => h ⟨hend, hk⟩
      rw [receive_chunk hend, Option.bind_some]
      obtain ⟨ds₁, buf₁, content₁, hserve, hlen⟩ :=
        @ih _ (content ++ c) hkept fun c' hc' => hcs c' (List.mem_cons_of_mem _ hc')
      refine ⟨ds₁, buf₁, content₁, hserve, ?_⟩
      rwa [List.flatten_cons, ← List.append_assoc]

/-- A file whose name opens and whose chunks are kept is copied. -/
theorem serve_file (hphase : s.phase = .name) (hrun : ¬ s.Stopped) (hname : NameOpens host s.i f)
    (hfd : output host s.i f = some fd) (hkept : Kept (putAt s.buf 0 f.name.chars) f.chunks) :
    serve host s (f.datagrams ++ ds) = serve host (s.next fd (filled s.buf f.datagrams) f.content) ds := by
  have hbuf : filled s.buf f.datagrams =
      putAt (filled (putAt s.buf 0 f.name.chars) f.chunks) 0 gataBoss := by
    rw [File.datagrams, filled, List.foldl_cons, List.foldl_append]
    rfl
  rw [hbuf, File.datagrams, List.cons_append, List.append_assoc, serve_cons hrun,
    receive_name hphase hname hfd, Option.bind_some, serve_kept hkept, List.singleton_append,
    serve_cons (not_stopped_writing _ _ _ _), receive_end (ends_gataBoss _), Option.bind_some, List.nil_append]
  rfl

/-- From a state between two files, the files that follow are copied to outputs of their own and the
server stops. -/
def Copies (host : Host) (s : State) (fs : List File) : Prop :=
  ∃ s' rest, serve host s (fs.flatMap File.datagrams) = some (s', rest) ∧ s'.Stopped ∧ s'.opened.Nodup ∧
    s'.opened.map s'.disk = s.opened.map s.disk ++ fs.map File.content

theorem nameOpens_of_copies (hphase : s.phase = .name) (hrun : ¬ s.Stopped) (h : Copies host s (f :: fs)) :
    NameOpens host s.i f := by
  obtain ⟨s', rest, hserve, -⟩ := h
  rw [List.flatMap_cons, File.datagrams, List.cons_append, List.append_assoc, serve_cons hrun] at hserve
  by_contra hname
  rw [receive_name_eq_none hphase hname] at hserve
  cases hserve

/-- The first file that is not copied spoils the run. -/
theorem kept_of_copies (hphase : s.phase = .name) (hrun : ¬ s.Stopped) (hfd : output host s.i f = some fd)
    (h : Copies host s (f :: fs)) : Kept (putAt s.buf 0 f.name.chars) f.chunks := by
  have hname := nameOpens_of_copies hphase hrun h
  obtain ⟨s', rest, hserve, -, hnodup, hdisk⟩ := h
  rw [List.flatMap_cons, File.datagrams, List.cons_append, List.append_assoc, serve_cons hrun,
    receive_name hphase hname hfd, Option.bind_some] at hserve
  by_contra hlost
  obtain ⟨ds₁, buf₁, content₁, hserve₁, hlen⟩ := serve_lost hlost fun c hc => (f.chunk_length c hc).1
  rw [hserve₁] at hserve
  -- the output stays too short, unless it is opened once more
  obtain ⟨⟨more, hopened⟩, -, hcontent⟩ := disk_of_later (later_serve hserve) hnodup
  rw [hopened, List.map_append, List.map_cons, List.map_cons] at hdisk
  obtain ⟨-, htail⟩ := List.append_inj hdisk (by rw [List.length_map, List.length_map])
  rw [hcontent] at htail
  obtain rfl : content₁ = f.content := (List.cons.inj htail).1
  exact absurd hlen (lt_irrefl _)

theorem copies_cons (hphase : s.phase = .name) (hrun : ¬ s.Stopped) (hname : NameOpens host s.i f)
    (hfd : output host s.i f = some fd) (hkept : Kept (putAt s.buf 0 f.name.chars) f.chunks) :
    Copies host s (f :: fs) ↔ Copies host (s.next fd (filled s.buf f.datagrams) f.content) fs := by
  have hdisk (hnew : fd ∉ s.opened) : (s.next fd (filled s.buf f.datagrams) f.content).opened.map
      (s.next fd (filled s.buf f.datagrams) f.content).disk = s.opened.map s.disk ++ [f.content] := by
    change (s.opened ++ [fd]).map (Function.update s.disk fd f.content) = _
    rw [List.map_append, List.map_singleton, Function.update_self]
    refine congrArg (· ++ [f.content]) (List.map_congr_left fun k hk => ?_)
    have hne : k ≠ fd := fun heq => hnew (heq ▸ hk)
    exact Function.update_of_ne hne _ _
  rw [Copies, Copies, List.flatMap_cons, serve_file hphase hrun hname hfd hkept]
  refine exists_congr fun s' => exists_congr fun rest => and_congr_right fun hserve => and_congr_right fun _ =>
    and_congr_right fun hnodup => ?_
  obtain ⟨-, hnew, -⟩ := disk_of_later (later_serve hserve) hnodup
  rw [hdisk hnew, List.map_cons, List.append_assoc, List.singleton_append]

theorem copies_iff (hphase : s.phase = .name) (hnum : s.numFiles = s.i + fs.length) :
    Copies host s fs ↔ Clean host s.i s.buf fs ∧ (s.opened.map some ++ outputs host s.i fs).Nodup := by
  induction fs generalizing s with
  | nil =>
    have hstop : s.Stopped := ⟨hphase, by rw [hnum]; simp⟩
    rw [outputs, List.append_nil, List.nodup_map_iff (Option.some_injective ℕ)]
    constructor
    · rintro ⟨s', rest, hserve, -, hnodup, -⟩
      obtain ⟨rfl, -⟩ := Prod.mk.inj (Option.some.inj hserve)
      exact ⟨trivial, hnodup⟩
    · rintro ⟨-, hnodup⟩
      exact ⟨s, [], rfl, hstop, hnodup, (List.append_nil _).symm⟩
  | cons f fs ih =>
    have hrun : ¬ s.Stopped := by
      rintro ⟨-, hle⟩
      rw [hnum, List.length_cons] at hle
      omega
    by_cases hname : NameOpens host s.i f
    · obtain ⟨fd, hfd⟩ := Option.isSome_iff_exists.mp hname.2
      by_cases hkept : Kept (putAt s.buf 0 f.name.chars) f.chunks
      · have hnext : (s.next fd (filled s.buf f.datagrams) f.content).numFiles = (s.i + 1 : ℕ) + fs.length := by
          change s.numFiles = _
          rw [hnum, List.length_cons]
          push_cast
          ring
        have hlist : (s.opened ++ [fd]).map some ++ outputs host (s.i + 1) fs =
            s.opened.map some ++ outputs host s.i (f :: fs) := by
          rw [outputs, hfd, List.map_append, List.append_assoc]
          rfl
        rw [copies_cons hphase hrun hname hfd hkept, ih rfl hnext, ← hlist, Clean, and_iff_right hname,
          and_iff_right hkept]
        rfl
      · exact iff_of_false (fun h => hkept (kept_of_copies hphase hrun hfd h)) fun h => hkept h.1.2.1
    · exact iff_of_false (fun h => hname (nameOpens_of_copies hphase hrun h)) fun h => hname h.1.1

/-- The server counts the output files, up to the number that it has read. -/
structure Counting (s : State) : Prop where
  name : s.phase = .name → s.opened.length = s.i
  data : ∀ fd, s.phase = .data fd → s.opened.length = s.i + 1 ∧ (s.i : ℤ) < s.numFiles
  le : (s.i : ℤ) ≤ s.numFiles
  counted : s.phase ≠ .count

theorem Counting.receive (h : Counting s) (hrun : ¬ s.Stopped) (hr : s.receive host d = some s') :
    Counting s' ∧ s'.numFiles = s.numFiles := by
  unfold State.receive at hr
  dsimp only at hr
  split at hr
  · next hphase => exact absurd hphase h.counted
  · next hphase =>
    have hlt : (s.i : ℤ) < s.numFiles := by
      by_contra hle
      exact hrun ⟨hphase, not_lt.mp hle⟩
    split at hr
    · obtain ⟨fd, -, rfl⟩ := Option.map_eq_some_iff.mp hr
      refine ⟨⟨Phase.noConfusion, fun _ _ => ⟨?_, hlt⟩, h.le, Phase.noConfusion⟩, rfl⟩
      rw [List.length_append, h.name hphase]
      rfl
    · cases hr
  · next fd hphase =>
    obtain ⟨hlen, hlt⟩ := h.data fd hphase
    split at hr
    · cases hr
      refine ⟨⟨fun _ => hlen, fun _ => Phase.noConfusion, ?_, Phase.noConfusion⟩, rfl⟩
      push_cast
      omega
    · cases hr
      exact ⟨⟨h.name, h.data, h.le, h.counted⟩, rfl⟩

theorem Counting.serve (h : Counting s) (hserve : serve host s ds = some (s', rest)) :
    Counting s' ∧ s'.numFiles = s.numFiles := by
  induction ds generalizing s with
  | nil =>
    cases hserve
    exact ⟨h, rfl⟩
  | cons d ds ih =>
    rw [Backup.serve] at hserve
    split at hserve
    · cases hserve
      exact ⟨h, rfl⟩
    · next hrun =>
      obtain ⟨s₁, hs₁, hserve⟩ := Option.bind_eq_some_iff.mp hserve
      obtain ⟨h₁, hnum₁⟩ := h.receive hrun hs₁
      obtain ⟨h', hnum'⟩ := ih h₁ hserve
      exact ⟨h', hnum'.trans hnum₁⟩

/-- A server that has stopped has opened as many files as it read at the start. -/
theorem Counting.opened_length (h : Counting s) (hs : s.Stopped) : (s.opened.length : ℤ) = s.numFiles := by
  rw [h.name hs.1]
  exact le_antisymm h.le hs.2

def counted (host : Host) (n : ℕ) : State :=
  ⟨.name, putAt host.buf 0 (decimal n), 0, atoi (putAt host.buf 0 (decimal n)), [], host.disk⟩

theorem counted_counting (host : Host) (n : ℕ) : Counting (counted host n) := by
  have hnonneg : 0 ≤ atoi (putAt host.buf 0 (decimal n)) := by
    obtain ⟨c, t, hct⟩ := List.exists_cons_of_ne_nil (decimal_ne_nil n)
    have hc : isDigit c = true := isDigit_of_mem_decimal (n := n) (hct ▸ List.mem_cons_self)
    rw [putAt, List.take_zero, List.nil_append, hct, List.cons_append]
    exact atoi_nonneg hc _
  exact ⟨fun _ => rfl, fun _ => Phase.noConfusion, hnonneg, Phase.noConfusion⟩

theorem backsUp_iff_copies (host : Host) (files : List File) : BacksUp host files ↔
    CountRead host files.length ∧ Copies host (counted host files.length) files := by
  have hrun : ¬ (start host).Stopped := fun h => nomatch h.1
  by_cases hterm : ∃ c ∈ putAt host.buf 0 (decimal files.length), isDigit c = false
  · have hfirst : (start host).receive host (decimal files.length) = some (counted host files.length) :=
      if_pos hterm
    have hserve : serve host (start host) (client files) =
        serve host (counted host files.length) (files.flatMap File.datagrams) := by
      rw [client, serve_cons hrun, hfirst, Option.bind_some]
    constructor
    · rintro ⟨s', rest, hs', hstop, hnodup, hcontent⟩
      rw [hserve] at hs'
      obtain ⟨hcounting, hnum⟩ := (counted_counting host files.length).serve hs'
      have hlen := congrArg List.length hcontent
      rw [List.length_map, List.length_map] at hlen
      have hopened := hcounting.opened_length hstop
      rw [hlen, hnum] at hopened
      exact ⟨⟨hterm, hopened.symm⟩, s', rest, hs', hstop, hnodup, hcontent⟩
    · rintro ⟨-, s', rest, hs', hstop, hnodup, hcontent⟩
      exact ⟨s', rest, hserve.trans hs', hstop, hnodup, hcontent⟩
  · refine iff_of_false ?_ fun h => hterm h.1.1
    rintro ⟨s', rest, hs', -⟩
    have hfirst : (start host).receive host (decimal files.length) = none := if_neg hterm
    rw [client, serve_cons hrun, hfirst] at hs'
    cases hs'

/-- The server backs up the files just when it reads their number, every name is terminated in `nF`
and opens, no two open the same output, and no chunk makes the buffer look like the end of a file. -/
theorem backsUp_iff (host : Host) (files : List File) : BacksUp host files ↔ CountRead host files.length ∧
    Clean host 0 (putAt host.buf 0 (decimal files.length)) files ∧ (outputs host 0 files).Nodup := by
  rw [backsUp_iff_copies]
  refine and_congr_right fun hcount => copies_iff rfl ?_
  change atoi _ = _
  rw [hcount.2]
  simp [counted]

/-- A server whose memory is zero and that can open every path; the files are told apart by their paths. -/
def zeroHost : Host where
  buf := List.replicate bufLen 0
  buf_length := List.length_replicate
  nF _ := List.replicate bufLen 0
  nF_length _ := List.length_replicate
  file path := some (path.foldl (fun n c => 257 * n + c.toNat + 1) 0)
  disk _ := []

def gataFile : File where
  name := ⟨ascii "input01.txt", by decide, by decide⟩
  name_ne := by decide
  chunks := [ascii "Gata bo"]
  chunk_length := by decide

/-- The output of the file is empty. -/
theorem gataFile_not_backedUp : ¬ BacksUp zeroHost [gataFile] := by
  intro h
  have hcopies := ((backsUp_iff_copies _ _).mp h).2
  have hrun : ¬ (counted zeroHost 1).Stopped := by decide
  have hlost : ¬ Kept (putAt (counted zeroHost 1).buf 0 gataFile.name.chars) gataFile.chunks :=
    fun hkept => hkept.1 (by decide)
  exact hlost (kept_of_copies rfl hrun rfl hcopies)

def secondFile : File where
  name := ⟨ascii "input02.txt", by decide, by decide⟩
  name_ne := by decide
  chunks := [ascii "second"]
  chunk_length := by decide

/-- Both go to `server_.txt`. -/
example : ¬ (outputs zeroHost 0 [gataFile, secondFile]).Nodup := by decide +kernel

end PCom.Backup
