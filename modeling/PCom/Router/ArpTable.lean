import PCom.Foundations.Keyed
import PCom.Router.Forwarding

/-! # The ARP table over many calls

The capacity of the table starts at zero, and doubling keeps it there. All entries go into the
block that `realloc` returned for zero bytes; while they fit, the table answers what it was told.
-/

namespace PCom.Router
open Foundations

/-- A call of `received_arp_reply` on a queue with a packet in front. -/
structure Reply where
  state : State
  arp : ArpHeader
  front : ℕ
  rest : List ℕ
  packet : Packet
  queue_eq : state.queue = front :: rest
  live : state.stack front = some packet

inductive ArpCall where
  | reply (r : Reply)
  | add (entry : ArpEntry)

def ArpCall.apply (cfg : Config) (atable : ArpTable) : ArpCall → Except Fault ArpTable
  | .reply r => (receivedArpReply cfg { r.state with arpTable := atable } r.arp).map fun s => s.1.arpTable
  | .add entry => addArpEntry cfg.usable atable entry

def ArpCall.added (atable atable' : ArpTable) : ArpCall → List ArpEntry
  | .reply _ => atable'.entries.drop atable.entries.length
  | .add _ => []

/-- The table and the entries that `received_arp_reply` added to it. -/
def ArpCall.run (cfg : Config) (s : ArpTable × List ArpEntry) (call : ArpCall) :
    Except Fault (ArpTable × List ArpEntry) := do
  let atable ← call.apply cfg s.1
  return (atable, s.2 ++ call.added s.1 atable)

def runCalls (cfg : Config) (calls : List ArpCall) : Except Fault (ArpTable × List ArpEntry) :=
  calls.foldlM (ArpCall.run cfg) (createArpTable, [])

/-- What a call teaches: a reply teaches an address that is not known. -/
def ArpCall.teaches (known : List ArpEntry) : ArpCall → List ArpEntry
  | .reply r => if r.arp.spa ∈ known.map (·.ip) then [] else [⟨r.arp.spa, r.arp.sha⟩]
  | .add entry => [entry]

def learnt (calls : List ArpCall) : List ArpEntry :=
  calls.foldl (fun known call => known ++ call.teaches known) []

variable {cfg : Config} {calls : List ArpCall} {call : ArpCall} {atable atable' : ArpTable}
  {replied : List ArpEntry} {entry : ArpEntry}

theorem getArpRoute_eq_lookup (atable : ArpTable) (ip : BitVec 32) :
    getArpRoute atable ip = lookup ArpEntry.ip atable.entries ip := rfl

theorem addArpEntry_of_capacity {usable : ℕ → ℕ} (hcap : atable.capacity = 0)
    (h : addArpEntry usable atable entry = .ok atable') :
    atable'.entries = atable.entries ++ [entry] ∧ atable'.capacity = 0 := by
  unfold addArpEntry at h
  split at h <;> dsimp only at h <;> split at h
  · cases h
    simp [hcap]
  · cases h
  · cases h
    simp [hcap]
  · cases h

/-- What `received_arp_reply` does to the table. -/
theorem apply_reply (r : Reply) : (ArpCall.reply r).apply cfg atable =
    if r.arp.spa ∈ atable.entries.map (·.ip) then .ok atable
    else addArpEntry cfg.usable atable ⟨r.arp.spa, r.arp.sha⟩ := by
  have hnone : getArpRoute atable r.arp.spa = none ↔ r.arp.spa ∉ atable.entries.map (·.ip) := by
    rw [getArpRoute_eq_lookup, lookup_eq_none]
  simp only [ArpCall.apply, receivedArpReply, r.queue_eq, r.live, hnone, ite_not]
  split
  · rfl
  · cases addArpEntry cfg.usable atable ⟨r.arp.spa, r.arp.sha⟩ <;> rfl

theorem apply_ok (hcap : atable.capacity = 0) (h : call.apply cfg atable = .ok atable') :
    atable'.entries = atable.entries ++ call.teaches atable.entries ∧ atable'.capacity = 0 := by
  cases call with
  | reply r =>
    rw [apply_reply] at h
    rw [ArpCall.teaches]
    split at h
    · next hknown =>
      cases h
      rw [if_pos hknown, List.append_nil]
      exact ⟨rfl, hcap⟩
    · next hknown =>
      rw [if_neg hknown]
      exact addArpEntry_of_capacity hcap h
  | add entry => exact addArpEntry_of_capacity hcap h

theorem learnt_concat (calls : List ArpCall) (call : ArpCall) :
    learnt (calls ++ [call]) = learnt calls ++ call.teaches (learnt calls) := by
  simp [learnt]

/-- A run ends well when its last call does, and so did the calls before it. -/
theorem runCalls_concat_ok : runCalls cfg (calls ++ [call]) = .ok (atable', replied) ↔
    ∃ atable before, runCalls cfg calls = .ok (atable, before) ∧ call.apply cfg atable = .ok atable' ∧
      replied = before ++ call.added atable atable' := by
  rw [runCalls, List.foldlM_append, ← runCalls]
  cases runCalls cfg calls with
  | error fault => simp [bind, Except.bind]
  | ok s =>
    obtain ⟨atable, before⟩ := s
    simp only [List.foldlM_cons, List.foldlM_nil, ArpCall.run, bind, Except.bind, pure, Except.pure]
    cases happly : call.apply cfg atable with
    | error fault => simp [happly]
    | ok after =>
      simp only [Except.ok.injEq, Prod.mk.injEq]
      constructor
      · rintro ⟨rfl, rfl⟩
        exact ⟨_, _, ⟨rfl, rfl⟩, happly, rfl⟩
      · rintro ⟨_, _, ⟨rfl, rfl⟩, hafter, rfl⟩
        cases happly.symm.trans hafter
        exact ⟨rfl, rfl⟩

theorem learnt_ne_nil (h : calls ≠ []) : learnt calls ≠ [] := by
  induction calls using List.reverseRecOn with
  | nil => exact absurd rfl h
  | append_singleton calls call ih =>
    rw [learnt_concat]
    rcases eq_or_ne calls [] with rfl | hne
    · cases call <;> simp [learnt, ArpCall.teaches]
    · exact List.append_ne_nil_of_left_ne_nil (ih hne) _

/-- The entries that replies added have addresses that no entry had before. -/
theorem nodup_added (h : call.apply cfg atable = .ok atable')
    (hentries : atable'.entries = atable.entries ++ call.teaches atable.entries)
    (hsub : replied ⊆ atable.entries) (hnodup : (replied.map (·.ip)).Nodup) :
    ((replied ++ call.added atable atable').map (·.ip)).Nodup := by
  cases call with
  | add entry => simpa [ArpCall.added] using hnodup
  | reply r =>
    rw [ArpCall.added, hentries, List.drop_left, ArpCall.teaches]
    split
    · simpa using hnodup
    · next hnew =>
      rw [List.map_append, List.nodup_append]
      refine ⟨hnodup, List.nodup_singleton _, ?_⟩
      intro ip hip ip' hip' heq
      rw [List.map_singleton, List.mem_singleton] at hip'
      subst heq
      subst hip'
      exact hnew (List.map_subset _ hsub hip)

/-- After calls of which none wrote outside the block, the table holds what they taught. -/
theorem runCalls_ok (h : runCalls cfg calls = .ok (atable, replied)) :
    atable.entries = learnt calls ∧ atable.capacity = 0 ∧ (replied.map (·.ip)).Nodup ∧
      replied ⊆ atable.entries := by
  induction calls using List.reverseRecOn generalizing atable replied with
  | nil =>
    cases h
    simp [learnt, createArpTable]
  | append_singleton calls call ih =>
    obtain ⟨before, replied, hrun, happly, rfl⟩ := runCalls_concat_ok.mp h
    obtain ⟨hentries, hcap, hnodup, hsub⟩ := ih hrun
    obtain ⟨hentries', hcap'⟩ := apply_ok hcap happly
    refine ⟨?_, hcap', nodup_added happly hentries' hsub hnodup, ?_⟩
    · rw [hentries', hentries, learnt_concat]
    · apply List.append_subset.mpr
      constructor
      · rw [hentries']
        exact List.subset_append_of_subset_left _ hsub
      · cases call with
        | reply r => exact List.drop_subset _ _
        | add entry => exact List.nil_subset _

/-- The table after the calls is what it should be: every entry was written inside the block, which
has room for the capacity, replies added no address twice, and a lookup finds what was learnt. -/
def Coherent (cfg : Config) (calls : List ArpCall) : Prop :=
  ∃ atable replied, runCalls cfg calls = .ok (atable, replied) ∧
    atable.entries.length ≤ atable.capacity ∧ 8 * atable.capacity ≤ atable.block ∧
    (replied.map (·.ip)).Nodup ∧
    ∀ ip, getArpRoute atable ip = lookup ArpEntry.ip (learnt calls) ip

/-- Before the first call, and never again. -/
theorem coherent_iff : Coherent cfg calls ↔ calls = [] := by
  constructor
  · rintro ⟨atable, replied, hrun, hsize, -⟩
    obtain ⟨hentries, hcap, -⟩ := runCalls_ok hrun
    by_contra hne
    have hpos := List.length_pos_iff.mpr (learnt_ne_nil hne)
    rw [hentries, hcap] at hsize
    omega
  · rintro rfl
    exact ⟨createArpTable, [], rfl, le_rfl, le_rfl, List.nodup_nil, fun ip => rfl⟩

/-- What the table misses is room: the calls that do not write outside the block leave a table with
no address from two replies, and lookups that find what was learnt. -/
theorem runCalls_lookup (h : runCalls cfg calls = .ok (atable, replied)) :
    (replied.map (·.ip)).Nodup ∧
      ∀ ip, getArpRoute atable ip = lookup ArpEntry.ip (learnt calls) ip := by
  obtain ⟨hentries, -, hnodup, -⟩ := runCalls_ok h
  refine ⟨hnodup, fun ip => ?_⟩
  rw [getArpRoute_eq_lookup, hentries]

def fourNeighbours : List ArpCall :=
  [.add ⟨0x0201A8C0, [2, 0, 0, 0, 0, 2]⟩, .add ⟨0x0301A8C0, [2, 0, 0, 0, 0, 3]⟩,
    .add ⟨0x0401A8C0, [2, 0, 0, 0, 0, 4]⟩, .add ⟨0x0501A8C0, [2, 0, 0, 0, 0, 5]⟩]

/-- The fourth entry lies behind the smallest block of the allocator. -/
theorem fourNeighbours_outside :
    runCalls (oneInterface 0x0101A8C0 ⟨[], by decide⟩) fourNeighbours = .error .arpEntries ∧
      ¬ Coherent (oneInterface 0x0101A8C0 ⟨[], by decide⟩) fourNeighbours := by
  have hrun : runCalls (oneInterface 0x0101A8C0 ⟨[], by decide⟩) fourNeighbours = .error .arpEntries := rfl
  refine ⟨hrun, ?_⟩
  rintro ⟨atable, replied, hok, -⟩
  rw [hrun] at hok
  cases hok

end PCom.Router
