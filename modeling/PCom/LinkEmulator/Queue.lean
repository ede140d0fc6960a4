import PCom.Foundations.Segment
import PCom.LinkEmulator.Link

/-! # The queue of the link

The cells of the queue with their links: `last` is the oldest cell, and `prev` leads from a cell to
the one that was queued after it. A failed assertion, a use of memory that is not in use and an
`int` that overflows are faults.
-/

namespace PCom.LinkEmulator
open Foundations

inductive Fault where
  | assertion
  | wild
  | overflow
deriving DecidableEq

/-- `queue_entry`; a null pointer is `none`. -/
structure QueueEntry (α : Type) where
  crt : Option α
  prev : Option ℕ

/-- `queue`, and the memory of its cells. -/
structure Queue (α : Type) where
  size : ℤ
  first : Option ℕ
  last : Option ℕ
  heap : Store (QueueEntry α)

/-- One call of `malloc`: an address that is not in use, while there is one, and what stands there. -/
structure Malloc (α : Type) where
  address : Store (QueueEntry α) → ℕ
  content : Store (QueueEntry α) → QueueEntry α
  fresh : ∀ heap : Store (QueueEntry α), (∃ a, heap a = none) → heap (address heap) = none

variable {α : Type}

def load (heap : Store (QueueEntry α)) (p : Option ℕ) : Except Fault (QueueEntry α) :=
  match p.bind heap with
  | none => .error .wild
  | some c => .ok c

def modify (heap : Store (QueueEntry α)) (p : Option ℕ) (f : QueueEntry α → QueueEntry α) :
    Except Fault (Store (QueueEntry α)) :=
  match p with
  | none => .error .wild
  | some a => (load heap p).map fun c => Function.update heap a (some (f c))

/-- `free`. -/
def release (heap : Store (QueueEntry α)) (p : Option ℕ) : Store (QueueEntry α) :=
  match p with
  | none => heap
  | some a => Function.update heap a none

/-- The value of an `int` expression. -/
def int (n : ℤ) : Except Fault ℤ := if -2 ^ 31 ≤ n ∧ n < 2 ^ 31 then .ok n else .error .overflow

def createQueue : Queue α := ⟨0, none, none, fun _ => none⟩

/-- The new cell of `enqueue`, which `first` points to. -/
def Queue.grow (q : Queue α) (malloc : Malloc α) : Except Fault (Queue α) :=
  let t := malloc.address q.heap
  let heap := Function.update q.heap t (some (malloc.content q.heap))
  if q.first = none then
    if q.last = none then .ok { q with first := some t, last := some t, heap := heap }
    else .error .assertion
  else (modify heap q.first fun c => { c with prev := some t }).map fun heap =>
    { q with first := some t, heap := heap }

def Queue.enqueue (malloc : Malloc α) (m : Option α) (q : Queue α) : Except Fault (Queue α) := do
  let q ← q.grow malloc
  let heap ← modify q.heap q.first fun c => { c with prev := none }
  let heap ← modify heap q.first fun c => { c with crt := m }
  let size ← int (q.size + 1)
  return { q with size := size, heap := heap }

/-- The pointers of a queue from which `dequeue` takes a cell, and that cell. -/
def Queue.shrink (q : Queue α) : Except Fault (Queue α × Option ℕ) :=
  if q.first = q.last then (load q.heap q.first).bind fun c =>
    if c.prev = none then .ok ({ q with first := none, last := none }, q.last) else .error .assertion
  else (load q.heap q.last).map fun c => ({ q with last := c.prev }, q.last)

def Queue.dequeue (q : Queue α) : Except Fault (Option α × Queue α) :=
  if q.first = none then if q.size = 0 then .ok (none, q) else .error .assertion
  else do
    let r ← q.shrink
    let c ← load r.1.heap r.2
    let size ← int (r.1.size - 1)
    return (c.crt, { r.1 with size := size, heap := release r.1.heap r.2 })

inductive Call (α : Type) where
  | enqueue (malloc : Malloc α) (m : Option α)
  | dequeue

def Call.run : Call α → Queue α → Except Fault (List (Option α) × Queue α)
  | .enqueue malloc m, q => (q.enqueue malloc m).map fun q => ([], q)
  | .dequeue, q => q.dequeue.map fun r => ([r.1], r.2)

def runCalls (q : Queue α) : List (Call α) → Except Fault (List (Option α) × Queue α)
  | [] => .ok ([], q)
  | c :: calls => (c.run q).bind fun r => (runCalls r.2 calls).map fun r' => (r.1 ++ r'.1, r'.2)

/-- A call on the list that stands for the queue in `run_forwarding` and `link_scheduler`; when it is
empty the call gives the null pointer. -/
def Call.fifo : Call α → List (Option α) → List (Option α) × List (Option α)
  | .enqueue _ m, l => ([], LinkEmulator.enqueue l m)
  | .dequeue, l =>
    match LinkEmulator.dequeue l with
    | none => ([none], l)
    | some (m, l) => ([m], l)

def fifoCalls (l : List (Option α)) : List (Call α) → List (Option α) × List (Option α)
  | [] => ([], l)
  | c :: calls =>
    let r := fifoCalls (c.fifo l).2 calls
    ((c.fifo l).1 ++ r.1, r.2)

def Call.isEnqueue : Call α → Bool
  | .enqueue .. => true
  | .dequeue => false

/-- The queue has these cells and no others, from `last` through `prev` to `first`. -/
structure Queue.Represents (q : Queue α) (cells : List (ℕ × QueueEntry α)) : Prop where
  chain : Segment QueueEntry.prev q.heap q.last cells none
  first_eq : q.first = (cells.map Prod.fst).getLast?
  size_eq : q.size = cells.length
  size_lt : cells.length < 2 ^ 31
  heap_mem : ∀ a, q.heap a ≠ none → a ∈ cells.map Prod.fst

def carried (cells : List (ℕ × QueueEntry α)) : List (Option α) := cells.map fun b => b.2.crt

theorem createQueue_represents : (createQueue : Queue α).Represents [] :=
  ⟨rfl, rfl, rfl, by simp, fun _ h => absurd rfl h⟩

theorem load_some {heap : Store (QueueEntry α)} {a : ℕ} {c : QueueEntry α} (h : heap a = some c) :
    load heap (some a) = .ok c := by
  rw [load, Option.bind_some, h]

theorem modify_some {heap : Store (QueueEntry α)} {a : ℕ} {c : QueueEntry α} (h : heap a = some c)
    (f : QueueEntry α → QueueEntry α) :
    modify heap (some a) f = .ok (Function.update heap a (some (f c))) := by
  rw [modify, load_some h]
  rfl

theorem int_eq (n : ℕ) : int (n : ℤ) = if n < 2 ^ 31 then .ok (n : ℤ) else .error .overflow := by
  rw [int]
  congr 1
  apply propext
  omega

theorem int_map {β : Type} (n : ℤ) (f : ℤ → β) : (int n).map f = (int n).map fun _ => f n := by
  rw [int]
  split <;> rfl

variable {q : Queue α} {cells : List (ℕ × QueueEntry α)}

/-- The cells are finitely many, so `malloc` has an address. -/
theorem Queue.Represents.heap_address (h : q.Represents cells) (malloc : Malloc α) :
    q.heap (malloc.address q.heap) = none := by
  apply malloc.fresh
  exact Store.Within.exists_unused h.heap_mem

/-- The first cell is a null pointer just when the last one is, and just when there are no cells. -/
theorem Queue.Represents.first_eq_none (h : q.Represents cells) : q.first = none ↔ cells = [] := by
  rw [h.first_eq, List.getLast?_eq_none_iff, List.map_eq_nil_iff]

theorem Queue.Represents.last_eq_none (h : q.Represents cells) : q.last = none ↔ cells = [] :=
  h.chain.eq_none_iff

theorem enqueue_of_grow {malloc : Malloc α} {m : Option α} {q' : Queue α} {t : ℕ} {d : QueueEntry α}
    (hgrow : q.grow malloc = .ok q') (hfirst : q'.first = some t) (ht : q'.heap t = some d) :
    q.enqueue malloc m = (int (q'.size + 1)).map fun _ =>
      ⟨q'.size + 1, q'.first, q'.last, Function.update q'.heap t (some ⟨m, none⟩)⟩ := by
  have hcell : Function.update q'.heap t (some { d with prev := none }) t = some { d with prev := none } :=
    Function.update_self ..
  rw [Queue.enqueue, hgrow]
  change (modify q'.heap q'.first _).bind _ = _
  rw [hfirst, modify_some ht]
  change (modify _ (some t) _).bind _ = _
  rw [modify_some hcell, Function.update_idem]
  change (int (q'.size + 1)).map _ = _
  rw [int_map]

theorem enqueue_of_empty (hfirst : q.first = none) (hlast : q.last = none) (malloc : Malloc α) (m : Option α) :
    q.enqueue malloc m = (int (q.size + 1)).map fun _ =>
      ⟨q.size + 1, some (malloc.address q.heap), some (malloc.address q.heap),
        Function.update q.heap (malloc.address q.heap) (some ⟨m, none⟩)⟩ := by
  have hgrow : q.grow malloc = .ok ⟨q.size, some (malloc.address q.heap), some (malloc.address q.heap),
      Function.update q.heap (malloc.address q.heap) (some (malloc.content q.heap))⟩ := by
    rw [Queue.grow, if_pos hfirst, if_pos hlast]
  rw [enqueue_of_grow hgrow rfl (Function.update_self ..), Function.update_idem]

theorem enqueue_of_cell {a t : ℕ} {c : QueueEntry α} {malloc : Malloc α} (hfirst : q.first = some a)
    (ha : q.heap a = some c) (ht : malloc.address q.heap = t) (hne : a ≠ t) (m : Option α) :
    q.enqueue malloc m = (int (q.size + 1)).map fun _ =>
      ⟨q.size + 1, some t, q.last,
        Function.update (Function.update q.heap a (some { c with prev := some t })) t (some ⟨m, none⟩)⟩ := by
  have hread : Function.update q.heap t (some (malloc.content q.heap)) a = some c := by
    rw [Function.update_of_ne hne, ha]
  have hgrow : q.grow malloc = .ok ⟨q.size, some t, q.last, Function.update
      (Function.update q.heap t (some (malloc.content q.heap))) a (some { c with prev := some t })⟩ := by
    rw [Queue.grow, hfirst, if_neg (by simp), ht, modify_some hread]
    rfl
  have hnew : Function.update (Function.update q.heap t (some (malloc.content q.heap))) a
      (some { c with prev := some t }) t = some (malloc.content q.heap) := by
    rw [Function.update_of_ne hne.symm, Function.update_self]
  rw [enqueue_of_grow hgrow rfl hnew, Function.update_comm hne.symm, Function.update_idem,
    Function.update_comm hne]

/-- The new cell stands behind the others, unless the size overflows. -/
theorem Queue.Represents.enqueue (h : q.Represents cells) (malloc : Malloc α) (m : Option α) :
    (∃ q' cells', q.enqueue malloc m = .ok q' ∧ q'.Represents cells' ∧
      carried cells' = carried cells ++ [m]) ∨
    q.enqueue malloc m = .error .overflow ∧ 2 ^ 31 ≤ cells.length + 1 := by
  have hfree := h.heap_address malloc
  generalize ht : malloc.address q.heap = t at hfree
  have hint : int (q.size + 1) = if cells.length + 1 < 2 ^ 31 then .ok (q.size + 1) else .error .overflow := by
    have := int_eq (cells.length + 1)
    rwa [Nat.cast_add, ← h.size_eq, Nat.cast_one] at this
  rcases List.eq_nil_or_concat cells with rfl | ⟨front, ⟨a, c⟩, rfl⟩
  · have henqueue := enqueue_of_empty (h.first_eq_none.mpr rfl) (h.last_eq_none.mpr rfl) malloc m
    rw [hint, if_pos (by simp), ht] at henqueue
    refine .inl ⟨_, [(t, ⟨m, none⟩)], henqueue, ?_, rfl⟩
    exact ⟨⟨rfl, Function.update_self .., rfl⟩, rfl, by simp [h.size_eq], by simp, Store.Within.update h.heap_mem t _⟩
  · rw [List.concat_eq_append] at h hint ⊢
    have hfirst : q.first = some a := by simp [h.first_eq]
    have ha : q.heap a = some c := h.chain.mem (by simp)
    have hne : a ≠ t := by
      rintro rfl
      rw [ha] at hfree
      cases hfree
    have henqueue := enqueue_of_cell hfirst ha ht hne m
    rw [hint] at henqueue
    split at henqueue
    · next hlt =>
      refine .inl ⟨_, front ++ [(a, { c with prev := some t }), (t, ⟨m, none⟩)], henqueue, ?_, by simp [carried]⟩
      refine ⟨h.chain.extend hfree rfl rfl, by simp, ?_, by simpa using hlt, within_extend h.heap_mem⟩
      simp [h.size_eq]
      ring
    · next hge => exact .inr ⟨henqueue, not_lt.mp hge⟩

theorem shrink_of_single {a : ℕ} {c : QueueEntry α} (hfirst : q.first = some a) (hlast : q.last = some a)
    (ha : q.heap a = some c) (hprev : c.prev = none) :
    q.shrink = .ok (⟨q.size, none, none, q.heap⟩, some a) := by
  rw [Queue.shrink, if_pos (hfirst.trans hlast.symm), hfirst, load_some ha]
  change (if c.prev = none then _ else _) = _
  rw [if_pos hprev, hlast]

theorem shrink_of_ne {a : ℕ} {c : QueueEntry α} (hne : q.first ≠ q.last) (hlast : q.last = some a)
    (ha : q.heap a = some c) : q.shrink = .ok (⟨q.size, q.first, c.prev, q.heap⟩, some a) := by
  rw [Queue.shrink, if_neg hne, hlast, load_some ha]
  rfl

theorem dequeue_of_cell {a : ℕ} {c : QueueEntry α} {q' : Queue α} (hfirst : q.first ≠ none)
    (hshrink : q.shrink = .ok (q', some a)) (ha : q'.heap a = some c)
    (hsize : int (q'.size - 1) = .ok (q'.size - 1)) :
    q.dequeue = .ok (c.crt, ⟨q'.size - 1, q'.first, q'.last, Function.update q'.heap a none⟩) := by
  rw [Queue.dequeue, if_neg hfirst, hshrink]
  change (load q'.heap (some a)).bind _ = _
  rw [load_some ha]
  change (int (q'.size - 1)).bind _ = _
  rw [hsize]
  rfl

section Cons
variable {a : ℕ} {c : QueueEntry α} {rest : List (ℕ × QueueEntry α)} (h : q.Represents ((a, c) :: rest))
include h

theorem Queue.Represents.size_pred : q.size - 1 = rest.length ∧ rest.length < 2 ^ 31 := by
  have hlt := h.size_lt
  have hsize := h.size_eq
  rw [List.length_cons] at hlt hsize
  omega

theorem Queue.Represents.shrink : ∃ first, q.shrink = .ok (⟨q.size, first, c.prev, q.heap⟩, some a) ∧
    first = (rest.map Prod.fst).getLast? := by
  have hlast : q.last = some a := h.chain.1
  have ha : q.heap a = some c := h.chain.2.1
  cases rest with
  | nil =>
    have hprev : c.prev = none := h.chain.2.2
    refine ⟨none, ?_, rfl⟩
    rw [hprev]
    exact shrink_of_single h.first_eq hlast ha hprev
  | cons b rest =>
    -- the first cell is not the last one
    have hne : q.first ≠ q.last := by
      rw [h.first_eq, hlast, List.map_cons, List.map_cons, List.getLast?_cons_cons]
      intro heq
      exact h.chain.not_mem (List.mem_of_getLast? heq)
    refine ⟨q.first, shrink_of_ne hne hlast ha, ?_⟩
    rw [h.first_eq, List.map_cons, List.map_cons, List.getLast?_cons_cons]

end Cons

/-- `dequeue` gives what the oldest cell carries, and the null pointer when there is none. -/
theorem Queue.Represents.dequeue (h : q.Represents cells) :
    ∃ q', q.dequeue = .ok ((carried cells).head?.join, q') ∧ q'.Represents cells.tail := by
  cases cells with
  | nil =>
    refine ⟨q, ?_, h⟩
    have hsize : q.size = 0 := h.size_eq
    rw [Queue.dequeue, if_pos (h.first_eq_none.mpr rfl), if_pos hsize]
    rfl
  | cons b rest =>
    obtain ⟨a, c⟩ := b
    obtain ⟨hsize, hlt⟩ := h.size_pred
    have hint : int (q.size - 1) = .ok (q.size - 1) := by
      rw [hsize, int_eq, if_pos hlt]
    have hfirst : q.first ≠ none := by
      rw [ne_eq, h.first_eq_none]
      exact List.cons_ne_nil _ _
    obtain ⟨first, hshrink, hgetLast⟩ := h.shrink
    have hrest := h.chain.2.2.update (w := none) h.chain.not_mem
    have hwithin := Store.Within.release h.heap_mem
    exact ⟨_, dequeue_of_cell hfirst hshrink h.chain.2.1 hint, ⟨hrest, hgetLast, hsize, hlt, hwithin⟩⟩

theorem Call.fifo_dequeue (l : List (Option α)) : (dequeue : Call α).fifo l = ([l.head?.join], l.tail) := by
  cases l <;> rfl

theorem Call.run_represents (c : Call α) (h : q.Represents cells) :
    (∃ q' cells', c.run q = .ok ((c.fifo (carried cells)).1, q') ∧ q'.Represents cells' ∧
      carried cells' = (c.fifo (carried cells)).2) ∨
    c.run q = .error .overflow ∧ 2 ^ 31 ≤ (c.fifo (carried cells)).2.length := by
  cases c with
  | enqueue malloc m =>
    rcases h.enqueue malloc m with ⟨q', cells', henqueue, hq', hcarried⟩ | ⟨henqueue, hge⟩
    · exact .inl ⟨q', cells', by rw [run, henqueue]; rfl, hq', hcarried⟩
    · refine .inr ⟨by rw [run, henqueue]; rfl, ?_⟩
      simpa [fifo, LinkEmulator.enqueue, carried] using hge
  | dequeue =>
    obtain ⟨q', hdequeue, hq'⟩ := h.dequeue
    rw [fifo_dequeue]
    exact .inl ⟨q', _, by rw [run, hdequeue]; rfl, hq', List.map_tail⟩

theorem Call.fifo_length (c : Call α) (l : List (Option α)) :
    (c.fifo l).2.length ≤ l.length + if c.isEnqueue then 1 else 0 := by
  cases c with
  | enqueue malloc m => simp [fifo, LinkEmulator.enqueue, isEnqueue]
  | dequeue => simp [fifo_dequeue, isEnqueue]

/-- The calls come to an end, or some of them fill the `int` that holds the size. -/
theorem runCalls_represents (h : q.Represents cells) (calls : List (Call α)) :
    (∃ q' cells', runCalls q calls = .ok ((fifoCalls (carried cells) calls).1, q') ∧ q'.Represents cells' ∧
      carried cells' = (fifoCalls (carried cells) calls).2) ∨
    runCalls q calls = .error .overflow ∧
      ∃ front, front <+: calls ∧ 2 ^ 31 ≤ (fifoCalls (carried cells) front).2.length := by
  induction calls generalizing q cells with
  | nil => exact .inl ⟨q, cells, rfl, h, rfl⟩
  | cons c calls ih =>
    rcases c.run_represents h with ⟨q₁, cells₁, hrun, hq₁, hcarried⟩ | ⟨hrun, hge⟩
    · rcases ih hq₁ with ⟨q₂, cells₂, hruns, hq₂, hcarried₂⟩ | ⟨hruns, front, hfront, hge⟩
      · refine .inl ⟨q₂, cells₂, ?_, hq₂, ?_⟩
        · rw [runCalls, hrun, Except.bind, hruns, hcarried]
          rfl
        · rw [hcarried₂, hcarried]
          rfl
      · rw [hcarried] at hge
        refine .inr ⟨?_, c :: front, List.cons_prefix_cons.mpr ⟨rfl, hfront⟩, hge⟩
        rw [runCalls, hrun, Except.bind, hruns]
        rfl
    · refine .inr ⟨?_, [c], List.cons_prefix_cons.mpr ⟨rfl, List.nil_prefix⟩, hge⟩
      rw [runCalls, hrun]
      rfl

theorem fifoCalls_length (l : List (Option α)) (calls : List (Call α)) :
    (fifoCalls l calls).2.length ≤ l.length + calls.countP Call.isEnqueue := by
  induction calls generalizing l with
  | nil => exact le_rfl
  | cons c calls ih =>
    have hfirst := c.fifo_length l
    have hrest := ih (c.fifo l).2
    rw [List.countP_cons]
    exact hrest.trans (by omega)

theorem mem_fifoCalls {l : List (Option α)} {calls : List (Call α)} {m : Option α}
    (h : m ∈ (fifoCalls l calls).2) : m ∈ l ∨ ∃ malloc, Call.enqueue malloc m ∈ calls := by
  induction calls generalizing l with
  | nil => exact .inl h
  | cons c calls ih =>
    rcases ih h with hmem | ⟨malloc, hmem⟩
    · cases c with
      | enqueue malloc m' =>
        rcases List.mem_append.mp hmem with hmem | hmem
        · exact .inl hmem
        · rw [List.mem_singleton.mp hmem]
          exact .inr ⟨malloc, List.mem_cons_self ..⟩
      | dequeue =>
        rw [Call.fifo_dequeue] at hmem
        exact .inl (List.mem_of_mem_tail hmem)
    · exact .inr ⟨malloc, List.mem_cons_of_mem _ hmem⟩

/-- Calls from `create_queue` on return what they return on a FIFO queue. The cells from `last` through
`prev` to `first` are those of the queue, `size` is their number, and both ends are null pointers or
neither. The next `dequeue` passes its assertions too, and returns a null pointer just for an empty
queue. -/
def IsFifo (calls : List (Call α)) : Prop :=
  ∃ q cells, runCalls createQueue calls = .ok ((fifoCalls [] calls).1, q) ∧
    Segment QueueEntry.prev q.heap q.last cells none ∧
    (∀ cells', Segment QueueEntry.prev q.heap q.last cells' none → cells' = cells) ∧
    q.first = (cells.map Prod.fst).getLast? ∧ carried cells = (fifoCalls [] calls).2 ∧
    q.size = cells.length ∧ (q.first = none ↔ q.last = none) ∧
    ∃ r q', q.dequeue = .ok (r, q') ∧ (r = none ↔ cells = [])

/-- The queue is FIFO while its cells can be counted in an `int` and no null pointer is queued. -/
theorem queue_fifo (calls : List (Call α)) (hsize : ∀ front, front <+: calls → (fifoCalls [] front).2.length < 2 ^ 31)
    (hnull : ∀ malloc m, Call.enqueue malloc m ∈ calls → m ≠ none) : IsFifo calls := by
  rcases runCalls_represents createQueue_represents calls with ⟨q, cells, hrun, hq, hcarried⟩ | ⟨-, front, hfront, hge⟩
  · obtain ⟨q', hdequeue, -⟩ := hq.dequeue
    refine ⟨q, cells, hrun, hq.chain, fun cells' h => h.unique hq.chain, hq.first_eq, hcarried, hq.size_eq,
      hq.first_eq_none.trans hq.last_eq_none.symm, _, q', hdequeue, ?_⟩
    cases cells with
    | nil => exact iff_of_true rfl rfl
    | cons b rest =>
      refine iff_of_false ?_ (List.cons_ne_nil _ _)
      have hmem : b.2.crt ∈ (fifoCalls [] calls).2 := hcarried ▸ List.mem_cons_self ..
      rcases mem_fifoCalls hmem with hmem | ⟨malloc, hmem⟩
      · cases hmem
      · exact hnull malloc _ hmem
  · exact absurd (hsize front hfront) (not_lt.mpr hge)

noncomputable def lowestAddress : Malloc α where
  address heap := sInf {a | heap a = none}
  content _ := ⟨none, none⟩
  fresh _ h := Nat.sInf_mem h

theorem queue_fifo_two : IsFifo [.enqueue lowestAddress (some 1), .enqueue lowestAddress (some 2), .dequeue] := by
  apply queue_fifo
  · intro front hfront
    have hlen := (fifoCalls_length [] front).trans (Nat.add_le_add_left (hfront.sublist.countP_le) _)
    exact hlen.trans_lt (by decide)
  · intro malloc m hm
    simp only [List.mem_cons, Call.enqueue.injEq, reduceCtorEq, List.not_mem_nil, or_false] at hm
    rcases hm with ⟨-, rfl⟩ | ⟨-, rfl⟩ <;> exact Option.some_ne_none _

/-- A queued null pointer is returned as one, by a queue that is not empty. -/
theorem null_not_fifo : ¬ IsFifo [.enqueue lowestAddress (none : Option ℕ)] := by
  rintro ⟨q, cells, hrun, hchain, -, -, hcarried, -, -, r, q', hdequeue, hiff⟩
  rcases runCalls_represents createQueue_represents [.enqueue lowestAddress (none : Option ℕ)] with
    ⟨q₁, cells₁, hrun₁, hq, hcarried₁⟩ | ⟨-, front, hfront, hge⟩
  · obtain rfl : q = q₁ := (Prod.mk.inj (Except.ok.inj (hrun.symm.trans hrun₁))).2
    obtain rfl := hchain.unique hq.chain
    obtain ⟨q₂, hdequeue₂, -⟩ := hq.dequeue
    rw [hdequeue₂, hcarried] at hdequeue
    have hr : r = none := (Prod.mk.inj (Except.ok.inj hdequeue)).1.symm
    rw [hiff.mp hr] at hcarried
    cases hcarried
  · have hlen := (fifoCalls_length [] front).trans (Nat.add_le_add_left (hfront.sublist.countP_le) _)
    exact absurd (hge.trans hlen) (by decide)

end PCom.LinkEmulator
