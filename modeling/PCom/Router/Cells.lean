import PCom.Foundations.Segment

/-! # The queue of the router

`queue.c` with the cells of `list.c`. `queue_deq` sets `head` only: behind the last cell `tail` keeps the
address of a cell that was freed. Nothing is read through it, since `queue_enq` looks at `head` first.
A result of `none` stands for a failed assertion, or for a use of memory that is not in use.
-/

namespace PCom.Router.Cells
open Foundations

universe u
variable {α : Type u}

structure Cell (α : Type u) where
  element : α
  next : Option ℕ

/-- `struct queue`, and the cells that were allocated and not freed. -/
structure Queue (α : Type u) where
  head : Option ℕ
  tail : Option ℕ
  heap : Store (Cell α)

def cons (malloc : Allocator (Cell α)) (element : α) (l : Option ℕ) (heap : Store (Cell α)) :
    Option (ℕ × Store (Cell α)) := do
  let temp := malloc.address heap
  let heap : Store (Cell α) := Function.update heap temp (some (malloc.content heap))
  let heap ← heap.modify (some temp) fun c => { c with element := element }
  let heap ← heap.modify (some temp) fun c => { c with next := l }
  return (temp, heap)

def cdrAndFree (l : Option ℕ) (heap : Store (Cell α)) : Option (Option ℕ × Store (Cell α)) := do
  let temp ← heap.load l
  let heap ← heap.free l
  return (temp.next, heap)

def queueCreate : Queue α := ⟨none, none, fun _ => none⟩

def queueEmpty (q : Queue α) : Bool := q.head.isNone

def queueEnq (malloc : Allocator (Cell α)) (element : α) (q : Queue α) : Option (Queue α) :=
  if queueEmpty q then (cons malloc element none q.heap).map fun r => ⟨some r.1, some r.1, r.2⟩
  else do
    let r ← cons malloc element none q.heap
    let heap ← r.2.modify q.tail fun c => { c with next := some r.1 }
    let c ← heap.load q.tail
    return { q with tail := c.next, heap := heap }

def queueDeq (q : Queue α) : Option (α × Queue α) :=
  if queueEmpty q then none
  else do
    let temp ← q.heap.load q.head
    let r ← cdrAndFree q.head q.heap
    return (temp.element, { q with head := r.1, heap := r.2 })

def top (q : Queue α) : Option α :=
  if queueEmpty q then none else (q.heap.load q.head).map Cell.element

inductive Call (α : Type u) where
  | enq (malloc : Allocator (Cell α)) (element : α)
  | deq
  | top
  | empty

inductive Result (α : Type u) where
  | element (e : α)
  | empty (b : Bool)
deriving DecidableEq

def Call.run : Call α → Queue α → Option (List (Result α) × Queue α)
  | .enq malloc element, q => (queueEnq malloc element q).map fun q => ([], q)
  | .deq, q => (queueDeq q).map fun r => ([.element r.1], r.2)
  | .top, q => (Cells.top q).map fun e => ([.element e], q)
  | .empty, q => some ([.empty (queueEmpty q)], q)

def runCalls (q : Queue α) : List (Call α) → Option (List (Result α) × Queue α)
  | [] => some ([], q)
  | c :: calls => (c.run q).bind fun r => (runCalls r.2 calls).map fun r' => (r.1 ++ r'.1, r'.2)

/-- The calls that are made only when `queue_empty` is false. -/
def Call.takes : Call α → Bool
  | .deq => true
  | .top => true
  | _ => false

/-- `queue_deq` and `top` are called only when `queue_empty` is false. -/
def Guarded (q : Queue α) : List (Call α) → Prop
  | [] => True
  | c :: calls => (c.takes = true → queueEmpty q = false) ∧ ∀ r, c.run q = some r → Guarded r.2 calls

/-- `tail` is the address of a cell that is in use after some of the calls. -/
def TailFrom (q : Queue α) (calls : List (Call α)) (tail : Option ℕ) : Prop :=
  ∃ a before r q₁, tail = some a ∧ before <+: calls ∧ runCalls q before = some (r, q₁) ∧ q₁.heap a ≠ none

def Call.fifo : Call α → List α → List (Result α) × List α
  | .enq _ element, l => ([], l ++ [element])
  | .deq, l => (l.head?.toList.map .element, l.tail)
  | .top, l => (l.head?.toList.map .element, l)
  | .empty, l => ([.empty l.isEmpty], l)

def fifoCalls (l : List α) : List (Call α) → List (Result α) × List α
  | [] => ([], l)
  | c :: calls => ((c.fifo l).1 ++ (fifoCalls (c.fifo l).2 calls).1, (fifoCalls (c.fifo l).2 calls).2)

def fifoGuarded (l : List α) : List (Call α) → Bool
  | [] => true
  | c :: calls => (!c.takes || !l.isEmpty) && fifoGuarded (c.fifo l).2 calls

/-- The queue has these cells and no others, from `head` through `next`. Only in front of a cell is
`tail` the last one. -/
structure Queue.Represents (q : Queue α) (cells : List (ℕ × Cell α)) : Prop where
  chain : Segment Cell.next q.heap q.head cells none
  tail_eq : cells ≠ [] → q.tail = (cells.map Prod.fst).getLast?
  heap_within : q.heap.Within (cells.map Prod.fst)

def elements (cells : List (ℕ × Cell α)) : List α := cells.map fun b => b.2.element

theorem queueCreate_represents : (queueCreate : Queue α).Represents [] :=
  ⟨rfl, fun h => absurd rfl h, Store.within_empty⟩

variable {q q' : Queue α} {cells : List (ℕ × Cell α)} {a t : ℕ} {c : Cell α}

theorem Queue.Represents.head_eq_none (h : q.Represents cells) : q.head = none ↔ cells = [] :=
  h.chain.eq_none_iff

theorem Queue.Represents.queueEmpty_eq (h : q.Represents cells) : queueEmpty q = (elements cells).isEmpty := by
  rw [Bool.eq_iff_iff, queueEmpty, Option.isNone_iff_eq_none, h.head_eq_none, elements, List.isEmpty_iff,
    List.map_eq_nil_iff]

theorem cons_eq {heap : Store (Cell α)} (malloc : Allocator (Cell α)) (element : α) (l : Option ℕ) :
    cons malloc element l heap =
      some (malloc.address heap, Function.update heap (malloc.address heap) (some ⟨element, l⟩)) := by
  have hnew : Function.update heap (malloc.address heap) (some (malloc.content heap)) (malloc.address heap) =
      some (malloc.content heap) := Function.update_self ..
  rw [cons]
  change (Store.modify _ _ _).bind _ = _
  rw [Store.modify_some hnew]
  change (Store.modify _ _ _).bind _ = _
  rw [Function.update_idem, Store.modify_some (Function.update_self ..), Function.update_idem]
  rfl

theorem cdrAndFree_eq {heap : Store (Cell α)} (ha : heap a = some c) :
    cdrAndFree (some a) heap = some (c.next, Function.update heap a none) := by
  rw [cdrAndFree]
  change (Store.load _ _).bind _ = _
  rw [Store.load_some ha]
  change (Store.free _ _).bind _ = _
  rw [Store.free_some ha]
  rfl

theorem queueEnq_of_empty (hempty : queueEmpty q = true) (malloc : Allocator (Cell α)) (element : α) :
    queueEnq malloc element q = some ⟨some (malloc.address q.heap), some (malloc.address q.heap),
      Function.update q.heap (malloc.address q.heap) (some ⟨element, none⟩)⟩ := by
  rw [queueEnq, if_pos hempty, cons_eq]
  rfl

/-- The cell that was last is linked to the new one. -/
theorem queueEnq_of_cell {malloc : Allocator (Cell α)} (hempty : ¬ queueEmpty q = true) (htail : q.tail = some a)
    (ha : q.heap a = some c) (ht : malloc.address q.heap = t) (hne : a ≠ t) (element : α) :
    queueEnq malloc element q = some ⟨q.head, some t,
      Function.update (Function.update q.heap a (some { c with next := some t })) t (some ⟨element, none⟩)⟩ := by
  have hread : Function.update q.heap t (some ⟨element, none⟩) a = some c := by
    rw [Function.update_of_ne hne, ha]
  rw [queueEnq, if_neg hempty, cons_eq, ht, htail]
  change (Store.modify _ _ _).bind _ = _
  rw [Store.modify_some hread]
  change (Store.load _ _).bind _ = _
  rw [Store.load_some (Function.update_self ..), Function.update_comm hne]
  rfl

/-- The queue of one cell. Where there was none before, `tail` was not looked at. -/
theorem Queue.Represents.single (h : q.Represents []) (element : α) :
    (⟨some t, some t, Function.update q.heap t (some ⟨element, none⟩)⟩ : Queue α).Represents
      [(t, ⟨element, none⟩)] :=
  ⟨⟨rfl, Function.update_self .., rfl⟩, fun _ => rfl, h.heap_within.update t _⟩

section Snoc
variable {front : List (ℕ × Cell α)} (h : q.Represents (front ++ [(a, c)]))
include h

/-- In front of a cell `tail` is the last one, and may be written to. -/
theorem Queue.Represents.last : ¬ queueEmpty q = true ∧ q.tail = some a ∧ q.heap a = some c := by
  refine ⟨?_, ?_, h.chain.mem (by simp)⟩
  · rw [h.queueEmpty_eq, elements]
    simp
  · rw [h.tail_eq (by simp)]
    simp

theorem Queue.Represents.snoc (ht : q.heap t = none) (element : α) :
    (⟨q.head, some t, Function.update (Function.update q.heap a (some { c with next := some t })) t
      (some ⟨element, none⟩)⟩ : Queue α).Represents (front ++ [(a, { c with next := some t }), (t, ⟨element, none⟩)]) :=
  ⟨h.chain.extend ht rfl rfl, fun _ => by simp, within_extend h.heap_within⟩

end Snoc

/-- The new cell stands behind the others, and `tail` points to it. -/
theorem Queue.Represents.queueEnq (h : q.Represents cells) (malloc : Allocator (Cell α)) (element : α) :
    ∃ q' cells', queueEnq malloc element q = some q' ∧ q'.Represents cells' ∧
      elements cells' = elements cells ++ [element] ∧ ∃ a, q'.tail = some a ∧ q'.heap a ≠ none := by
  have hfree : q.heap (malloc.address q.heap) = none := malloc.fresh _ h.heap_within.exists_unused
  generalize ht : malloc.address q.heap = t at hfree
  have hnew (heap : Store (Cell α)) : Function.update heap t (some ⟨element, none⟩) t ≠ none := by
    rw [Function.update_self]
    exact Option.some_ne_none _
  rcases List.eq_nil_or_concat cells with rfl | ⟨front, ⟨a, c⟩, rfl⟩
  · have henq := queueEnq_of_empty h.queueEmpty_eq malloc element
    rw [ht] at henq
    exact ⟨_, _, henq, h.single element, rfl, t, rfl, hnew _⟩
  · rw [List.concat_eq_append] at h ⊢
    obtain ⟨hempty, htail, ha⟩ := h.last
    have hne : a ≠ t := by
      rintro rfl
      rw [ha] at hfree
      cases hfree
    have henq := queueEnq_of_cell hempty htail ha ht hne element
    refine ⟨_, _, henq, h.snoc hfree element, ?_, t, rfl, hnew _⟩
    simp [elements]

section Cons
variable {rest : List (ℕ × Cell α)} (h : q.Represents ((a, c) :: rest))
include h

theorem Queue.Represents.not_empty : ¬ queueEmpty q = true := by
  rw [h.queueEmpty_eq]
  exact Bool.false_ne_true

theorem Queue.Represents.top : Cells.top q = some c.element := by
  rw [Cells.top, if_neg h.not_empty, h.chain.1, Store.load_some h.chain.2.1]
  rfl

/-- The first cell is freed, and `tail` stays where it is. -/
theorem Queue.Represents.queueDeq :
    queueDeq q = some (c.element, ⟨c.next, q.tail, Function.update q.heap a none⟩) := by
  rw [Cells.queueDeq, if_neg h.not_empty, h.chain.1]
  change (Store.load _ _).bind _ = _
  rw [Store.load_some h.chain.2.1]
  change (cdrAndFree _ _).bind _ = _
  rw [cdrAndFree_eq h.chain.2.1]
  rfl

/-- What is left represents the other cells: the chain never comes back to the freed one. -/
theorem Queue.Represents.tail : (⟨c.next, q.tail, Function.update q.heap a none⟩ : Queue α).Represents rest := by
  refine ⟨h.chain.2.2.update h.chain.not_mem, fun hne => ?_, h.heap_within.release⟩
  obtain ⟨b, rest, rfl⟩ := List.exists_cons_of_ne_nil hne
  change q.tail = _
  rw [h.tail_eq (List.cons_ne_nil _ _), List.map_cons, List.map_cons, List.getLast?_cons_cons]

end Cons

/-- A call that is made as `Guarded` asks. It leaves `tail` alone, or `tail` is the cell it made. -/
theorem Call.run_represents (c : Call α) (h : q.Represents cells) (hc : c.takes = true → queueEmpty q = false) :
    ∃ q' cells', c.run q = some ((c.fifo (elements cells)).1, q') ∧ q'.Represents cells' ∧
      elements cells' = (c.fifo (elements cells)).2 ∧
      (q'.tail = q.tail ∧ (∀ malloc element, c ≠ .enq malloc element) ∨
        ∃ a, q'.tail = some a ∧ q'.heap a ≠ none) := by
  -- where an element is taken there is a first cell
  have hcons (ht : c.takes = true) : ∃ a d rest, cells = (a, d) :: rest := by
    cases cells with
    | nil =>
      have hempty := hc ht
      rw [h.queueEmpty_eq] at hempty
      cases hempty
    | cons b rest => exact ⟨b.1, b.2, rest, rfl⟩
  cases c with
  | enq malloc element =>
    obtain ⟨q', cells', henq, hq', hel, htail⟩ := h.queueEnq malloc element
    exact ⟨q', cells', by rw [run, henq]; rfl, hq', hel, .inr htail⟩
  | deq =>
    obtain ⟨a, d, rest, rfl⟩ := hcons rfl
    exact ⟨_, rest, by rw [run, h.queueDeq]; rfl, h.tail, rfl, .inl ⟨rfl, fun _ _ => nofun⟩⟩
  | top =>
    obtain ⟨a, d, rest, rfl⟩ := hcons rfl
    exact ⟨q, _, by rw [run, h.top]; rfl, h, rfl, .inl ⟨rfl, fun _ _ => nofun⟩⟩
  | empty =>
    exact ⟨q, cells, by rw [run, h.queueEmpty_eq]; rfl, h, rfl, .inl ⟨rfl, fun _ _ => nofun⟩⟩

theorem TailFrom.cons {c : Call α} {calls : List (Call α)} {tail : Option ℕ} {r : List (Result α)}
    (h : TailFrom q' calls tail) (hrun : c.run q = some (r, q')) : TailFrom q (c :: calls) tail := by
  obtain ⟨a, before, r', q₁, htail, hbefore, hruns, hused⟩ := h
  refine ⟨a, c :: before, r ++ r', q₁, htail, List.cons_prefix_cons.mpr ⟨rfl, hbefore⟩, ?_, hused⟩
  rw [runCalls, hrun, Option.bind_some, hruns]
  rfl

theorem runCalls_represents {calls : List (Call α)} (h : q.Represents cells) (hcalls : Guarded q calls) :
    ∃ q' cells', runCalls q calls = some ((fifoCalls (elements cells) calls).1, q') ∧ q'.Represents cells' ∧
      elements cells' = (fifoCalls (elements cells) calls).2 ∧
      (q'.tail = q.tail ∧ (∀ malloc element, Call.enq malloc element ∉ calls) ∨ TailFrom q calls q'.tail) := by
  induction calls generalizing q cells with
  | nil => exact ⟨q, cells, rfl, h, rfl, .inl ⟨rfl, fun _ _ => List.not_mem_nil⟩⟩
  | cons c calls ih =>
    obtain ⟨q₁, cells₁, hrun, hq₁, hel₁, htail₁⟩ := c.run_represents h hcalls.1
    obtain ⟨q₂, cells₂, hruns, hq₂, hel₂, htail₂⟩ := ih hq₁ (hcalls.2 _ hrun)
    refine ⟨q₂, cells₂, ?_, hq₂, ?_, ?_⟩
    · rw [runCalls, hrun, Option.bind_some, hruns, hel₁]
      rfl
    · rw [hel₂, hel₁]
      rfl
    · rcases htail₂ with ⟨htail₂, hlater⟩ | hfrom
      · rcases htail₁ with ⟨htail₁, hnow⟩ | ⟨a, htail₁, hused⟩
        · refine .inl ⟨htail₂.trans htail₁, fun malloc element hmem => ?_⟩
          rcases List.mem_cons.mp hmem with heq | hmem
          · exact hnow malloc element heq.symm
          · exact hlater malloc element hmem
        · have hfrom : TailFrom q₁ calls q₂.tail :=
            ⟨a, [], [], q₁, htail₂.trans htail₁, List.nil_prefix, rfl, hused⟩
          exact .inr (hfrom.cons hrun)
      · exact .inr (hfrom.cons hrun)

/-- Whether the calls are guarded can be read off the FIFO queue. -/
theorem guarded_iff {calls : List (Call α)} (h : q.Represents cells) :
    Guarded q calls ↔ fifoGuarded (elements cells) calls = true := by
  induction calls generalizing q cells with
  | nil => exact iff_of_true trivial rfl
  | cons c calls ih =>
    rw [Guarded, fifoGuarded, Bool.and_eq_true, Bool.or_eq_true, Bool.not_eq_true', Bool.not_eq_true',
      ← h.queueEmpty_eq]
    by_cases hc : c.takes = true → queueEmpty q = false
    · obtain ⟨q', cells', hrun, hq', hel, -⟩ := c.run_represents h hc
      have hor : c.takes = false ∨ queueEmpty q = false := by
        cases ht : c.takes with
        | false => exact .inl rfl
        | true => exact .inr (hc ht)
      refine and_congr (iff_of_true hc hor) ?_
      rw [← hel, ← ih hq', hrun]
      exact ⟨fun hnext => hnext _ rfl, fun hnext r hr => Option.some.inj hr ▸ hnext⟩
    · refine iff_of_false (fun hboth => hc hboth.1) fun hboth => hc fun ht => ?_
      exact hboth.1.resolve_left (by simp [ht])

/-- Calls from `queue_create` on, with an element taken only where `queue_empty` is false, return what
they return on a FIFO queue. No assertion fails and no cell is used that is not in use. Where the
queue has been emptied, `tail` is the address of a cell that was in use and has been freed. -/
theorem runCalls_fifo {calls : List (Call α)} (h : Guarded queueCreate calls) :
    ∃ q, runCalls queueCreate calls = some ((fifoCalls [] calls).1, q) ∧
      queueEmpty q = (fifoCalls [] calls).2.isEmpty ∧
      (queueEmpty q = true → (∃ malloc element, Call.enq malloc element ∈ calls) →
        TailFrom queueCreate calls q.tail ∧ q.heap.load q.tail = none) := by
  obtain ⟨q, cells, hrun, hq, hel, htail⟩ := runCalls_represents queueCreate_represents h
  refine ⟨q, hrun, hq.queueEmpty_eq.trans (congrArg List.isEmpty hel), fun hempty ⟨malloc, element, hmem⟩ => ?_⟩
  refine ⟨htail.resolve_left fun hno => hno.2 malloc element hmem, ?_⟩
  have hnil : cells = [] := hq.head_eq_none.mp (Option.isNone_iff_eq_none.mp hempty)
  subst hnil
  -- no cell is in use
  cases q.tail with
  | none => rfl
  | some a =>
    by_contra hused
    exact List.not_mem_nil (hq.heap_within a hused)

/-- The queue is emptied and used again. -/
theorem runCalls_fifo_reused :
    ∃ q, runCalls queueCreate
        [.enq (.least ⟨0, none⟩) 5, .deq, .empty, .enq (.least ⟨0, none⟩) 7, .enq (.least ⟨0, none⟩) 9, .top,
          .deq, .deq] =
      some ([.element 5, .empty true, .element 7, .element 7, .element 9], q) ∧ q.heap.load q.tail = none := by
  refine (runCalls_fifo ((guarded_iff queueCreate_represents).mpr ?_)).imp fun q h => ⟨h.1, ?_⟩
  · rfl
  · exact (h.2.2 h.2.1 ⟨_, _, List.mem_cons_self ..⟩).2

end PCom.Router.Cells
