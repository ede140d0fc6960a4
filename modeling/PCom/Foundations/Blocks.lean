import PCom.Foundations.GrowArray
import PCom.Foundations.Store

/-! # Arrays behind pointers

Memory as a C program sees it: `calloc`, `realloc`, `free`, and reads and writes through pointers. A block has
the number of its allocation for a name, so a released name never comes back, and whoever still holds it holds a
dangling pointer. The array that doubles when it is full is here a pointer, a counter and a capacity.
-/

namespace PCom.Foundations

universe u v w x
variable {α : Type u}

theorem rel_bind {β : Type v} {γ : Type w} {δ : Type x} {R : α → β → Prop} {S : γ → δ → Prop} {a : Option α}
    {b : Option β} {f : α → Option γ} {g : β → Option δ} (h : Option.Rel R a b)
    (hfg : ∀ r r', R r r' → Option.Rel S (f r) (g r')) : Option.Rel S (a.bind f) (b.bind g) := by
  cases h with
  | none => exact .none
  | some hr => exact hfg _ _ hr

/-- The blocks in use, whose cells may be unwritten, and the name of the next one. -/
structure Blocks (α : Type u) where
  live : Store (List (Option α))
  next : ℕ

namespace Blocks

def calloc (m : Blocks α) (n : ℕ) : ℕ × Blocks α :=
  (m.next, ⟨Function.update m.live m.next (some (List.replicate n none)), m.next + 1⟩)

/-- Null may be released. -/
def free (m : Blocks α) : Option ℕ → Option (Blocks α)
  | none => some m
  | some p => (m.live.free (some p)).map fun live => { m with live := live }

/-- A block with `n` cells that starts like the old one, which is released. -/
def realloc (m : Blocks α) (p : Option ℕ) (n : ℕ) : Option (ℕ × Blocks α) :=
  match p with
  | none => some (m.calloc n)
  | some p => (m.live p).map fun cells =>
      (m.next, ⟨Function.update (Function.update m.live p none) m.next
        (some (cells.take n ++ List.replicate (n - cells.length) none)), m.next + 1⟩)

def load (m : Blocks α) (p : Option ℕ) (i : ℕ) : Option α := (m.live.load p).bind fun cells => cells[i]?.join

def store (m : Blocks α) (p : Option ℕ) (i : ℕ) (x : α) : Option (Blocks α) := do
  let cells ← m.live.load p
  if i < cells.length then
    let live ← m.live.modify p fun cells => cells.set i (some x)
    return { m with live := live }
  else none

/-- Pointers that do not share a block, dangling ones included. -/
structure Owned (m : Blocks α) (ps : List ℕ) : Prop where
  nodup : ps.Nodup
  lt_next : ∀ p ∈ ps, p < m.next

/-- The owner of the pointers `ps` has changed the memory, and holds `ps'` now. -/
structure Moves (m m' : Blocks α) (ps ps' : List ℕ) : Prop where
  next_le : m.next ≤ m'.next
  outside : ∀ p < m.next, p ∉ ps → m'.live p = m.live p
  pointers : ∀ p ∈ ps', p ∈ ps ∨ m.next ≤ p
  owned : Owned m ps → Owned m' ps'

variable {m m₁ m₂ : Blocks α} {ps ps₁ qs qs₁ : List ℕ}

theorem Owned.left (h : Owned m (ps ++ qs)) : Owned m ps :=
  ⟨h.nodup.of_append_left, fun p hp => h.lt_next p (List.mem_append_left _ hp)⟩

theorem Owned.right (h : Owned m (ps ++ qs)) : Owned m qs :=
  ⟨h.nodup.of_append_right, fun p hp => h.lt_next p (List.mem_append_right _ hp)⟩

theorem Owned.not_mem_right (h : Owned m (ps ++ qs)) {p : ℕ} (hp : p ∈ ps) : p ∉ qs :=
  fun hq => (List.disjoint_of_nodup_append h.nodup) hp hq

theorem Owned.not_mem_left (h : Owned m (ps ++ qs)) {p : ℕ} (hq : p ∈ qs) : p ∉ ps :=
  fun hp => h.not_mem_right hp hq

theorem Owned.mono (h : Owned m ps) (hle : m.next ≤ m₁.next) : Owned m₁ ps :=
  ⟨h.nodup, fun p hp => (h.lt_next p hp).trans_le hle⟩

theorem Moves.refl (m : Blocks α) (ps : List ℕ) : Moves m m ps ps :=
  ⟨le_rfl, fun _ _ _ => rfl, fun _ h => .inl h, id⟩

theorem Moves.trans (h₁ : Moves m m₁ ps ps₁) (h₂ : Moves m₁ m₂ ps₁ qs) : Moves m m₂ ps qs where
  next_le := h₁.next_le.trans h₂.next_le
  outside p hp hnot := by
    have hnot₁ : p ∉ ps₁ := fun hmem => (h₁.pointers p hmem).elim hnot (by omega)
    rw [h₂.outside p (hp.trans_le h₁.next_le) hnot₁, h₁.outside p hp hnot]
  pointers p hp := by
    rcases h₂.pointers p hp with hp | hge
    · exact h₁.pointers p hp
    · exact .inr (h₁.next_le.trans hge)
  owned h := h₂.owned (h₁.owned h)

theorem Moves.not_mem (h₁ : Moves m m₁ ps ps₁) (h : Owned m (ps ++ qs)) {p : ℕ} (hp : p ∈ ps₁) : p ∉ qs := by
  rcases h₁.pointers p hp with hold | hnew
  · exact h.not_mem_right hold
  · exact fun hq => absurd (h.right.lt_next p hq) (by omega)

theorem Moves.append (h : Owned m (ps ++ qs)) (h₁ : Moves m m₁ ps ps₁) (h₂ : Moves m₁ m₂ qs qs₁) :
    Moves m m₂ (ps ++ qs) (ps₁ ++ qs₁) where
  next_le := h₁.next_le.trans h₂.next_le
  outside p hp hnot := by
    rw [List.mem_append, not_or] at hnot
    rw [h₂.outside p (hp.trans_le h₁.next_le) hnot.2, h₁.outside p hp hnot.1]
  pointers p hp := by
    rcases List.mem_append.mp hp with hp | hp
    · exact (h₁.pointers p hp).imp_left (List.mem_append_left _)
    · rcases h₂.pointers p hp with hq | hge
      · exact .inl (List.mem_append_right _ hq)
      · exact .inr (h₁.next_le.trans hge)
  owned _ := by
    have hps := h₁.owned h.left
    have hqs := h₂.owned (h.right.mono h₁.next_le)
    refine ⟨hps.nodup.append hqs.nodup fun p hp hq => ?_, fun p hp => ?_⟩
    · -- what the second owner has is its own or newer than all that the first one has
      rcases h₂.pointers p hq with hold | hnew
      · exact h₁.not_mem h hp hold
      · exact absurd (hps.lt_next p hp) (by omega)
    · rcases List.mem_append.mp hp with hp | hp
      · exact (hps.lt_next p hp).trans_le h₂.next_le
      · exact hqs.lt_next p hp

theorem calloc_moves (m : Blocks α) (n : ℕ) (ps : List ℕ) : Moves m (m.calloc n).2 ps [(m.calloc n).1] where
  next_le := Nat.le_succ _
  outside p hp _ := Function.update_of_ne hp.ne _ _
  pointers p hp := .inr (List.mem_singleton.mp hp).ge
  owned _ := ⟨List.nodup_singleton _, fun p hp => by
    rw [List.mem_singleton.mp hp]
    exact Nat.lt_succ_self _⟩

theorem free_some {p : ℕ} (hp : m.live p ≠ none) :
    ∃ m', m.free (some p) = some m' ∧ m'.live p = none ∧ Moves m m' [p] [p] := by
  obtain ⟨cells, hcells⟩ := Option.ne_none_iff_exists'.mp hp
  refine ⟨⟨Function.update m.live p none, m.next⟩, ?_, Function.update_self .., le_rfl, fun q _ hq => ?_,
    fun q hq => .inl hq, fun h => ⟨h.nodup, h.lt_next⟩⟩
  · rw [free, Store.free_some hcells]
    rfl
  · exact Function.update_of_ne (List.ne_of_not_mem_cons hq) _ _

theorem free_gone {p : ℕ} (hp : m.live p = none) : m.free (some p) = none := by
  rw [free, Store.free, Option.bind_some, hp]
  rfl

theorem Moves.frame (h : Moves m m₁ ps ps₁) (hq : Owned m (ps ++ qs)) {q : ℕ} (hmem : q ∈ qs) :
    m₁.live q = m.live q :=
  h.outside q (hq.right.lt_next q hmem) (hq.not_mem_left hmem)

variable {β : Type v} {γ : Type w} {ω : Type x}

/-- `f` for the elements of a list, with what it shows for each. -/
def visit (f : Blocks α → β → Option (β × Blocks α × List ω)) :
    Blocks α → List β → Option (List β × Blocks α × List ω)
  | m, [] => some ([], m, [])
  | m, b :: l => do
    let (b, m, o) ← f m b
    let (l, m, os) ← visit f m l
    return (b :: l, m, o ++ os)

def traverse (g : γ → Option (γ × List ω)) : List γ → Option (List γ × List ω)
  | [] => some ([], [])
  | c :: l => do
    let (c, o) ← g c
    let (l, os) ← traverse g l
    return (c :: l, o ++ os)

theorem traverse_some (g : γ → γ) (o : γ → List ω) (l : List γ) :
    traverse (fun c => some (g c, o c)) l = some (l.map g, l.flatMap o) := by
  induction l with
  | nil => rfl
  | cons c l ih =>
    rw [traverse, ih]
    rfl

theorem forall₂_frame (ptrs : β → List ℕ) {R : Blocks α → β → γ → Prop}
    (hframe : ∀ m m' b c, R m b c → (∀ p ∈ ptrs b, m'.live p = m.live p) → R m' b c) {m m' : Blocks α} {bs : List β}
    {cs : List γ} (h : List.Forall₂ (R m) bs cs) (hlive : ∀ p ∈ bs.flatMap ptrs, m'.live p = m.live p) :
    List.Forall₂ (R m') bs cs := by
  induction h with
  | nil => exact .nil
  | cons hb _ ih =>
    rw [List.flatMap_cons] at hlive
    exact .cons (hframe _ _ _ _ hb fun p hp => hlive p (List.mem_append_left _ hp))
      (ih fun p hp => hlive p (List.mem_append_right _ hp))

theorem set_rel (ptrs : β → List ℕ) {R : Blocks α → β → γ → Prop}
    (hframe : ∀ m m' b c, R m b c → (∀ p ∈ ptrs b, m'.live p = m.live p) → R m' b c) {m m₁ : Blocks α} {bs : List β}
    {cs : List γ} (h : List.Forall₂ (R m) bs cs) (howned : Owned m (bs.flatMap ptrs)) {i : ℕ} {b b₁ : β} {c₁ : γ}
    (hb : bs[i]? = some b) (hrep : R m₁ b₁ c₁) (hmoves : Moves m m₁ (ptrs b) (ptrs b₁)) :
    List.Forall₂ (R m₁) (bs.set i b₁) (cs.set i c₁) ∧ Moves m m₁ (bs.flatMap ptrs) ((bs.set i b₁).flatMap ptrs) := by
  induction h generalizing i with
  | nil => cases hb
  | @cons a c bs cs ha hbs ih =>
    rw [List.flatMap_cons] at howned ⊢
    cases i with
    | zero =>
      obtain rfl := Option.some.inj hb
      exact ⟨.cons hrep (forall₂_frame ptrs hframe hbs fun p hp => hmoves.frame howned hp),
        .append howned hmoves (.refl m₁ _)⟩
    | succ i =>
      obtain ⟨hlist, hmoves'⟩ := ih howned.right hb
      have hhead : R m₁ a c := hframe _ _ _ _ ha fun p hp =>
        hmoves'.outside p (howned.left.lt_next p hp) (howned.not_mem_right hp)
      exact ⟨.cons hhead hlist, .append howned (.refl m _) hmoves'⟩

/-- What holds of the call for each element, holds of the list: no call touches what the others own. -/
theorem visit_rel (ptrs : β → List ℕ) {R S : Blocks α → β → γ → Prop}
    {f : Blocks α → β → Option (β × Blocks α × List ω)} {g : γ → Option (γ × List ω)}
    (hframe : ∀ m m' b c, R m b c → (∀ p ∈ ptrs b, m'.live p = m.live p) → R m' b c)
    (hframe' : ∀ m m' b c, S m b c → (∀ p ∈ ptrs b, m'.live p = m.live p) → S m' b c)
    (hf : ∀ m b c, R m b c → Owned m (ptrs b) → Option.Rel (fun r r' => S r.2.1 r.1 r'.1 ∧ r.2.2 = r'.2 ∧
      Moves m r.2.1 (ptrs b) (ptrs r.1)) (f m b) (g c))
    {m : Blocks α} {bs : List β} {cs : List γ} (h : List.Forall₂ (R m) bs cs) (howned : Owned m (bs.flatMap ptrs)) :
    Option.Rel (fun r r' => List.Forall₂ (S r.2.1) r.1 r'.1 ∧ r.2.2 = r'.2 ∧
      Moves m r.2.1 (bs.flatMap ptrs) (r.1.flatMap ptrs)) (visit f m bs) (traverse g cs) := by
  induction bs generalizing m cs with
  | nil =>
    cases h
    exact .some ⟨.nil, rfl, .refl _ _⟩
  | cons b bs ih =>
    obtain ⟨c, cs, hb, hbs, rfl⟩ := List.forall₂_cons_left_iff.mp h
    rw [List.flatMap_cons] at howned
    refine rel_bind (hf m b c hb howned.left) ?_
    rintro ⟨b', m₁, o⟩ ⟨c', o'⟩ ⟨hb', rfl, hmoves⟩
    have hrest : List.Forall₂ (R m₁) bs cs := forall₂_frame ptrs hframe hbs fun p hp => hmoves.frame howned hp
    refine rel_bind (ih hrest (howned.right.mono hmoves.next_le)) ?_
    rintro ⟨bs', m₂, os⟩ ⟨cs', os'⟩ ⟨hbs', rfl, hmoves'⟩
    have hhead : S m₂ b' c' := hframe' _ _ _ _ hb' fun p hp =>
      hmoves'.outside p ((hmoves.owned howned.left).lt_next p hp) (hmoves.not_mem howned hp)
    refine .some ⟨.cons hhead hbs', rfl, ?_⟩
    rw [List.flatMap_cons, List.flatMap_cons]
    exact .append howned hmoves hmoves'

/-- What the calls do to each element, they do along the list. -/
theorem visit_some {κ : Type} (ptrs : β → List ℕ) {R : Blocks α → β → γ → Prop} {key key' : β → κ}
    {f : Blocks α → β → Option (β × Blocks α × List ω)}
    (hframe : ∀ m m' b c, R m b c → (∀ p ∈ ptrs b, m'.live p = m.live p) → R m' b c)
    (hf : ∀ m b c b' m' o, R m b c → Owned m (ptrs b) → f m b = some (b', m', o) →
      key' b' = key b ∧ Moves m m' (ptrs b) (ptrs b'))
    {m m₁ : Blocks α} {bs bs₁ : List β} {cs : List γ} {o : List ω} (h : List.Forall₂ (R m) bs cs)
    (howned : Owned m (bs.flatMap ptrs)) (hvisit : visit f m bs = some (bs₁, m₁, o)) :
    bs₁.map key' = bs.map key ∧ Moves m m₁ (bs.flatMap ptrs) (bs₁.flatMap ptrs) := by
  induction bs generalizing m cs bs₁ m₁ o with
  | nil =>
    obtain ⟨rfl, rfl, -⟩ : [] = bs₁ ∧ m = m₁ ∧ [] = o := by simpa [visit] using hvisit
    exact ⟨rfl, .refl m _⟩
  | cons b bs ih =>
    obtain ⟨c, cs, hb, hbs, rfl⟩ := List.forall₂_cons_left_iff.mp h
    rw [List.flatMap_cons] at howned
    obtain ⟨⟨b', m₂, o₁⟩, hcall, hrest⟩ := Option.bind_eq_some_iff.mp hvisit
    obtain ⟨⟨bs', m₃, o₂⟩, hlist, hlast⟩ := Option.bind_eq_some_iff.mp hrest
    obtain ⟨rfl, rfl, -⟩ : b' :: bs' = bs₁ ∧ m₃ = m₁ ∧ _ := by simpa using hlast
    obtain ⟨hkey, hmoves⟩ := hf m b c b' m₂ o₁ hb howned.left hcall
    obtain ⟨hkeys, hmoves'⟩ := ih (forall₂_frame ptrs hframe hbs fun p hp => hmoves.frame howned hp)
      (howned.right.mono hmoves.next_le) hlist
    rw [List.map_cons, List.map_cons, hkey, hkeys, List.flatMap_cons, List.flatMap_cons]
    exact ⟨rfl, .append howned hmoves hmoves'⟩

/-- A call that must fail is reached with its blocks as they were. -/
theorem visit_none (ptrs : β → List ℕ) {f : Blocks α → β → Option (β × Blocks α × List ω)}
    (hf : ∀ m b b' m' o, Owned m (ptrs b) → f m b = some (b', m', o) → Moves m m' (ptrs b) (ptrs b'))
    {m : Blocks α} {bs : List β} {b : β} (hb : b ∈ bs) (howned : Owned m (bs.flatMap ptrs))
    (hfail : ∀ m', Owned m' (ptrs b) → (∀ p ∈ ptrs b, m'.live p = m.live p) → f m' b = none) :
    visit f m bs = none := by
  induction bs generalizing m with
  | nil => cases hb
  | cons a bs ih =>
    rw [List.flatMap_cons] at howned
    rw [visit]
    rcases List.mem_cons.mp hb with rfl | hb
    · rw [hfail m howned.left fun _ _ => rfl]
      rfl
    · cases hcall : f m a with
      | none => rfl
      | some r =>
        have hmoves := hf m a r.1 r.2.1 r.2.2 howned.left hcall
        have hlist : visit f r.2.1 bs = none := ih hb (howned.right.mono hmoves.next_le) fun m' ho hm' =>
          hfail m' ho fun p hp => (hm' p hp).trans (hmoves.frame howned (List.mem_flatMap.mpr ⟨b, hb, hp⟩))
        dsimp only [Option.bind_eq_bind, Option.bind_some]
        rw [hlist]
        rfl

end Blocks

structure PtrArray where
  ptr : Option ℕ
  count : ℕ
  capacity : ℕ
deriving DecidableEq

namespace PtrArray

def null : PtrArray := ⟨none, 0, 0⟩

def ptrs (a : PtrArray) : List ℕ := a.ptr.toList

/-- Double the capacity of a full array; `size` tells how many cells are asked for. -/
def grow (size : ℕ → ℕ) (m : Blocks α) (a : PtrArray) : Option (PtrArray × Blocks α) :=
  if a.count = a.capacity then do
    let (p, m) ← m.realloc a.ptr (size (a.capacity * 2))
    return (⟨some p, a.count, a.capacity * 2⟩, m)
  else some (a, m)

def push (size : ℕ → ℕ) (m : Blocks α) (a : PtrArray) (x : α) : Option (PtrArray × Blocks α) := do
  let (a, m) ← a.grow size m
  let m ← m.store a.ptr a.count x
  return ({ a with count := a.count + 1 }, m)

def contents (m : Blocks α) (a : PtrArray) : Option (List α) := (List.range a.count).mapM fun i => m.load a.ptr i

/-- The array has a block that holds the elements, or it has none and no elements. -/
inductive Holds (m : Blocks α) : PtrArray → GrowArray α → Prop
  | live {p capacity slots : ℕ} {items : List α} {cells : List (Option α)} (block : m.live p = some cells)
      (slots_eq : cells.length = slots) (front : cells.take items.length = items.map some) :
      Holds m ⟨some p, items.length, capacity⟩ ⟨items, capacity, slots⟩
  | gone {p : Option ℕ} (dead : ∀ a ∈ p, m.live a = none) : Holds m ⟨p, 0, 0⟩ .null

variable {m m' : Blocks α} {a : PtrArray} {g : GrowArray α}

theorem holds_calloc (m : Blocks α) (n : ℕ) : Holds (m.calloc n).2 ⟨some (m.calloc n).1, 0, n⟩ (.calloc n) := by
  have block : (m.calloc n).2.live (m.calloc n).1 = some (List.replicate n none) := Function.update_self ..
  have front : (List.replicate n (none : Option α)).take ([] : List α).length = ([] : List α).map some := rfl
  exact .live block List.length_replicate front

theorem Holds.frame (h : Holds m a g) (hframe : ∀ p ∈ a.ptrs, m'.live p = m.live p) : Holds m' a g := by
  cases h with
  | live block slots_eq front => exact .live ((hframe _ (by simp [ptrs])).trans block) slots_eq front
  | gone dead => exact .gone fun q hq => (hframe q (by simpa [ptrs] using hq)).trans (dead q hq)

theorem Holds.live_of_ne_nil (h : Holds m a g) (hne : g.items ≠ []) : ∀ p ∈ a.ptrs, m.live p ≠ none := by
  cases h with
  | live block slots_eq front =>
    intro p hp
    rw [List.mem_singleton.mp hp, block]
    exact Option.some_ne_none _
  | gone dead => exact absurd rfl hne

theorem Holds.ptrs_ne_nil (h : Holds m a g) (hne : g.items ≠ []) : a.ptrs ≠ [] := by
  cases h with
  | live block slots_eq front => exact List.cons_ne_nil _ _
  | gone dead => exact absurd rfl hne

theorem Holds.le_cells {items : List α} {cells : List (Option α)}
    (front : cells.take items.length = items.map some) : items.length ≤ cells.length := by
  have h := congrArg List.length front
  rw [List.length_take, List.length_map] at h
  omega

theorem mapM_range {f : ℕ → Option α} {l : List α} (h : ∀ i, (hi : i < l.length) → f i = some l[i]) :
    (List.range l.length).mapM f = some l := by
  induction l using List.reverseRecOn with
  | nil => rfl
  | append_singleton l x ih =>
    have hfront (i : ℕ) (hi : i < l.length) : f i = some l[i] := by
      rw [h i (by simp; omega), List.getElem_append_left hi]
    have hlast : f l.length = some x := by
      rw [h l.length (by simp), List.getElem_concat_length rfl]
    rw [List.length_append, List.length_singleton, List.range_succ, List.mapM_append, ih hfront, List.mapM_cons, hlast]
    rfl

theorem contents_eq (h : Holds m a g) : a.contents m = some g.items := by
  cases h with
  | gone dead => rfl
  | @live p capacity slots items cells block slots_eq front =>
    apply mapM_range
    intro i hi
    have hcell : cells[i]? = some (some items[i]) := by
      rw [← List.getElem?_take_of_lt hi, front, List.getElem?_map, List.getElem?_eq_getElem hi, Option.map_some]
    rw [Blocks.load, Store.load_some block, Option.bind_some, hcell]
    rfl

theorem store_rel {p capacity : ℕ} {items : List α} {cells : List (Option α)} (block : m.live p = some cells)
    (front : cells.take items.length = items.map some) (x : α) (hlt : items.length < cells.length) :
    ∃ m', m.store (some p) items.length x = some m' ∧
      Holds m' ⟨some p, items.length + 1, capacity⟩ ⟨items ++ [x], capacity, cells.length⟩ ∧
      Blocks.Moves m m' [p] [p] := by
  refine ⟨⟨Function.update m.live p (some (cells.set items.length (some x))), m.next⟩, ?_, ?_, ?_⟩
  · rw [Blocks.store, Store.load_some block, Store.modify_some block]
    exact if_pos hlt
  · have hfront : (cells.set items.length (some x)).take (items ++ [x]).length = (items ++ [x]).map some := by
      rw [List.length_append, List.length_singleton, List.take_add_one, List.take_set_of_le le_rfl, front,
        List.getElem?_set_self hlt, List.map_append]
      rfl
    have hcount : (items ++ [x]).length = items.length + 1 := by simp
    rw [← hcount]
    exact .live (Function.update_self ..) (List.length_set ..) hfront
  · refine ⟨le_rfl, fun q _ hq => Function.update_of_ne (List.ne_of_not_mem_cons hq) _ _, fun q hq => .inl hq, ?_⟩
    exact fun h => ⟨h.nodup, h.lt_next⟩

theorem realloc_rel {p : ℕ} {items : List α} {cells : List (Option α)} (block : m.live p = some cells)
    (front : cells.take items.length = items.map some) (n : ℕ) :
    ∃ m' cells', m.realloc (some p) n = some (m.next, m') ∧ m'.live m.next = some cells' ∧ cells'.length = n ∧
      (items.length ≤ n → cells'.take items.length = items.map some) ∧ Blocks.Moves m m' [p] [m.next] := by
  let cells' := cells.take n ++ List.replicate (n - cells.length) none
  let m' : Blocks α := ⟨Function.update (Function.update m.live p none) m.next (some cells'), m.next + 1⟩
  have hrealloc : m.realloc (some p) n = some (m.next, m') := by
    rw [Blocks.realloc, block]
    rfl
  refine ⟨m', cells', hrealloc, Function.update_self .., ?_, fun hle => ?_, Nat.le_succ _, fun q hq hqp => ?_,
    fun q hq => ?_, fun _ => ⟨List.nodup_singleton _, fun q hq => ?_⟩⟩
  · rw [List.length_append, List.length_take, List.length_replicate]
    omega
  · have hcells := Holds.le_cells front
    rw [List.take_append_of_le_length (by rw [List.length_take]; omega), List.take_take, min_eq_left hle, front]
  · change Function.update (Function.update m.live p none) m.next _ q = _
    rw [Function.update_of_ne hq.ne, Function.update_of_ne (List.ne_of_not_mem_cons hqp)]
  · exact .inr (List.mem_singleton.mp hq).ge
  · rw [List.mem_singleton.mp hq]
    exact Nat.lt_succ_self _

theorem store_none {p i : ℕ} {cells : List (Option α)} (block : m.live p = some cells) (hle : cells.length ≤ i) (x : α) :
    m.store (some p) i x = none := by
  rw [Blocks.store, Store.load_some block]
  exact if_neg (by omega)

theorem push_gone {size : ℕ → ℕ} (hsize : size 0 = 0) {p : Option ℕ} (dead : ∀ a ∈ p, m.live a = none) (x : α) :
    push size m ⟨p, 0, 0⟩ x = none := by
  rw [push, grow, if_pos rfl, Nat.zero_mul, hsize]
  cases p with
  | none =>
    have hlive : (m.calloc 0).2.live m.next = some [] := Function.update_self ..
    have hstore : (m.calloc 0).2.store (some m.next) 0 x = none := store_none hlive (Nat.zero_le 0) x
    change Option.bind ((m.calloc 0).2.store (some m.next) 0 x) _ = none
    rw [hstore]
    rfl
  | some p =>
    rw [Blocks.realloc, dead p rfl]
    rfl

/-- An append behind a pointer is an append to the array. -/
theorem push_rel {size : ℕ → ℕ} (hsize : size 0 = 0) (h : Holds m a g) (x : α) :
    Option.Rel (fun r g' => Holds r.2 r.1 g' ∧ Blocks.Moves m r.2 a.ptrs r.1.ptrs) (a.push size m x)
      (g.push size x) := by
  cases h with
  | gone dead =>
    have hnone : (GrowArray.null : GrowArray α).push size x = none := by
      rw [GrowArray.push, if_neg]
      simp [GrowArray.grow, GrowArray.null, hsize]
    rw [hnone, push_gone hsize dead]
    exact .none
  | @live p capacity slots items cells block slots_eq front =>
    subst slots_eq
    by_cases hfull : items.length = capacity
    · obtain ⟨m', cells', hrealloc, hlive, hlength, hfront, hmoves⟩ := realloc_rel block front (size (capacity * 2))
      have hgrow : (⟨items, capacity, cells.length⟩ : GrowArray α).grow size =
          ⟨items, capacity * 2, size (capacity * 2)⟩ := if_pos hfull
      have hpush : push size m ⟨some p, items.length, capacity⟩ x =
          (m'.store (some m.next) items.length x).map fun m' => (⟨some m.next, items.length + 1, capacity * 2⟩, m') := by
        rw [push, grow, if_pos hfull, hrealloc, Option.map_eq_bind]
        rfl
      rw [hpush, GrowArray.push, hgrow]
      by_cases hlt : items.length < size (capacity * 2)
      · obtain ⟨m'', hstore, hholds, hmoves'⟩ := store_rel hlive (hfront hlt.le) x (hlength ▸ hlt)
        rw [hstore, if_pos hlt]
        exact .some ⟨hlength ▸ hholds, hmoves.trans hmoves'⟩
      · rw [store_none hlive (by omega), if_neg hlt]
        exact .none
    · have hgrow : (⟨items, capacity, cells.length⟩ : GrowArray α).grow size = ⟨items, capacity, cells.length⟩ :=
        if_neg hfull
      have hpush : push size m ⟨some p, items.length, capacity⟩ x =
          (m.store (some p) items.length x).map fun m' => (⟨some p, items.length + 1, capacity⟩, m') := by
        rw [push, grow, if_neg hfull, Option.map_eq_bind]
        rfl
      rw [hpush, GrowArray.push, hgrow]
      by_cases hlt : items.length < cells.length
      · obtain ⟨m', hstore, hholds, hmoves⟩ := store_rel block front x hlt
        rw [hstore, if_pos hlt]
        exact .some ⟨hholds, hmoves⟩
      · rw [store_none block (by omega), if_neg hlt]
        exact .none

end PtrArray

end PCom.Foundations
