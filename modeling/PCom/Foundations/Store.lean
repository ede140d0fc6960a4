import Mathlib.Data.List.Nodup
import Mathlib.Logic.Function.Basic
import Mathlib.Tactic

/-! # A store of released and unreleased blocks

Blocks are named by handles. A block is read or released through its handle, and a handle
whose block is gone may be used for neither. A pointer is a handle or null.
-/

namespace PCom.Foundations

universe u
variable {α : Type u}

/-- The blocks in use. -/
abbrev Store (α : Type u) := ℕ → Option α

inductive Access where
  | read (h : ℕ)
  | release (h : ℕ)
deriving DecidableEq

namespace Store

def access (s : Store α) : Access → Store α
  | .read _ => s
  | .release h => Function.update s h none

def accessAll (s : Store α) (l : List Access) : Store α := l.foldl access s

/-- Every access is to a block in use at that moment. -/
def Legal : Store α → List Access → Prop
  | _, [] => True
  | s, .read h :: l => s h ≠ none ∧ Legal s l
  | s, .release h :: l => s h ≠ none ∧ Legal (Function.update s h none) l

theorem accessAll_append (s : Store α) (l l' : List Access) :
    s.accessAll (l ++ l') = (s.accessAll l).accessAll l' := by
  simp [accessAll]

/-- What an access releases is gone, and all else is as it was. -/
theorem access_eq {s : Store α} {a : Access} {h : ℕ} (hs : s.access a h ≠ none) : s.access a h = s h := by
  cases a with
  | read => rfl
  | release b =>
    have hne : h ≠ b := by
      rintro rfl
      exact hs (Function.update_self ..)
    exact Function.update_of_ne hne none s

theorem accessAll_eq {s : Store α} {l : List Access} {h : ℕ} (hs : s.accessAll l h ≠ none) :
    s.accessAll l h = s h := by
  induction l generalizing s with
  | nil => rfl
  | cons a l ih =>
    have hl : s.accessAll (a :: l) h = s.access a h := ih hs
    rw [hl] at hs ⊢
    exact access_eq hs

@[simp] theorem accessAll_reads (s : Store α) (l : List ℕ) : s.accessAll (l.map .read) = s := by
  induction l with
  | nil => rfl
  | cons h l ih => exact ih

theorem legal_reads {s : Store α} {l : List ℕ} : s.Legal (l.map .read) ↔ ∀ h ∈ l, s h ≠ none := by
  induction l with
  | nil => simp [Legal]
  | cons h l ih => simp [Legal, ih]

theorem legal_reads_append {s : Store α} {l : List ℕ} {l' : List Access} :
    s.Legal (l.map .read ++ l') ↔ (∀ h ∈ l, s h ≠ none) ∧ s.Legal l' := by
  induction l with
  | nil => simp
  | cons h l ih => simp [Legal, ih, and_assoc]

theorem accessAll_releases (s : Store α) (l : List ℕ) (h : ℕ) :
    s.accessAll (l.map .release) h = if h ∈ l then none else s h := by
  induction l generalizing s with
  | nil => rfl
  | cons a l ih =>
    change (s.access (.release a)).accessAll (l.map .release) h = _
    rw [ih, access, Function.update_apply]
    by_cases hl : h ∈ l <;> by_cases ha : h = a <;> simp [hl, ha]

/-- A list of handles can be released exactly when they are distinct and in use. -/
theorem legal_releases {s : Store α} {l : List ℕ} :
    s.Legal (l.map .release) ↔ l.Nodup ∧ ∀ h ∈ l, s h ≠ none := by
  induction l generalizing s with
  | nil => simp [Legal]
  | cons a l ih =>
    rw [List.map_cons, Legal, ih, List.nodup_cons, List.forall_mem_cons]
    constructor
    · rintro ⟨ha, hl, hlive⟩
      refine ⟨⟨fun hal => hlive a hal (by simp), hl⟩, ha, fun h hh => ?_⟩
      have := hlive h hh
      rw [Function.update_apply] at this
      split at this
      · exact absurd rfl this
      · exact this
    · rintro ⟨⟨hal, hl⟩, ha, hlive⟩
      refine ⟨ha, hl, fun h hh => ?_⟩
      have hne : h ≠ a := fun e => hal (e ▸ hh)
      rw [Function.update_of_ne hne]
      exact hlive h hh

def load (s : Store α) (p : Option ℕ) : Option α := p.bind s

def modify (s : Store α) (p : Option ℕ) (f : α → α) : Option (Store α) :=
  p.bind fun a => (s a).map fun c => Function.update s a (some (f c))

def free (s : Store α) (p : Option ℕ) : Option (Store α) :=
  p.bind fun a => (s a).map fun _ => Function.update s a none

variable {s : Store α} {a : ℕ} {c : α}

theorem load_some (h : s a = some c) : s.load (some a) = some c := h

theorem modify_some (h : s a = some c) (f : α → α) :
    s.modify (some a) f = some (Function.update s a (some (f c))) := by
  rw [modify, Option.bind_some, h, Option.map_some]

theorem free_some (h : s a = some c) : s.free (some a) = some (Function.update s a none) := by
  rw [free, Option.bind_some, h, Option.map_some]

def Within (s : Store α) (l : List ℕ) : Prop := ∀ a, s a ≠ none → a ∈ l

variable {l m : List ℕ}

theorem within_empty : Within (fun _ => none : Store α) l := fun _ h => absurd rfl h

theorem Within.mono (h : s.Within l) (hlm : l ⊆ m) : s.Within m := fun a ha => hlm (h a ha)

theorem Within.update (h : s.Within l) (t : ℕ) (w : Option α) : Within (Function.update s t w) (t :: l) := by
  intro b hb
  by_cases hbt : b = t
  · rw [hbt]
    exact List.mem_cons_self
  · rw [Function.update_of_ne hbt] at hb
    exact List.mem_cons_of_mem _ (h b hb)

theorem Within.release (h : s.Within (a :: l)) : Within (Function.update s a none) l := by
  intro b hb
  have hba : b ≠ a := by
    rintro rfl
    exact hb (Function.update_self ..)
  rw [Function.update_of_ne hba] at hb
  exact (List.mem_cons.mp (h b hb)).resolve_left hba

/-- With finitely many blocks in use there is a handle left. -/
theorem Within.exists_unused (h : s.Within l) : ∃ a, s a = none := by
  obtain ⟨a, ha⟩ := l.toFinset.exists_notMem
  refine ⟨a, ?_⟩
  by_contra hne
  exact ha (List.mem_toFinset.mpr (h a hne))

end Store

/-- One call of an allocator: a handle that is not in use, while there is one, and what its block holds
at first. A released handle may come back. -/
structure Allocator (α : Type u) where
  address : Store α → ℕ
  content : Store α → α
  fresh : ∀ s : Store α, (∃ a, s a = none) → s (address s) = none

noncomputable def Allocator.least (content : α) : Allocator α where
  address s := sInf {a | s a = none}
  content _ := content
  fresh _ h := Nat.sInf_mem h

end PCom.Foundations
