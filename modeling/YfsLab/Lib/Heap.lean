import Mathlib.Data.List.Count
import Mathlib.Data.List.Nodup
import Mathlib.Data.List.Perm.Basic

-- Dynamic memory by handles. A handle is given out once, so what has been freed
-- stays invalid; what a handle refers to is a value.
structure Heap (V : Type*) where
  cells : List (Option V)
  deriving DecidableEq, Repr

namespace Heap
variable {V : Type*} {h : Heap V} {p q : Nat} {v : V} {handles rest : List Nat}

def empty : Heap V := ⟨[]⟩

-- `none` is a handle that is not valid.
def read (h : Heap V) (p : Nat) : Option V := h.cells[p]?.join

def next (h : Heap V) : Nat := h.cells.length

def alloc (h : Heap V) (v : V) : Heap V := ⟨h.cells ++ [some v]⟩

-- Freeing the null pointer does nothing.
def free (h : Heap V) : Option Nat → Heap V
  | none => h
  | some p => ⟨h.cells.set p none⟩

def freeAll (h : Heap V) (pointers : List (Option Nat)) : Heap V := pointers.foldl free h

def write (h : Heap V) (p : Nat) (v : V) : Heap V := if (h.read p).isSome then ⟨h.cells.set p (some v)⟩ else h

@[simp] theorem read_empty (p : Nat) : (empty : Heap V).read p = none := by simp [empty,read]

theorem read_bound (valid : (h.read p).isSome) : p < h.next := by
  apply Classical.byContradiction
  intro outside
  simp [read,List.getElem?_eq_none (Nat.not_lt.mp outside)] at valid

theorem read_alloc (h : Heap V) (v : V) (p : Nat) : (h.alloc v).read p = if p = h.next then some v else h.read p := by
  by_cases last : p = h.next
  · rw [if_pos last,last]
    simp [read,alloc,next]
  · rw [if_neg last]
    rcases Nat.lt_or_ge p h.next with inside | outside
    · simp only [read,alloc]
      rw [List.getElem?_append_left inside]
    · have past : h.next+1 ≤ p := by omega
      have beyond : (h.alloc v).cells.length ≤ p := by simpa [alloc,next] using past
      rw [read,read,List.getElem?_eq_none beyond,List.getElem?_eq_none outside]

theorem read_free (h : Heap V) (p q : Nat) : (h.free (some p)).read q = if q = p then none else h.read q := by
  simp only [read,free,List.getElem?_set]
  by_cases same : p = q
  · subst same
    by_cases inside : p < h.cells.length
    · simp [inside]
    · simp [inside]
  · simp [same,Ne.symm same]

theorem read_write (h : Heap V) (p q : Nat) (v : V) :
    (h.write p v).read q = if q = p ∧ (h.read p).isSome then some v else h.read q := by
  by_cases valid : (h.read p).isSome
  · have inside : p < h.cells.length := read_bound valid
    rw [write,if_pos valid]
    by_cases same : q = p
    · subst same
      rw [if_pos ⟨rfl,valid⟩]
      simp [read,inside]
    · rw [if_neg (fun both => same both.1)]
      simp only [read,List.getElem?_set_ne (Ne.symm same)]
  · rw [write,if_neg valid,if_neg (fun both => valid both.2)]

@[simp] theorem next_alloc (h : Heap V) (v : V) : (h.alloc v).next = h.next+1 := by simp [next,alloc]

@[simp] theorem next_free (h : Heap V) (pointer : Option Nat) : (h.free pointer).next = h.next := by
  cases pointer <;> simp [next,free]

@[simp] theorem next_freeAll (h : Heap V) (pointers : List (Option Nat)) : (h.freeAll pointers).next = h.next := by
  induction pointers generalizing h with
  | nil => rfl
  | cons pointer pointers ih => exact (ih _).trans (next_free h pointer)

@[simp] theorem next_write (h : Heap V) (p : Nat) (v : V) : (h.write p v).next = h.next := by
  unfold write
  split <;> simp [next]

-- The handles of a list are the valid ones, each in it once: whoever holds the
-- list knows everything that is allocated.
def Owned (h : Heap V) (handles : List Nat) : Prop := ∀ p, handles.count p = if (h.read p).isSome then 1 else 0

theorem owned_empty : Owned (empty : Heap V) [] := fun p => by simp

theorem Owned.perm (owned : Owned h handles) (same : handles.Perm rest) : Owned h rest :=
  fun p => (same.count_eq p).symm.trans (owned p)

theorem Owned.mem (owned : Owned h handles) : p ∈ handles ↔ (h.read p).isSome := by
  rw [← List.count_pos_iff,owned p]
  split <;> simp [*]

theorem Owned.nodup (owned : Owned h handles) : handles.Nodup :=
  List.nodup_iff_count_le_one.mpr fun p => by
    rw [owned p]
    split <;> omega

theorem Owned.alloc (owned : Owned h handles) (v : V) : Owned (h.alloc v) (h.next :: handles) := by
  intro p
  rw [List.count_cons,owned p,read_alloc]
  by_cases fresh : p = h.next
  · have before : ¬ (h.read p).isSome := fun valid => by
      have bound := read_bound valid
      omega
    simp [fresh ▸ before,fresh]
  · simp [fresh,Ne.symm fresh]

theorem Owned.free (owned : Owned h (p :: rest)) : Owned (h.free (some p)) rest := by
  intro q
  have counted := owned q
  rw [List.count_cons] at counted
  rw [read_free]
  by_cases same : q = p
  · subst same
    have once : rest.count q + 1 ≤ 1 := by
      rw [beq_self_eq_true,if_pos rfl] at counted
      rw [counted]
      split <;> omega
    rw [if_pos rfl]
    simp
    omega
  · simpa [same,Ne.symm same] using counted

theorem Owned.freeAll {pointers : List (Option Nat)} (owned : Owned h (pointers.filterMap id ++ rest)) :
    Owned (h.freeAll pointers) rest := by
  induction pointers generalizing h with
  | nil => exact owned
  | cons pointer pointers ih =>
    cases pointer with
    | none => exact ih owned
    | some p => exact ih owned.free

theorem Owned.write (owned : Owned h handles) (p : Nat) (v : V) : Owned (h.write p v) handles := by
  intro q
  rw [owned q,read_write]
  by_cases here : q = p ∧ (h.read p).isSome
  · obtain ⟨rfl,valid⟩ := here
    simp [valid]
  · rw [if_neg here]

theorem read_freeAll {pointers : List (Option Nat)} (kept : some q ∉ pointers) : (h.freeAll pointers).read q = h.read q := by
  induction pointers generalizing h with
  | nil => rfl
  | cons pointer pointers ih =>
    obtain ⟨other,later⟩ := not_or.mp fun either => kept (List.mem_cons.mpr either)
    rw [freeAll,List.foldl_cons]
    refine (ih later).trans ?_
    cases pointer with
    | none => rfl
    | some p => rw [read_free,if_neg fun same => other (by rw [same])]

theorem read_freeAll_gone {pointers : List (Option Nat)} (freed : some q ∈ pointers) : (h.freeAll pointers).read q = none := by
  induction pointers generalizing h with
  | nil => cases freed
  | cons pointer pointers ih =>
    rw [freeAll,List.foldl_cons]
    by_cases later : some q ∈ pointers
    · exact ih later
    · obtain rfl := (List.mem_cons.mp freed).resolve_right later
      exact (read_freeAll later).trans (by rw [read_free,if_pos rfl])

section Owners
variable {T : Type*} {owners : List T} {i : Nat} {old : T}

theorem flatMap_set (f : T → List Nat) (held : owners[i]? = some old) :
    ∃ others, (owners.flatMap f).Perm (f old ++ others) ∧ ∀ new, ((owners.set i new).flatMap f).Perm (f new ++ others) := by
  obtain ⟨bound,here⟩ := List.getElem?_eq_some_iff.mp held
  have split : ∀ new, owners.set i new = owners.take i ++ new :: owners.drop (i+1) := fun new =>
    List.set_eq_take_append_cons_drop.trans (if_pos bound)
  have whole : owners = owners.take i ++ old :: owners.drop (i+1) := by
    rw [← split,← here,List.set_getElem_self]
  have moved : ∀ new, ((owners.take i ++ new :: owners.drop (i+1)).flatMap f).Perm
      (f new ++ ((owners.take i).flatMap f ++ (owners.drop (i+1)).flatMap f)) := fun new => by
    rw [List.flatMap_append,List.flatMap_cons]
    exact List.perm_append_comm_assoc _ _ _
  refine ⟨_,?_,fun new => (split new).symm ▸ moved new⟩
  conv_lhs => rw [whole]
  exact moved old

theorem owners_apart {f : T → List Nat} {j : Nat} {other : T} (once : (owners.flatMap f).Nodup) (held : owners[i]? = some old)
    (standing : owners[j]? = some other) (different : i ≠ j) : ∀ p ∈ f old, p ∉ f other := by
  have apart := (List.nodup_flatMap.mp once).2
  obtain ⟨inside,rfl⟩ := List.getElem?_eq_some_iff.mp held
  obtain ⟨within,rfl⟩ := List.getElem?_eq_some_iff.mp standing
  intro p member again
  rcases Nat.lt_or_gt_of_ne different with less | greater
  · exact List.pairwise_iff_getElem.mp apart i j inside within less member again
  · exact List.pairwise_iff_getElem.mp apart j i within inside greater again member

end Owners
end Heap
