import Mathlib.Data.List.Nodup

-- Objects that count the references to them and are deleted with the last one.
namespace References

-- `deleted` are the objects deleted so far; `aborted` is a count below zero.
structure Counts (K : Type*) where
  refno : K → Int
  deleted : List K
  aborted : Bool

variable {K : Type*} [DecidableEq K]

def Counts.initial : Counts K := ⟨fun _ => 0,[],false⟩

def Counts.create (counts : Counts K) (k : K) : Counts K :=
  {counts with refno:=fun other => if other = k then 1 else counts.refno other}

def Counts.incref (counts : Counts K) (k : K) : Counts K :=
  {counts with refno:=fun other => if other = k then counts.refno other + 1 else counts.refno other}

def Counts.decref (counts : Counts K) (dead : Bool) (k : K) : Counts K where
  refno := fun other => if other = k then counts.refno other - 1 else counts.refno other
  deleted := if counts.refno k - 1 = 0 ∧ dead then counts.deleted ++ [k] else counts.deleted
  aborted := counts.aborted || decide (counts.refno k - 1 < 0)

-- The counts are those of the references there are, and of the objects made
-- exactly those are deleted that nothing refers to.
structure Balanced (made : K → Prop) (held : K → Nat) (counts : Counts K) : Prop where
  exact : ∀ k, counts.refno k = held k
  known : ∀ k, held k ≠ 0 → made k
  gone : ∀ k, k ∈ counts.deleted ↔ made k ∧ held k = 0
  once : counts.deleted.Nodup
  sound : counts.aborted = false

variable {made : K → Prop} {held held' : K → Nat} {counts : Counts K} {k : K} {dead : Bool}

omit [DecidableEq K] in
theorem initial_balanced : Balanced (K:=K) (fun _ => False) (fun _ => 0) Counts.initial :=
  ⟨fun _ => rfl,fun _ some_ => absurd rfl some_,by simp [Counts.initial],List.nodup_nil,rfl⟩

omit [DecidableEq K] in
theorem Balanced.congr (balanced : Balanced made held counts) (same : ∀ k, held' k = held k) : Balanced made held' counts := by
  rwa [funext same]

omit [DecidableEq K] in
theorem Balanced.kept (balanced : Balanced made held counts) (used : held k ≠ 0) : k ∉ counts.deleted :=
  fun member => used ((balanced.gone k).mp member).2

theorem Balanced.create (balanced : Balanced made held counts) (fresh : ¬ made k)
    (new : ∀ other, held' other = held other + if other = k then 1 else 0) :
    Balanced (fun other => made other ∨ other = k) held' (counts.create k) := by
  have none_ : held k = 0 := Classical.byContradiction fun used => fresh (balanced.known k used)
  refine ⟨fun other => ?_,fun other used => ?_,fun other => ?_,balanced.once,balanced.sound⟩
  · have before := balanced.exact other
    have after := new other
    simp only [Counts.create]
    split at after
    · rename_i same
      rw [if_pos same,after,same,none_]
      rfl
    · rename_i different
      rw [if_neg different,before,after]
      rfl
  · by_cases same : other = k
    · exact .inr same
    · have after := new other
      rw [if_neg same,Nat.add_zero] at after
      exact .inl (balanced.known other (after ▸ used))
  · have after := new other
    rw [Counts.create,balanced.gone]
    by_cases same : other = k
    · subst same
      rw [if_pos rfl] at after
      simp [fresh,after]
    · rw [if_neg same,Nat.add_zero] at after
      simp [same,after]

theorem Balanced.incref (balanced : Balanced made held counts) (used : held k ≠ 0)
    (new : ∀ other, held' other = held other + if other = k then 1 else 0) :
    Balanced made held' (counts.incref k) := by
  refine ⟨fun other => ?_,fun other some_ => ?_,fun other => ?_,balanced.once,balanced.sound⟩
  · have before := balanced.exact other
    have after := new other
    simp only [Counts.incref]
    split at after
    · rename_i same
      rw [if_pos same,before,after]
      rfl
    · rename_i different
      rw [if_neg different,before,after]
      rfl
  · have after := new other
    split at after
    · rename_i same
      exact balanced.known other (same ▸ used)
    · exact balanced.known other (by omega)
  · have after := new other
    rw [Counts.incref,balanced.gone]
    split at after
    · rename_i same
      subst same
      simp only [used,and_false,false_iff]
      omega
    · rw [after,Nat.add_zero]

theorem Balanced.decref (balanced : Balanced made held counts)
    (less : ∀ other, held other = held' other + if other = k then 1 else 0) (last : held' k = 0 → dead = true) :
    Balanced made held' (counts.decref dead k) := by
  have mine := less k
  rw [if_pos rfl] at mine
  have count := balanced.exact k
  have alive : k ∉ counts.deleted := balanced.kept (by omega)
  have made_ : made k := balanced.known k (by omega)
  refine ⟨fun other => ?_,fun other some_ => ?_,fun other => ?_,?_,?_⟩
  · have before := balanced.exact other
    have after := less other
    simp only [Counts.decref]
    split at after
    · rename_i same
      rw [if_pos same,before,after]
      omega
    · rename_i different
      rw [if_neg different,before,after]
      rfl
  · have after := less other
    exact balanced.known other (by omega)
  · have after := less other
    have before := balanced.gone other
    simp only [Counts.decref]
    by_cases same : other = k
    · subst same
      by_cases none_ : held' other = 0
      · rw [if_pos ⟨by omega,last none_⟩]
        simp [none_,made_]
      · rw [if_neg (by omega)]
        simp [none_,alive]
    · rw [if_neg same,Nat.add_zero] at after
      rw [← after]
      split
      · simpa [same] using before
      · exact before
  · simp only [Counts.decref]
    split
    · simpa using balanced.once.concat alive
    · exact balanced.once
  · simp only [Counts.decref,balanced.sound,Bool.false_or,decide_eq_false_iff_not]
    omega

end References
