import Mathlib.Data.List.Basic

namespace History

-- A property of every event of a history together with what came before it.
def Always {E : Type*} (property : List E → E → Prop) (history : List E) : Prop :=
  ∀ past event future, history = past ++ event :: future → property past event

variable {E : Type*} {property : List E → E → Prop} {history : List E}

theorem always_nil : Always property [] := by
  intro past event future equal
  simp at equal

theorem always_snoc {event : E} :
    Always property (history ++ [event]) ↔ Always property history ∧ property history event := by
  constructor
  · intro all
    refine ⟨?_,all history event [] rfl⟩
    rintro past earlier future rfl
    exact all past earlier (future ++ [event]) (by simp)
  · rintro ⟨old,new⟩ past seen future equal
    rcases List.eq_nil_or_concat future with rfl | ⟨front,final,rfl⟩
    · obtain ⟨rfl,last⟩ := List.append_inj' equal rfl
      cases last
      exact new
    · rw [List.concat_eq_append,← List.cons_append,← List.append_assoc] at equal
      obtain ⟨rfl,_⟩ := List.append_inj' equal rfl
      exact old past seen front rfl

theorem Always.mem {event : E} (all : Always property history) (member : event ∈ history) :
    ∃ past, (∀ earlier ∈ past, earlier ∈ history) ∧ property past event := by
  obtain ⟨past,future,rfl⟩ := List.append_of_mem member
  exact ⟨past,fun earlier inside => List.mem_append_left _ inside,all past event future rfl⟩

theorem Always.pair {one two : E} (all : Always property history) (first : one ∈ history) (second : two ∈ history)
    (different : one ≠ two) : (∃ past, one ∈ past ∧ property past two) ∨ ∃ past, two ∈ past ∧ property past one := by
  obtain ⟨past,future,rfl⟩ := List.append_of_mem first
  rcases List.mem_append.mp second with before | after
  · exact .inr ⟨past,before,all past one future rfl⟩
  · rcases List.mem_cons.mp after with same | later
    · exact absurd same.symm different
    · obtain ⟨between,rest,rfl⟩ := List.append_of_mem later
      exact .inl ⟨past ++ one :: between,by simp,all (past ++ one :: between) two rest (by simp)⟩

end History
