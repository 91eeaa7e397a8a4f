import Mathlib.Data.List.Induction

namespace Sequential

-- An object whose operations run one at a time. The input of an operation is
-- what it takes from elsewhere than its caller: a clock, a random number.
structure Object (Op Res In S : Type*) where
  start : S
  effect : Op → In → S → Res × S

variable {Op Res In S K : Type*}

-- The histories in which every result is what the object gives at its place.
inductive Legal (object : Object Op Res In S) : List (Op × Res) → S → Prop where
  | nil : Legal object [] object.start
  | snoc : Legal object history mid → object.effect op input mid = (res,next) →
      Legal object (history ++ [(op,res)]) next

-- A history of identified operations explains what concurrent callers have
-- seen: it is legal, runs only what was asked for and nothing twice, has all
-- answers, and keeps the order of operations that did not overlap.
structure Linearizes (object : Object Op Res In S) (asked : K → Op → Prop) (answered : K → Op → Res → Prop)
    (before : K → K → Prop) (history : List (K × Op × Res)) (s : S) : Prop where
  legal : Legal object (history.map Prod.snd) s
  once : (history.map Prod.fst).Nodup
  asked : ∀ key op res, (key,op,res) ∈ history → asked key op
  answered : ∀ key op res, answered key op res → (key,op,res) ∈ history
  ordered : ∀ earlier later op res front rest, before earlier later →
    history = front ++ (later,op,res) :: rest → earlier ∈ front.map Prod.fst

variable {object : Object Op Res In S} {history : List (Op × Res)} {s : S}

theorem Legal.last (legal : Legal object (history ++ [(op,res)]) s) :
    ∃ mid input, Legal object history mid ∧ object.effect op input mid = (res,s) := by
  generalize equal : history ++ [(op,res)] = whole at legal
  cases legal with
  | nil => simp at equal
  | snoc prior effect =>
    obtain ⟨rfl,same⟩ := List.append_inj' equal rfl
    cases same
    exact ⟨_,_,prior,effect⟩

theorem Legal.front {later : List (Op × Res)} (legal : Legal object (history ++ later) s) :
    ∃ mid, Legal object history mid := by
  induction later using List.reverseRecOn generalizing s with
  | nil => exact ⟨s,by simpa using legal⟩
  | append_singleton later entry ih =>
    obtain ⟨op,res⟩ := entry
    rw [← List.append_assoc] at legal
    obtain ⟨mid,_,prior,_⟩ := legal.last
    exact ih prior

-- An operation that was answered when a later one was not yet asked for stands
-- in the part of the history that had been run by then.
theorem ordered_of_parts {past recent front rest : List (K × Op × Res)} {earlier later : K}
    (there : earlier ∈ past.map Prod.fst) (unasked : later ∉ past.map Prod.fst)
    (same : past ++ recent = front ++ (later,op,res) :: rest) : earlier ∈ front.map Prod.fst := by
  rcases List.append_eq_append_iff.mp same with ⟨more,rfl,_⟩ | ⟨more,rfl,split⟩
  · rw [List.map_append]
    exact List.mem_append_left _ there
  · cases more with
    | nil => simpa using there
    | cons entry more =>
      cases (List.cons.inj split).1
      exact absurd (by simp) unasked

end Sequential
