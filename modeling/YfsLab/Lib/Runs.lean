import Mathlib.Data.List.Induction

namespace Machine

-- Runs of a partial, executable step function. `ok` restricts the steps a run
-- may take: it is the place of an assumption about the environment, evaluated
-- in the state before the step, and is `free` where nothing is assumed.
inductive Runs {S L : Type*} (step : S → L → Option S) (ok : S → L → Prop) : S → List L → S → Prop where
  | nil : Runs step ok s [] s
  | snoc : Runs step ok s labels mid → ok mid label → step mid label = some next →
      Runs step ok s (labels ++ [label]) next

def free {S L : Type*} : S → L → Prop := fun _ _ => True

variable {S L : Type*} {step : S → L → Option S} {ok : S → L → Prop}

theorem Runs.invariant {property : S → Prop} (path : Runs step ok s labels t) (start : property s)
    (preserved : ∀ before label after, property before → ok before label →
      step before label = some after → property after) : property t := by
  induction path with
  | nil => exact start
  | snoc _ allowed taken ih => exact preserved _ _ _ ih allowed taken

theorem Runs.invariant_reached {property : S → Prop} (path : Runs step ok s labels t) (start : property s)
    (preserved : ∀ earlier before label after, Runs step ok s earlier before → property before →
      ok before label → step before label = some after → property after) : property t := by
  induction path with
  | nil => exact start
  | snoc prior allowed taken ih => exact preserved _ _ _ _ prior ih allowed taken

theorem Runs.append (left : Runs step ok s first mid) (right : Runs step ok mid second t) :
    Runs step ok s (first ++ second) t := by
  induction right with
  | nil => simpa using left
  | snoc _ allowed taken ih => simpa only [List.append_assoc] using Runs.snoc ih allowed taken

theorem Runs.single (allowed : ok s label) (taken : step s label = some t) : Runs step ok s [label] t := by
  simpa using Runs.snoc Runs.nil allowed taken

theorem Runs.weaken {weaker : S → L → Prop} (path : Runs step ok s labels t)
    (implied : ∀ state label, ok state label → weaker state label) : Runs step weaker s labels t := by
  induction path with
  | nil => exact .nil
  | snoc _ allowed taken ih => exact .snoc ih (implied _ _ allowed) taken

theorem Runs.unrestricted (path : Runs step ok s labels t) : Runs step free s labels t :=
  path.weaken fun _ _ _ => trivial

theorem Runs.snoc_inv (path : Runs step ok s (labels ++ [label]) t) :
    ∃ mid, Runs step ok s labels mid ∧ ok mid label ∧ step mid label = some t := by
  generalize equal : labels ++ [label] = all at path
  cases path with
  | nil => simp at equal
  | snoc prior allowed taken =>
    obtain ⟨rfl,final⟩ := List.append_inj' equal rfl
    cases final
    exact ⟨_,prior,allowed,taken⟩

theorem Runs.deterministic {ok' : S → L → Prop} (one : Runs step ok s labels t) (two : Runs step ok' s labels u) :
    t = u := by
  induction one generalizing u with
  | nil =>
    generalize equal : ([] : List L) = all at two
    cases two with
    | nil => rfl
    | snoc => simp at equal
  | snoc _ _ taken ih =>
    obtain ⟨mid,prior,_,again⟩ := two.snoc_inv
    rw [ih prior] at taken
    exact Option.some.inj (taken.symm.trans again)

theorem Runs.single_inv (path : Runs step ok s [label] t) : ok s label ∧ step s label = some t := by
  have whole : Runs step ok s ([] ++ [label]) t := path
  obtain ⟨mid,prior,allowed,taken⟩ := whole.snoc_inv
  cases prior.deterministic (.nil : Runs step free s [] s)
  exact ⟨allowed,taken⟩

theorem Runs.rest {ok' : S → L → Prop} (path : Runs step ok s (first ++ second) t) (front : Runs step ok' s first mid) :
    Runs step ok mid second t := by
  induction second using List.reverseRecOn generalizing t with
  | nil =>
    rw [List.append_nil] at path
    exact path.deterministic front ▸ .nil
  | append_singleton second label ih =>
    rw [← List.append_assoc] at path
    obtain ⟨before,prior,allowed,taken⟩ := path.snoc_inv
    exact .snoc (ih prior) allowed taken

theorem Runs.extend {good : S → L → Prop} (front : Runs step good s labels mid)
    (whole : Runs step ok s (labels ++ [label]) t) (last : good mid label) : Runs step good s (labels ++ [label]) t := by
  obtain ⟨there,prior,_,taken⟩ := whole.snoc_inv
  cases front.deterministic prior
  exact .snoc front last taken

-- A property that a step keeps exactly if the step is a good one: it holds at
-- the end of a run exactly if all steps of the run were good. The steps may be
-- judged by the run that led to them and by the rest of the run.
theorem Runs.holds_iff {good : S → L → Prop} (path : Runs step ok s labels u) (property : S → Prop)
    (start : property s) (rest : Runs step ok u more t)
    (exactly : ∀ earlier before label after later, Runs step ok s earlier before → ok before label →
      step before label = some after → Runs step ok after later t →
      (property after ↔ property before ∧ good before label)) :
    property u ↔ Runs step good s labels u := by
  induction path generalizing more with
  | nil => exact iff_of_true start .nil
  | snoc prior allowed taken ih =>
    rw [exactly _ _ _ _ _ prior allowed taken rest,ih ((Runs.single allowed taken).append rest)]
    constructor
    · rintro ⟨before,held⟩
      exact .snoc before held taken
    · intro whole
      obtain ⟨mid,before,held,_⟩ := whole.snoc_inv
      exact before.deterministic prior ▸ ⟨before,held⟩

-- The same for every state of a run: a property holds in all of them exactly
-- if all steps are good, where a step is judged after good steps only.
theorem Runs.throughout_iff {good : S → L → Prop} (path : Runs step ok s labels u) (property : S → Prop)
    (start : property s)
    (exactly : ∀ earlier before label after, Runs step ok s earlier before → Runs step good s earlier before →
      ok before label → step before label = some after → property before →
      (property after ↔ good before label)) :
    (∀ earlier later mid, labels = earlier ++ later → Runs step ok s earlier mid → property mid) ↔
      Runs step good s labels u := by
  induction path with
  | nil =>
    refine iff_of_true (fun earlier later mid equal prior => ?_) .nil
    obtain ⟨rfl,rfl⟩ := List.append_eq_nil_iff.mp equal.symm
    exact prior.deterministic (.nil : Runs step ok s [] s) ▸ start
  | @snoc front mid label next prior allowed taken ih =>
    have whole : Runs step ok s (front ++ [label]) next := .snoc prior allowed taken
    constructor
    · intro always
      have before := ih.mp fun earlier later state equal run =>
        always earlier (later ++ [label]) state (by rw [equal,List.append_assoc]) run
      have held := always front [label] mid rfl prior
      have now := always (front ++ [label]) [] next (by simp) whole
      exact .snoc before ((exactly _ _ _ _ prior before allowed taken held).mp now) taken
    · intro run earlier later state equal reached
      obtain ⟨there,before,held,_⟩ := run.snoc_inv
      cases before.deterministic prior
      have always := ih.mpr before
      rcases List.eq_nil_or_concat later with rfl | ⟨rest,final,rfl⟩
      · rw [List.append_nil] at equal
        subst equal
        rw [reached.deterministic whole]
        exact (exactly _ _ _ _ prior before allowed taken (always front [] mid (by simp) prior)).mpr held
      · rw [List.concat_eq_append,← List.append_assoc] at equal
        obtain ⟨same,_⟩ := List.append_inj' equal rfl
        exact always earlier rest state same reached

theorem Runs.steps_iff {safe good : S → L → Prop} (path : Runs step ok s labels t)
    (exactly : ∀ earlier before label after, Runs step ok s earlier before → Runs step good s earlier before →
      ok before label → step before label = some after → (safe before label ↔ good before label)) :
    Runs step safe s labels t ↔ Runs step good s labels t := by
  induction path with
  | nil => exact iff_of_true .nil .nil
  | snoc prior allowed taken ih =>
    constructor
    · intro whole
      obtain ⟨mid,front,held,_⟩ := whole.snoc_inv
      cases front.deterministic prior
      have before := ih.mp front
      exact .snoc before ((exactly _ _ _ _ prior before allowed taken).mp held) taken
    · intro whole
      obtain ⟨mid,before,held,_⟩ := whole.snoc_inv
      cases before.deterministic prior
      exact .snoc (ih.mpr before) ((exactly _ _ _ _ prior before allowed taken).mpr held) taken

def Leads {S L : Type*} (step : S → L → Option S) (ok : S → L → Prop) (s : S) (goal : S → Prop) : Prop :=
  ∃ labels t, Runs step ok s labels t ∧ goal t

section Leads
variable {goal middle : S → Prop}

theorem Leads.here (holds : goal s) : Leads step ok s goal := ⟨[],s,.nil,holds⟩

theorem Leads.first (label : L) (next : S) (allowed : ok s label) (taken : step s label = some next)
    (later : Leads step ok next goal) : Leads step ok s goal := by
  obtain ⟨labels,t,path,holds⟩ := later
  exact ⟨label :: labels,t,(Runs.single allowed taken).append path,holds⟩

theorem Leads.trans (first : Leads step ok s middle) (onward : ∀ t, middle t → Leads step ok t goal) :
    Leads step ok s goal := by
  obtain ⟨labels,mid,path,there⟩ := first
  obtain ⟨more,t,rest,holds⟩ := onward mid there
  exact ⟨labels ++ more,t,path.append rest,holds⟩

-- An invariant of the permitted steps holds there as well.
theorem Leads.keeping {property : S → Prop} (leads : Leads step ok s goal) (start : property s)
    (preserved : ∀ before label after, property before → ok before label →
      step before label = some after → property after) : Leads step ok s fun t => property t ∧ goal t := by
  obtain ⟨labels,t,path,holds⟩ := leads
  exact ⟨labels,t,path,path.invariant start preserved,holds⟩

-- What can be lowered wherever it is not zero can be brought to zero.
theorem Leads.drain {valid : S → Prop} (measure : S → Nat) (start : valid s)
    (lower : ∀ state, valid state → 0 < measure state →
      Leads step ok state fun next => valid next ∧ measure next < measure state) :
    Leads step ok s fun t => valid t ∧ measure t = 0 := by
  induction size : measure s using Nat.strongRecOn generalizing s with
  | ind n ih =>
    rcases Nat.eq_zero_or_pos (measure s) with zero | positive
    · exact .here ⟨start,zero⟩
    · apply (lower s start positive).trans
      intro next less
      exact ih (measure next) (by omega) less.1 rfl

-- Whatever permitted steps are taken, in whatever order: there is always one more
-- until the property holds, and it comes to hold.
inductive Inevitable {S L : Type*} (step : S → L → Option S) (ok : S → L → Prop) (goal : S → Prop) : S → Prop where
  | here : goal s → Inevitable step ok goal s
  | later : (∃ label next, ok s label ∧ step s label = some next) →
      (∀ label next, ok s label → step s label = some next → Inevitable step ok goal next) → Inevitable step ok goal s

theorem Inevitable.of_measure {valid : S → Prop} (measure : S → Nat) (start : valid s)
    (progress : ∀ state, valid state → goal state ∨ ∃ label next, ok state label ∧ step state label = some next)
    (lower : ∀ state label next, valid state → ok state label → step state label = some next →
      valid next ∧ measure next < measure state) : Inevitable step ok goal s := by
  induction size : measure s using Nat.strongRecOn generalizing s with
  | ind n ih =>
    rcases progress s start with done | more
    · exact .here done
    · apply Inevitable.later more
      intro label next allowed taken
      obtain ⟨kept,less⟩ := lower s label next start allowed taken
      exact ih (measure next) (by omega) kept rfl

end Leads

def exec (step : S → L → Option S) : S → List L → Option S
  | s,[] => some s
  | s,label :: rest => (step s label).bind (exec step · rest)

theorem exec_runs (ran : exec step s labels = some t)
    (allowed : ∀ label ∈ labels, ∀ state, ok state label) : Runs step ok s labels t := by
  induction labels generalizing s with
  | nil => cases Option.some.inj ran; exact .nil
  | cons label rest ih =>
    cases taken : step s label with
    | none => simp [exec,taken] at ran
    | some next =>
      have tail : Runs step ok next rest t := ih (by simpa [exec,taken] using ran)
        (fun label member => allowed label (List.mem_cons_of_mem _ member))
      have first : Runs step ok s [label] next := .single (allowed label List.mem_cons_self s) taken
      exact first.append tail

theorem exec_free (ran : exec step s labels = some t) : Runs step free s labels t :=
  exec_runs ran (fun _ _ _ => trivial)

theorem exec_observed {V : Type*} {view : S → V} {seen : V} (ran : (exec step s labels).map view = some seen)
    (allowed : ∀ label ∈ labels, ∀ state, ok state label) : ∃ t, Runs step ok s labels t ∧ view t = seen := by
  obtain ⟨t,ran,same⟩ := Option.map_eq_some_iff.mp ran
  exact ⟨t,exec_runs ran allowed,same⟩

theorem exec_free_observed {V : Type*} {view : S → V} {seen : V} (ran : (exec step s labels).map view = some seen) :
    ∃ t, Runs step free s labels t ∧ view t = seen :=
  exec_observed ran fun _ _ _ => trivial

-- Steps that are checked in the states they start from.
def guarded (step : S → L → Option S) (ok : S → L → Prop) [∀ s label, Decidable (ok s label)] (s : S) (label : L) :
    Option S :=
  if ok s label then step s label else none

theorem Runs.of_guarded [∀ s label, Decidable (ok s label)] (path : Runs (guarded step ok) free s labels t) :
    Runs step ok s labels t := by
  induction path with
  | nil => exact .nil
  | snoc _ _ taken ih =>
    obtain ⟨allowed,taken⟩ := Option.ite_none_right_eq_some.mp taken
    exact .snoc ih allowed taken

theorem guarded_observed [∀ s label, Decidable (ok s label)] {V : Type*} {view : S → V} {seen : V}
    (ran : (exec (guarded step ok) s labels).map view = some seen) : ∃ t, Runs step ok s labels t ∧ view t = seen := by
  obtain ⟨t,path,same⟩ := exec_free_observed ran
  exact ⟨t,path.of_guarded,same⟩

-- What the steps of a schedule put out, each in the state it starts from.
section Emitted
variable {O : Type*} (out : S → L → List O)

def emitted (step : S → L → Option S) (out : S → L → List O) : S → List L → List O
  | _,[] => []
  | s,label :: rest => out s label ++ ((step s label).map (emitted step out · rest)).getD []

theorem Runs.emitted_append (path : Runs step ok s labels t) (more : List L) :
    emitted step out s (labels ++ more) = emitted step out s labels ++ emitted step out t more := by
  induction path generalizing more with
  | nil => rfl
  | @snoc front mid label next _ _ taken ih =>
    rw [List.append_assoc,ih,ih]
    simp [emitted,taken]

theorem Runs.emitted_snoc (path : Runs step ok s labels t) (label : L) :
    emitted step out s (labels ++ [label]) = emitted step out s labels ++ out t label := by
  rw [path.emitted_append]
  cases taken : step t label <;> simp [emitted,taken]

theorem emitted_source {item : O} (there : item ∈ emitted step out s labels) :
    ∃ label ∈ labels, ∃ state, item ∈ out state label := by
  induction labels generalizing s with
  | nil => cases there
  | cons label rest ih =>
    rcases List.mem_append.mp there with first | later
    · exact ⟨label,List.mem_cons_self,s,first⟩
    · cases taken : step s label with
      | none => simp [taken] at later
      | some next =>
        obtain ⟨source,member,state,item⟩ := ih (s:=next) (by simpa [taken] using later)
        exact ⟨source,List.mem_cons_of_mem _ member,state,item⟩

end Emitted

-- A machine keeps its threads in a list and a step replaces one entry.
section Threads
variable {T : Type*} {threads : List T} {i j : Nat} {new old found : T}

theorem entry_cases (held : (threads.set j new)[i]? = some found) :
    (i = j ∧ found = new) ∨ (i ≠ j ∧ threads[i]? = some found) := by
  rw [List.getElem?_set] at held
  split at held
  · rename_i same
    split at held
    · exact .inl ⟨same.symm,(Option.some.inj held).symm⟩
    · cases held
  · rename_i different; exact .inr ⟨Ne.symm different,held⟩

theorem entry_self (held : threads[j]? = some old) : (threads.set j new)[j]? = some new := by
  have bound := (List.getElem?_eq_some_iff.mp held).1
  simp [bound]

theorem entry_other (different : i ≠ j) : (threads.set j new)[i]? = threads[i]? :=
  List.getElem?_set_ne (Ne.symm different)

theorem entry_append (held : (threads ++ [new])[i]? = some found) :
    threads[i]? = some found ∨ (i = threads.length ∧ found = new) := by
  rcases Nat.lt_or_ge i threads.length with old | fresh
  · exact .inl (by rwa [List.getElem?_append_left old] at held)
  · rw [List.getElem?_append_right fresh,List.getElem?_singleton] at held
    split at held
    · rename_i last
      exact .inr ⟨by omega,(Option.some.inj held).symm⟩
    · cases held

theorem entry_kept (held : threads[i]? = some found) : (threads ++ [new])[i]? = some found := by
  have bound := (List.getElem?_eq_some_iff.mp held).1
  rwa [List.getElem?_append_left bound]

-- Two lists of what is kept of the same threads.
variable {T' : Type*} {others : List T'} {new' found' : T'}

theorem pair_cases (held : (threads.set j new)[i]? = some found) (standing : (others.set j new')[i]? = some found') :
    (i = j ∧ found = new ∧ found' = new') ∨ (i ≠ j ∧ threads[i]? = some found ∧ others[i]? = some found') := by
  rcases entry_cases held with ⟨same,rfl⟩ | ⟨different,before⟩
  · rcases entry_cases standing with ⟨_,rfl⟩ | ⟨different,_⟩
    · exact .inl ⟨same,rfl,rfl⟩
    · exact absurd same different
  · rcases entry_cases standing with ⟨same,_⟩ | ⟨_,before'⟩
    · exact absurd same different
    · exact .inr ⟨different,before,before'⟩

theorem pair_append (aligned : others.length = threads.length) (held : (threads ++ [new])[i]? = some found)
    (standing : (others ++ [new'])[i]? = some found') :
    (threads[i]? = some found ∧ others[i]? = some found') ∨ (found = new ∧ found' = new') := by
  rcases entry_append held with before | ⟨last,rfl⟩
  · rcases entry_append standing with before' | ⟨last,_⟩
    · exact .inl ⟨before,before'⟩
    · have bound := (List.getElem?_eq_some_iff.mp before).1
      omega
  · rcases entry_append standing with before' | ⟨_,rfl⟩
    · have bound := (List.getElem?_eq_some_iff.mp before').1
      omega
    · exact .inr ⟨rfl,rfl⟩

end Threads
end Machine
