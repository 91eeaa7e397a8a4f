import YfsLab.ThrPool

namespace YfsLab.PoolShutdown
open Machine ThrPool

variable {sz : Nat} {blocking : Bool} {s t : State} {label : Label}

-- The steps after the last call of addObjJob. A thread in pthread_cond_wait that
-- wakes, finds the queue full and waits again has done nothing.
def Useful (sz : Nat) (s : State) : Label → Prop
  | .addObjJob => False
  | .add i => s.calls[i]? = some .waiting → s.jobq.length < 100*sz
  | .destroy => ∀ phase ∈ s.calls, phase = .returned true ∨ phase = .returned false
  | .take _ | .work _ | .poison | .join => True

theorem useful_documented (useful : Useful sz s label) : Documented s label := by
  cases label with
  | addObjJob => exact useful.elim
  | destroy => exact useful
  | add | take | work | poison | join => trivial

def insideCall : Phase → Bool
  | .returned _ => false
  | _ => true

def busy : WorkerPc → Bool
  | .took _ => true
  | _ => false

def ahead (sz : Nat) : Option Destructor → Nat
  | none => 4*sz+1
  | some d => 3*(sz-d.poisoned)+(sz-d.joined)

-- A bound on the useful steps: a call may wait once before it adds its job or
-- gives up, and a job is taken and worked off.
def remaining (sz : Nat) (s : State) : Nat :=
  s.calls.count .called+3*s.calls.countP insideCall+2*s.jobq.length+s.workers.countP busy+ahead sz s.destructor

theorem enq_space {T : Type} {q : List T} (e : T) (space : q.length < 100*sz) : enq (100*sz) q e = some (q ++ [e]) :=
  if_pos (.inr space)

theorem add_lowers (held : s.calls[i]? = some phase) (inside : phase = .called ∨ phase = .waiting)
    (useful : phase = .waiting → s.jobq.length < 100*sz) : remaining sz (addJob sz blocking s i) < remaining sz s := by
  have calledCount := fun new => Counting.count_set_value Phase.called new held
  have insideCount := fun new => Counting.count_set insideCall new held
  unfold addJob
  split
  · rename_i q pushed
    obtain ⟨rfl,_⟩ := enq_some pushed
    have called := calledCount (.returned true)
    have calls := insideCount (.returned true)
    simp only [remaining,push,List.length_append,List.length_singleton]
    rcases inside with rfl | rfl
    · simp [insideCall] at called calls
      omega
    · simp [insideCall] at called calls
      omega
  · rename_i full
    have called_ : phase = .called := by
      apply inside.resolve_right
      intro waiting
      rw [enq_space _ (useful waiting)] at full
      cases full
    subst called_
    cases blocking with
    | true =>
      have called := calledCount .waiting
      have calls := insideCount .waiting
      simp [insideCall] at called calls
      simp only [remaining,if_true]
      omega
    | false =>
      have called := calledCount (.returned false)
      have calls := insideCount (.returned false)
      simp [insideCall] at called calls
      simp only [remaining,Bool.false_eq_true,if_false]
      omega

theorem step_lowers (useful : Useful sz s label) (taken : step sz blocking s label = some t) :
    remaining sz t < remaining sz s := by
  cases label with
  | addObjJob => exact useful.elim
  | add i =>
    cases held : s.calls[i]? with
    | none => simp [step,held] at taken
    | some phase =>
      cases phase with
      | called =>
        simp only [step,held,Option.some.injEq] at taken
        exact taken ▸ add_lowers held (.inl rfl) (fun waiting => by cases waiting)
      | waiting =>
        simp only [step,held,Option.some.injEq] at taken
        exact taken ▸ add_lowers held (.inr rfl) (fun _ => useful held)
      | returned => simp [step,held] at taken
  | take w =>
    simp only [step] at taken
    split at taken
    · rename_i j q idle popped
      have shorter := congrArg List.length (deq_some popped)
      have counts := Counting.count_set busy (.took j) idle
      simp only [List.length_cons] at shorter
      simp [busy] at counts
      cases Option.some.inj taken
      simp only [remaining]
      omega
    · cases taken
  | work w =>
    simp only [step] at taken
    split at taken
    · rename_i i there
      have counts := Counting.count_set busy .takeJob there
      simp [busy] at counts
      cases Option.some.inj taken
      simp only [remaining]
      omega
    · rename_i there
      have counts := Counting.count_set busy .exited there
      simp [busy] at counts
      cases Option.some.inj taken
      simp only [remaining]
      omega
    · cases taken
  | destroy =>
    obtain ⟨first,same⟩ := Option.ite_none_left_eq_some.mp taken
    have before : s.destructor = none := by simpa using first
    cases Option.some.inj same
    simp only [remaining,before,ahead]
    omega
  | poison =>
    cases started : s.destructor with
    | none => simp [step,started] at taken
    | some d =>
      simp only [step,started] at taken
      obtain ⟨more,taken⟩ := Option.ite_none_right_eq_some.mp taken
      obtain ⟨q,pushed,same⟩ := Option.map_eq_some_iff.mp taken
      obtain ⟨rfl,_⟩ := enq_some pushed
      subst same
      simp only [remaining,push,started,ahead,List.length_append,List.length_singleton]
      omega
  | join =>
    cases started : s.destructor with
    | none => simp [step,started] at taken
    | some d =>
      simp only [step,started] at taken
      obtain ⟨⟨all,more,gone⟩,same⟩ := Option.ite_none_right_eq_some.mp taken
      cases Option.some.inj same
      simp only [remaining,started,ahead]
      omega

structure Valid (sz : Nat) (s : State) : Prop where
  invariant : Invariant sz s
  loops : ∀ d, s.destructor = some d → d.poisoned ≤ sz ∧ d.joined ≤ sz

theorem initial_valid (sz : Nat) : Valid sz (initial sz) := ⟨initial_invariant sz,by simp [initial]⟩

theorem effect_loops (effect : Effect sz s t) (held : ∀ d, s.destructor = some d → d.poisoned ≤ sz ∧ d.joined ≤ sz) :
    ∀ d, t.destructor = some d → d.poisoned ≤ sz ∧ d.joined ≤ sz := by
  cases effect with
  | called | accepted | refused | took | worked | exited => exact held
  | destroyed =>
    intro d now
    cases now
    exact ⟨Nat.zero_le _,Nat.zero_le _⟩
  | poisoned q started more =>
    intro d now
    cases now
    exact ⟨more,(held _ started).2⟩
  | joined started _ more =>
    intro d now
    cases now
    exact ⟨(held _ started).1,more⟩

theorem step_valid (size : 1 ≤ sz) (valid : Valid sz s) (documented : Documented s label)
    (taken : step sz blocking s label = some t) : Valid sz t := by
  obtain ⟨held,loops⟩ := valid
  have effect := step_effect documented taken
  exact ⟨⟨effect.bounded size held.bounded,effect.ordered held.ordered,effect.acceptedOnce held.acceptedOnce,
    effect.ranOnce held.ranOnce,effect.pillsEaten held.pillsEaten,effect.pillsLast held.pillsLast,
    effect.joinedExited held.joinedExited⟩,effect_loops effect loops⟩

theorem pills_counted (valid : Invariant sz s) : s.poisoned = s.workers.countP WorkerPc.died + s.jobq.count .poison := by
  obtain ⟨_,jobs,clean,shape⟩ := valid.pillsLast
  have all : s.enqueued.count .poison = s.poisoned := by
    rw [shape,List.count_append,List.count_eq_zero_of_not_mem clean,List.count_replicate_self,Nat.zero_add]
  rw [← all,valid.ordered,List.count_append,valid.pillsEaten.1]

theorem last_pill (valid : Invariant sz s) (some_ : 0 < s.poisoned) (left : s.jobq ≠ []) : 0 < s.jobq.count .poison := by
  obtain ⟨_,jobs,_,shape⟩ := valid.pillsLast
  obtain ⟨front,last,equal⟩ := (List.eq_nil_or_concat s.jobq).resolve_left left
  obtain ⟨less,more⟩ := Nat.exists_eq_add_of_le' some_
  rw [valid.ordered,equal,List.concat_eq_append,← List.append_assoc,more,List.replicate_succ',← List.append_assoc] at shape
  have pill : last = .poison := List.singleton_inj.mp (List.append_inj' shape rfl).2
  rw [equal,pill,List.concat_eq_append,Counting.count_concat,if_pos rfl]
  omega

theorem idle_worker (valid : Invariant sz s) (nobody : s.workers.countP busy = 0)
    (fewer : s.workers.countP WorkerPc.died < sz) : ∃ w : Nat, s.workers[w]? = some .takeJob := by
  have alive : ∃ pc ∈ s.workers, pc.died = false := by
    by_contra all
    have everyone : s.workers.countP WorkerPc.died = s.workers.length := by
      apply List.countP_eq_length.mpr
      intro pc member
      by_contra living
      exact all ⟨pc,member,by simpa using living⟩
    rw [valid.joinedExited.1] at everyone
    omega
  obtain ⟨pc,member,living⟩ := alive
  obtain ⟨w,held⟩ := List.mem_iff_getElem?.mp member
  have idle := List.countP_eq_zero.mp nobody pc member
  cases pc with
  | takeJob => exact ⟨w,held⟩
  | took => exact absurd rfl idle
  | exited => cases living

def Goes (sz : Nat) (blocking : Bool) (s : State) : Prop :=
  ∃ label next, Useful sz s label ∧ step sz blocking s label = some next

theorem goes (label : Label) (useful : Useful sz s label) (taken : (step sz blocking s label).isSome) : Goes sz blocking s := by
  obtain ⟨next,taken⟩ := Option.isSome_iff_exists.mp taken
  exact ⟨label,next,useful,taken⟩

theorem busy_goes (some_ : 0 < s.workers.countP busy) : Goes sz blocking s := by
  obtain ⟨pc,member,counted⟩ := List.countP_pos_iff.mp some_
  obtain ⟨w,held⟩ := List.mem_iff_getElem?.mp member
  cases pc with
  | took j =>
    cases j with
    | wrapper i =>
      apply goes (.work w) trivial
      simp only [step,held,Option.isSome_some]
    | poison =>
      apply goes (.work w) trivial
      simp only [step,held,Option.isSome_some]
  | takeJob | exited => cases counted

theorem queue_goes {w : Nat} (held : s.workers[w]? = some .takeJob) (left : s.jobq ≠ []) : Goes sz blocking s := by
  obtain ⟨j,q,queue⟩ := List.exists_cons_of_ne_nil left
  apply goes (.take w) trivial
  simp only [step,held,queue,deq,Option.isSome_some]

theorem calls_go (size : 1 ≤ sz) (before : s.destructor = none) (empty : s.jobq = []) : Goes sz blocking s := by
  by_cases all : ∀ phase ∈ s.calls, phase = .returned true ∨ phase = .returned false
  · apply goes .destroy all
    simp only [step,before,Option.isSome_none,Bool.false_eq_true,if_false,Option.isSome_some]
  · push Not at all
    obtain ⟨phase,member,inside⟩ := all
    obtain ⟨i,held⟩ := List.mem_iff_getElem?.mp member
    have space : Useful sz s (.add i) := fun _ => by simp only [empty,List.length_nil]; omega
    cases phase with
    | called =>
      apply goes (.add i) space
      simp only [step,held,Option.isSome_some]
    | waiting =>
      apply goes (.add i) space
      simp only [step,held,Option.isSome_some]
    | returned added =>
      cases added with
      | true => exact absurd rfl inside.1
      | false => exact absurd rfl inside.2

theorem worker_exited (nobody : s.workers.countP busy = 0) (dead : s.workers.countP WorkerPc.died = s.workers.length)
    (inside : w < s.workers.length) : s.workers[w]? = some .exited := by
  have died := List.countP_eq_length.mp dead _ (List.getElem_mem inside)
  have idle := List.countP_eq_zero.mp nobody _ (List.getElem_mem inside)
  rw [List.getElem?_eq_getElem inside]
  cases pc : s.workers[w] with
  | takeJob => rw [pc] at died; cases died
  | took => rw [pc] at idle; exact absurd rfl idle
  | exited => rfl

theorem destructor_goes (size : 1 ≤ sz) (valid : Valid sz s) (nobody : s.workers.countP busy = 0)
    (started : s.destructor = some d) (unfinished : d ≠ ⟨sz,sz⟩) : Goes sz blocking s := by
  have counted := pills_counted valid.invariant
  have pills : s.poisoned = d.poisoned := by simp only [State.poisoned,started]
  obtain ⟨bounded,joins⟩ := valid.loops d started
  rcases Nat.lt_or_ge d.poisoned sz with more | all
  · by_cases left : s.jobq = []
    · have space : s.jobq.length < 100*sz := by
        rw [left,List.length_nil]
        omega
      apply goes .poison trivial
      simp only [step,started,if_pos more,enq_space Job.poison space,Option.map_some,Option.isSome_some]
    · obtain ⟨w,held⟩ := idle_worker valid.invariant nobody (by omega)
      exact queue_goes held left
  · by_cases left : s.jobq = []
    · rw [left,List.count_nil] at counted
      have dead : s.workers.countP WorkerPc.died = s.workers.length := by rw [valid.invariant.joinedExited.1]; omega
      have behind : d.joined < sz := by
        by_contra last
        apply unfinished
        have poisoned : d.poisoned = sz := by omega
        have joined : d.joined = sz := by omega
        calc d = ⟨d.poisoned,d.joined⟩ := rfl
          _ = ⟨sz,sz⟩ := by rw [poisoned,joined]
      have inside : d.joined < s.workers.length := by rw [valid.invariant.joinedExited.1]; exact behind
      have held := worker_exited nobody dead inside
      apply goes .join trivial
      have last : d.poisoned = sz ∧ d.joined < sz ∧ s.workers[d.joined]? = some .exited := ⟨by omega,behind,held⟩
      simp only [step,started,if_pos last,Option.isSome_some]
    · have pill := last_pill valid.invariant (by omega) left
      obtain ⟨w,held⟩ := idle_worker valid.invariant nobody (by omega)
      exact queue_goes held left

def Finished (sz : Nat) (s : State) : Prop :=
  s.destructor = some ⟨sz,sz⟩ ∧ ∀ (i : Nat) (phase : Phase), s.calls[i]? = some phase →
    (phase = .returned true ∧ s.executed.count i = 1) ∨ (phase = .returned false ∧ i ∉ s.executed)

theorem valid_finished (size : 1 ≤ sz) (valid : Valid sz s) (done : s.destructor = some ⟨sz,sz⟩) : Finished sz s := by
  refine ⟨done,fun i phase held => ?_⟩
  have executed := valid.invariant.executed_added size done i
  rw [held] at executed
  rcases valid.invariant.pillsLast.1 (by simp [done]) phase (List.mem_of_getElem? held) with rfl | rfl
  · exact .inl ⟨rfl,executed⟩
  · exact .inr ⟨rfl,List.count_eq_zero.mp executed⟩

theorem valid_goes (size : 1 ≤ sz) (valid : Valid sz s) : Finished sz s ∨ Goes sz blocking s := by
  rcases Nat.eq_zero_or_pos (s.workers.countP busy) with nobody | some_
  · cases started : s.destructor with
    | some d =>
      by_cases done : d = ⟨sz,sz⟩
      · exact .inl (valid_finished size valid (by rw [started,done]))
      · exact .inr (destructor_goes size valid nobody started done)
    | none =>
      have counted := pills_counted valid.invariant
      simp only [State.poisoned,started] at counted
      apply Or.inr
      by_cases left : s.jobq = []
      · exact calls_go size started left
      · obtain ⟨w,held⟩ := idle_worker valid.invariant nobody (by omega)
        exact queue_goes held left
  · exact .inr (busy_goes some_)

theorem pool_finishes (size : 1 ≤ sz) (path : Runs (step sz blocking) Documented (initial sz) labels s) :
    Inevitable (step sz blocking) (Useful sz) (Finished sz) s := by
  have valid : Valid sz s := by
    apply path.invariant (initial_valid sz)
    intro before label after held documented taken
    exact step_valid size held documented taken
  apply Inevitable.of_measure (remaining sz) valid
  case progress => exact fun state held => valid_goes size held
  case lower =>
    intro state label next held useful taken
    exact ⟨step_valid size held (useful_documented useful) taken,step_lowers useful taken⟩

def oneInside : List Label := [.addObjJob,.add 0,.addObjJob]

theorem pool_finishes_two : ∃ s, Runs (step 2 true) Documented (initial 2) oneInside s ∧
    s.calls = [.returned true,.called] ∧ Inevitable (step 2 true) (Useful 2) (Finished 2) s := by
  have ran : (exec (guarded (step 2 true) Documented) (initial 2) oneInside).map (fun s => s.calls) =
      some [.returned true,.called] := by decide +kernel
  obtain ⟨s,path,calls⟩ := guarded_observed ran
  exact ⟨s,path,calls,pool_finishes (by decide) path⟩

end YfsLab.PoolShutdown
