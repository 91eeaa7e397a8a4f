import YfsLab.Fifo

namespace YfsLab.FifoProgress
open Machine Counting Fifo
open ThrPool (enq deq enq_some deq_some)

variable {T : Type} {max_ : Nat} {s s' : State T} {op : Op T} {phase : Phase T} {label : Label T}

-- The passes of the callers that are inside enq and deq already, without new
-- calls and without spurious wakeups.
def Internal (_ : State T) : Label T → Prop
  | .run _ _ => True
  | .call _ | .spurious _ => False

-- A pass ends with the return or parks the caller, and the signal that it may
-- send gives one parked caller its pass back.
def left : Phase T → Nat
  | .called | .waiting true => 2
  | .waiting false => 1
  | .enqueued _ | .dequeued _ => 0

def remaining (s : State T) : Nat := (s.calls.map fun call => left call.phase).sum

theorem ready_left (ready : Ready phase) : left phase = 2 := by
  rcases ready with rfl | rfl <;> rfl

theorem setPhase_remaining (held : s.calls[i]? = some ⟨op,phase⟩) (q : List T) (next : Phase T) :
    remaining (setPhase {s with q} i op next) + left phase = remaining s + left next :=
  sum_set (fun call : Call T => left call.phase) ⟨op,next⟩ held

theorem signal_moves {cond : Cond} (sent : signal s cond woken = some s') :
    s' = s ∨ ∃ (k : Nat) (op : Op T), s.calls[k]? = some ⟨op,.waiting false⟩ ∧ s' = setPhase s k op (.waiting true) := by
  cases woken with
  | none =>
    unfold signal at sent
    dsimp only at sent
    split at sent
    · cases sent
    · cases Option.some.inj sent; exact .inl rfl
  | some k =>
    unfold signal at sent
    dsimp only at sent
    split at sent
    · rename_i call held
      obtain ⟨sleeps,same⟩ := Option.ite_none_right_eq_some.mp sent
      cases Option.some.inj same
      obtain ⟨_,waiting⟩ := (call.parked_iff cond).mp sleeps
      exact .inr ⟨k,call.op,waiting ▸ held,rfl⟩
    · cases sent

theorem signal_remaining {cond : Cond} (sent : signal s cond woken = some s') : remaining s' ≤ remaining s + 1 := by
  rcases signal_moves sent with rfl | ⟨k,op,held,rfl⟩
  · exact Nat.le_succ _
  · have moved := setPhase_remaining held s.q (.waiting true)
    exact Nat.le_of_add_le_add_right (Nat.le_of_eq moved)

theorem runs_lowers (held : s.calls[i]? = some ⟨op,phase⟩) (ready : Ready phase) (q : List T) (next : Phase T)
    (less : left next ≤ 1) : remaining (setPhase {s with q} i op next) < remaining s := by
  have moved := setPhase_remaining held q next
  rw [ready_left ready] at moved
  omega

theorem returns_lowers {cond : Cond} (held : s.calls[i]? = some ⟨op,phase⟩) (ready : Ready phase) (q : List T) (next : Phase T)
    (returned : left next = 0) (sent : signal (setPhase {s with q} i op next) cond woken = some s') :
    remaining s' < remaining s := by
  have moved := setPhase_remaining held q next
  have woken := signal_remaining sent
  rw [ready_left ready,returned] at moved
  omega

theorem pass_lowers (held : s.calls[i]? = some ⟨op,phase⟩) (ready : Ready phase)
    (passed : Fifo.pass max_ s i woken op = some s') : remaining s' < remaining s := by
  cases op with
  | enq e blocking =>
    unfold Fifo.pass at passed
    dsimp only at passed
    split at passed
    · rename_i q _
      exact returns_lowers held ready q (.enqueued true) rfl passed
    · cases Option.some.inj passed
      apply runs_lowers held ready s.q
      cases blocking with
      | true => exact Nat.le_refl 1
      | false => exact Nat.zero_le 1
  | deq =>
    unfold Fifo.pass at passed
    dsimp only at passed
    split at passed
    · rename_i e q _
      split at passed
      · exact returns_lowers held ready q (.dequeued e) rfl passed
      · cases Option.some.inj passed
        exact runs_lowers held ready q (.dequeued e) (Nat.zero_le 1)
    · cases Option.some.inj passed
      exact runs_lowers held ready s.q (.waiting false) (Nat.le_refl 1)

theorem step_lowers (internal : Internal s label) (taken : step max_ s label = some s') : remaining s' < remaining s := by
  cases label with
  | call | spurious => exact internal.elim
  | run i woken =>
    unfold step at taken
    dsimp only at taken
    split at taken
    · rename_i held; exact pass_lowers held (.inl rfl) taken
    · rename_i held; exact pass_lowers held (.inr rfl) taken
    · cases taken

def accepted (property : T → Bool) : Call T → Bool
  | ⟨.enq e _,.enqueued true⟩ => property e
  | _ => false

def taken (property : T → Bool) : Call T → Bool
  | ⟨_,.dequeued e⟩ => property e
  | _ => false

def Exchanged (s : State T) : Prop := ∀ property : T → Bool,
  s.calls.countP (accepted property) = s.calls.countP (taken property) + s.q.countP property

theorem initial_exchanged : Exchanged (initial : State T) := fun _ => rfl

def Neutral (phase : Phase T) : Prop := phase = .enqueued false ∨ phase = .called ∨ ∃ signalled, phase = .waiting signalled

theorem ready_neutral (ready : Ready phase) : Neutral phase := by
  rcases ready with rfl | rfl
  · exact .inr (.inl rfl)
  · exact .inr (.inr ⟨true,rfl⟩)

theorem neutral_counts (op : Op T) (neutral : Neutral phase) (property : T → Bool) :
    accepted property ⟨op,phase⟩ = false ∧ taken property ⟨op,phase⟩ = false := by
  rcases neutral with rfl | rfl | ⟨_,rfl⟩ <;> exact ⟨by cases op <;> rfl,rfl⟩

theorem moved_counts (held : s.calls[i]? = some ⟨op,phase⟩) (before : Neutral phase) (next : Phase T) (property : T → Bool) :
    (s.calls.set i ⟨op,next⟩).countP (accepted property) =
        s.calls.countP (accepted property) + (if accepted property ⟨op,next⟩ then 1 else 0) ∧
      (s.calls.set i ⟨op,next⟩).countP (taken property) =
        s.calls.countP (taken property) + (if taken property ⟨op,next⟩ then 1 else 0) := by
  obtain ⟨unaccepted,untaken⟩ := neutral_counts op before property
  have accepts := count_set (accepted property) ⟨op,next⟩ held
  have takes := count_set (taken property) ⟨op,next⟩ held
  rw [unaccepted] at accepts
  rw [untaken] at takes
  exact ⟨accepts,takes⟩

theorem neutral_exchanged (exchanged : Exchanged s) (held : s.calls[i]? = some ⟨op,phase⟩) (before : Neutral phase)
    (next : Phase T) (after : Neutral next) : Exchanged (setPhase s i op next) := by
  intro property
  obtain ⟨accepts,takes⟩ := moved_counts held before next property
  obtain ⟨unaccepted,untaken⟩ := neutral_counts op after property
  rw [unaccepted] at accepts
  rw [untaken] at takes
  exact accepts.trans ((exchanged property).trans (congrArg (· + s.q.countP property) takes.symm))

theorem signal_exchanged {cond : Cond} (exchanged : Exchanged s) (sent : signal s cond woken = some s') : Exchanged s' := by
  rcases signal_moves sent with rfl | ⟨k,op,held,rfl⟩
  · exact exchanged
  · exact neutral_exchanged exchanged held (.inr (.inr ⟨false,rfl⟩)) _ (.inr (.inr ⟨true,rfl⟩))

theorem pushed_exchanged (exchanged : Exchanged s) (held : s.calls[i]? = some ⟨.enq e blocking,phase⟩) (ready : Ready phase)
    (pushed : enq max_ s.q e = some q) : Exchanged (setPhase {s with q} i (.enq e blocking) (.enqueued true)) := by
  intro property
  obtain ⟨accepts,takes⟩ := moved_counts held (ready_neutral ready) (.enqueued true) property
  have accepts : _ = s.calls.countP (accepted property) + (if property e then 1 else 0) := accepts
  have takes : _ = s.calls.countP (taken property) + 0 := takes
  have same := exchanged property
  simp only [setPhase,(enq_some pushed).1,List.countP_append,List.countP_singleton]
  omega

theorem popped_exchanged (exchanged : Exchanged s) (held : s.calls[i]? = some ⟨.deq,phase⟩) (ready : Ready phase)
    (popped : deq s.q = some (e,q)) : Exchanged (setPhase {s with q} i .deq (.dequeued e)) := by
  intro property
  obtain ⟨accepts,takes⟩ := moved_counts held (ready_neutral ready) (.dequeued e) property
  have accepts : _ = s.calls.countP (accepted property) + 0 := accepts
  have takes : _ = s.calls.countP (taken property) + (if property e then 1 else 0) := takes
  have same := exchanged property
  rw [deq_some popped,List.countP_cons] at same
  simp only [setPhase]
  omega

theorem effect_exchanged (exchanged : Exchanged s) (effect : Effect max_ s s') : Exchanged s' := by
  cases effect with
  | called op =>
    intro property
    have same := exchanged property
    have fresh : Neutral (.called : Phase T) := .inr (.inl rfl)
    obtain ⟨unaccepted,untaken⟩ := neutral_counts op fresh property
    simpa [List.countP_append,List.countP_singleton,unaccepted,untaken] using same
  | pushed q held ready pushed sent => exact signal_exchanged (pushed_exchanged exchanged held ready pushed) sent
  | full held ready _ =>
    apply neutral_exchanged exchanged held (ready_neutral ready)
    split
    · exact .inr (.inr ⟨false,rfl⟩)
    · exact .inl rfl
  | popped q held ready popped _ => exact popped_exchanged exchanged held ready popped
  | freed q held ready popped sent => exact signal_exchanged (popped_exchanged exchanged held ready popped) sent
  | empty held ready _ => exact neutral_exchanged exchanged held (ready_neutral ready) _ (.inr (.inr ⟨false,rfl⟩))
  | awoken op held => exact neutral_exchanged exchanged held (.inr (.inr ⟨false,rfl⟩)) _ (.inr (.inl rfl))

structure Valid (max_ : Nat) (s : State T) : Prop where
  awake : Awake max_ s
  exchanged : Exchanged s

theorem step_valid (valid : Valid max_ s) (took : step max_ s label = some s') : Valid max_ s' :=
  ⟨step_awake valid.awake took,effect_exchanged valid.exchanged (step_effect took)⟩

theorem runs_valid (path : Runs (step max_) free (initial : State T) labels s) : Valid max_ s :=
  path.invariant ⟨initial_awake max_,initial_exchanged⟩ fun _ _ _ valid _ took => step_valid valid took

-- Who has not returned sleeps, a consumer because the queue is empty and a
-- producer because it is full.
structure Settled (max_ : Nat) (s : State T) : Prop where
  asleep : ∀ call ∈ s.calls, left call.phase = 0 ∨ call.phase = .waiting false
  consumers : Sleeps .nonEmpty s → s.q = []
  producers : Sleeps .hasSpace s → max_ ≠ 0 ∧ s.q.length = max_
  exchanged : Exchanged s

theorem unready_asleep (unready : ¬ Ready phase) : left phase = 0 ∨ phase = .waiting false := by
  cases phase with
  | called => exact absurd (.inl rfl) unready
  | waiting signalled =>
    cases signalled with
    | true => exact absurd (.inr rfl) unready
    | false => exact .inr rfl
  | enqueued | dequeued => exact .inl rfl

theorem valid_goes (valid : Valid max_ s) :
    Settled max_ s ∨ ∃ label s', Internal s label ∧ step max_ s label = some s' := by
  by_cases somebody : ∃ call ∈ s.calls, Ready call.phase
  · obtain ⟨call,member,ready⟩ := somebody
    obtain ⟨i,held⟩ := List.getElem?_of_mem member
    obtain ⟨woken,s',took⟩ := ready_runs max_ held ready
    exact .inr ⟨.run i woken,s',trivial,took⟩
  · have nobody : ∀ call ∈ s.calls, ¬ Ready call.phase := fun call member ready => somebody ⟨call,member,ready⟩
    have unsignalled : ∀ cond, signalled cond s = 0 := by
      intro cond
      by_contra coming
      obtain ⟨i,op,held,_⟩ := signalled_waits coming
      exact nobody _ (List.mem_of_getElem? held) (.inr rfl)
    left
    refine ⟨fun call member => unready_asleep (nobody call member),fun sleeps => ?_,fun sleeps => ?_,valid.exchanged⟩
    · have spoken := valid.awake.consumers (sleeps_iff.mp sleeps)
      rw [unsignalled] at spoken
      exact List.eq_nil_of_length_eq_zero (Nat.le_zero.mp spoken)
    · obtain ⟨limited,spoken⟩ := valid.awake.producers (sleeps_iff.mp sleeps)
      rw [unsignalled] at spoken
      exact ⟨limited,Nat.le_antisymm (valid.awake.bounded limited) spoken⟩

theorem fifo_settles (max_ : Nat) (path : Runs (step max_) free (initial : State T) labels s) :
    Inevitable (step max_) Internal (Settled max_) s := by
  apply Inevitable.of_measure remaining (runs_valid path)
  case progress => exact fun state valid => valid_goes valid
  case lower => exact fun state label next valid internal took => ⟨step_valid valid took,step_lowers internal took⟩

-- Two consumers and one element: one of them is on its way to it.
def oneElement : List (Label Nat) := [.call .deq,.call .deq,.run 0 none,.run 1 none,.call (.enq 7 true),.run 2 (some 0)]

theorem one_element_settles : ∃ s, Runs (step 1) free (initial : State Nat) oneElement s ∧ s.q = [7] ∧
    Inevitable (step 1) Internal (Settled 1) s := by
  have ran : (exec (step 1) (initial : State Nat) oneElement).map (fun s => s.q) = some [7] := by decide
  obtain ⟨s,path,queued⟩ := exec_free_observed ran
  exact ⟨s,path,queued,fifo_settles 1 path⟩

end YfsLab.FifoProgress
