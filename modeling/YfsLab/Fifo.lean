import YfsLab.ThrPool

namespace YfsLab.Fifo
open Machine Counting ThrPool

variable {T : Type}

inductive Cond where
  | nonEmpty
  | hasSpace
  deriving DecidableEq, Repr

inductive Op (T : Type) where
  | enq (e : T) (blocking : Bool)
  | deq
  deriving DecidableEq, Repr

-- The condition variable an operation waits on: non_empty_c_ or has_space_c_.
def Op.cond : Op T → Cond
  | .enq _ _ => .hasSpace
  | .deq => .nonEmpty

-- `waiting true` has been signalled and has not got the mutex back yet;
-- `called` is before the test of the loop, at first or after a spurious wakeup.
inductive Phase (T : Type) where
  | called
  | waiting (signalled : Bool)
  | enqueued (result : Bool)
  | dequeued (e : T)
  deriving DecidableEq, Repr

structure Call (T : Type) where
  op : Op T
  phase : Phase T
  deriving DecidableEq, Repr

def Call.parked (cond : Cond) : Call T → Bool
  | ⟨op,.waiting false⟩ => op.cond = cond
  | _ => false

def Call.signalled (cond : Cond) : Call T → Bool
  | ⟨op,.waiting true⟩ => op.cond = cond
  | _ => false

structure State (T : Type) where
  q : List T
  calls : List (Call T)
  deriving DecidableEq, Repr

def initial : State T := {q:=[],calls:=[]}

def setPhase (s : State T) (i : Nat) (op : Op T) (phase : Phase T) : State T :=
  {s with calls:=s.calls.set i ⟨op,phase⟩}

-- pthread_cond_signal. The caller that wakes is any of those parked, and only
-- where there is none the signal goes to nobody. Waking more than one is a
-- signal with spurious wakeups.
def signal (s : State T) (cond : Cond) : Option Nat → Option (State T)
  | some k =>
    match s.calls[k]? with
    | some call => if call.parked cond then some (setPhase s k call.op (.waiting true)) else none
    | none => none
  | none => if s.calls.any (Call.parked cond) then none else some s

-- One pass of a loop under m_, up to the return or the next wait.
def pass (max_ : Nat) (s : State T) (i : Nat) (woken : Option Nat) : Op T → Option (State T)
  | .enq e blocking =>
    match enq max_ s.q e with
    | some q => signal (setPhase {s with q} i (.enq e blocking) (.enqueued true)) .nonEmpty woken
    | none => some (setPhase s i (.enq e blocking) (if blocking then .waiting false else .enqueued false))
  | .deq =>
    match deq s.q with
    | some (e,q) =>
      if max_ ≠ 0 ∧ q.length < max_ then signal (setPhase {s with q} i .deq (.dequeued e)) .hasSpace woken
      else some (setPhase {s with q} i .deq (.dequeued e))
    | none => some (setPhase s i .deq (.waiting false))

inductive Label (T : Type) where
  | call (op : Op T)
  | run (i : Nat) (woken : Option Nat)
  | spurious (i : Nat)
  deriving DecidableEq, Repr

def step (max_ : Nat) (s : State T) : Label T → Option (State T)
  | .call op => some {s with calls:=s.calls ++ [⟨op,.called⟩]}
  | .run i woken =>
    match s.calls[i]? with
    | some ⟨op,.called⟩ | some ⟨op,.waiting true⟩ => pass max_ s i woken op
    | _ => none
  | .spurious i =>
    match s.calls[i]? with
    | some ⟨op,.waiting false⟩ => some (setPhase s i op .called)
    | _ => none

-- How many callers sleep on a condition variable, and how many of its waiters
-- are on their way.
def parked (cond : Cond) (s : State T) : Nat := s.calls.countP (Call.parked cond)

def signalled (cond : Cond) (s : State T) : Nat := s.calls.countP (Call.signalled cond)

def Sleeps (cond : Cond) (s : State T) : Prop := ∃ call ∈ s.calls, call.op.cond = cond ∧ call.phase = .waiting false

theorem Call.parked_iff (call : Call T) (cond : Cond) :
    call.parked cond = true ↔ call.op.cond = cond ∧ call.phase = .waiting false := by
  obtain ⟨op,phase⟩ := call
  cases phase with
  | waiting woken => cases woken <;> simp [Call.parked]
  | called => simp [Call.parked]
  | enqueued => simp [Call.parked]
  | dequeued => simp [Call.parked]

theorem Call.signalled_iff (call : Call T) (cond : Cond) :
    call.signalled cond = true ↔ call.op.cond = cond ∧ call.phase = .waiting true := by
  obtain ⟨op,phase⟩ := call
  cases phase with
  | waiting woken => cases woken <;> simp [Call.signalled]
  | called => simp [Call.signalled]
  | enqueued => simp [Call.signalled]
  | dequeued => simp [Call.signalled]

theorem sleeps_iff {s : State T} {cond : Cond} : Sleeps cond s ↔ parked cond s ≠ 0 := by
  rw [Sleeps,parked,← Nat.pos_iff_ne_zero,List.countP_pos_iff]
  exact exists_congr fun call => and_congr_right fun _ => (call.parked_iff cond).symm

@[simp] theorem setPhase_q (s : State T) (i : Nat) (op : Op T) (phase : Phase T) : (setPhase s i op phase).q = s.q := rfl

theorem parked_setPhase {s : State T} (held : s.calls[i]? = some call) (phase : Phase T) (cond : Cond) :
    parked cond (setPhase s i call.op phase) + (if call.parked cond then 1 else 0) =
      parked cond s + (if Call.parked cond ⟨call.op,phase⟩ then 1 else 0) :=
  count_set (Call.parked cond) _ held

theorem signalled_setPhase {s : State T} (held : s.calls[i]? = some call) (phase : Phase T) (cond : Cond) :
    signalled cond (setPhase s i call.op phase) + (if call.signalled cond then 1 else 0) =
      signalled cond s + (if Call.signalled cond ⟨call.op,phase⟩ then 1 else 0) :=
  count_set (Call.signalled cond) _ held

-- What a step can do. A caller that runs is not parked: its phase is Ready.
def Ready (phase : Phase T) : Prop := phase = .called ∨ phase = .waiting true

inductive Effect (max_ : Nat) (s : State T) : State T → Prop where
  | called (op : Op T) : Effect max_ s {s with calls:=s.calls ++ [⟨op,.called⟩]}
  | pushed (q : List T) : s.calls[i]? = some ⟨.enq e blocking,phase⟩ → Ready phase → enq max_ s.q e = some q →
      signal (setPhase {s with q} i (.enq e blocking) (.enqueued true)) .nonEmpty woken = some s' → Effect max_ s s'
  | full : s.calls[i]? = some ⟨.enq e blocking,phase⟩ → Ready phase → enq max_ s.q e = none →
      Effect max_ s (setPhase s i (.enq e blocking) (if blocking then .waiting false else .enqueued false))
  | popped (q : List T) : s.calls[i]? = some ⟨.deq,phase⟩ → Ready phase → deq s.q = some (e,q) →
      (max_ = 0 ∨ max_ ≤ q.length) → Effect max_ s (setPhase {s with q} i .deq (.dequeued e))
  | freed (q : List T) : s.calls[i]? = some ⟨.deq,phase⟩ → Ready phase → deq s.q = some (e,q) →
      signal (setPhase {s with q} i .deq (.dequeued e)) .hasSpace woken = some s' → Effect max_ s s'
  | empty : s.calls[i]? = some ⟨.deq,phase⟩ → Ready phase → deq s.q = none →
      Effect max_ s (setPhase s i .deq (.waiting false))
  | awoken (op : Op T) : s.calls[i]? = some ⟨op,.waiting false⟩ → Effect max_ s (setPhase s i op .called)

theorem pass_effect (held : s.calls[i]? = some ⟨op,phase⟩) (ready : Ready phase)
    (passed : pass max_ s i woken op = some s') : Effect max_ s s' := by
  cases op with
  | enq e blocking =>
    unfold pass at passed
    dsimp only at passed
    split at passed
    · rename_i q pushed
      exact .pushed q held ready pushed passed
    · rename_i full
      cases Option.some.inj passed
      exact .full held ready full
  | deq =>
    unfold pass at passed
    dsimp only at passed
    split at passed
    · rename_i e q popped
      split at passed
      · exact .freed q held ready popped passed
      · rename_i kept
        cases Option.some.inj passed
        exact .popped q held ready popped (by omega)
    · rename_i empty
      cases Option.some.inj passed
      exact .empty held ready empty

theorem step_effect (taken : step max_ s label = some s') : Effect max_ s s' := by
  cases label with
  | call op => cases Option.some.inj taken; exact .called op
  | run i woken =>
    unfold step at taken
    dsimp only at taken
    split at taken
    · rename_i held; exact pass_effect held (.inl rfl) taken
    · rename_i held; exact pass_effect held (.inr rfl) taken
    · cases taken
  | spurious i =>
    unfold step at taken
    dsimp only at taken
    split at taken
    · rename_i op held
      cases Option.some.inj taken
      exact .awoken op held
    · cases taken

theorem signal_counts {s s' : State T} {cond : Cond} (sent : signal s cond woken = some s') :
    s'.q = s.q ∧ (∀ other, other ≠ cond → parked other s' = parked other s ∧ signalled other s' = signalled other s) ∧
      (parked cond s' = 0 ∧ parked cond s = 0 ∧ signalled cond s' = signalled cond s ∨
        parked cond s' + 1 = parked cond s ∧ signalled cond s' = signalled cond s + 1) := by
  cases woken with
  | none =>
    unfold signal at sent
    dsimp only at sent
    split at sent
    · cases sent
    · rename_i nobody
      cases Option.some.inj sent
      have none_parked : parked cond s = 0 := List.countP_eq_zero.mpr fun call member held =>
        nobody (List.any_eq_true.mpr ⟨call,member,held⟩)
      exact ⟨rfl,fun _ _ => ⟨rfl,rfl⟩,.inl ⟨none_parked,none_parked,rfl⟩⟩
  | some k =>
    unfold signal at sent
    dsimp only at sent
    split at sent
    · rename_i call held
      obtain ⟨sleeps,same⟩ := Option.ite_none_right_eq_some.mp sent
      cases Option.some.inj same
      obtain ⟨own,waiting⟩ := (call.parked_iff cond).mp sleeps
      refine ⟨rfl,fun other different => ?_,.inr ?_⟩
      · have parked := parked_setPhase held (.waiting true) other
        have signalled := signalled_setPhase held (.waiting true) other
        simp [Call.parked_iff,Call.signalled_iff,own,waiting,Ne.symm different] at parked signalled
        exact ⟨parked,signalled⟩
      · have parked := parked_setPhase held (.waiting true) cond
        have signalled := signalled_setPhase held (.waiting true) cond
        simp [Call.parked_iff,Call.signalled_iff,own,waiting] at parked signalled
        exact ⟨parked,signalled⟩
    · cases sent

theorem run_counts {s : State T} (held : s.calls[i]? = some ⟨op,phase⟩) (ready : Ready phase) (q : List T)
    (next : Phase T) (unsignalled : next ≠ .waiting true) (cond : Cond) :
    parked cond (setPhase {s with q} i op next) = parked cond s + (if Call.parked cond ⟨op,next⟩ then 1 else 0) ∧
      (signalled cond (setPhase {s with q} i op next) = signalled cond s ∨
        op.cond = cond ∧ signalled cond (setPhase {s with q} i op next) + 1 = signalled cond s) := by
  have parked : parked cond (setPhase {s with q} i op next) + (if Call.parked cond ⟨op,phase⟩ then 1 else 0) =
      parked cond s + (if Call.parked cond ⟨op,next⟩ then 1 else 0) := parked_setPhase held next cond
  have signalled : signalled cond (setPhase {s with q} i op next) + (if Call.signalled cond ⟨op,phase⟩ then 1 else 0) =
      signalled cond s + (if Call.signalled cond ⟨op,next⟩ then 1 else 0) := signalled_setPhase held next cond
  have awake : Call.parked cond ⟨op,phase⟩ = false := by rcases ready with rfl | rfl <;> rfl
  have silent : Call.signalled cond ⟨op,next⟩ ≠ true := fun sent => unsignalled ((Call.signalled_iff _ _).mp sent).2
  rw [awake] at parked
  rw [if_neg silent] at signalled
  refine ⟨parked,?_⟩
  by_cases own : Call.signalled cond ⟨op,phase⟩
  · rw [if_pos own] at signalled; exact .inr ⟨((Call.signalled_iff _ _).mp own).1,signalled⟩
  · rw [if_neg own] at signalled; exact .inl signalled

theorem return_counts {s : State T} (held : s.calls[i]? = some ⟨op,phase⟩) (ready : Ready phase) (q : List T)
    (next : Phase T) (returned : ∀ woken, next ≠ .waiting woken) (cond : Cond) :
    parked cond (setPhase {s with q} i op next) = parked cond s ∧
      signalled cond s ≤ signalled cond (setPhase {s with q} i op next) + 1 ∧
      (op.cond ≠ cond → signalled cond (setPhase {s with q} i op next) = signalled cond s) := by
  obtain ⟨parked,signalled⟩ := run_counts held ready q next (returned true) cond
  have awake : Call.parked cond ⟨op,next⟩ ≠ true := fun asleep => returned false ((Call.parked_iff _ _).mp asleep).2
  rw [if_neg awake] at parked
  refine ⟨parked,by omega,fun other => ?_⟩
  rcases signalled with same | ⟨own,_⟩
  · exact same
  · exact absurd own other

-- Nobody sleeps next to an element or next to space that is not spoken for.
structure Awake (max_ : Nat) (s : State T) : Prop where
  bounded : max_ ≠ 0 → s.q.length ≤ max_
  consumers : parked .nonEmpty s ≠ 0 → s.q.length ≤ signalled .nonEmpty s
  producers : parked .hasSpace s ≠ 0 → max_ ≠ 0 ∧ max_ ≤ s.q.length + signalled .hasSpace s

theorem initial_awake (max_ : Nat) : Awake max_ (initial : State T) :=
  ⟨fun _ => Nat.zero_le _,fun _ => Nat.zero_le _,fun sleeps => absurd rfl sleeps⟩

theorem called_awake (op : Op T) (awake : Awake max_ s) : Awake max_ {s with calls:=s.calls ++ [⟨op,.called⟩]} := by
  have parked : ∀ cond, parked cond {s with calls:=s.calls ++ [⟨op,.called⟩]} = parked cond s := fun cond => by
    simp [parked,Call.parked]
  have signalled : ∀ cond, signalled cond {s with calls:=s.calls ++ [⟨op,.called⟩]} = signalled cond s := fun cond => by
    simp [signalled,Call.signalled]
  refine ⟨awake.bounded,?_,?_⟩
  · rw [parked,signalled]; exact awake.consumers
  · rw [parked,signalled]; exact awake.producers

theorem pushed_awake {s : State T} (awake : Awake max_ s) (held : s.calls[i]? = some ⟨.enq e blocking,phase⟩)
    (ready : Ready phase) (pushed : enq max_ s.q e = some q)
    (sent : signal (setPhase {s with q} i (.enq e blocking) (.enqueued true)) .nonEmpty woken = some s') : Awake max_ s' := by
  obtain ⟨rfl,space⟩ := enq_some pushed
  obtain ⟨same,others,own⟩ := signal_counts sent
  obtain ⟨sleepers,waiters⟩ := others .hasSpace (by decide)
  obtain ⟨consumers,_,coming⟩ := return_counts held ready (s.q ++ [e]) (.enqueued true) (by simp) .nonEmpty
  obtain ⟨producers,leaving,_⟩ := return_counts held ready (s.q ++ [e]) (.enqueued true) (by simp) .hasSpace
  have going := coming (by simp [Op.cond])
  have length : s'.q.length = s.q.length + 1 := by rw [same]; simp
  refine ⟨fun bounded => by omega,fun asleep => ?_,fun asleep => ?_⟩
  · have before := awake.consumers (by omega)
    omega
  · have before := awake.producers (by omega)
    omega

theorem freed_awake {s : State T} (awake : Awake max_ s) (held : s.calls[i]? = some ⟨.deq,phase⟩)
    (ready : Ready phase) (popped : deq s.q = some (e,q))
    (sent : signal (setPhase {s with q} i .deq (.dequeued e)) .hasSpace woken = some s') : Awake max_ s' := by
  obtain ⟨same,others,own⟩ := signal_counts sent
  obtain ⟨sleepers,waiters⟩ := others .nonEmpty (by decide)
  obtain ⟨consumers,leaving,_⟩ := return_counts held ready q (.dequeued e) (by simp) .nonEmpty
  obtain ⟨producers,_,coming⟩ := return_counts held ready q (.dequeued e) (by simp) .hasSpace
  have going := coming (by simp [Op.cond])
  have length : s'.q.length + 1 = s.q.length := by rw [same,deq_some popped]; rfl
  have bounded := awake.bounded
  refine ⟨fun limited => by omega,fun asleep => ?_,fun asleep => ?_⟩
  · have before := awake.consumers (by omega)
    omega
  · have before := awake.producers (by omega)
    omega

-- Without a signal the queue has no limit, and then nobody waits for space.
theorem popped_awake {s : State T} (awake : Awake max_ s) (held : s.calls[i]? = some ⟨.deq,phase⟩)
    (ready : Ready phase) (popped : deq s.q = some (e,q)) (quiet : max_ = 0 ∨ max_ ≤ q.length) :
    Awake max_ (setPhase {s with q} i .deq (.dequeued e)) := by
  obtain ⟨consumers,leaving,_⟩ := return_counts held ready q (.dequeued e) (by simp) .nonEmpty
  obtain ⟨producers,_,coming⟩ := return_counts held ready q (.dequeued e) (by simp) .hasSpace
  have going := coming (by simp [Op.cond])
  have length : q.length + 1 = s.q.length := by rw [deq_some popped]; rfl
  have bounded := awake.bounded
  refine ⟨fun limited => ?_,fun asleep => ?_,fun asleep => ?_⟩
  · simp only [setPhase_q]; omega
  · have before := awake.consumers (by omega)
    simp only [setPhase_q]; omega
  · have before := awake.producers (by omega)
    simp only [setPhase_q]; omega

theorem full_awake {s : State T} (awake : Awake max_ s) (held : s.calls[i]? = some ⟨.enq e blocking,phase⟩)
    (ready : Ready phase) (full : enq max_ s.q e = none) :
    Awake max_ (setPhase s i (.enq e blocking) (if blocking then .waiting false else .enqueued false)) := by
  have unsignalled : (if blocking then Phase.waiting false else .enqueued false : Phase T) ≠ .waiting true := by
    cases blocking <;> simp
  obtain ⟨consumers,coming⟩ := run_counts held ready s.q _ unsignalled .nonEmpty
  have elsewhere : Call.parked .nonEmpty ⟨.enq e blocking,if blocking then .waiting false else .enqueued false⟩ = false := by
    cases blocking <;> rfl
  rw [elsewhere] at consumers
  have going : signalled .nonEmpty (setPhase s i (.enq e blocking) (if blocking then .waiting false else .enqueued false)) =
      signalled .nonEmpty s := coming.resolve_right (fun own => by cases own.1)
  have limit : max_ ≠ 0 ∧ max_ ≤ s.q.length := by
    unfold enq at full
    split at full
    · cases full
    · omega
  refine ⟨awake.bounded,fun asleep => ?_,fun _ => ⟨limit.1,Nat.le_add_right_of_le limit.2⟩⟩
  rw [going]
  exact awake.consumers (by simpa [consumers] using asleep)

theorem empty_awake {s : State T} (awake : Awake max_ s) (held : s.calls[i]? = some ⟨.deq,phase⟩)
    (ready : Ready phase) (empty : deq s.q = none) : Awake max_ (setPhase s i .deq (.waiting false)) := by
  obtain ⟨producers,coming⟩ := run_counts held ready s.q (.waiting false) (by simp) .hasSpace
  have nothing : s.q = [] := by
    cases queued : s.q with
    | nil => rfl
    | cons => rw [queued] at empty; cases empty
  refine ⟨awake.bounded,fun _ => ?_,fun asleep => ?_⟩
  · rw [setPhase_q,nothing]; exact Nat.zero_le _
  · have going : signalled .hasSpace (setPhase s i .deq (.waiting false)) = signalled .hasSpace s :=
      coming.resolve_right (fun own => by cases own.1)
    rw [setPhase_q,going]
    exact awake.producers (by simpa [producers,Call.parked,Op.cond] using asleep)

theorem awoken_awake {s : State T} (awake : Awake max_ s) (held : s.calls[i]? = some ⟨op,.waiting false⟩) :
    Awake max_ (setPhase s i op .called) := by
  have parked : ∀ cond, parked cond (setPhase s i op .called) ≤ parked cond s := fun cond => by
    have counted : parked cond (setPhase s i op .called) + _ =
        parked cond s + (if Call.parked cond ⟨op,.called⟩ then 1 else 0) := parked_setPhase held .called cond
    have awake : Call.parked cond ⟨op,.called⟩ ≠ true := by simp [Call.parked]
    rw [if_neg awake] at counted
    omega
  have signalled : ∀ cond, signalled cond (setPhase s i op .called) = signalled cond s := fun cond => by
    simpa [Call.signalled] using signalled_setPhase held .called cond
  refine ⟨awake.bounded,fun asleep => ?_,fun asleep => ?_⟩
  · have before := parked .nonEmpty
    rw [signalled]; exact awake.consumers (by omega)
  · have before := parked .hasSpace
    rw [signalled]; exact awake.producers (by omega)

theorem step_awake (awake : Awake max_ s) (taken : step max_ s label = some s') : Awake max_ s' := by
  cases step_effect taken with
  | called op => exact called_awake op awake
  | pushed q held ready pushed sent => exact pushed_awake awake held ready pushed sent
  | full held ready full => exact full_awake awake held ready full
  | popped q held ready popped quiet => exact popped_awake awake held ready popped quiet
  | freed q held ready popped sent => exact freed_awake awake held ready popped sent
  | empty held ready empty => exact empty_awake awake held ready empty
  | awoken op held => exact awoken_awake awake held

theorem runs_awake (path : Runs (step max_) free (initial : State T) labels s) : Awake max_ s :=
  path.invariant (initial_awake max_) fun _ _ _ awake _ taken => step_awake awake taken

theorem ready_runs (max_ : Nat) (held : s.calls[i]? = some ⟨op,phase⟩) (ready : Ready phase) :
    ∃ woken s', step max_ s (.run i woken : Label T) = some s' := by
  have sends : ∀ (t : State T) (cond : Cond), ∃ woken s', signal t cond woken = some s' := fun t cond => by
    by_cases somebody : t.calls.any (Call.parked cond)
    · obtain ⟨call,member,sleeps⟩ := List.any_eq_true.mp somebody
      obtain ⟨k,there⟩ := List.getElem?_of_mem member
      exact ⟨some k,_,by simp only [signal,there,sleeps]; rfl⟩
    · exact ⟨none,t,by simp only [signal,somebody]; rfl⟩
  have passes : ∃ woken s', pass max_ s i woken op = some s' := by
    cases op with
    | enq e blocking =>
      cases pushed : enq max_ s.q e with
      | some q => simpa only [pass,pushed] using sends _ _
      | none => exact ⟨none,_,by simp only [pass,pushed]; rfl⟩
    | deq =>
      cases popped : deq s.q with
      | some front =>
        by_cases space : max_ ≠ 0 ∧ front.2.length < max_
        · simpa only [pass,popped,if_pos space] using sends _ _
        · exact ⟨none,_,by simp only [pass,popped,if_neg space]; rfl⟩
      | none => exact ⟨none,_,by simp only [pass,popped]; rfl⟩
  rcases ready with rfl | rfl
  · simpa only [step,held] using passes
  · simpa only [step,held] using passes

theorem signalled_waits {s : State T} {cond : Cond} (coming : signalled cond s ≠ 0) :
    ∃ (i : Nat) (op : Op T), s.calls[i]? = some ⟨op,.waiting true⟩ ∧ op.cond = cond := by
  obtain ⟨call,member,signalled⟩ := List.countP_pos_iff.mp (Nat.pos_of_ne_zero coming)
  obtain ⟨own,waiting⟩ := (Call.signalled_iff _ _).mp signalled
  obtain ⟨i,held⟩ := List.getElem?_of_mem member
  exact ⟨i,call.op,waiting ▸ held,own⟩

theorem no_wakeup_lost (max_ : Nat) (path : Runs (step max_) free (initial : State T) labels s) :
    (Sleeps .nonEmpty s → s.q.length ≤ signalled .nonEmpty s) ∧
      (Sleeps .hasSpace s → max_ ≠ 0 ∧ s.q.length ≤ max_ ∧ max_ - s.q.length ≤ signalled .hasSpace s) ∧
      (Sleeps .nonEmpty s → s.q ≠ [] → ∃ (i : Nat) (op : Op T), s.calls[i]? = some ⟨op,.waiting true⟩ ∧ op.cond = .nonEmpty) ∧
      (Sleeps .hasSpace s → s.q.length < max_ → ∃ (i : Nat) (op : Op T), s.calls[i]? = some ⟨op,.waiting true⟩ ∧ op.cond = .hasSpace) := by
  have awake := runs_awake path
  refine ⟨fun asleep => awake.consumers (sleeps_iff.mp asleep),fun asleep => ?_,fun asleep queued => ?_,fun asleep space => ?_⟩
  · obtain ⟨limited,spoken⟩ := awake.producers (sleeps_iff.mp asleep)
    exact ⟨limited,awake.bounded limited,by omega⟩
  · have spoken := awake.consumers (sleeps_iff.mp asleep)
    have some_queued := List.length_pos_iff.mpr queued
    exact signalled_waits (by omega)
  · have spoken := (awake.producers (sleeps_iff.mp asleep)).2
    exact signalled_waits (by omega)

-- Two consumers sleep and an element comes: the second sleeps on, next to an
-- element that the first was woken for.
theorem second_consumer_sleeps : ∃ s, Runs (step 1) free (initial : State Nat)
      [.call .deq,.call .deq,.run 0 none,.run 1 none,.call (.enq 7 true),.run 2 (some 0)] s ∧ Sleeps .nonEmpty s ∧
      s.q = [7] ∧ ∃ (i : Nat) (op : Op Nat), s.calls[i]? = some ⟨op,.waiting true⟩ ∧ op.cond = .nonEmpty := by
  have ran : (exec (step 1) (initial : State Nat)
      [.call .deq,.call .deq,.run 0 none,.run 1 none,.call (.enq 7 true),.run 2 (some 0)]).map (fun s => (s.q,s.calls)) =
      some ([7],[⟨.deq,.waiting true⟩,⟨.deq,.waiting false⟩,⟨.enq 7 true,.enqueued true⟩]) := by decide
  obtain ⟨s,path,seen⟩ := exec_free_observed ran
  obtain ⟨queued,calls⟩ := Prod.mk.inj seen
  have asleep : Sleeps .nonEmpty s := ⟨⟨.deq,.waiting false⟩,by simp [calls],rfl,rfl⟩
  exact ⟨s,path,asleep,queued,(no_wakeup_lost 1 path).2.2.1 asleep (by simp [queued])⟩

end YfsLab.Fifo
