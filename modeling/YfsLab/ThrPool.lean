import YfsLab.Lib.Counting
import YfsLab.Lib.Runs

namespace YfsLab.ThrPool
open Machine

-- job_t. A job is the objfunc_wrapper that addObjJob allocates, known by the
-- number of the call; the poison pill is the one with f == NULL.
inductive Job where
  | wrapper (i : Nat)
  | poison
  deriving DecidableEq, Repr

-- The critical sections of fifo::enq and fifo::deq. `none` is where they wait
-- on has_space_c_ and non_empty_c_ or, in enq, give up.
section Fifo
variable {T : Type}

def enq (max_ : Nat) (q : List T) (e : T) : Option (List T) :=
  if max_ = 0 ∨ q.length < max_ then some (q ++ [e]) else none

def deq : List T → Option (T × List T)
  | [] => none
  | e :: q => some (e,q)

theorem enq_some {q q' : List T} (pushed : enq max_ q e = some q') : q' = q ++ [e] ∧ (max_ = 0 ∨ q.length < max_) := by
  obtain ⟨space,same⟩ := Option.ite_none_right_eq_some.mp pushed
  exact ⟨(Option.some.inj same).symm,space⟩

theorem deq_some {q q' : List T} (popped : deq q = some (e,q')) : q = e :: q' := by
  cases q with
  | nil => cases popped
  | cons => cases popped; rfl

end Fifo

-- A call of addObjJob; `waiting` is inside pthread_cond_wait.
inductive Phase where
  | called
  | waiting
  | returned (added : Bool)
  deriving DecidableEq, Repr

-- do_worker. `took` has not looked at the job yet or is inside j.f.
inductive WorkerPc where
  | takeJob
  | took (j : Job)
  | exited
  deriving DecidableEq, Repr

structure Destructor where
  poisoned : Nat
  joined : Nat
  deriving DecidableEq, Repr

-- `enqueued`, `dequeued` (with the worker) and `executed` are histories.
structure State where
  jobq : List Job
  calls : List Phase
  workers : List WorkerPc
  destructor : Option Destructor
  enqueued : List Job
  dequeued : List (Nat × Job)
  executed : List Nat
  deriving DecidableEq, Repr

def initial (sz : Nat) : State :=
  {jobq:=[],calls:=[],workers:=List.replicate sz .takeJob,destructor:=none,enqueued:=[],dequeued:=[],executed:=[]}

def push (s : State) (q : List Job) (j : Job) : State :=
  {s with jobq:=q,enqueued:=s.enqueued ++ [j]}

-- No machine has the 21474837 threads from which on 100*sz leaves an int.
def addJob (sz : Nat) (blocking : Bool) (s : State) (i : Nat) : State :=
  match enq (100*sz) s.jobq (.wrapper i) with
  | some q => {push s q (.wrapper i) with calls:=s.calls.set i (.returned true)}
  | none => {s with calls:=s.calls.set i (if blocking then .waiting else .returned false)}

inductive Label where
  | addObjJob
  | add (i : Nat)
  | take (w : Nat)
  | work (w : Nat)
  | destroy
  | poison
  | join
  deriving DecidableEq, Repr

-- A thread in pthread_cond_wait may go on at any time, after a signal or not:
-- the loops test again and wait again.
def step (sz : Nat) (blocking : Bool) (s : State) : Label → Option State
  | .addObjJob => some {s with calls:=s.calls ++ [.called]}
  | .add i =>
    match s.calls[i]? with
    | none | some (.returned _) => none
    | some _ => some (addJob sz blocking s i)
  | .take w =>
    match s.workers[w]?,deq s.jobq with
    | some .takeJob,some (j,q) =>
      some {s with jobq:=q,workers:=s.workers.set w (.took j),dequeued:=s.dequeued ++ [(w,j)]}
    | _,_ => none
  | .work w =>
    match s.workers[w]? with
    | some (.took (.wrapper i)) => some {s with workers:=s.workers.set w .takeJob,executed:=s.executed ++ [i]}
    | some (.took .poison) => some {s with workers:=s.workers.set w .exited}
    | _ => none
  | .destroy => if s.destructor.isSome then none else some {s with destructor:=some ⟨0,0⟩}
  | .poison =>
    match s.destructor with
    | some d =>
      if d.poisoned < sz then
        (enq (100*sz) s.jobq .poison).map fun q => {push s q .poison with destructor:=some {d with poisoned:=d.poisoned+1}}
      else none
    | none => none
  | .join =>
    match s.destructor with
    | some d =>
      if d.poisoned = sz ∧ d.joined < sz ∧ s.workers[d.joined]? = some .exited then
        some {s with destructor:=some {d with joined:=d.joined+1}}
      else none
    | none => none

-- "this function can be called only when no external thread will ever use this
-- thread pool again or is currently blocking on it"
def Documented (s : State) : Label → Prop
  | .addObjJob => s.destructor = none
  | .destroy => ∀ phase ∈ s.calls, phase = .returned true ∨ phase = .returned false
  | _ => True

instance documentedDecidable (s : State) : (label : Label) → Decidable (Documented s label)
  | .addObjJob => inferInstanceAs (Decidable (s.destructor = none))
  | .destroy => inferInstanceAs (Decidable (∀ phase ∈ s.calls, phase = .returned true ∨ phase = .returned false))
  | .add _ | .take _ | .work _ | .poison | .join => inferInstanceAs (Decidable True)

inductive Effect (sz : Nat) (s : State) : State → Prop where
  | called : s.destructor = none → Effect sz s {s with calls:=s.calls ++ [.called]}
  | accepted (q : List Job) : s.calls[i]? = some phase → phase = .called ∨ phase = .waiting →
      enq (100*sz) s.jobq (.wrapper i) = some q →
      Effect sz s {push s q (.wrapper i) with calls:=s.calls.set i (.returned true)}
  | refused : s.calls[i]? = some phase → phase = .called ∨ phase = .waiting → result ≠ .returned true →
      Effect sz s {s with calls:=s.calls.set i result}
  | took : s.workers[w]? = some .takeJob → deq s.jobq = some (j,q) →
      Effect sz s {s with jobq:=q,workers:=s.workers.set w (.took j),dequeued:=s.dequeued ++ [(w,j)]}
  | worked : s.workers[w]? = some (.took (.wrapper i)) →
      Effect sz s {s with workers:=s.workers.set w .takeJob,executed:=s.executed ++ [i]}
  | exited : s.workers[w]? = some (.took .poison) → Effect sz s {s with workers:=s.workers.set w .exited}
  | destroyed : s.destructor = none → (∀ phase ∈ s.calls, phase = .returned true ∨ phase = .returned false) →
      Effect sz s {s with destructor:=some ⟨0,0⟩}
  | poisoned (q : List Job) : s.destructor = some d → d.poisoned < sz → enq (100*sz) s.jobq .poison = some q →
      Effect sz s {push s q .poison with destructor:=some {d with poisoned:=d.poisoned+1}}
  | joined : s.destructor = some d → d.poisoned = sz → d.joined < sz → s.workers[d.joined]? = some .exited →
      Effect sz s {s with destructor:=some {d with joined:=d.joined+1}}

theorem add_effect (held : s.calls[i]? = some phase) (inside : phase = .called ∨ phase = .waiting) :
    Effect sz s (addJob sz blocking s i) := by
  unfold addJob
  split
  · rename_i q pushed
    exact .accepted q held inside pushed
  · refine .refused held inside ?_
    cases blocking <;> simp

theorem step_effect (documented : Documented s label) (taken : step sz blocking s label = some t) : Effect sz s t := by
  cases label with
  | addObjJob =>
    cases taken
    exact .called documented
  | add i =>
    cases held : s.calls[i]? with
    | none => simp [step,held] at taken
    | some phase =>
      cases phase with
      | called => simp only [step,held,Option.some.injEq] at taken; exact taken ▸ add_effect held (.inl rfl)
      | waiting => simp only [step,held,Option.some.injEq] at taken; exact taken ▸ add_effect held (.inr rfl)
      | returned => simp [step,held] at taken
  | take w =>
    simp only [step] at taken
    split at taken
    · rename_i waiting popped
      exact Option.some.inj taken ▸ .took waiting popped
    · cases taken
  | work w =>
    simp only [step] at taken
    split at taken
    · rename_i held
      exact Option.some.inj taken ▸ .worked held
    · rename_i held
      exact Option.some.inj taken ▸ .exited held
    · cases taken
  | destroy =>
    obtain ⟨first,same⟩ := Option.ite_none_left_eq_some.mp taken
    exact Option.some.inj same ▸ .destroyed (by simpa using first) documented
  | poison =>
    cases started : s.destructor with
    | none => simp [step,started] at taken
    | some d =>
      simp only [step,started] at taken
      obtain ⟨more,taken⟩ := Option.ite_none_right_eq_some.mp taken
      obtain ⟨q,pushed,same⟩ := Option.map_eq_some_iff.mp taken
      exact same ▸ .poisoned q started more pushed
  | join =>
    cases started : s.destructor with
    | none => simp [step,started] at taken
    | some d =>
      simp only [step,started] at taken
      obtain ⟨⟨all,more,gone⟩,same⟩ := Option.ite_none_right_eq_some.mp taken
      exact Option.some.inj same ▸ .joined started all more gone

def added : Option Phase → Nat
  | some (.returned true) => 1
  | _ => 0

def WorkerPc.died : WorkerPc → Bool
  | .took .poison | .exited => true
  | _ => false

def ate : Option WorkerPc → Nat
  | some pc => if pc.died then 1 else 0
  | none => 0

def State.poisoned (s : State) : Nat :=
  match s.destructor with
  | some d => d.poisoned
  | none => 0

def Bounded (sz : Nat) (s : State) : Prop := s.jobq.length ≤ 100*sz

-- First in, first out: what was enqueued and not dequeued is the queue.
def Ordered (s : State) : Prop := s.enqueued = s.dequeued.map Prod.snd ++ s.jobq

def AcceptedOnce (s : State) : Prop := ∀ i, s.enqueued.count (.wrapper i) = added s.calls[i]?

def RanOnce (s : State) : Prop :=
  ∀ i, (s.dequeued.map Prod.snd).count (.wrapper i) = s.executed.count i + s.workers.count (.took (.wrapper i))

def PillsEaten (s : State) : Prop :=
  (s.dequeued.map Prod.snd).count .poison = s.workers.countP WorkerPc.died ∧
    ∀ w, s.dequeued.count (w,.poison) = ate s.workers[w]?

def PillsLast (s : State) : Prop :=
  (s.destructor.isSome → ∀ phase ∈ s.calls, phase = .returned true ∨ phase = .returned false) ∧
    ∃ jobs, .poison ∉ jobs ∧ s.enqueued = jobs ++ List.replicate s.poisoned .poison

def JoinedExited (sz : Nat) (s : State) : Prop :=
  s.workers.length = sz ∧ ∀ d, s.destructor = some d → ∀ w < d.joined, s.workers[w]? = some .exited

section Effects
variable {sz : Nat} {s t : State}

theorem Effect.bounded (size : 1 ≤ sz) (effect : Effect sz s t) (held : Bounded sz s) : Bounded sz t := by
  unfold Bounded at held ⊢
  cases effect with
  | called | refused | worked | exited | destroyed | joined => exact held
  | accepted q _ _ pushed | poisoned q _ _ pushed =>
    obtain ⟨rfl,space⟩ := enq_some pushed
    simp only [push,List.length_append,List.length_singleton]
    omega
  | took _ popped =>
    have shorter := congrArg List.length (deq_some popped)
    simp only [List.length_cons] at shorter
    simp only
    omega

theorem Effect.ordered (effect : Effect sz s t) (held : Ordered s) : Ordered t := by
  unfold Ordered at held ⊢
  cases effect with
  | called | refused | worked | exited | destroyed | joined => exact held
  | accepted q _ _ pushed | poisoned q _ _ pushed =>
    obtain ⟨rfl,_⟩ := enq_some pushed
    simp only [push,held,List.append_assoc]
  | took _ popped =>
    rw [deq_some popped] at held
    simpa using held

theorem added_inside {calls : List Phase} {phase : Phase} {i : Nat} (held : calls[i]? = some phase) (inside : phase = .called ∨ phase = .waiting) : added calls[i]? = 0 := by
  rcases inside with rfl | rfl
  · rw [held]; rfl
  · rw [held]; rfl

theorem added_other {phase : Phase} (different : phase ≠ .returned true) : added (some phase) = 0 := by
  unfold added
  split
  · rename_i equal
    exact absurd (Option.some.inj equal) different
  · rfl

theorem Effect.acceptedOnce (effect : Effect sz s t) (held : AcceptedOnce s) : AcceptedOnce t := by
  intro i
  specialize held i
  cases effect with
  | took | worked | exited | destroyed | joined => exact held
  | called =>
    rw [held]
    rcases Nat.lt_trichotomy i s.calls.length with old | rfl | new
    · rw [List.getElem?_append_left old]
    · simp [added]
    · rw [List.getElem?_eq_none (by omega),List.getElem?_eq_none (by simp; omega)]
  | @accepted k phase q there inside pushed =>
    simp only [push,Counting.count_concat,held]
    by_cases same : i = k
    · subst same
      rw [added_inside there inside,entry_self there,if_pos rfl]
      rfl
    · rw [entry_other same,if_neg (by simpa using Ne.symm same),Nat.add_zero]
  | @refused k phase result there inside different =>
    rw [held]
    by_cases same : i = k
    · subst same
      rw [added_inside there inside,entry_self there,added_other different]
    · rw [entry_other same]
  | poisoned =>
    simp only [push,Counting.count_concat,held]
    rfl

theorem Effect.ranOnce (effect : Effect sz s t) (held : RanOnce s) : RanOnce t := by
  intro i
  specialize held i
  cases effect with
  | called | accepted | refused | destroyed | poisoned | joined => exact held
  | @took w j q idle popped =>
    have counts := Counting.count_set_value (.took (.wrapper i)) (.took j) idle
    simp only [List.map_append,List.map_cons,List.map_nil,Counting.count_concat,held]
    simp only [reduceCtorEq,if_false,WorkerPc.took.injEq] at counts
    omega
  | @worked w k there =>
    have counts := Counting.count_set_value (.took (.wrapper i)) .takeJob there
    simp only [Counting.count_concat,held]
    simp only [reduceCtorEq,if_false,WorkerPc.took.injEq,Job.wrapper.injEq] at counts
    omega
  | @exited w there =>
    have counts := Counting.count_set_value (.took (.wrapper i)) .exited there
    simp only [reduceCtorEq,if_false,WorkerPc.took.injEq] at counts
    simp only [held]
    omega

theorem ate_kept {workers : List WorkerPc} {old new : WorkerPc} {w : Nat} (there : workers[w]? = some old)
    (same : old.died = new.died) (other : Nat) : ate (workers.set w new)[other]? = ate workers[other]? := by
  by_cases here : other = w
  · subst here
    rw [there,entry_self there,ate,ate,same]
  · rw [entry_other here]

theorem Effect.pillsEaten (effect : Effect sz s t) (held : PillsEaten s) : PillsEaten t := by
  obtain ⟨total,each⟩ := held
  cases effect with
  | called | accepted | refused | destroyed | poisoned | joined => exact ⟨total,each⟩
  | @took w j q idle popped =>
    have counts := Counting.count_set WorkerPc.died (.took j) idle
    refine ⟨?_,fun k => ?_⟩
    · simp only [List.map_append,List.map_cons,List.map_nil,Counting.count_concat,total]
      cases j with
      | wrapper => simpa [WorkerPc.died] using counts.symm
      | poison => simpa [WorkerPc.died] using counts.symm
    · simp only [Counting.count_concat,each k]
      by_cases same : k = w
      · subst same
        rw [idle,entry_self idle]
        cases j with
        | wrapper => simp [ate,WorkerPc.died]
        | poison => simp [ate,WorkerPc.died]
      · rw [entry_other same,if_neg (by simp [Ne.symm same]),Nat.add_zero]
  | @worked w k there =>
    have counts := Counting.count_set WorkerPc.died .takeJob there
    refine ⟨?_,fun other => ?_⟩
    · simpa [WorkerPc.died,total] using counts.symm
    · exact (each other).trans (@ate_kept _ _ .takeJob _ there rfl other).symm
  | @exited w there =>
    have counts := Counting.count_set WorkerPc.died .exited there
    refine ⟨?_,fun other => ?_⟩
    · simpa [WorkerPc.died,total] using counts.symm
    · exact (each other).trans (@ate_kept _ _ .exited _ there rfl other).symm

theorem inside_before {phase : Phase} {i : Nat} (held : PillsLast s) (there : s.calls[i]? = some phase)
    (inside : phase = .called ∨ phase = .waiting) : s.destructor = none := by
  cases started : s.destructor with
  | none => rfl
  | some d =>
    rcases held.1 (by simp [started]) phase (List.mem_of_getElem? there) with rfl | rfl
    · simp at inside
    · simp at inside

theorem Effect.pillsLast (effect : Effect sz s t) (held : PillsLast s) : PillsLast t := by
  have whole := held
  obtain ⟨returned,jobs,clean,shape⟩ := held
  cases effect with
  | took | worked | exited => exact ⟨returned,jobs,clean,shape⟩
  | called before => exact ⟨fun started => absurd started (by simp [before]),jobs,clean,shape⟩
  | @accepted k phase q there inside pushed =>
    have before := inside_before whole there inside
    refine ⟨fun started => absurd started (by simp [push,before]),jobs ++ [.wrapper k],by simp [clean],?_⟩
    simp only [State.poisoned,before,List.replicate_zero,List.append_nil] at shape
    simp only [State.poisoned,push,before,List.replicate_zero,List.append_nil,shape]
  | refused there inside _ =>
    exact ⟨fun started => absurd started (by simp [inside_before whole there inside]),jobs,clean,shape⟩
  | destroyed before all =>
    refine ⟨fun _ => all,jobs,clean,?_⟩
    simpa [State.poisoned,before] using shape
  | @poisoned d q started more pushed =>
    refine ⟨fun _ => returned (by simp [started]),jobs,clean,?_⟩
    simp only [State.poisoned,started] at shape
    simp only [State.poisoned,push,shape,List.replicate_succ',List.append_assoc]
  | joined started =>
    refine ⟨fun _ => returned (by simp [started]),jobs,clean,?_⟩
    simpa [State.poisoned,started] using shape

theorem exited_kept {workers : List WorkerPc} {old new : WorkerPc} {w k : Nat} (there : workers[w]? = some old)
    (alive : old ≠ .exited) (gone : workers[k]? = some .exited) : (workers.set w new)[k]? = some .exited := by
  by_cases here : k = w
  · subst here
    exact absurd (Option.some.inj (there.symm.trans gone)) alive
  · rw [entry_other here,gone]

theorem Effect.joinedExited (effect : Effect sz s t) (held : JoinedExited sz s) : JoinedExited sz t := by
  obtain ⟨size,gone⟩ := held
  cases effect with
  | called | accepted | refused => exact ⟨size,gone⟩
  | took there | worked there | exited there =>
    exact ⟨by simpa using size,fun d started k below => exited_kept there (by simp) (gone d started k below)⟩
  | destroyed =>
    refine ⟨size,fun d started k below => ?_⟩
    cases started
    exact absurd below (Nat.not_lt_zero k)
  | poisoned q started =>
    refine ⟨size,fun d now k below => ?_⟩
    cases now
    exact gone _ started k below
  | joined started _ _ last =>
    refine ⟨size,fun d now k below => ?_⟩
    cases now
    rcases Nat.lt_succ_iff_lt_or_eq.mp below with earlier | rfl
    · exact gone _ started k earlier
    · exact last

end Effects

structure Invariant (sz : Nat) (s : State) : Prop where
  bounded : Bounded sz s
  ordered : Ordered s
  acceptedOnce : AcceptedOnce s
  ranOnce : RanOnce s
  pillsEaten : PillsEaten s
  pillsLast : PillsLast s
  joinedExited : JoinedExited sz s

theorem initial_invariant (sz : Nat) : Invariant sz (initial sz) where
  bounded := Nat.zero_le _
  ordered := rfl
  acceptedOnce := fun _ => rfl
  ranOnce := fun i => by simp [initial,List.count_replicate]
  pillsEaten := by
    refine ⟨by simp [initial,List.countP_replicate,WorkerPc.died],fun w => ?_⟩
    simp only [initial,List.getElem?_replicate]
    split <;> rfl
  pillsLast := ⟨fun started => absurd started (by simp [initial]),[],by simp,rfl⟩
  joinedExited := ⟨by simp [initial],fun _ started => absurd started (by simp [initial])⟩

theorem reached_invariant (size : 1 ≤ sz) (path : Runs (step sz blocking) Documented (initial sz) labels s) :
    Invariant sz s := by
  apply path.invariant (initial_invariant sz)
  intro before label after held documented taken
  have effect := step_effect documented taken
  exact ⟨effect.bounded size held.bounded,effect.ordered held.ordered,effect.acceptedOnce held.acceptedOnce,
    effect.ranOnce held.ranOnce,effect.pillsEaten held.pillsEaten,effect.pillsLast held.pillsLast,
    effect.joinedExited held.joinedExited⟩

section Joined
variable {sz : Nat} {s : State}

theorem Invariant.all_exited (valid : Invariant sz s) (done : s.destructor = some ⟨sz,sz⟩) : ∀ pc ∈ s.workers, pc = .exited := by
  intro pc member
  obtain ⟨w,held⟩ := List.mem_iff_getElem?.mp member
  have below := (List.getElem?_eq_some_iff.mp held).1
  rw [valid.joinedExited.1] at below
  exact Option.some.inj (held.symm.trans (valid.joinedExited.2 _ done w below))

-- The pills were the last to be enqueued and all have been eaten: nothing is left.
theorem Invariant.queue_empty (valid : Invariant sz s) (size : 1 ≤ sz) (done : s.destructor = some ⟨sz,sz⟩) : s.jobq = [] := by
  obtain ⟨_,jobs,clean,shape⟩ := valid.pillsLast
  have eaten : (s.dequeued.map Prod.snd).count .poison = sz := by
    rw [valid.pillsEaten.1,← valid.joinedExited.1]
    refine List.countP_eq_length.mpr fun pc member => ?_
    rw [valid.all_exited done pc member]
    rfl
  have all : s.enqueued.count .poison = sz := by
    rw [shape,List.count_append,List.count_eq_zero_of_not_mem clean,List.count_replicate_self,State.poisoned,done,
      Nat.zero_add]
  rw [valid.ordered,List.count_append,eaten] at all
  rcases List.eq_nil_or_concat s.jobq with empty | ⟨front,last,equal⟩
  · exact empty
  · have last_pill : last = .poison := by
      obtain ⟨less,rfl⟩ := Nat.exists_eq_add_of_le' size
      rw [valid.ordered,equal,List.concat_eq_append,← List.append_assoc,State.poisoned,done,List.replicate_succ',
        ← List.append_assoc] at shape
      exact List.singleton_inj.mp (List.append_inj' shape rfl).2
    rw [equal,last_pill,List.concat_eq_append,Counting.count_concat] at all
    simp only [if_true] at all
    omega

theorem Invariant.dequeued_all (valid : Invariant sz s) (size : 1 ≤ sz) (done : s.destructor = some ⟨sz,sz⟩) :
    s.dequeued.map Prod.snd = s.enqueued := by
  rw [valid.ordered,valid.queue_empty size done,List.append_nil]

theorem Invariant.executed_added (valid : Invariant sz s) (size : 1 ≤ sz) (done : s.destructor = some ⟨sz,sz⟩) (i : Nat) :
    s.executed.count i = added s.calls[i]? := by
  have idle : s.workers.count (.took (.wrapper i)) = 0 := by
    refine List.count_eq_zero_of_not_mem fun member => ?_
    cases valid.all_exited done _ member
  have ran := valid.ranOnce i
  rw [valid.dequeued_all size done,valid.acceptedOnce i,idle] at ran
  exact ran.symm

theorem Invariant.ate_one (valid : Invariant sz s) (done : s.destructor = some ⟨sz,sz⟩) (below : w < sz) :
    s.dequeued.count (w,.poison) = 1 := by
  rw [valid.pillsEaten.2 w,valid.joinedExited.2 _ done w below]
  rfl

end Joined

-- ~ThrPool returns with destructor = some ⟨sz,sz⟩.
theorem jobs_run_once {sz : Nat} {blocking : Bool} (size : 1 ≤ sz)
    (path : Runs (step sz blocking) Documented (initial sz) labels s) :
    s.jobq.length ≤ 100*sz ∧
      (s.destructor = some ⟨sz,sz⟩ →
        (∀ (i : Nat) (phase : Phase), s.calls[i]? = some phase →
          (phase = .returned true ∧ s.executed.count i = 1) ∨ (phase = .returned false ∧ i ∉ s.executed)) ∧
        s.dequeued.map Prod.snd = s.enqueued ∧
        ∀ w < sz, s.dequeued.count (w,.poison) = 1) := by
  have valid := reached_invariant size path
  refine ⟨valid.bounded,fun done => ⟨fun i phase held => ?_,valid.dequeued_all size done,fun w below => valid.ate_one done below⟩⟩
  have executed := valid.executed_added size done i
  rw [held] at executed
  rcases valid.pillsLast.1 (by simp [done]) phase (List.mem_of_getElem? held) with rfl | rfl
  · exact .inl ⟨rfl,executed⟩
  · exact .inr ⟨rfl,List.count_eq_zero.mp executed⟩

def twoJobs : List Label :=
  [.addObjJob,.addObjJob,.add 1,.take 1,.add 0,.destroy,.poison,.take 0,.poison,.work 1,.take 1,.work 1,.work 0,.take 0,
    .work 0,.join,.join]

theorem jobs_run_once_two :
    ∃ s, Runs (step 2 true) Documented (initial 2) twoJobs s ∧ s.destructor = some ⟨2,2⟩ ∧ s.executed = [1,0] ∧
      s.dequeued.count (1,.poison) = 1 := by
  have ran : (exec (guarded (step 2 true) Documented) (initial 2) twoJobs).map (fun s => (s.destructor,s.executed)) =
      some (some ⟨2,2⟩,[1,0]) := by decide +kernel
  obtain ⟨s,path,seen⟩ := guarded_observed ran
  obtain ⟨done,executed⟩ := Prod.mk.inj seen
  exact ⟨s,path,done,executed,((jobs_run_once (by decide) path).2 done).2.2 1 (by decide)⟩

end YfsLab.ThrPool
