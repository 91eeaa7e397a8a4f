import YfsLab.AioMgr

namespace YfsLab.PollMgr
open AioMgr

-- The member functions of PollMgr that other threads (and the callbacks) call.
-- `C` are the aio_callback pointers.
inductive Request (C : Type) where
  | addCallback (fd : Nat) (flag : PollFlag) (ch : C)
  | delCallback (fd : Nat) (flag : PollFlag)
  | blockRemoveFd (fd : Nat)
  deriving DecidableEq, Repr

-- `inside` holds m_ after the call on aio_, whose result it keeps; `waiting` is
-- in pthread_cond_wait.
inductive Phase where
  | called
  | inside (unwatched : Bool)
  | waiting (signalled : Bool)
  | returned
  deriving DecidableEq, Repr

structure Call (C : Type) where
  request : Request C
  phase : Phase
  deriving DecidableEq, Repr

-- wait_loop. The snapshot of the fd sets is taken under SelectAIO's own mutex
-- and select runs without any; `tested` is between the two loads of
-- callbacks_[fd], `running` inside the callback.
inductive PollPc (C : Type) where
  | top
  | waitReady
  | select (trfds twfds : Nat → Bool) (high : Nat)
  | serve (readable writable : List Nat)
  | tested (direction : Direction) (fd : Nat) (readable writable : List Nat)
  | running (direction : Direction) (fd : Nat) (ch : C) (readable writable : List Nat)

-- `owner` is the call that holds m_ from one of its steps to the next.
structure State (C : Type) where
  aio : SelectAIO
  callbacks : Nat → Option C
  pending : Bool
  owner : Option Nat
  calls : List (Call C)
  poll : PollPc C
  aborted : Bool

def initial (C : Type) (pipefd : Nat × Nat) : State C :=
  {aio:=.new pipefd,callbacks:=fun _ => none,pending:=false,owner:=none,calls:=[],poll:=.top,aborted:=false}

section Steps
variable {C : Type}

def setPhase (s : State C) (i : Nat) (request : Request C) (phase : Phase) : State C :=
  {s with calls:=s.calls.set i ⟨request,phase⟩}

-- The first half of a critical section: the call on aio_.
def enter (s : State C) (i : Nat) (request : Request C) : State C :=
  match request with
  | .addCallback fd flag _ =>
    if fd < maxPollFds then
      setPhase {s with aio:=s.aio.watchFd fd flag,owner:=some i} i request (.inside false)
    else {s with aborted:=true}
  | .delCallback fd flag =>
    match s.aio.unwatchFd fd flag with
    | some (unwatched,aio) => setPhase {s with aio:=aio,owner:=some i} i request (.inside unwatched)
    | none => {s with aborted:=true}
  | .blockRemoveFd fd =>
    match s.aio.unwatchFd fd .CB_RDWR with
    | some (unwatched,aio) => setPhase {s with aio:=aio,owner:=some i} i request (.inside unwatched)
    | none => {s with aborted:=true}

-- The second half. cond_wait releases m_.
def leave [DecidableEq C] (s : State C) (i : Nat) (request : Request C) (unwatched : Bool) : State C :=
  match request with
  | .addCallback fd _ ch =>
    if s.callbacks fd = none ∨ s.callbacks fd = some ch then
      setPhase {s with callbacks:=Function.update s.callbacks fd (some ch),owner:=none} i request .returned
    else {s with aborted:=true}
  | .delCallback fd _ =>
    if unwatched then setPhase {s with callbacks:=Function.update s.callbacks fd none,owner:=none} i request .returned
    else setPhase {s with owner:=none} i request .returned
  | .blockRemoveFd _ => setPhase {s with pending:=true,owner:=none} i request (.waiting false)

-- What block_remove_fd does when it has m_ again.
def wake (s : State C) (i : Nat) (fd : Nat) : State C :=
  setPhase {s with callbacks:=Function.update s.callbacks fd none} i (.blockRemoveFd fd) .returned

def broadcast (calls : List (Call C)) : List (Call C) :=
  calls.map fun call => if call.phase = .waiting false then {call with phase:=.waiting true} else call

-- The loops of wait_ready over the fds that select has reported. The pipe's fd
-- is not handed on.
def reported (s : State C) (trfds : Nat → Bool) (high : Nat) (ready : List Nat) : List Nat :=
  (List.range (high+1)).filter fun fd => trfds fd && ready.contains fd && fd != s.aio.pipefd.1

-- One step of the poll thread; `rs` and `ws` are what select finds ready, of
-- which it reports those it was asked for.
def pollStep (s : State C) (rs ws : List Nat) : Option (State C) :=
  match s.poll with
  | .top =>
    if s.owner.isSome then none
    else if s.pending then some {s with pending:=false,calls:=broadcast s.calls,poll:=.waitReady}
    else some {s with poll:=.waitReady}
  | .waitReady => some {s with poll:=.select s.aio.rfds s.aio.wfds s.aio.highfds}
  | .select trfds twfds high => some {s with poll:=.serve (reported s trfds high rs) (reported s twfds high ws)}
  | .serve [] [] => some {s with poll:=.top}
  | .serve [] (fd :: writable) =>
    if (s.callbacks fd).isSome then some {s with poll:=.tested .write fd [] writable}
    else some {s with poll:=.serve [] writable}
  | .serve (fd :: readable) writable =>
    if (s.callbacks fd).isSome then some {s with poll:=.tested .read fd readable writable}
    else some {s with poll:=.serve readable writable}
  | .tested direction fd readable writable =>
    match s.callbacks fd with
    | some ch => some {s with poll:=.running direction fd ch readable writable}
    | none => some {s with aborted:=true}
  | .running _ _ _ readable writable => some {s with poll:=.serve readable writable}

inductive Label (C : Type) where
  | call (request : Request C)
  | enter (i : Nat)
  | leave (i : Nat)
  | wake (i : Nat)
  | poll (rs ws : List Nat)
  deriving DecidableEq, Repr

-- Threads take m_ in any order. Nobody wakes without the broadcast.
def step [DecidableEq C] (s : State C) (label : Label C) : Option (State C) :=
  if s.aborted then none else
  match label with
  | .call request => some {s with calls:=s.calls ++ [⟨request,.called⟩]}
  | .enter i =>
    match s.calls[i]? with
    | some ⟨request,.called⟩ => if s.owner.isSome then none else some (enter s i request)
    | _ => none
  | .leave i =>
    match s.calls[i]? with
    | some ⟨request,.inside unwatched⟩ => some (leave s i request unwatched)
    | _ => none
  | .wake i =>
    match s.calls[i]? with
    | some ⟨.blockRemoveFd fd,.waiting true⟩ => if s.owner.isSome then none else some (wake s i fd)
    | _ => none
  | .poll rs ws => pollStep s rs ws

end Steps

def Unwatched (aio : SelectAIO) (fd : Nat) : Prop := aio.rfds fd = false ∧ aio.wfds fd = false

def Clean {C : Type} (fd : Nat) : PollPc C → Prop
  | .top | .waitReady => True
  | .select trfds twfds _ => trfds fd = false ∧ twfds fd = false
  | .serve readable writable => fd ∉ readable ∧ fd ∉ writable
  | .tested _ other readable writable | .running _ other _ readable writable =>
    fd ≠ other ∧ fd ∉ readable ∧ fd ∉ writable

theorem unwatched_watch {aio : SelectAIO} (different : fd ≠ other) (unwatched : Unwatched aio fd) :
    Unwatched (aio.watchFd other flag) fd := by
  have elsewhere : (fd == other) = false := by simpa using different
  obtain ⟨reads,writes⟩ := unwatched
  cases flag <;> simp [Unwatched, SelectAIO.watchFd,fdSet_apply,elsewhere,reads,writes]

theorem unwatched_unwatch {aio after : SelectAIO} (result : aio.unwatchFd other flag = some (empty,after))
    (unwatched : Unwatched aio fd) : Unwatched after fd := by
  obtain ⟨reads,writes⟩ := unwatched
  obtain ⟨rfds,wfds⟩ := unwatchFd_sets result fd
  exact ⟨by rw [rfds,reads,Bool.false_and],by rw [wfds,writes,Bool.false_and]⟩

theorem unwatch_unwatched {aio after : SelectAIO} (result : aio.unwatchFd fd .CB_RDWR = some (empty,after)) :
    Unwatched after fd := by
  obtain ⟨rfds,wfds⟩ := unwatchFd_sets result fd
  exact ⟨by simp [rfds,PollFlag.covers],by simp [wfds,PollFlag.covers]⟩

section Removal
variable {C : Type} {s s' : State C} {i j fd : Nat}

-- What block_remove_fd has achieved at each point: the fd is unregistered in
-- the first half, and whoever is woken was waiting when the poll thread stood
-- before its next snapshot.
def Achieved (s : State C) (fd : Nat) : Phase → Prop
  | .called => True
  | .inside _ | .waiting false => Unwatched s.aio fd
  | .waiting true | .returned => Unwatched s.aio fd ∧ Clean fd s.poll

def Removing (i fd : Nat) (s : State C) : Prop :=
  ∃ phase, s.calls[i]? = some ⟨.blockRemoveFd fd,phase⟩ ∧ Achieved s fd phase

def adds (fd : Nat) (s : State C) : Label C → Bool
  | .enter j =>
    match s.calls[j]? with
    | some ⟨.addCallback other _ _,_⟩ => other == fd
    | _ => false
  | _ => false

def NoAdd (fd : Nat) (s : State C) (label : Label C) : Prop := adds fd s label = false

instance noAddDecidable (fd : Nat) (s : State C) (label : Label C) : Decidable (NoAdd fd s label) :=
  inferInstanceAs (Decidable (_ = _))

theorem Achieved.keep (achieved : Achieved s fd phase) (aio : Unwatched s.aio fd → Unwatched s'.aio fd)
    (poll : Unwatched s.aio fd → Clean fd s.poll → Clean fd s'.poll) : Achieved s' fd phase := by
  cases phase with
  | called => trivial
  | inside _ => exact aio achieved
  | waiting signalled =>
    cases signalled with
    | false => exact aio achieved
    | true => exact ⟨aio achieved.1,poll achieved.1 achieved.2⟩
  | returned => exact ⟨aio achieved.1,poll achieved.1 achieved.2⟩

theorem Removing.elsewhere (removing : Removing i fd s) (calls : s'.calls[i]? = s.calls[i]?)
    (aio : Unwatched s.aio fd → Unwatched s'.aio fd) (poll : s'.poll = s.poll) : Removing i fd s' := by
  obtain ⟨phase,held,achieved⟩ := removing
  exact ⟨phase,calls.trans held,achieved.keep aio (fun _ clean => poll ▸ clean)⟩

theorem enter_self (held : s.calls[i]? = some ⟨.blockRemoveFd fd,.called⟩) :
    Removing i fd (enter s i (.blockRemoveFd fd)) := by
  dsimp only [enter]
  split
  · rename_i unwatched aio result
    exact ⟨.inside unwatched,Machine.entry_self held,unwatch_unwatched result⟩
  · exact ⟨.called,held,trivial⟩

theorem enter_other (different : i ≠ j) (noAdd : ∀ flag ch, request ≠ .addCallback fd flag ch)
    (removing : Removing i fd s) : Removing i fd (enter s j request) := by
  cases request with
  | addCallback other flag ch =>
    have elsewhere : fd ≠ other := fun same => noAdd flag ch (same ▸ rfl)
    dsimp only [enter]
    split
    · exact removing.elsewhere (Machine.entry_other different) (unwatched_watch elsewhere) rfl
    · exact removing.elsewhere rfl id rfl
  | delCallback other flag =>
    dsimp only [enter]
    split
    · rename_i result
      exact removing.elsewhere (Machine.entry_other different) (unwatched_unwatch result) rfl
    · exact removing.elsewhere rfl id rfl
  | blockRemoveFd other =>
    dsimp only [enter]
    split
    · rename_i result
      exact removing.elsewhere (Machine.entry_other different) (unwatched_unwatch result) rfl
    · exact removing.elsewhere rfl id rfl

theorem leave_other [DecidableEq C] (different : i ≠ j) (removing : Removing i fd s) : Removing i fd (leave s j request unwatched) := by
  cases request with
  | addCallback other flag ch =>
    dsimp only [leave]
    split
    · exact removing.elsewhere (Machine.entry_other different) id rfl
    · exact removing.elsewhere rfl id rfl
  | delCallback other flag =>
    dsimp only [leave]
    split
    · exact removing.elsewhere (Machine.entry_other different) id rfl
    · exact removing.elsewhere (Machine.entry_other different) id rfl
  | blockRemoveFd other => exact removing.elsewhere (Machine.entry_other different) id rfl

theorem not_reported {trfds : Nat → Bool} (clear : trfds fd = false) : fd ∉ reported s trfds high ready := by
  intro member
  simp [reported,clear] at member

theorem pollStep_clean (unwatched : Unwatched s.aio fd) (clean : Clean fd s.poll) (taken : pollStep s rs ws = some s') :
    Clean fd s'.poll := by
  unfold pollStep at taken
  split at taken
  · obtain ⟨_,taken⟩ := Option.ite_none_left_eq_some.mp taken
    split at taken <;> cases taken <;> trivial
  · cases taken; exact unwatched
  · rename_i held
    cases taken
    rw [held] at clean
    exact ⟨not_reported clean.1,not_reported clean.2⟩
  · cases taken; trivial
  · rename_i held
    rw [held] at clean
    obtain ⟨reads,writes⟩ := clean
    obtain ⟨different,rest⟩ := not_or.mp (mt List.mem_cons.mpr writes)
    split at taken <;> cases taken
    · exact ⟨different,reads,rest⟩
    · exact ⟨reads,rest⟩
  · rename_i held
    rw [held] at clean
    obtain ⟨reads,writes⟩ := clean
    obtain ⟨different,rest⟩ := not_or.mp (mt List.mem_cons.mpr reads)
    split at taken <;> cases taken
    · exact ⟨different,rest,writes⟩
    · exact ⟨rest,writes⟩
  · rename_i held
    split at taken <;> cases taken
    · rw [held] at clean; exact clean
    · exact clean
  · rename_i held
    cases taken
    rw [held] at clean
    exact clean.2

theorem broadcast_entry (held : calls[i]? = some ⟨request,phase⟩) :
    (broadcast calls : List (Call C))[i]? = some ⟨request,if phase = .waiting false then .waiting true else phase⟩ := by
  unfold broadcast
  rw [List.getElem?_map,held,Option.map_some]
  dsimp only
  split <;> rfl

theorem pollStep_calls (taken : pollStep s rs ws = some s') :
    s'.aio = s.aio ∧ (s'.calls = s.calls ∨ (s'.calls = broadcast s.calls ∧ s'.poll = .waitReady)) := by
  unfold pollStep at taken
  split at taken
  · obtain ⟨_,taken⟩ := Option.ite_none_left_eq_some.mp taken
    split at taken <;> cases taken
    · exact ⟨rfl,.inr ⟨rfl,rfl⟩⟩
    · exact ⟨rfl,.inl rfl⟩
  · cases taken; exact ⟨rfl,.inl rfl⟩
  · cases taken; exact ⟨rfl,.inl rfl⟩
  · cases taken; exact ⟨rfl,.inl rfl⟩
  · split at taken <;> cases taken <;> exact ⟨rfl,.inl rfl⟩
  · split at taken <;> cases taken <;> exact ⟨rfl,.inl rfl⟩
  · split at taken <;> cases taken <;> exact ⟨rfl,.inl rfl⟩
  · cases taken; exact ⟨rfl,.inl rfl⟩

theorem pollStep_removing (removing : Removing i fd s) (taken : pollStep s rs ws = some s') : Removing i fd s' := by
  obtain ⟨phase,held,achieved⟩ := removing
  obtain ⟨aio,calls⟩ := pollStep_calls taken
  have kept : Achieved s' fd phase :=
    achieved.keep (fun unwatched => aio ▸ unwatched) (fun unwatched clean => pollStep_clean unwatched clean taken)
  rcases calls with same | ⟨woken,fresh⟩
  · exact ⟨phase,by rw [same]; exact held,kept⟩
  · refine ⟨_,by rw [woken]; exact broadcast_entry held,?_⟩
    split
    · rename_i waiting
      subst waiting
      exact ⟨kept,fresh ▸ trivial⟩
    · exact kept

theorem step_removing [DecidableEq C] (removing : Removing i fd s) (noAdd : NoAdd fd s label)
    (taken : step s label = some s') : Removing i fd s' := by
  obtain ⟨_,taken⟩ := Option.ite_none_left_eq_some.mp taken
  cases label with
  | call request =>
    cases taken
    obtain ⟨phase,held,achieved⟩ := removing
    exact ⟨phase,Machine.entry_kept held,achieved.keep id (fun _ clean => clean)⟩
  | enter j =>
    dsimp only at taken
    split at taken
    · rename_i request held
      obtain ⟨_,taken⟩ := Option.ite_none_left_eq_some.mp taken
      cases taken
      by_cases same : i = j
      · subst same
        obtain ⟨phase,mine,_⟩ := removing
        cases Option.some.inj (held.symm.trans mine)
        exact enter_self held
      · refine enter_other same (fun flag ch added => ?_) removing
        subst added
        simp [NoAdd,adds,held] at noAdd
    · cases taken
  | leave j =>
    dsimp only at taken
    split at taken
    · rename_i request unwatched held
      cases taken
      by_cases same : i = j
      · subst same
        obtain ⟨phase,mine,achieved⟩ := removing
        cases Option.some.inj (held.symm.trans mine)
        exact ⟨.waiting false,Machine.entry_self held,achieved⟩
      · exact leave_other same removing
    · cases taken
  | wake j =>
    dsimp only at taken
    split at taken
    · rename_i other held
      obtain ⟨_,taken⟩ := Option.ite_none_left_eq_some.mp taken
      cases taken
      by_cases same : i = j
      · subst same
        obtain ⟨phase,mine,achieved⟩ := removing
        cases Option.some.inj (held.symm.trans mine)
        exact ⟨.returned,Machine.entry_self held,achieved⟩
      · exact removing.elsewhere (Machine.entry_other same) id rfl
    · cases taken
  | poll rs ws => exact pollStep_removing removing taken

theorem runs_removing [DecidableEq C] (removing : Removing i fd s) (path : Machine.Runs step (NoAdd fd) s labels s') :
    Removing i fd s' :=
  path.invariant removing (fun _ _ _ removing noAdd taken => step_removing removing noAdd taken)

theorem entered_calls (s : State C) (j : Nat) (request : Request C) :
    (enter s j request).calls = s.calls ∨ ∃ phase, (enter s j request).calls = s.calls.set j ⟨request,phase⟩ := by
  cases request with
  | addCallback other flag ch =>
    dsimp only [enter]
    split
    · exact .inr ⟨_,rfl⟩
    · exact .inl rfl
  | delCallback other flag =>
    dsimp only [enter]
    split
    · exact .inr ⟨_,rfl⟩
    · exact .inl rfl
  | blockRemoveFd other =>
    dsimp only [enter]
    split
    · exact .inr ⟨_,rfl⟩
    · exact .inl rfl

theorem left_calls [DecidableEq C] (s : State C) (j : Nat) (request : Request C) (unwatched : Bool) :
    (leave s j request unwatched).calls = s.calls ∨
      ∃ phase, (leave s j request unwatched).calls = s.calls.set j ⟨request,phase⟩ := by
  cases request with
  | addCallback other flag ch =>
    dsimp only [leave]
    split
    · exact .inr ⟨_,rfl⟩
    · exact .inl rfl
  | delCallback other flag =>
    dsimp only [leave]
    split
    · exact .inr ⟨_,rfl⟩
    · exact .inr ⟨_,rfl⟩
  | blockRemoveFd other => exact .inr ⟨_,rfl⟩

theorem set_returned {calls after : List (Call C)} (held : calls[i]? = some ⟨request,.returned⟩)
    (there : calls[j]? = some ⟨other,phase⟩) (going : phase ≠ .returned)
    (moved : after = calls ∨ ∃ phase', after = calls.set j ⟨other,phase'⟩) :
    after[i]? = some ⟨request,.returned⟩ := by
  rcases moved with rfl | ⟨phase',rfl⟩
  · exact held
  · have different : i ≠ j := by
      intro same
      subst same
      cases Option.some.inj (held.symm.trans there)
      exact going rfl
    exact (Machine.entry_other different).trans held

theorem step_returned [DecidableEq C] (held : s.calls[i]? = some ⟨request,.returned⟩) (taken : step s label = some s') :
    s'.calls[i]? = some ⟨request,.returned⟩ := by
  obtain ⟨_,taken⟩ := Option.ite_none_left_eq_some.mp taken
  cases label with
  | call other => cases taken; exact Machine.entry_kept held
  | enter j =>
    dsimp only at taken
    split at taken
    · rename_i other there
      obtain ⟨_,taken⟩ := Option.ite_none_left_eq_some.mp taken
      cases taken
      exact set_returned held there (by simp) (entered_calls s j other)
    · cases taken
  | leave j =>
    dsimp only at taken
    split at taken
    · rename_i other unwatched there
      cases taken
      exact set_returned held there (by simp) (left_calls s j other unwatched)
    · cases taken
  | wake j =>
    dsimp only at taken
    split at taken
    · rename_i other there
      obtain ⟨_,taken⟩ := Option.ite_none_left_eq_some.mp taken
      cases taken
      exact set_returned held there (by simp) (.inr ⟨.returned,rfl⟩)
    · cases taken
  | poll rs ws =>
    rcases (pollStep_calls taken).2 with same | ⟨woken,_⟩
    · rw [same]; exact held
    · rw [woken]; exact broadcast_entry held

-- read_cb or write_cb of the fd is about to be called, or runs.
def Serving (fd : Nat) : PollPc C → Prop
  | .tested _ other _ _ | .running _ other _ _ _ => other = fd
  | _ => False

theorem Clean.not_serving {poll : PollPc C} (clean : Clean fd poll) : ¬ Serving fd poll := by
  cases poll with
  | top | waitReady | select | serve => exact id
  | tested direction other readable writable => exact fun serving => clean.1 serving.symm
  | running direction other ch readable writable => exact fun serving => clean.1 serving.symm

theorem no_callback_after_block_remove [DecidableEq C] (pipefd : Nat × Nat) :
    ∀ labels (s called : State C) fd more now,
      Machine.Runs step Machine.free (initial C pipefd) labels s →
      step s (.call (.blockRemoveFd fd)) = some called →
      Machine.Runs step (NoAdd fd) called more now →
      now.calls[s.calls.length]? = some ⟨.blockRemoveFd fd,.returned⟩ →
      ¬ Serving fd now.poll ∧
        ∀ rest later, Machine.Runs step (NoAdd fd) now rest later → ¬ Serving fd later.poll := by
  intro labels s called fd more now _ call path returned
  have start : Removing s.calls.length fd called := by
    obtain ⟨_,taken⟩ := Option.ite_none_left_eq_some.mp call
    cases taken
    exact ⟨.called,by simp,trivial⟩
  have reached := runs_removing start path
  have ended : ∀ rest later, Machine.Runs step (NoAdd fd) now rest later → ¬ Serving fd later.poll := by
    intro rest later onward
    have still := onward.invariant returned (fun _ _ _ held _ taken => step_returned held taken)
    obtain ⟨phase,held,achieved⟩ := runs_removing reached onward
    cases Option.some.inj (held.symm.trans still)
    exact achieved.2.not_serving
  exact ⟨ended [] now .nil,ended⟩

-- Two threads remove fds 5 and 6 while the poll thread is in select with both
-- and runs the callback of 5; one broadcast wakes both.
def twoRemovals : List (Label Nat) :=
  [.call (.addCallback 5 .CB_RDONLY 1),.enter 0,.leave 0,.call (.addCallback 6 .CB_RDONLY 2),.enter 1,.leave 1,
    .poll [] [],.poll [] [],.poll [5,6] []]

def removals : List (Label Nat) :=
  [.poll [] [],.enter 2,.leave 2,.poll [] [],.call (.blockRemoveFd 6),.enter 3,.leave 3,.poll [] [],.poll [] [],
    .poll [] [],.poll [] [],.poll [] [],.poll [] [],.wake 3,.wake 2]

theorem removed_callbacks_over :
    ∃ s called now, Machine.Runs step Machine.free (initial Nat (3,4)) twoRemovals s ∧
      step s (.call (.blockRemoveFd 5)) = some called ∧ Machine.Runs step (NoAdd 5) called removals now ∧
      ¬ Serving 5 now.poll := by
  have seen : ((Machine.exec step (initial Nat (3,4)) twoRemovals).bind fun s =>
      (step s (.call (.blockRemoveFd 5))).bind fun called =>
        (Machine.exec (Machine.guarded step (NoAdd 5)) called removals).map fun now => now.calls[s.calls.length]?) =
      some (some ⟨.blockRemoveFd 5,.returned⟩) := by decide +kernel
  obtain ⟨s,first,seen⟩ := Option.bind_eq_some_iff.mp seen
  obtain ⟨called,call,seen⟩ := Option.bind_eq_some_iff.mp seen
  obtain ⟨now,path,returned⟩ := Machine.guarded_observed seen
  have start : Machine.Runs step Machine.free (initial Nat (3,4)) twoRemovals s := Machine.exec_free first
  exact ⟨s,called,now,start,call,path,(no_callback_after_block_remove (3,4) _ s called 5 _ now start call path returned).1⟩

end Removal

end YfsLab.PollMgr
