import YfsLab.WaitReady

namespace YfsLab.WakePipe
open AioMgr PollMgr
open WaitReady (Highest Watched)

-- PollMgr with the bytes that wait_ready has read from SelectAIO's pipe.
structure State (C : Type) where
  mgr : PollMgr.State C
  drained : Nat

def initial (C : Type) (pipefd : Nat × Nat) : State C := ⟨PollMgr.initial C pipefd,0⟩

section Machine
variable {C : Type}

-- select returns when an fd that it was asked for is ready, which the pipe is
-- when a byte is in it; or it is interrupted.
def Returns (s : State C) (trfds twfds : Nat → Bool) (high : Nat) (rs ws : List Nat) : Prop :=
  (rs = [] ∧ ws = []) ∨
    ((s.mgr.aio.pipefd.1 ∈ rs ↔ s.drained < s.mgr.aio.written) ∧
      ∃ fd ∈ List.range (high+1), (trfds fd = true ∧ fd ∈ rs) ∨ (twfds fd = true ∧ fd ∈ ws))

instance (s : State C) (trfds twfds : Nat → Bool) (high : Nat) (rs ws : List Nat) :
    Decidable (Returns s trfds twfds high rs ws) := inferInstanceAs (Decidable (_ ∨ _))

-- The branch of the loop in wait_ready for the pipe reads one byte.
def drain (s : State C) (trfds : Nat → Bool) (high : Nat) (rs : List Nat) : Nat :=
  if s.mgr.aio.pipefd.1 ≤ high ∧ trfds s.mgr.aio.pipefd.1 = true ∧ s.mgr.aio.pipefd.1 ∈ rs then s.drained+1 else s.drained

def advance (s : State C) : Label C → Option Nat
  | .poll rs ws =>
    match s.mgr.poll with
    | .select trfds twfds high => if Returns s trfds twfds high rs ws then some (drain s trfds high rs) else none
    | _ => some s.drained
  | _ => some s.drained

def step [DecidableEq C] (s : State C) (label : Label C) : Option (State C) :=
  match advance s label with
  | none => none
  | some drained => (PollMgr.step s.mgr label).map fun mgr => {mgr,drained}

-- The other threads name fds of their own and flags that name directions.
def asks (pipefd : Nat × Nat) : Request C → Prop
  | .addCallback fd flag _ | .delCallback fd flag => fd ≠ pipefd.1 ∧ flag.Direct
  | .blockRemoveFd fd => fd ≠ pipefd.1

def Outside (pipefd : Nat × Nat) (_ : State C) : Label C → Prop
  | .call request => asks pipefd request
  | _ => True

end Machine

section Effects
variable {C : Type} {s s' : PollMgr.State C} {label : Label C}

def unwatches : Request C → Option (Nat × PollFlag)
  | .addCallback _ _ _ => none
  | .delCallback fd flag => some (fd,flag)
  | .blockRemoveFd fd => some (fd,.CB_RDWR)

def blocks : Request C → Bool
  | .blockRemoveFd _ => true
  | _ => false

inductive Effect (s : PollMgr.State C) : Label C → PollMgr.State C → Prop where
  | called : Effect s (.call request) {s with calls:=s.calls ++ [⟨request,.called⟩]}
  | aborts : (∀ rs ws, any ≠ .poll rs ws) → Effect s any {s with aborted:=true}
  | watched : s.calls[i]? = some ⟨.addCallback fd flag ch,.called⟩ → s.owner = none → fd < maxPollFds →
      Effect s (.enter i)
        (setPhase {s with aio:=s.aio.watchFd fd flag,owner:=some i} i (.addCallback fd flag ch) (.inside false))
  | unwatched : s.calls[i]? = some ⟨request,.called⟩ → s.owner = none → unwatches request = some (fd,flag) →
      s.aio.unwatchFd fd flag = some (empty,aio) →
      Effect s (.enter i) (setPhase {s with aio:=aio,owner:=some i} i request (.inside empty))
  | left : s.calls[i]? = some ⟨request,.inside empty⟩ → blocks request = false →
      Effect s (.leave i) (setPhase {s with callbacks:=callbacks,owner:=none} i request .returned)
  | blocked : s.calls[i]? = some ⟨.blockRemoveFd fd,.inside empty⟩ →
      Effect s (.leave i) (setPhase {s with pending:=true,owner:=none} i (.blockRemoveFd fd) (.waiting false))
  | woken : s.calls[i]? = some ⟨.blockRemoveFd fd,.waiting true⟩ → s.owner = none →
      Effect s (.wake i) (setPhase {s with callbacks:=callbacks} i (.blockRemoveFd fd) .returned)

theorem enter_effect {i : Nat} {request : Request C} (held : s.calls[i]? = some ⟨request,.called⟩) (free : s.owner = none) :
    Effect s (.enter i) (enter s i request) := by
  cases request with
  | addCallback fd flag ch =>
    dsimp only [enter]
    split
    · rename_i small; exact .watched held free small
    · exact .aborts fun _ _ same => by cases same
  | delCallback fd flag =>
    dsimp only [enter]
    split
    · rename_i result; exact .unwatched held free rfl result
    · exact .aborts fun _ _ same => by cases same
  | blockRemoveFd fd =>
    dsimp only [enter]
    split
    · rename_i result; exact .unwatched held free rfl result
    · exact .aborts fun _ _ same => by cases same

theorem leave_effect [DecidableEq C] {i : Nat} {request : Request C} {empty : Bool} (held : s.calls[i]? = some ⟨request,.inside empty⟩) :
    Effect s (.leave i) (leave s i request empty) := by
  cases request with
  | addCallback fd flag ch =>
    dsimp only [leave]
    split
    · exact .left held rfl
    · exact .aborts fun _ _ same => by cases same
  | delCallback fd flag =>
    dsimp only [leave]
    split
    · exact .left held rfl
    · exact .left held rfl
  | blockRemoveFd fd => exact .blocked held

theorem step_effect [DecidableEq C] (taken : PollMgr.step s label = some s') :
    Effect s label s' ∨ ∃ rs ws, label = .poll rs ws ∧ pollStep s rs ws = some s' := by
  obtain ⟨_,taken⟩ := Option.ite_none_left_eq_some.mp taken
  cases label with
  | call request => cases taken; exact .inl .called
  | enter i =>
    dsimp only at taken
    split at taken
    · rename_i request held
      obtain ⟨free,taken⟩ := Option.ite_none_left_eq_some.mp taken
      cases taken
      exact .inl (enter_effect held (by simpa using free))
    · cases taken
  | leave i =>
    dsimp only at taken
    split at taken
    · rename_i held
      cases taken
      exact .inl (leave_effect held)
    · cases taken
  | wake i =>
    dsimp only at taken
    split at taken
    · rename_i held
      obtain ⟨free,taken⟩ := Option.ite_none_left_eq_some.mp taken
      cases taken
      exact .inl (.woken held (by simpa using free))
    · cases taken
  | poll rs ws => exact .inr ⟨rs,ws,rfl,taken⟩

-- How many steps of the poll thread are left to the top of its loop, when the
-- fds are below n.
def distance (n : Nat) : PollPc C → Nat
  | .top => 0
  | .waitReady => 6 * n + 3
  | .select _ _ _ => 6 * n + 2
  | .serve readable writable => 3 * (readable.length + writable.length) + 1
  | .tested _ _ readable writable => 3 * (readable.length + writable.length) + 3
  | .running _ _ _ readable writable => 3 * (readable.length + writable.length) + 2

def sleeps : PollPc C → Bool
  | .waitReady | .select _ _ _ => true
  | .top | .serve _ _ | .tested _ _ _ _ | .running _ _ _ _ _ => false

inductive Turn (s : PollMgr.State C) (rs ws : List Nat) : PollMgr.State C → Prop where
  | broadcast : s.poll = .top → s.owner = none → s.pending = true →
      Turn s rs ws {s with pending:=false,calls:=broadcast s.calls,poll:=.waitReady}
  | idle : s.poll = .top → s.owner = none → s.pending = false → Turn s rs ws {s with poll:=.waitReady}
  | snapshot : s.poll = .waitReady → Turn s rs ws {s with poll:=.select s.aio.rfds s.aio.wfds s.aio.highfds}
  | selected : s.poll = .select trfds twfds high →
      Turn s rs ws {s with poll:=.serve (reported s trfds high rs) (reported s twfds high ws)}
  | serves : s.poll ≠ .top → sleeps s.poll = false → sleeps poll = false → (∀ n, distance n poll < distance n s.poll) →
      Turn s rs ws {s with poll}
  | null : sleeps s.poll = false → Turn s rs ws {s with aborted:=true}

theorem pollStep_turn (taken : pollStep s rs ws = some s') : Turn s rs ws s' := by
  unfold pollStep at taken
  split at taken
  · rename_i poll
    obtain ⟨free,taken⟩ := Option.ite_none_left_eq_some.mp taken
    have free : s.owner = none := by simpa using free
    split at taken
    · rename_i pending
      cases taken
      exact .broadcast poll free pending
    · rename_i idle
      cases taken
      exact .idle poll free (by simpa using idle)
  · rename_i poll; cases taken; exact .snapshot poll
  · rename_i poll; cases taken; exact .selected poll
  · rename_i poll
    cases taken
    exact .serves (by simp [poll]) (by simp [sleeps,poll]) rfl fun n => by simp [distance,poll]
  · rename_i poll
    split at taken <;> cases taken
    · refine .serves (by simp [poll]) (by simp [sleeps,poll]) rfl fun n => ?_
      simp only [distance,poll,List.length_nil,List.length_cons]
      omega
    · refine .serves (by simp [poll]) (by simp [sleeps,poll]) rfl fun n => ?_
      simp only [distance,poll,List.length_nil,List.length_cons]
      omega
  · rename_i poll
    split at taken <;> cases taken
    · refine .serves (by simp [poll]) (by simp [sleeps,poll]) rfl fun n => ?_
      simp only [distance,poll,List.length_cons]
      omega
    · refine .serves (by simp [poll]) (by simp [sleeps,poll]) rfl fun n => ?_
      simp only [distance,poll,List.length_cons]
      omega
  · rename_i poll
    split at taken <;> cases taken
    · exact .serves (by simp [poll]) (by simp [sleeps,poll]) rfl fun n => by simp [distance,poll]
    · exact .null (by simp [sleeps,poll])
  · rename_i poll
    cases taken
    exact .serves (by simp [poll]) (by simp [sleeps,poll]) rfl fun n => by simp [distance,poll]

theorem asks_unwatches {pipefd : Nat × Nat} {request : Request C} (asked : asks pipefd request)
    (what : unwatches request = some (fd,flag)) : fd ≠ pipefd.1 ∧ flag.Direct := by
  cases request with
  | addCallback => cases what
  | delCallback => cases what; exact asked
  | blockRemoveFd => cases what; exact ⟨asked,.inr (.inr rfl)⟩

theorem blocks_unwatches {request : Request C} (block : blocks request = true)
    (what : unwatches request = some (fd,flag)) : flag = .CB_RDWR := by
  cases request with
  | addCallback | delCallback => cases block
  | blockRemoveFd => cases what; rfl

end Effects

theorem watchFd_written (s : SelectAIO) (fd : Nat) (flag : PollFlag) : (s.watchFd fd flag).written = s.written+1 := by
  cases flag <;> rfl

theorem unwatchFd_written {s after : SelectAIO} (result : s.unwatchFd fd flag = some (empty,after)) :
    after.written = s.written + if flag = .CB_RDWR then 1 else 0 := by
  obtain ⟨cleared,found,same⟩ := Option.map_eq_some_iff.mp result
  have kept : cleared.written = s.written := by
    cases flag <;> cases found <;> rfl
  have lowered : (cleared.lower fd).written = cleared.written := by
    unfold SelectAIO.lower
    split
    · split <;> rfl
    · rfl
  obtain ⟨_,rfl⟩ := Prod.mk.inj same
  split
  · show (cleared.lower fd).written+1 = _
    rw [lowered,kept]
  · rw [lowered,kept]
    rfl

def room (pipefd : Nat × Nat) : Nat := max maxPollFds (pipefd.1+1)

section Invariant
variable {C : Type} {s : State C}

structure Quiet (s : PollMgr.State C) : Prop where
  pending : s.pending = false
  nobody : ∀ (i fd : Nat) empty, s.calls[i]? ≠ some ⟨.blockRemoveFd fd,.inside empty⟩

def Seen (aio : SelectAIO) (trfds twfds : Nat → Bool) (high : Nat) : Prop :=
  ∀ fd, (aio.rfds fd = true → trfds fd = true ∧ fd ≤ high) ∧ (aio.wfds fd = true → twfds fd = true ∧ fd ≤ high)

-- The poll thread is about to sleep, or asleep, on an empty pipe only when
-- there is nothing for it to see.
def Awake (s : State C) : Prop :=
  match s.mgr.poll with
  | .waitReady => s.drained = s.mgr.aio.written → Quiet s.mgr
  | .select trfds twfds high =>
    trfds s.mgr.aio.pipefd.1 = true ∧ s.mgr.aio.pipefd.1 ≤ high ∧ high < room s.mgr.aio.pipefd ∧
      (s.drained = s.mgr.aio.written → Quiet s.mgr ∧ Seen s.mgr.aio trfds twfds high)
  | _ => True

structure Sound (pipefd : Nat × Nat) (s : State C) : Prop where
  pipe : s.mgr.aio.pipefd = pipefd
  highest : Highest s.mgr.aio
  small : ∀ fd, Watched s.mgr.aio fd → fd < room pipefd
  asked : ∀ call ∈ s.mgr.calls, asks pipefd call.request
  inside : ∀ (i : Nat) request empty, s.mgr.calls[i]? = some ⟨request,.inside empty⟩ → s.mgr.owner = some i
  waiting : ∀ (i fd : Nat), s.mgr.calls[i]? = some ⟨.blockRemoveFd fd,.waiting false⟩ → s.mgr.pending = true
  bytes : s.drained ≤ s.mgr.aio.written
  awake : Awake s

theorem initial_sound (pipefd : Nat × Nat) : Sound pipefd (initial C pipefd) where
  pipe := rfl
  highest := WaitReady.new_highest pipefd
  small := by
    intro fd watched
    have same : fd = pipefd.1 := by
      simpa [Watched,initial,PollMgr.initial, SelectAIO.new,fdSet_apply] using watched
    unfold room
    omega
  asked := fun call member => absurd member List.not_mem_nil
  inside := fun i request empty held => by simp [initial,PollMgr.initial] at held
  waiting := fun i fd held => by simp [initial,PollMgr.initial] at held
  bytes := Nat.le_refl _
  awake := trivial

theorem awake_byte {mgr : PollMgr.State C} {drained : Nat} (awake : Awake s) (poll : mgr.poll = s.mgr.poll)
    (pipefd : mgr.aio.pipefd = s.mgr.aio.pipefd) (byte : drained < mgr.aio.written) : Awake ⟨mgr,drained⟩ := by
  unfold Awake at awake ⊢
  dsimp only
  rw [poll]
  split at awake
  · intro none_
    omega
  · obtain ⟨pipe,below,high,_⟩ := awake
    rw [pipefd]
    exact ⟨pipe,below,high,fun none_ => by omega⟩
  · trivial

theorem awake_quiet {mgr : PollMgr.State C} (awake : Awake s) (poll : mgr.poll = s.mgr.poll)
    (pipefd : mgr.aio.pipefd = s.mgr.aio.pipefd) (written : mgr.aio.written = s.mgr.aio.written)
    (quiet : Quiet s.mgr → Quiet mgr) (reads : ∀ fd, mgr.aio.rfds fd = true → s.mgr.aio.rfds fd = true)
    (writes : ∀ fd, mgr.aio.wfds fd = true → s.mgr.aio.wfds fd = true) : Awake ⟨mgr,s.drained⟩ := by
  unfold Awake at awake ⊢
  dsimp only
  rw [poll,written]
  split at awake
  · exact fun none_ => quiet (awake none_)
  · obtain ⟨pipe,below,high,seen⟩ := awake
    rw [pipefd]
    refine ⟨pipe,below,high,fun none_ => ?_⟩
    obtain ⟨still,seen⟩ := seen none_
    exact ⟨quiet still,fun fd => ⟨fun held => (seen fd).1 (reads fd held),fun held => (seen fd).2 (writes fd held)⟩⟩
  · trivial

theorem asked_set {calls : List (Call C)} {i : Nat} {request : Request C} {before after : Phase} {pipefd : Nat × Nat}
    (asked : ∀ call ∈ calls, asks pipefd call.request) (held : calls[i]? = some ⟨request,before⟩) :
    ∀ call ∈ calls.set i ⟨request,after⟩, asks pipefd call.request := by
  intro call member
  rcases List.mem_or_eq_of_mem_set member with old | rfl
  · exact asked call old
  · exact asked ⟨request,before⟩ (List.mem_of_getElem? held)

theorem quiet_set {mgr mgr' : PollMgr.State C} (quiet : Quiet mgr) (pending : mgr'.pending = mgr.pending)
    (calls : mgr'.calls = mgr.calls.set i ⟨request,phase⟩)
    (other : ∀ fd empty, (⟨request,phase⟩ : Call C) ≠ ⟨.blockRemoveFd fd,.inside empty⟩) : Quiet mgr' := by
  refine ⟨pending.trans quiet.pending,fun j fd empty held => ?_⟩
  rw [calls] at held
  rcases Machine.entry_cases held with ⟨_,same⟩ | ⟨_,old⟩
  · exact other fd empty same.symm
  · exact quiet.nobody j fd empty old

end Invariant

section Steps
variable {C : Type} {s : State C} {mgr : PollMgr.State C} {label : Label C} {pipefd : Nat × Nat}

theorem inside_enter {i : Nat} (sound : Sound pipefd s) (free : s.mgr.owner = none) {entered : Call C} :
    ∀ (j : Nat) request empty, (s.mgr.calls.set i entered)[j]? = some ⟨request,.inside empty⟩ → some i = some j := by
  intro j request empty there
  rcases Machine.entry_cases there with ⟨rfl,_⟩ | ⟨_,old⟩
  · rfl
  · exact absurd (free.symm.trans (sound.inside j request empty old)) (by simp)

theorem inside_leave {i : Nat} (sound : Sound pipefd s) (held : s.mgr.calls[i]? = some ⟨request,.inside empty⟩)
    {gone : Phase} (left_ : ∀ empty, gone ≠ .inside empty) :
    ∀ (j : Nat) other empty, (s.mgr.calls.set i ⟨request,gone⟩)[j]? = some ⟨other,.inside empty⟩ → none = some j := by
  intro j other empty there
  rcases Machine.entry_cases there with ⟨_,same⟩ | ⟨different,old⟩
  · cases same
    exact absurd rfl (left_ empty)
  · have mine := sound.inside i _ _ held
    exact absurd (Option.some.inj (mine.symm.trans (sound.inside j other empty old))) (Ne.symm different)

theorem waiting_set {i : Nat} (sound : Sound pipefd s) {call : Call C} (other : ∀ fd, call ≠ ⟨.blockRemoveFd fd,.waiting false⟩) :
    ∀ (j fd : Nat), (s.mgr.calls.set i call)[j]? = some ⟨.blockRemoveFd fd,.waiting false⟩ → s.mgr.pending = true := by
  intro j fd there
  rcases Machine.entry_cases there with ⟨_,same⟩ | ⟨_,old⟩
  · exact absurd same.symm (other fd)
  · exact sound.waiting j fd old

theorem effect_sound (sound : Sound pipefd s) (outside : Outside pipefd s label) (effect : Effect s.mgr label mgr) :
    Sound pipefd ⟨mgr,s.drained⟩ := by
  cases effect with
  | called =>
    refine ⟨sound.pipe,sound.highest,sound.small,fun call member => ?_,fun i request empty held => ?_,
      fun i fd held => ?_,sound.bytes,?_⟩
    · rcases List.mem_append.mp member with old | new
      · exact sound.asked call old
      · rw [List.mem_singleton.mp new]; exact outside
    · rcases Machine.entry_append held with old | ⟨_,new⟩
      · exact sound.inside i request empty old
      · cases new
    · rcases Machine.entry_append held with old | ⟨_,new⟩
      · exact sound.waiting i fd old
      · cases new
    · refine awake_quiet sound.awake rfl rfl rfl (fun quiet => ⟨quiet.pending,?_⟩) (fun _ => id) (fun _ => id)
      intro i fd empty held
      rcases Machine.entry_append held with old | ⟨_,new⟩
      · exact quiet.nobody i fd empty old
      · cases new
  | aborts =>
    exact ⟨sound.pipe,sound.highest,sound.small,sound.asked,sound.inside,sound.waiting,sound.bytes,
      awake_quiet sound.awake rfl rfl rfl (fun quiet => ⟨quiet.pending,quiet.nobody⟩) (fun _ => id) (fun _ => id)⟩
  | @watched i fd flag ch held free small =>
    obtain ⟨other,direct⟩ := sound.asked _ (List.mem_of_getElem? held)
    have written := watchFd_written s.mgr.aio fd flag
    have pipe := watchFd_pipefd s.mgr.aio fd flag
    have more : s.drained < (s.mgr.aio.watchFd fd flag).written := by
      have bytes := sound.bytes
      omega
    refine ⟨pipe.trans sound.pipe,WaitReady.watch_highest sound.highest direct (sound.pipe ▸ other),
      fun n watched => ?_,asked_set sound.asked held,inside_enter sound free,
      waiting_set sound (fun _ same => by cases same),Nat.le_of_lt more,?_⟩
    case refine_2 => exact awake_byte sound.awake rfl pipe more
    obtain ⟨reads,writes⟩ := WaitReady.watchFd_sets direct s.mgr.aio fd n
    have old : Watched s.mgr.aio n ∨ n = fd := by
      have watched : Watched (s.mgr.aio.watchFd fd flag) n := watched
      rw [Watched,reads,writes] at watched
      simp only [Bool.or_eq_true,Bool.and_eq_true,beq_iff_eq] at watched
      rcases watched with (old | new) | (old | new)
      · exact .inl (.inl old)
      · exact .inr new.1
      · exact .inl (.inr old)
      · exact .inr new.1
    rcases old with old | rfl
    · exact sound.small n old
    · unfold room
      omega
  | @unwatched i request fd flag empty aio held free what result =>
    obtain ⟨other,direct⟩ := asks_unwatches (sound.asked _ (List.mem_of_getElem? held)) what
    have written := unwatchFd_written result
    have pipe := (WaitReady.unwatchFd_highfds direct result).1
    have sets := unwatchFd_sets result
    have reads : ∀ n, aio.rfds n = true → s.mgr.aio.rfds n = true := fun n left_ => by
      rw [(sets n).1] at left_
      exact (Bool.and_eq_true_iff.mp left_).1
    have writes : ∀ n, aio.wfds n = true → s.mgr.aio.wfds n = true := fun n left_ => by
      rw [(sets n).2] at left_
      exact (Bool.and_eq_true_iff.mp left_).1
    have bytes := sound.bytes
    refine ⟨pipe.trans sound.pipe,WaitReady.unwatch_highest sound.highest direct (sound.pipe ▸ other) result,
      fun n watched => sound.small n (watched.imp (reads n) (writes n)),asked_set sound.asked held,
      inside_enter sound free,waiting_set sound (fun _ same => by cases same),?_,?_⟩
    · show s.drained ≤ aio.written
      omega
    · by_cases both : flag = .CB_RDWR
      · rw [if_pos both] at written
        exact awake_byte sound.awake rfl pipe (by show s.drained < aio.written; omega)
      · rw [if_neg both] at written
        refine awake_quiet sound.awake rfl pipe written (fun quiet => quiet_set quiet rfl rfl ?_) reads writes
        intro n empty same
        cases same
        exact both (blocks_unwatches rfl what)
  | @left i request empty callbacks held other =>
    refine ⟨sound.pipe,sound.highest,sound.small,asked_set sound.asked held,
      inside_leave sound held (fun _ same => by cases same),waiting_set sound (fun _ same => by cases same),sound.bytes,?_⟩
    exact awake_quiet sound.awake rfl rfl rfl (fun quiet => quiet_set quiet rfl rfl fun _ _ same => by cases same)
      (fun _ => id) (fun _ => id)
  | @blocked i fd empty held =>
    refine ⟨sound.pipe,sound.highest,sound.small,asked_set sound.asked held,
      inside_leave sound held (fun _ same => by cases same),fun _ _ _ => rfl,sound.bytes,?_⟩
    -- The byte that unwatch_fd has written is still in the pipe.
    exact awake_quiet sound.awake rfl rfl rfl (fun quiet => absurd held (quiet.nobody i fd empty)) (fun _ => id)
      (fun _ => id)
  | @woken i fd callbacks held free =>
    refine ⟨sound.pipe,sound.highest,sound.small,asked_set sound.asked held,fun j request empty there => ?_,
      waiting_set sound (fun _ same => by cases same),sound.bytes,?_⟩
    · rcases Machine.entry_cases there with ⟨_,same⟩ | ⟨_,old⟩
      · cases same
      · exact sound.inside j request empty old
    · exact awake_quiet sound.awake rfl rfl rfl (fun quiet => quiet_set quiet rfl rfl fun _ _ same => by cases same)
        (fun _ => id) (fun _ => id)

theorem broadcast_from {calls : List (Call C)} {i : Nat} (held : (broadcast calls)[i]? = some ⟨request,phase⟩) :
    ∃ before, calls[i]? = some ⟨request,before⟩ ∧ phase = if before = .waiting false then .waiting true else before := by
  unfold broadcast at held
  rw [List.getElem?_map] at held
  obtain ⟨⟨other,before⟩,there,same⟩ := Option.map_eq_some_iff.mp held
  dsimp only at same
  split at same
  · rename_i waiting
    cases same
    exact ⟨before,there,(if_pos waiting).symm⟩
  · rename_i awake
    cases same
    exact ⟨_,there,(if_neg awake).symm⟩

theorem poll_sound (sound : Sound pipefd s) {poll : PollPc C} {aborted : Bool} {drained : Nat}
    (bytes : drained ≤ s.mgr.aio.written) (awake : Awake ⟨{s.mgr with poll,aborted},drained⟩) :
    Sound pipefd ⟨{s.mgr with poll,aborted},drained⟩ :=
  ⟨sound.pipe,sound.highest,sound.small,sound.asked,sound.inside,sound.waiting,bytes,awake⟩

theorem awake_up {poll : PollPc C} {aborted : Bool} {drained : Nat} (up : sleeps poll = false) :
    Awake ⟨{s.mgr with poll,aborted},drained⟩ := by
  cases poll with
  | top | serve | tested | running => trivial
  | waitReady | select => cases up

theorem drain_bytes (sound : Sound pipefd s) (returns : Returns s trfds twfds high rs ws) :
    drain s trfds high rs ≤ s.mgr.aio.written := by
  have bytes := sound.bytes
  unfold drain
  split
  · rename_i read
    rcases returns with ⟨none_,_⟩ | ⟨ready,_⟩
    · rw [none_] at read
      exact absurd read.2.2 List.not_mem_nil
    · have more := ready.mp read.2.2
      omega
  · exact bytes

theorem top_quiet (sound : Sound pipefd s) (free : s.mgr.owner = none) (i : Nat) (request : Request C) (empty : Bool) :
    s.mgr.calls[i]? ≠ some ⟨request,.inside empty⟩ := fun held =>
  absurd (free.symm.trans (sound.inside i request empty held)) (by simp)

theorem broadcast_sound (sound : Sound pipefd s) (free : s.mgr.owner = none) :
    Sound pipefd ⟨{s.mgr with pending:=false,calls:=broadcast s.mgr.calls,poll:=.waitReady},s.drained⟩ := by
  have inside : ∀ (i : Nat) request empty, (broadcast s.mgr.calls)[i]? ≠ some ⟨request,.inside empty⟩ := by
    intro i request empty held
    obtain ⟨before,there,same⟩ := broadcast_from held
    split at same
    · cases same
    · exact top_quiet sound free i request empty (same ▸ there)
  refine ⟨sound.pipe,sound.highest,sound.small,fun call member => ?_,fun i request empty held =>
    absurd held (inside i request empty),fun i fd held => ?_,sound.bytes,
    fun _ => ⟨rfl,fun i fd empty => inside i (.blockRemoveFd fd) empty⟩⟩
  · obtain ⟨before,there,rfl⟩ := List.mem_map.mp member
    split
    · exact sound.asked before there
    · exact sound.asked before there
  · obtain ⟨before,_,same⟩ := broadcast_from held
    split at same
    · cases same
    · rename_i other
      exact absurd same.symm other

theorem advance_up (up : sleeps s.mgr.poll = false) (moved : advance s (.poll rs ws) = some drained) : drained = s.drained := by
  unfold advance at moved
  dsimp only at moved
  split at moved
  · rename_i poll
    rw [poll] at up
    cases up
  · exact (Option.some.inj moved).symm

theorem pollStep_sound (sound : Sound pipefd s) (moved : advance s (.poll rs ws) = some drained)
    (taken : pollStep s.mgr rs ws = some mgr) : Sound pipefd ⟨mgr,drained⟩ := by
  cases pollStep_turn taken with
  | broadcast poll free =>
    cases advance_up (by rw [poll]; rfl) moved
    exact broadcast_sound sound free
  | idle poll free idle =>
    cases advance_up (by rw [poll]; rfl) moved
    exact poll_sound sound sound.bytes fun _ => ⟨idle,fun i fd empty => top_quiet sound free i _ empty⟩
  | snapshot poll =>
    have same : drained = s.drained := by
      simp only [advance,poll,Option.some.injEq] at moved
      exact moved.symm
    subst same
    have above := sound.highest.greatest.2
    refine poll_sound sound sound.bytes ⟨sound.highest.pipe,above (.inl sound.highest.pipe),?_,fun none_ => ?_⟩
    · show s.mgr.aio.highfds < room s.mgr.aio.pipefd
      rw [sound.pipe]
      exact sound.small _ sound.highest.greatest.1
    · have awake := sound.awake
      unfold Awake at awake
      rw [poll] at awake
      exact ⟨⟨(awake none_).pending,(awake none_).nobody⟩,fun fd => ⟨fun held => ⟨held,above (.inl held)⟩,fun held => ⟨held,above (.inr held)⟩⟩⟩
  | selected poll =>
    simp only [advance,poll,Option.ite_none_right_eq_some,Option.some.injEq] at moved
    obtain ⟨returns,rfl⟩ := moved
    exact poll_sound sound (drain_bytes sound returns) (awake_up rfl)
  | serves _ up still =>
    cases advance_up up moved
    exact poll_sound sound sound.bytes (awake_up still)
  | null up =>
    cases advance_up up moved
    exact poll_sound sound sound.bytes (awake_up up)

theorem step_sound [DecidableEq C] {s' : State C} (sound : Sound pipefd s) (outside : Outside pipefd s label)
    (taken : step s label = some s') : Sound pipefd s' := by
  unfold step at taken
  split at taken
  · cases taken
  · rename_i drained moved
    obtain ⟨mgr,inner,rfl⟩ := Option.map_eq_some_iff.mp taken
    rcases step_effect inner with effect | ⟨rs,ws,rfl,turn⟩
    · have same : drained = s.drained := by
        cases effect with
        | aborts other =>
          cases label with
          | poll rs ws => exact absurd rfl (other rs ws)
          | call | enter | leave | wake => exact (Option.some.inj moved).symm
        | called | watched | unwatched | left | blocked | woken => exact (Option.some.inj moved).symm
      exact same ▸ effect_sound sound outside effect
    · exact pollStep_sound sound moved turn

theorem runs_sound [DecidableEq C] {labels : List (Label C)}
    (path : Machine.Runs step (Outside pipefd) (initial C pipefd) labels s) : Sound pipefd s :=
  path.invariant (initial_sound pipefd) fun _ _ _ sound outside taken => step_sound sound outside taken

end Steps

section Results
variable {C : Type} [DecidableEq C] {s t : State C} {labels more : List (Label C)} {pipefd : Nat × Nat}

-- In every run, when select sleeps because the pipe is empty: what is registered
-- is in its snapshot, and nobody waits for the poll thread. As the pipe is in the
-- snapshot too, a later registration or removal wakes it.
theorem select_sleeps_through_nothing (path : Machine.Runs step (Outside pipefd) (initial C pipefd) labels s)
    (poll : s.mgr.poll = .select trfds twfds high) :
    trfds pipefd.1 = true ∧ pipefd.1 ≤ high ∧ s.drained ≤ s.mgr.aio.written ∧
    (s.drained = s.mgr.aio.written →
      (∀ fd, s.mgr.aio.rfds fd = true → trfds fd = true ∧ fd ≤ high) ∧
      (∀ fd, s.mgr.aio.wfds fd = true → twfds fd = true ∧ fd ≤ high) ∧
      ∀ (i fd : Nat) phase, s.mgr.calls[i]? = some ⟨.blockRemoveFd fd,phase⟩ →
        phase = .called ∨ phase = .waiting true ∨ phase = .returned) := by
  have sound := runs_sound path
  have awake := sound.awake
  unfold Awake at awake
  rw [poll,sound.pipe] at awake
  obtain ⟨pipe,below,_,seen⟩ := awake
  refine ⟨pipe,below,sound.bytes,fun none_ => ?_⟩
  obtain ⟨quiet,seen⟩ := seen none_
  refine ⟨fun fd => (seen fd).1,fun fd => (seen fd).2,fun i fd phase held => ?_⟩
  cases phase with
  | called => exact .inl rfl
  | inside empty => exact absurd held (quiet.nobody i fd empty)
  | waiting signalled =>
    cases signalled with
    | true => exact .inr (.inl rfl)
    | false => exact absurd (quiet.pending.symm.trans (sound.waiting i fd held)) Bool.false_ne_true
  | returned => exact .inr (.inr rfl)

def isPoll : Label C → Bool
  | .poll _ _ => true
  | .call _ | .enter _ | .leave _ | .wake _ => false

omit [DecidableEq C] in
theorem reported_length (m : PollMgr.State C) (fds : Nat → Bool) (high : Nat) (ready : List Nat) :
    (reported m fds high ready).length ≤ high + 1 := by
  have bound := List.length_filter_le (fun fd => fds fd && ready.contains fd && fd != m.aio.pipefd.1) (List.range (high+1))
  rwa [List.length_range] at bound

omit [DecidableEq C] in
theorem turn_distance {m : PollMgr.State C} (sound : Sound pipefd s) (turn : Turn s.mgr rs ws m) (below : s.mgr.poll ≠ .top) :
    (m.aborted = true ∧ m.poll = s.mgr.poll) ∨ (m.calls = s.mgr.calls ∧ distance (room pipefd) m.poll < distance (room pipefd) s.mgr.poll) := by
  cases turn with
  | broadcast poll | idle poll => exact absurd poll below
  | snapshot poll =>
    right
    rw [poll]
    exact ⟨rfl,by simp [distance]⟩
  | @selected trfds twfds high poll =>
    right
    have awake := sound.awake
    unfold Awake at awake
    rw [poll,sound.pipe] at awake
    have bound := awake.2.2.1
    have readable := reported_length s.mgr trfds high rs
    have writable := reported_length s.mgr twfds high ws
    rw [poll]
    refine ⟨rfl,?_⟩
    simp only [distance]
    omega
  | serves _ _ _ less => exact .inr ⟨rfl,less _⟩
  | null => exact .inl ⟨rfl,rfl⟩

omit [DecidableEq C] in
theorem effect_poll {m m' : PollMgr.State C} {label : Label C} (effect : Effect m label m') :
    m'.poll = m.poll ∧ isPoll label = false := by
  cases effect with
  | aborts other =>
    cases label with
    | poll rs ws => exact absurd rfl (other rs ws)
    | call | enter | leave | wake => exact ⟨rfl,rfl⟩
  | called | watched | unwatched | left | blocked | woken => exact ⟨rfl,rfl⟩

theorem runs_distance (path : Machine.Runs step (Outside pipefd) (initial C pipefd) labels s) :
    distance (room pipefd) s.mgr.poll ≤ 6 * room pipefd + 3 := by
  induction path with
  | nil => exact Nat.zero_le _
  | @snoc _ before _ _ prior _ taken bound =>
    unfold step at taken
    split at taken
    · cases taken
    · obtain ⟨mgr,inner,rfl⟩ := Option.map_eq_some_iff.mp taken
      rcases step_effect inner with effect | ⟨rs,ws,rfl,turned⟩
      · rw [(effect_poll effect).1]
        exact bound
      · have turn := pollStep_turn turned
        by_cases top : before.mgr.poll = .top
        · cases turn with
          | broadcast | idle => exact Nat.le_refl _
          | snapshot poll | selected poll => exact absurd (poll.symm.trans top) (by simp)
          | serves below => exact absurd top below
          | null => exact bound
        · rcases turn_distance (runs_sound prior) turn top with ⟨_,same⟩ | ⟨_,less⟩
          · rw [same]
            exact bound
          · exact Nat.le_trans (Nat.le_of_lt less) bound

def Signalled (m : PollMgr.State C) (i fd : Nat) : Prop :=
  m.calls[i]? = some ⟨.blockRemoveFd fd,.waiting true⟩ ∨ m.calls[i]? = some ⟨.blockRemoveFd fd,.returned⟩

theorem runs_onward (path : Machine.Runs step (Outside pipefd) (initial C pipefd) labels s)
    (onward : Machine.Runs step (Outside pipefd) s more t) :
    Machine.Runs step (Outside pipefd) (initial C pipefd) (labels ++ more) t := path.append onward

theorem step_waits (sound : Sound pipefd t) {after : State C} {label : Label C} (taken : step t label = some after)
    (held : t.mgr.calls[i]? = some ⟨.blockRemoveFd fd,.waiting false⟩) :
    after.mgr.aborted = true ∨ Signalled after.mgr i fd ∨
      (after.mgr.calls[i]? = some ⟨.blockRemoveFd fd,.waiting false⟩ ∧
        distance (room pipefd) after.mgr.poll + (if isPoll label then 1 else 0) ≤ distance (room pipefd) t.mgr.poll) := by
  unfold step at taken
  split at taken
  · cases taken
  · obtain ⟨mgr,inner,rfl⟩ := Option.map_eq_some_iff.mp taken
    rcases step_effect inner with effect | ⟨rs,ws,rfl,turned⟩
    · obtain ⟨poll,other⟩ := effect_poll effect
      have near : distance (room pipefd) mgr.poll + (if isPoll label then 1 else 0) ≤ distance (room pipefd) t.mgr.poll := by
        rw [poll,other]
        exact Nat.le_refl _
      cases effect with
      | aborts => exact .inl rfl
      | called => exact .inr (.inr ⟨Machine.entry_kept held,near⟩)
      | watched there | unwatched there | left there | blocked there | woken there =>
        refine .inr (.inr ⟨(Machine.entry_other ?_).trans held,near⟩)
        rintro rfl
        cases there.symm.trans held
    · have turn := pollStep_turn turned
      by_cases top : t.mgr.poll = .top
      · cases turn with
        | broadcast => exact .inr (.inl (.inl (broadcast_entry held)))
        | idle _ _ idle => exact absurd (idle.symm.trans (sound.waiting i fd held)) Bool.false_ne_true
        | snapshot poll | selected poll => exact absurd (poll.symm.trans top) (by simp)
        | serves below => exact absurd top below
        | null => exact .inl rfl
      · rcases turn_distance sound turn top with ⟨aborted,_⟩ | ⟨calls,less⟩
        · exact .inl aborted
        · exact .inr (.inr ⟨calls ▸ held,less⟩)

theorem step_signalled {after : State C} {label : Label C} (taken : step t label = some after)
    (signalled : Signalled t.mgr i fd) : Signalled after.mgr i fd := by
  unfold step at taken
  split at taken
  · cases taken
  · obtain ⟨mgr,inner,rfl⟩ := Option.map_eq_some_iff.mp taken
    rcases step_effect inner with effect | ⟨rs,ws,rfl,turned⟩
    · have elsewhere : ∀ {j : Nat} {call : Call C}, t.mgr.calls[j]? = some call →
          call ≠ ⟨.blockRemoveFd fd,.waiting true⟩ → call ≠ ⟨.blockRemoveFd fd,.returned⟩ → i ≠ j := by
        intro j call there waiting returned
        rintro rfl
        rcases signalled with held | held
        · exact waiting (Option.some.inj (there.symm.trans held))
        · exact returned (Option.some.inj (there.symm.trans held))
      cases effect with
      | aborts => exact signalled
      | called => exact signalled.imp Machine.entry_kept Machine.entry_kept
      | watched there | unwatched there | left there | blocked there =>
        have other := elsewhere there (by simp) (by simp)
        exact signalled.imp (Machine.entry_other other).trans (Machine.entry_other other).trans
      | @woken j fd' callbacks there =>
        by_cases mine : i = j
        · subst mine
          rcases signalled with held | held
          · cases Option.some.inj (there.symm.trans held)
            exact .inr (Machine.entry_self there)
          · cases Option.some.inj (there.symm.trans held)
        · exact signalled.imp (Machine.entry_other mine).trans (Machine.entry_other mine).trans
    · rcases (pollStep_calls turned).2 with same | ⟨woken,_⟩
      · rw [Signalled,same]
        exact signalled
      · rw [Signalled,woken]
        exact signalled.imp broadcast_entry broadcast_entry

theorem step_running {after : State C} {label : Label C} (taken : step t label = some after) : t.mgr.aborted = false := by
  unfold step at taken
  split at taken
  · cases taken
  · obtain ⟨mgr,inner,_⟩ := Option.map_eq_some_iff.mp taken
    simpa using (Option.ite_none_left_eq_some.mp inner).1

theorem removal_ends_in_one_turn (path : Machine.Runs step (Outside pipefd) (initial C pipefd) labels s)
    (held : s.mgr.calls[i]? = some ⟨.blockRemoveFd fd,.waiting false⟩)
    (onward : Machine.Runs step (Outside pipefd) s more t) (turns : 6 * room pipefd + 3 < more.countP isPoll) :
    t.mgr.aborted = true ∨ Signalled t.mgr i fd := by
  have start := runs_distance path
  have along : t.mgr.aborted = true ∨ Signalled t.mgr i fd ∨
      (t.mgr.calls[i]? = some ⟨.blockRemoveFd fd,.waiting false⟩ ∧
        distance (room pipefd) t.mgr.poll + more.countP isPoll ≤ distance (room pipefd) s.mgr.poll) := by
    clear turns
    induction onward with
    | nil => exact .inr (.inr ⟨held,Nat.le_refl _⟩)
    | @snoc labels' mid label next prior allowed taken ih =>
      rcases ih with aborted | signalled | ⟨waits,near⟩
      · exact absurd (aborted.symm.trans (step_running taken)) (by simp)
      · exact .inr (.inl (step_signalled taken signalled))
      · rcases step_waits (runs_sound (runs_onward path prior)) taken waits with aborted | signalled | ⟨still,nearer⟩
        · exact .inl aborted
        · exact .inr (.inl signalled)
        · refine .inr (.inr ⟨still,?_⟩)
          rw [List.countP_append,List.countP_singleton]
          omega
  rcases along with aborted | signalled | ⟨_,near⟩
  · exact .inl aborted
  · exact .inr signalled
  · omega

instance (pipefd : Nat × Nat) (s : State C) (label : Label C) : Decidable (Outside pipefd s label) :=
  match label with
  | .call (.addCallback _ _ _) | .call (.delCallback _ _) => inferInstanceAs (Decidable (_ ∧ _))
  | .call (.blockRemoveFd _) => inferInstanceAs (Decidable (_ ≠ _))
  | .enter _ | .leave _ | .wake _ | .poll _ _ => .isTrue trivial

end Results

-- The poll thread sleeps on the pipe (3,4) when fd 5 is registered; the byte wakes
-- it, and the next snapshot has 5.
def registration : List (Label Nat) :=
  [.poll [] [],.poll [] [],.call (.addCallback 5 .CB_RDONLY 1),.enter 0,.leave 0,.poll [3] [],.poll [] [],.poll [] [],
    .poll [] []]

theorem registered_fd_seen : ∃ (s : State Nat) (trfds twfds : Nat → Bool) (high : Nat),
    Machine.Runs step (Outside (3,4)) (initial Nat (3,4)) registration s ∧ s.mgr.poll = .select trfds twfds high ∧
      trfds 5 = true := by
  have seen : (Machine.exec (Machine.guarded step (Outside (3,4))) (initial Nat (3,4)) registration).map
      (fun s => (s.drained,s.mgr.aio.written,s.mgr.aio.rfds 5,
        match s.mgr.poll with
        | .select _ _ _ => true
        | _ => false)) = some (1,1,true,true) := by decide +kernel
  obtain ⟨s,path,view⟩ := Machine.guarded_observed seen
  simp only [Prod.mk.injEq] at view
  obtain ⟨drained,written,registered,asleep⟩ := view
  split at asleep
  · rename_i trfds twfds high poll
    have nothing := (select_sleeps_through_nothing path poll).2.2.2 (by rw [drained,written])
    exact ⟨s,trfds,twfds,high,path,poll,(nothing.1 5 registered).1⟩
  · cases asleep

-- Then 5 is removed, and the poll thread makes more than one turn.
def removal : List (Label Nat) := registration ++ [.call (.blockRemoveFd 5),.enter 1,.leave 1]

def turns : List (Label Nat) := .poll [3] [] :: List.replicate 771 (.poll [] [])

theorem removal_signalled : ∃ s t : State Nat, Machine.Runs step (Outside (3,4)) (initial Nat (3,4)) removal s ∧
    Machine.Runs step (Outside (3,4)) s turns t ∧ Signalled t.mgr 1 5 := by
  have first : (Machine.exec (Machine.guarded step (Outside (3,4))) (initial Nat (3,4)) removal).map
      (fun s => s.mgr.calls[1]?) = some (some ⟨.blockRemoveFd 5,.waiting false⟩) := by decide +kernel
  have ran : ((Machine.exec (Machine.guarded step (Outside (3,4))) (initial Nat (3,4)) removal).bind fun s =>
      (Machine.exec (Machine.guarded step (Outside (3,4))) s turns).map fun t => t.mgr.aborted) = some false := by
    decide +kernel
  obtain ⟨s,before,ran⟩ := Option.bind_eq_some_iff.mp ran
  obtain ⟨t,after,running⟩ := Option.map_eq_some_iff.mp ran
  obtain ⟨_,path,held⟩ := Machine.guarded_observed first
  have prior : Machine.Runs step (Outside (3,4)) (initial Nat (3,4)) removal s := (Machine.exec_free before).of_guarded
  have onward : Machine.Runs step (Outside (3,4)) s turns t := (Machine.exec_free after).of_guarded
  cases path.deterministic prior
  refine ⟨s,t,prior,onward,?_⟩
  have many : 6 * room (3,4) + 3 < turns.countP isPoll := by decide +kernel
  exact (removal_ends_in_one_turn prior held onward many).resolve_left (by simp [running])

end YfsLab.WakePipe
