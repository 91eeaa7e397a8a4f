import YfsLab.Lib.Runs
import Mathlib.Logic.Function.Basic
import Mathlib.Data.List.Induction

namespace YfsLab.AioMgr

def maxPollFds : Nat := 128

inductive PollFlag where
  | CB_NONE
  | CB_RDONLY
  | CB_WRONLY
  | CB_RDWR
  | CB_MASK
  deriving DecidableEq, Repr

def PollFlag.value : PollFlag → BitVec 32
  | .CB_NONE => 0x0
  | .CB_RDONLY => 0x1
  | .CB_WRONLY => 0x10
  | .CB_RDWR => 0x11
  | .CB_MASK => ~~~0x11

-- SelectAIO. An fd_set is the function that FD_ISSET computes; `written` counts
-- the bytes written to the pipe.
structure SelectAIO where
  rfds : Nat → Bool
  wfds : Nat → Bool
  highfds : Nat
  pipefd : Nat × Nat
  written : Nat

def fdSet (fd : Nat) (fds : Nat → Bool) : Nat → Bool := Function.update fds fd true
def fdClr (fd : Nat) (fds : Nat → Bool) : Nat → Bool := Function.update fds fd false

namespace SelectAIO

def new (pipefd : Nat × Nat) : SelectAIO :=
  {rfds:=fdSet pipefd.1 (fun _ => false),wfds:=fun _ => false,highfds:=pipefd.1,pipefd:=pipefd,written:=0}

def watchFd (s : SelectAIO) (fd : Nat) (flag : PollFlag) : SelectAIO :=
  let s := {s with highfds:=if s.highfds ≤ fd then fd else s.highfds,written:=s.written+1}
  match flag with
  | .CB_RDONLY => {s with rfds:=fdSet fd s.rfds}
  | .CB_WRONLY => {s with wfds:=fdSet fd s.wfds}
  | _ => {s with rfds:=fdSet fd s.rfds,wfds:=fdSet fd s.wfds}

def isWatched (s : SelectAIO) (fd : Nat) (flag : PollFlag) : Bool :=
  match flag with
  | .CB_RDONLY => s.rfds fd
  | .CB_WRONLY => s.wfds fd
  | _ => s.rfds fd && s.wfds fd

def highest (s : SelectAIO) : Nat :=
  (List.range (s.highfds+1)).foldl (fun newh i => if s.rfds i then i else if s.wfds i then i else newh) s.pipefd.1

def lower (s : SelectAIO) (fd : Nat) : SelectAIO :=
  if !s.rfds fd && !s.wfds fd then if fd = s.highfds then {s with highfds:=s.highest} else s else s

-- The last branch of the source is assert(0).
def clear (s : SelectAIO) (fd : Nat) : PollFlag → Option SelectAIO
  | .CB_RDONLY => some {s with rfds:=fdClr fd s.rfds}
  | .CB_WRONLY => some {s with wfds:=fdClr fd s.wfds}
  | .CB_RDWR => some {s with wfds:=fdClr fd s.wfds,rfds:=fdClr fd s.rfds}
  | _ => none

def unwatchFd (s : SelectAIO) (fd : Nat) (flag : PollFlag) : Option (Bool × SelectAIO) :=
  (s.clear fd flag).map fun s =>
    let s := s.lower fd
    let s := if flag = .CB_RDWR then {s with written:=s.written+1} else s
    (!s.rfds fd && !s.wfds fd,s)

end SelectAIO

inductive EpollOp where
  | EPOLL_CTL_ADD
  | EPOLL_CTL_MOD
  | EPOLL_CTL_DEL
  deriving DecidableEq, Repr

def EPOLLIN : BitVec 32 := 0x1
def EPOLLOUT : BitVec 32 := 0x4
def EPOLLET : BitVec 32 := 0x80000000

structure EpollCtl where
  op : EpollOp
  fd : Nat
  events : BitVec 32
  deriving DecidableEq, Repr

-- EPollAIO. `calls` are the calls of epoll_ctl so far, all of which succeed.
structure EPollAIO where
  fdstatus : Nat → BitVec 32
  calls : List EpollCtl

-- The events that watch_fd and unwatch_fd compute from a status word.
def events (status : BitVec 32) : BitVec 32 :=
  EPOLLET ||| (if status &&& PollFlag.CB_RDONLY.value ≠ 0 then EPOLLIN else 0) |||
    (if status &&& PollFlag.CB_WRONLY.value ≠ 0 then EPOLLOUT else 0)

namespace EPollAIO

def new : EPollAIO := ⟨fun _ => 0,[]⟩

def watchFd (s : EPollAIO) (fd : Nat) (flag : PollFlag) : Option EPollAIO :=
  if fd < maxPollFds then
    let op := if s.fdstatus fd ≠ 0 then EpollOp.EPOLL_CTL_MOD else .EPOLL_CTL_ADD
    let status := s.fdstatus fd ||| flag.value
    if flag = .CB_RDWR ∧ events status ≠ EPOLLET ||| EPOLLIN ||| EPOLLOUT then none
    else some {fdstatus:=Function.update s.fdstatus fd status,calls:=s.calls ++ [⟨op,fd,events status⟩]}
  else none

def unwatchFd (s : EPollAIO) (fd : Nat) (flag : PollFlag) : Option (Bool × EPollAIO) :=
  if fd < maxPollFds then
    let status := s.fdstatus fd &&& ~~~flag.value
    let op := if status ≠ 0 then EpollOp.EPOLL_CTL_MOD else .EPOLL_CTL_DEL
    if flag = .CB_RDWR ∧ op ≠ .EPOLL_CTL_DEL then none
    else some (op = .EPOLL_CTL_DEL,
      {fdstatus:=Function.update s.fdstatus fd status,calls:=s.calls ++ [⟨op,fd,events status⟩]})
  else none

def isWatched (s : EPollAIO) (fd : Nat) (flag : PollFlag) : Option Bool :=
  if fd < maxPollFds then some (s.fdstatus fd &&& PollFlag.CB_MASK.value == flag.value) else none

end EPollAIO

-- What an aio_mgr is for: the directions that are registered for each fd.
inductive Direction where
  | read
  | write
  deriving DecidableEq, Repr

abbrev Interest := Nat → Direction → Bool

def PollFlag.covers : PollFlag → Direction → Bool
  | .CB_RDONLY,.read | .CB_WRONLY,.write | .CB_RDWR,_ => true
  | _,_ => false

def Interest.watch (known : Interest) (fd : Nat) (flag : PollFlag) : Interest :=
  fun i direction => known i direction || (i == fd && flag.covers direction)

def Interest.unwatch (known : Interest) (fd : Nat) (flag : PollFlag) : Interest :=
  fun i direction => known i direction && !(i == fd && flag.covers direction)

@[simp] theorem watch_self (known : Interest) (fd : Nat) (flag : PollFlag) (direction : Direction) :
    known.watch fd flag fd direction = (known fd direction || flag.covers direction) := by simp [Interest.watch]

@[simp] theorem unwatch_self (known : Interest) (fd : Nat) (flag : PollFlag) (direction : Direction) :
    known.unwatch fd flag fd direction = (known fd direction && !flag.covers direction) := by simp [Interest.unwatch]

theorem watch_other {known : Interest} (different : i ≠ fd) : known.watch fd flag i direction = known i direction := by
  have elsewhere : (i == fd) = false := by simpa using different
  simp [Interest.watch,elsewhere]

theorem unwatch_other {known : Interest} (different : i ≠ fd) :
    known.unwatch fd flag i direction = known i direction := by
  have elsewhere : (i == fd) = false := by simpa using different
  simp [Interest.unwatch,elsewhere]

def Interest.idle (known : Interest) (fd : Nat) : Bool := !known fd .read && !known fd .write

def PollFlag.Direct (flag : PollFlag) : Prop := flag = .CB_RDONLY ∨ flag = .CB_WRONLY ∨ flag = .CB_RDWR

instance directDecidable : DecidablePred PollFlag.Direct := fun _ => inferInstanceAs (Decidable (_ ∨ _ ∨ _))

def word (read write : Bool) : BitVec 32 :=
  (if read then PollFlag.CB_RDONLY.value else 0) ||| (if write then PollFlag.CB_WRONLY.value else 0)

def SelectAIO.Shows (s : SelectAIO) (known : Interest) : Prop :=
  ∀ fd, fd ≠ s.pipefd.1 → s.rfds fd = known fd .read ∧ s.wfds fd = known fd .write

def EPollAIO.Shows (s : EPollAIO) (known : Interest) : Prop :=
  ∀ fd, fd < maxPollFds → s.fdstatus fd = word (known fd .read) (known fd .write)

theorem word_watch (direct : flag.Direct) (read write : Bool) :
    word read write ||| PollFlag.value flag = word (read || flag.covers .read) (write || flag.covers .write) := by
  rcases direct with rfl | rfl | rfl <;> cases read <;> cases write <;> rfl

theorem word_unwatch (direct : flag.Direct) (read write : Bool) :
    word read write &&& ~~~PollFlag.value flag = word (read && !flag.covers .read) (write && !flag.covers .write) := by
  rcases direct with rfl | rfl | rfl <;> cases read <;> cases write <;> rfl

theorem word_deleted (read write : Bool) :
    decide ((if word read write ≠ 0 then EpollOp.EPOLL_CTL_MOD else .EPOLL_CTL_DEL) = .EPOLL_CTL_DEL) =
      (!read && !write) := by
  cases read <;> cases write <;> decide

theorem word_masked (read write : Bool) : word read write &&& PollFlag.CB_MASK.value = 0 := by
  cases read <;> cases write <;> rfl

theorem fdSet_apply (fd : Nat) (fds : Nat → Bool) (i : Nat) : fdSet fd fds i = (fds i || i == fd) := by
  unfold fdSet
  rw [Function.update_apply]
  split
  · rename_i same; simp [same]
  · rename_i different; simp [different]

theorem fdClr_apply (fd : Nat) (fds : Nat → Bool) (i : Nat) : fdClr fd fds i = (fds i && !(i == fd)) := by
  unfold fdClr
  rw [Function.update_apply]
  split
  · rename_i same; simp [same]
  · rename_i different; simp [different]

theorem select_watch_shows {s : SelectAIO} {known : Interest} (direct : flag.Direct) (shows : s.Shows known) :
    (s.watchFd fd flag).Shows (known.watch fd flag) := by
  intro i outside
  obtain ⟨reads,writes⟩ := shows i (by rcases direct with rfl | rfl | rfl <;> exact outside)
  rcases direct with rfl | rfl | rfl <;>
    simp [ SelectAIO.watchFd,Interest.watch,PollFlag.covers,fdSet_apply,reads,writes]

theorem watchFd_pipefd (s : SelectAIO) (fd : Nat) (flag : PollFlag) : (s.watchFd fd flag).pipefd = s.pipefd := by
  cases flag <;> rfl

theorem lower_sets (s : SelectAIO) (fd : Nat) :
    (s.lower fd).rfds = s.rfds ∧ (s.lower fd).wfds = s.wfds ∧ (s.lower fd).pipefd = s.pipefd := by
  unfold SelectAIO.lower
  split
  · split <;> exact ⟨rfl,rfl,rfl⟩
  · exact ⟨rfl,rfl,rfl⟩

theorem clear_sets {s : SelectAIO} (direct : PollFlag.Direct flag) : ∃ cleared, s.clear fd flag = some cleared ∧
    (∀ i, cleared.rfds i = (s.rfds i && !(i == fd && flag.covers .read)) ∧
      cleared.wfds i = (s.wfds i && !(i == fd && flag.covers .write))) ∧ cleared.pipefd = s.pipefd := by
  rcases direct with rfl | rfl | rfl
  · exact ⟨_,rfl,by simp [PollFlag.covers,fdClr_apply],rfl⟩
  · exact ⟨_,rfl,by simp [PollFlag.covers,fdClr_apply],rfl⟩
  · exact ⟨_,rfl,by simp [PollFlag.covers,fdClr_apply],rfl⟩

theorem unwatchFd_cleared {s cleared : SelectAIO} (result : s.clear fd flag = some cleared) :
    ∃ after, s.unwatchFd fd flag = some (!cleared.rfds fd && !cleared.wfds fd,after) ∧
      after.rfds = cleared.rfds ∧ after.wfds = cleared.wfds ∧ after.pipefd = cleared.pipefd := by
  obtain ⟨rfds,wfds,pipefd⟩ := lower_sets cleared fd
  unfold SelectAIO.unwatchFd
  rw [result,Option.map_some]
  dsimp only
  split
  · refine ⟨{cleared.lower fd with written:=(cleared.lower fd).written+1},?_,rfds,wfds,pipefd⟩
    rw [← rfds,← wfds]
  · refine ⟨cleared.lower fd,?_,rfds,wfds,pipefd⟩
    rw [rfds,wfds]

theorem unwatchFd_sets {s after : SelectAIO} (result : s.unwatchFd fd flag = some (unwatched,after)) (i : Nat) :
    after.rfds i = (s.rfds i && !(i == fd && flag.covers .read)) ∧
      after.wfds i = (s.wfds i && !(i == fd && flag.covers .write)) := by
  have direct : flag.Direct := by
    cases flag with
    | CB_RDONLY => exact .inl rfl
    | CB_WRONLY => exact .inr (.inl rfl)
    | CB_RDWR => exact .inr (.inr rfl)
    | CB_NONE => cases result
    | CB_MASK => cases result
  obtain ⟨cleared,found,sets,_⟩ := clear_sets (s:=s) direct
  obtain ⟨other,answer,rfds,wfds,_⟩ := unwatchFd_cleared found
  cases Option.some.inj (answer.symm.trans result)
  rw [rfds,wfds]
  exact sets i

theorem select_unwatch_shows {s : SelectAIO} {known : Interest} (direct : flag.Direct) (shows : s.Shows known)
    (outside : fd ≠ s.pipefd.1) : ∃ after, s.unwatchFd fd flag = some ((known.unwatch fd flag).idle fd,after) ∧
      after.Shows (known.unwatch fd flag) ∧ after.pipefd = s.pipefd := by
  obtain ⟨cleared,result,sets,pipe⟩ := clear_sets (s:=s) direct
  obtain ⟨after,answer,rfds,wfds,pipefd⟩ := unwatchFd_cleared result
  have represented : ∀ i, i ≠ s.pipefd.1 → cleared.rfds i = known.unwatch fd flag i .read ∧
      cleared.wfds i = known.unwatch fd flag i .write := by
    intro i other
    obtain ⟨reads,writes⟩ := sets i
    obtain ⟨readsKnown,writesKnown⟩ := shows i other
    exact ⟨by rw [reads,readsKnown]; rfl,by rw [writes,writesKnown]; rfl⟩
  obtain ⟨reads,writes⟩ := represented fd outside
  refine ⟨after,?_,?_,pipefd.trans pipe⟩
  · rw [answer,reads,writes]; rfl
  · intro i other
    rw [rfds,wfds]
    exact represented i (by rwa [pipefd,pipe] at other)

theorem epoll_watch_shows {s : EPollAIO} {known : Interest} (direct : flag.Direct) (shows : s.Shows known)
    (small : fd < maxPollFds) : ∃ after, s.watchFd fd flag = some after ∧ after.Shows (known.watch fd flag) := by
  have status : s.fdstatus fd ||| flag.value = word (known.watch fd flag fd .read) (known.watch fd flag fd .write) := by
    rw [shows fd small,word_watch direct,watch_self,watch_self]
  have asserted : ¬ (flag = .CB_RDWR ∧ events (s.fdstatus fd ||| flag.value) ≠ EPOLLET ||| EPOLLIN ||| EPOLLOUT) := by
    intro failed
    obtain ⟨rfl,different⟩ := failed
    apply different
    rw [status,watch_self,watch_self]
    simp only [PollFlag.covers,Bool.or_true]
    rfl
  unfold EPollAIO.watchFd
  rw [if_pos small]
  dsimp only
  rw [if_neg asserted]
  refine ⟨_,rfl,?_⟩
  intro i bounded
  dsimp only
  rw [Function.update_apply]
  split
  · rename_i same; rw [same,status]
  · rename_i different
    rw [shows i bounded,watch_other different,watch_other different]

theorem epoll_unwatch_shows {s : EPollAIO} {known : Interest} (direct : flag.Direct) (shows : s.Shows known)
    (small : fd < maxPollFds) : ∃ after, s.unwatchFd fd flag = some ((known.unwatch fd flag).idle fd,after) ∧
      after.Shows (known.unwatch fd flag) := by
  have status : s.fdstatus fd &&& ~~~flag.value =
      word (known.unwatch fd flag fd .read) (known.unwatch fd flag fd .write) := by
    rw [shows fd small,word_unwatch direct,unwatch_self,unwatch_self]
  have asserted : ¬ (flag = .CB_RDWR ∧ (if s.fdstatus fd &&& ~~~flag.value ≠ 0 then EpollOp.EPOLL_CTL_MOD
      else .EPOLL_CTL_DEL) ≠ .EPOLL_CTL_DEL) := by
    intro failed
    obtain ⟨rfl,different⟩ := failed
    apply different
    rw [status,unwatch_self,unwatch_self]
    simp [PollFlag.covers,word]
  have answer : decide ((if s.fdstatus fd &&& ~~~flag.value ≠ 0 then EpollOp.EPOLL_CTL_MOD else .EPOLL_CTL_DEL) =
      .EPOLL_CTL_DEL) = (known.unwatch fd flag).idle fd := by
    rw [status]
    exact word_deleted _ _
  unfold EPollAIO.unwatchFd
  rw [if_pos small]
  dsimp only
  rw [if_neg asserted,answer]
  refine ⟨_,rfl,?_⟩
  intro i bounded
  dsimp only
  rw [Function.update_apply]
  split
  · rename_i same; rw [same,status]
  · rename_i different
    rw [shows i bounded,unwatch_other different,unwatch_other different]

-- A caller uses the two in the same way; `answers` are the results of its calls
-- of unwatch_fd.
structure Both where
  select : SelectAIO
  epoll : EPollAIO
  answers : List (Bool × Bool)

inductive Call where
  | watch (fd : Nat) (flag : PollFlag)
  | unwatch (fd : Nat) (flag : PollFlag)
  deriving DecidableEq, Repr

def initial (pipefd : Nat × Nat) : Both := ⟨.new pipefd,.new,[]⟩

def step (s : Both) : Call → Option Both
  | .watch fd flag => (s.epoll.watchFd fd flag).map fun epoll => {s with select:=s.select.watchFd fd flag,epoll:=epoll}
  | .unwatch fd flag =>
    (s.select.unwatchFd fd flag).bind fun select => (s.epoll.unwatchFd fd flag).map fun epoll =>
      ⟨select.2,epoll.2,s.answers ++ [(select.1,epoll.1)]⟩

-- What the interface allows: an fd below the bound that is not the read end of
-- SelectAIO's pipe, and a flag that names directions.
def Proper (pipefd : Nat × Nat) : Call → Prop
  | .watch fd flag | .unwatch fd flag => fd < maxPollFds ∧ fd ≠ pipefd.1 ∧ flag.Direct

instance properDecidable (pipefd : Nat × Nat) : DecidablePred (Proper pipefd)
  | .watch _ _ => inferInstanceAs (Decidable (_ ∧ _ ∧ _))
  | .unwatch _ _ => inferInstanceAs (Decidable (_ ∧ _ ∧ _))

def Interest.call (known : Interest) : Call → Interest
  | .watch fd flag => known.watch fd flag
  | .unwatch fd flag => known.unwatch fd flag

def interest (calls : List Call) : Interest := calls.foldl Interest.call (fun _ _ => false)

structure Both.Shows (pipefd : Nat × Nat) (s : Both) (known : Interest) : Prop where
  select : s.select.Shows known
  pipe : s.select.pipefd = pipefd
  epoll : s.epoll.Shows known
  alike : ∀ answer ∈ s.answers, answer.1 = answer.2

theorem step_shows (shows : s.Shows pipefd known) (proper : Proper pipefd call) :
    ∃ after, step s call = some after ∧ after.Shows pipefd (known.call call) := by
  cases call with
  | watch fd flag =>
    obtain ⟨small,outside,direct⟩ := proper
    obtain ⟨epoll,result,held⟩ := epoll_watch_shows direct shows.epoll small
    refine ⟨{s with select:=s.select.watchFd fd flag,epoll:=epoll},?_,?_,?_,held,shows.alike⟩
    · simp only [step,result,Option.map_some]
    · exact select_watch_shows direct shows.select
    · exact (watchFd_pipefd _ _ _).trans shows.pipe
  | unwatch fd flag =>
    obtain ⟨small,outside,direct⟩ := proper
    obtain ⟨epoll,result,held⟩ := epoll_unwatch_shows direct shows.epoll small
    obtain ⟨select,answered,kept,pipe⟩ := select_unwatch_shows direct shows.select (shows.pipe ▸ outside)
    refine ⟨⟨select,epoll,s.answers ++ [((known.unwatch fd flag).idle fd,(known.unwatch fd flag).idle fd)]⟩,
      ?_,kept,pipe.trans shows.pipe,held,?_⟩
    · simp only [step,answered,result,Option.bind_some,Option.map_some]
    · intro answer member
      rcases List.mem_append.mp member with old | new
      · exact shows.alike answer old
      · rw [List.mem_singleton.mp new]

theorem exec_shows (shows : s.Shows pipefd known) (proper : ∀ call ∈ calls, Proper pipefd call) :
    ∃ after, Machine.exec step s calls = some after ∧ after.Shows pipefd (calls.foldl Interest.call known) := by
  induction calls generalizing s known with
  | nil => exact ⟨s,rfl,shows⟩
  | cons call rest ih =>
    obtain ⟨middle,taken,held⟩ := step_shows shows (proper call (by simp))
    obtain ⟨after,ran,final⟩ := ih held (fun call member => proper call (List.mem_cons_of_mem _ member))
    exact ⟨after,by rw [Machine.exec,taken,Option.bind_some,ran],final⟩

theorem initial_shows (pipefd : Nat × Nat) : (initial pipefd).Shows pipefd (fun _ _ => false) := by
  refine ⟨?_,rfl,?_,by simp [initial]⟩
  · intro fd outside
    have elsewhere : (fd == pipefd.1) = false := by simpa [initial, SelectAIO.new] using outside
    exact ⟨by simp [initial, SelectAIO.new,fdSet_apply,elsewhere],rfl⟩
  · intro fd _
    simp [initial, EPollAIO.new,word]

def LeftWatched (calls : List Call) (fd : Nat) (direction : Direction) : Prop :=
  ∃ earlier flag later, calls = earlier ++ .watch fd flag :: later ∧ flag.covers direction = true ∧
    ∀ flag', flag'.covers direction = true → .unwatch fd flag' ∉ later

theorem interest_snoc (calls : List Call) (call : Call) : interest (calls ++ [call]) = (interest calls).call call := by
  simp [interest]

theorem leftWatched_snoc : LeftWatched (calls ++ [call]) fd direction ↔
    (∃ flag, call = .watch fd flag ∧ flag.covers direction = true) ∨
    (LeftWatched calls fd direction ∧ ∀ flag, flag.covers direction = true → call ≠ .unwatch fd flag) := by
  constructor
  · intro left
    obtain ⟨earlier,flag,later,equal,covers,kept⟩ := left
    rcases List.eq_nil_or_concat later with rfl | ⟨rest,last,rfl⟩
    · obtain ⟨_,same⟩ := List.append_inj' equal rfl
      exact .inl ⟨flag,List.cons.inj same |>.1,covers⟩
    · rw [List.concat_eq_append,← List.cons_append,← List.append_assoc] at equal
      obtain ⟨same,final⟩ := List.append_inj' equal rfl
      cases final
      refine .inr ⟨⟨earlier,flag,rest,same,covers,?_⟩,?_⟩
      · exact fun flag' covers' member => kept flag' covers' (by simp [member])
      · exact fun flag' covers' unwatched => kept flag' covers' (by simp [unwatched])
  · intro either
    rcases either with ⟨flag,rfl,covers⟩ | ⟨⟨earlier,flag,later,rfl,covers,kept⟩,stays⟩
    · exact ⟨calls,flag,[],rfl,covers,by simp⟩
    · refine ⟨earlier,flag,later ++ [call],by simp,covers,?_⟩
      intro flag' covers' member
      rcases List.mem_append.mp member with old | new
      · exact kept flag' covers' old
      · exact stays flag' covers' (List.mem_singleton.mp new).symm

theorem interest_iff (calls : List Call) (fd : Nat) (direction : Direction) :
    interest calls fd direction = true ↔ LeftWatched calls fd direction := by
  induction calls using List.reverseRecOn with
  | nil =>
    refine iff_of_false (by simp [interest]) ?_
    intro left
    obtain ⟨earlier,flag,later,equal,_⟩ := left
    simp at equal
  | append_singleton calls call ih =>
    rw [interest_snoc,leftWatched_snoc,← ih]
    cases call with
    | watch other flag =>
      by_cases same : fd = other
      · subst same
        simp [Interest.call,or_comm]
      · simp [Interest.call,watch_other same,Ne.symm same]
    | unwatch other flag =>
      by_cases same : fd = other
      · subst same
        have uncovered : flag.covers direction = false ↔
            ∀ flag', PollFlag.covers flag' direction = true → Call.unwatch fd flag ≠ .unwatch fd flag' := by
          constructor
          · intro clear flag' covers equal
            cases equal
            rw [clear] at covers
            cases covers
          · intro different
            exact Bool.eq_false_iff.mpr fun covers => different flag covers rfl
        rw [← uncovered]
        simp [Interest.call]
      · simp [Interest.call,unwatch_other same,Ne.symm same]

def WatchedAlike (pipefd : Nat × Nat) (s : Both) : Prop :=
  ∀ fd flag, fd < maxPollFds → fd ≠ pipefd.1 → flag.Direct →
    s.epoll.isWatched fd flag = some (s.select.isWatched fd flag)

theorem epoll_watches_nothing {s : Both} {flag : PollFlag} (shows : s.Shows pipefd known) (small : fd < maxPollFds) (direct : flag.Direct) :
    s.epoll.isWatched fd flag = some false := by
  unfold EPollAIO.isWatched
  rw [if_pos small,shows.epoll fd small,word_masked]
  rcases direct with rfl | rfl | rfl <;> rfl

theorem watchedAlike_iff {s : Both} (shows : s.Shows pipefd (interest calls))
    (proper : ∀ call ∈ calls, Proper pipefd call) :
    WatchedAlike pipefd s ↔ ∀ fd direction, ¬ LeftWatched calls fd direction := by
  constructor
  · intro alike fd direction left
    -- Only proper calls register anything, and SelectAIO shows it.
    obtain ⟨small,outside⟩ : fd < maxPollFds ∧ fd ≠ pipefd.1 := by
      obtain ⟨earlier,flag,later,rfl,_⟩ := left
      obtain ⟨small,outside,_⟩ := proper (.watch fd flag) (by simp)
      exact ⟨small,outside⟩
    have registered := (interest_iff calls fd direction).mpr left
    obtain ⟨reads,writes⟩ := shows.select fd (shows.pipe ▸ outside)
    cases direction with
    | read =>
      have answer := alike fd .CB_RDONLY small outside (.inl rfl)
      rw [epoll_watches_nothing shows small (.inl rfl)] at answer
      have watched : s.select.isWatched fd .CB_RDONLY = true := reads.trans registered
      rw [watched] at answer
      cases answer
    | write =>
      have answer := alike fd .CB_WRONLY small outside (.inr (.inl rfl))
      rw [epoll_watches_nothing shows small (.inr (.inl rfl))] at answer
      have watched : s.select.isWatched fd .CB_WRONLY = true := writes.trans registered
      rw [watched] at answer
      cases answer
  · intro none fd flag small outside direct
    have clear : ∀ direction, interest calls fd direction = false := by
      intro direction
      have left := mt (interest_iff calls fd direction).mp (none fd direction)
      simpa using left
    obtain ⟨reads,writes⟩ := shows.select fd (shows.pipe ▸ outside)
    rw [clear] at reads writes
    rw [epoll_watches_nothing shows small direct]
    rcases direct with rfl | rfl | rfl <;> simp [ SelectAIO.isWatched,reads,writes]

theorem implementations_agree_iff (pipefd : Nat × Nat) (calls : List Call) (proper : ∀ call ∈ calls, Proper pipefd call) :
    ∃ s, Machine.exec step (initial pipefd) calls = some s ∧
      ((WatchedAlike pipefd s ∧ ∀ answer ∈ s.answers, answer.1 = answer.2) ↔
        ∀ fd direction, ¬ LeftWatched calls fd direction) ∧
      ∀ answer ∈ s.answers, answer.1 = answer.2 := by
  obtain ⟨s,ran,shows⟩ := exec_shows (initial_shows pipefd) proper
  refine ⟨s,ran,?_,shows.alike⟩
  rw [and_iff_left shows.alike]
  exact watchedAlike_iff shows proper

-- One registration of fd 5; the pipe is 3 and 4.
theorem watched_disagrees :
    ∃ s, Machine.exec step (initial (3,4)) [.watch 5 .CB_RDONLY] = some s ∧ Proper (3,4) (.watch 5 .CB_RDONLY) ∧
      s.select.isWatched 5 .CB_RDONLY = true ∧ s.epoll.isWatched 5 .CB_RDONLY = some false ∧
      ¬ (WatchedAlike (3,4) s ∧ ∀ answer ∈ s.answers, answer.1 = answer.2) := by
  refine ⟨_,rfl,by decide,rfl,rfl,?_⟩
  intro both
  have answer := both.1 5 .CB_RDONLY (by decide) (by decide) (by decide)
  cases answer

theorem agree_when_unwatched :
    ∃ s, Machine.exec step (initial (3,4)) [.watch 5 .CB_RDWR,.unwatch 5 .CB_WRONLY,.unwatch 5 .CB_RDONLY] = some s ∧
      WatchedAlike (3,4) s ∧ ∀ answer ∈ s.answers, answer.1 = answer.2 := by
  obtain ⟨s,ran,alike,_⟩ := implementations_agree_iff (3,4)
    [.watch 5 .CB_RDWR,.unwatch 5 .CB_WRONLY,.unwatch 5 .CB_RDONLY] (by decide)
  refine ⟨s,ran,alike.mpr ?_⟩
  rintro fd direction ⟨earlier,flag,later,equal,_,kept⟩
  rcases earlier with _ | ⟨_,earlier⟩
  · obtain ⟨first,rfl⟩ := List.cons.inj equal
    cases first
    cases direction with
    | read => exact kept .CB_RDONLY rfl (by simp)
    | write => exact kept .CB_WRONLY rfl (by simp)
  · rcases earlier with _ | ⟨_,_ | ⟨_,_⟩⟩ <;> simp at equal

end YfsLab.AioMgr
