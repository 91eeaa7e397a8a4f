import YfsLab.PollMgr
import Mathlib.Order.Bounds.Defs

namespace YfsLab.WaitReady
open AioMgr

-- select over the fds below nfds: those that were asked for and are ready. The
-- bits from nfds on are not looked at.
def select (nfds : Nat) (fds ready : Nat → Bool) : Nat → Bool := fun fd => if fd < nfds then fds fd && ready fd else fds fd

-- What one call of wait_ready collects; `drained` counts the reads of the pipe.
structure Found where
  readable : List Nat
  writable : List Nat
  drained : Nat
  deriving DecidableEq, Repr

def visit (pipefd : Nat × Nat) (trfds twfds : Nat → Bool) (found : Found) (fd : Nat) : Found :=
  if fd = pipefd.1 ∧ trfds fd = true then {found with drained:=found.drained+1}
  else
    let found := if twfds fd then {found with writable:=found.writable ++ [fd]} else found
    if trfds fd then {found with readable:=found.readable ++ [fd]} else found

-- How select returns. Errors other than EINTR end the program.
inductive Selected where
  | EINTR
  | ready (rs ws : Nat → Bool)

def waitReady (s : SelectAIO) : Selected → Found
  | .EINTR => ⟨[],[],0⟩
  | .ready rs ws =>
    let trfds := select (s.highfds+1) s.rfds rs
    let twfds := select (s.highfds+1) s.wfds ws
    (List.range (s.highfds+1)).foldl (visit s.pipefd trfds twfds) ⟨[],[],0⟩

def Watched (s : SelectAIO) (fd : Nat) : Prop := s.rfds fd = true ∨ s.wfds fd = true

instance (s : SelectAIO) : DecidablePred (Watched s) := fun _ => inferInstanceAs (Decidable (_ ∨ _))

-- highfds_ is the largest fd that is watched, and of the pipe only the read end
-- is, for reading.
structure Highest (s : SelectAIO) : Prop where
  greatest : IsGreatest {fd | Watched s fd} s.highfds
  pipe : s.rfds s.pipefd.1 = true
  pipeWrites : s.wfds s.pipefd.1 = false

theorem new_highest (pipefd : Nat × Nat) : Highest (.new pipefd) := by
  have only : ∀ fd, Watched (.new pipefd) fd ↔ fd = pipefd.1 := by
    intro fd
    simp [Watched, SelectAIO.new,fdSet_apply]
  refine ⟨⟨(only _).mpr rfl,fun fd watched => ?_⟩,by simp [ SelectAIO.new,fdSet_apply],rfl⟩
  exact Nat.le_of_eq ((only fd).mp watched)

theorem watchFd_sets (direct : PollFlag.Direct flag) (s : SelectAIO) (fd i : Nat) :
    (s.watchFd fd flag).rfds i = (s.rfds i || (i == fd && flag.covers .read)) ∧
      (s.watchFd fd flag).wfds i = (s.wfds i || (i == fd && flag.covers .write)) := by
  rcases direct with rfl | rfl | rfl <;> simp [ SelectAIO.watchFd,PollFlag.covers,fdSet_apply]

theorem watchFd_highfds (s : SelectAIO) (fd : Nat) (flag : PollFlag) :
    (s.watchFd fd flag).highfds = if s.highfds ≤ fd then fd else s.highfds := by
  cases flag <;> rfl

theorem direct_covers (direct : PollFlag.Direct flag) : flag.covers .read = true ∨ flag.covers .write = true := by
  rcases direct with rfl | rfl | rfl <;> decide

theorem watch_highest (highest : Highest s) (direct : PollFlag.Direct flag) (outside : fd ≠ s.pipefd.1) :
    Highest (s.watchFd fd flag) := by
  have watched : ∀ i, Watched (s.watchFd fd flag) i ↔ Watched s i ∨ i = fd := by
    intro i
    obtain ⟨reads,writes⟩ := watchFd_sets direct s fd i
    rw [Watched,reads,writes]
    rcases direct_covers direct with covered | covered <;> simp [Watched,covered] <;> tauto
  obtain ⟨member,above⟩ := highest.greatest
  obtain ⟨reads,writes⟩ := watchFd_sets direct s fd s.pipefd.1
  have elsewhere : (s.pipefd.1 == fd) = false := by simpa using Ne.symm outside
  refine ⟨⟨?_,?_⟩,?_,?_⟩
  · change Watched _ _
    rw [watched,watchFd_highfds]
    split
    · exact .inr rfl
    · exact .inl member
  · intro i held
    rw [watchFd_highfds]
    rcases (watched i).mp held with old | rfl
    · have bound := above old
      split <;> omega
    · split <;> omega
  · rw [watchFd_pipefd,reads,highest.pipe,Bool.true_or]
  · rw [watchFd_pipefd,writes,highest.pipeWrites,elsewhere]
    rfl

theorem highest_last (s : SelectAIO) (n : Nat) (here : Watched s low) (below : low < n) :
    IsGreatest {fd | fd < n ∧ Watched s fd}
      ((List.range n).foldl (fun newh i => if s.rfds i then i else if s.wfds i then i else newh) d) := by
  induction n with
  | zero => cases below
  | succ n ih =>
    rw [List.range_succ,List.foldl_append]
    simp only [List.foldl_cons,List.foldl_nil]
    by_cases last : Watched s n
    · have taken : (if s.rfds n then n else if s.wfds n then n else
          (List.range n).foldl (fun newh i => if s.rfds i then i else if s.wfds i then i else newh) d) = n := by
        rcases last with reads | writes
        · rw [if_pos reads]
        · rw [if_pos writes]; exact ite_self n
      rw [taken]
      exact ⟨⟨Nat.lt_succ_self n,last⟩,fun i inside => Nat.lt_succ_iff.mp inside.1⟩
    · obtain ⟨reads,writes⟩ := not_or.mp last
      rw [if_neg reads,if_neg writes]
      have different : low ≠ n := fun same => last (same ▸ here)
      obtain ⟨⟨small,watched⟩,above⟩ := ih (by omega)
      refine ⟨⟨Nat.lt_succ_of_lt small,watched⟩,fun i inside => above ⟨?_,inside.2⟩⟩
      have other : i ≠ n := fun same => last (same ▸ inside.2)
      have := inside.1
      omega

theorem lower_highfds (s : SelectAIO) (fd : Nat) :
    ((s.lower fd).highfds = s.highfds ∧ (Watched s fd ∨ fd ≠ s.highfds)) ∨ (s.lower fd).highfds = s.highest := by
  unfold SelectAIO.lower
  split
  · split
    · exact .inr rfl
    · rename_i different; exact .inl ⟨rfl,.inr different⟩
  · rename_i held
    refine .inl ⟨rfl,.inl ?_⟩
    cases reads : s.rfds fd with
    | true => exact .inl reads
    | false =>
      cases writes : s.wfds fd with
      | true => exact .inr writes
      | false => simp [reads,writes] at held

theorem unwatchFd_highfds {s after : SelectAIO} (direct : PollFlag.Direct flag)
    (result : s.unwatchFd fd flag = some (unwatched,after)) :
    after.pipefd = s.pipefd ∧ ((after.highfds = s.highfds ∧ (Watched after fd ∨ fd ≠ s.highfds)) ∨
      after.highfds = (List.range (s.highfds+1)).foldl
        (fun newh i => if after.rfds i then i else if after.wfds i then i else newh) s.pipefd.1) := by
  have clears : ∃ cleared, s.clear fd flag = some cleared ∧ _ := clear_sets direct
  obtain ⟨cleared,found,_,pipe⟩ := clears
  have high : cleared.highfds = s.highfds := by
    rcases direct with rfl | rfl | rfl <;> cases found <;> rfl
  obtain ⟨rfds,wfds,still⟩ := lower_sets cleared fd
  have lowered := lower_highfds cleared fd
  rw [ SelectAIO.highest,Watched,← rfds,← wfds,high,pipe] at lowered
  unfold SelectAIO.unwatchFd at result
  rw [found,Option.map_some] at result
  cases Option.some.inj result
  split
  · exact ⟨still.trans pipe,lowered⟩
  · exact ⟨still.trans pipe,lowered⟩

theorem unwatch_other_kept {s after : SelectAIO} (result : s.unwatchFd fd flag = some (unwatched,after)) (different : fd ≠ i)
    (watched : Watched s i) : Watched after i := by
  obtain ⟨reads,writes⟩ := unwatchFd_sets result i
  have other : (i == fd) = false := by simpa using Ne.symm different
  rw [Watched,reads,writes,other]
  simpa [Watched] using watched

theorem unwatch_highest (highest : Highest s) (direct : PollFlag.Direct flag) (outside : fd ≠ s.pipefd.1)
    (result : s.unwatchFd fd flag = some (unwatched,after)) : Highest after := by
  obtain ⟨pipefd,high⟩ := unwatchFd_highfds direct result
  have elsewhere : (s.pipefd.1 == fd) = false := by simpa using Ne.symm outside
  obtain ⟨pipeReads,pipeWrites⟩ := unwatchFd_sets result s.pipefd.1
  have pipe : after.rfds s.pipefd.1 = true := by rw [pipeReads,highest.pipe,elsewhere]; rfl
  have subset : ∀ i, Watched after i → Watched s i := by
    intro i watched
    obtain ⟨reads,writes⟩ := unwatchFd_sets result i
    rw [Watched,reads,writes] at watched
    exact watched.imp (fun held => (Bool.and_eq_true_iff.mp held).1) (fun held => (Bool.and_eq_true_iff.mp held).1)
  obtain ⟨member,above⟩ := highest.greatest
  have low : s.pipefd.1 ≤ s.highfds := above (.inl highest.pipe)
  refine ⟨?_,by rw [pipefd]; exact pipe,by rw [pipefd,pipeWrites,highest.pipeWrites]; rfl⟩
  rcases high with ⟨kept,why⟩ | searched
  · rw [kept]
    refine ⟨?_,fun i watched => above (subset i watched)⟩
    rcases why with still | different
    · by_cases same : fd = s.highfds
      · exact same ▸ still
      · exact unwatch_other_kept result same member
    · exact unwatch_other_kept result different member
  · -- The search finds the pipe at least.
    rw [searched]
    obtain ⟨⟨_,here⟩,greatest⟩ := highest_last after (s.highfds+1) (d:=s.pipefd.1) (.inl pipe) (Nat.lt_succ_of_le low)
    exact ⟨here,fun i watched => greatest ⟨Nat.lt_succ_of_le (above (subset i watched)),watched⟩⟩

def step (s : SelectAIO) : Call → Option SelectAIO
  | .watch fd flag => some (s.watchFd fd flag)
  | .unwatch fd flag => (s.unwatchFd fd flag).map Prod.snd

-- Any fd but the two ends of the pipe, and a flag that names directions.
def Outside (pipefd : Nat × Nat) : Call → Prop
  | .watch fd flag | .unwatch fd flag => fd ≠ pipefd.1 ∧ fd ≠ pipefd.2 ∧ flag.Direct

instance (pipefd : Nat × Nat) : DecidablePred (Outside pipefd)
  | .watch _ _ => inferInstanceAs (Decidable (_ ∧ _ ∧ _))
  | .unwatch _ _ => inferInstanceAs (Decidable (_ ∧ _ ∧ _))

theorem step_highest (highest : Highest s) (shows : s.Shows known) (outside : Outside s.pipefd call) :
    ∃ after, step s call = some after ∧ Highest after ∧ after.Shows (known.call call) ∧ after.pipefd = s.pipefd := by
  cases call with
  | watch fd flag =>
    obtain ⟨read,_,direct⟩ := outside
    exact ⟨_,rfl,watch_highest highest direct read,select_watch_shows direct shows,watchFd_pipefd s fd flag⟩
  | unwatch fd flag =>
    obtain ⟨read,_,direct⟩ := outside
    obtain ⟨after,result,held,pipe⟩ := select_unwatch_shows direct shows read
    exact ⟨after,by simp only [step,result,Option.map_some],unwatch_highest highest direct read result,held,pipe⟩

theorem exec_highest (highest : Highest s) (shows : s.Shows known) (outside : ∀ call ∈ calls, Outside s.pipefd call) :
    ∃ after, Machine.exec step s calls = some after ∧ Highest after ∧ after.Shows (calls.foldl Interest.call known) ∧
      after.pipefd = s.pipefd := by
  induction calls generalizing s known with
  | nil => exact ⟨s,rfl,highest,shows,rfl⟩
  | cons call rest ih =>
    obtain ⟨middle,taken,high,held,pipe⟩ := step_highest highest shows (outside call List.mem_cons_self)
    obtain ⟨after,ran,final,represents,same⟩ :=
      ih high held (fun call member => pipe ▸ outside call (List.mem_cons_of_mem _ member))
    exact ⟨after,by rw [Machine.exec,taken,Option.bind_some,ran],final,represents,same.trans pipe⟩

theorem scan_lists (pipefd : Nat × Nat) (trfds twfds : Nat → Bool) (n : Nat) :
    ((List.range n).foldl (visit pipefd trfds twfds) ⟨[],[],0⟩).readable =
        (List.range n).filter (fun fd => trfds fd && fd != pipefd.1) ∧
      ((List.range n).foldl (visit pipefd trfds twfds) ⟨[],[],0⟩).writable =
        (List.range n).filter (fun fd => twfds fd && !(fd == pipefd.1 && trfds fd)) := by
  induction n with
  | zero => exact ⟨rfl,rfl⟩
  | succ n ih =>
    obtain ⟨readable,writable⟩ := ih
    rw [List.range_succ,List.foldl_append,List.filter_append,List.filter_append]
    simp only [List.foldl_cons,List.foldl_nil,List.filter_cons,List.filter_nil]
    by_cases pipe : n = pipefd.1
    · subst pipe
      cases reads : trfds pipefd.1 <;> cases writes : twfds pipefd.1 <;> simp [visit,reads,writes,readable,writable]
    · cases reads : trfds n <;> cases writes : twfds n <;> simp [visit,pipe,reads,writes,readable,writable]

theorem select_below (fds ready : Nat → Bool) (below : fd < nfds) : select nfds fds ready fd = (fds fd && ready fd) :=
  if_pos below

theorem waitReady_readable (s : SelectAIO) (rs ws : Nat → Bool) :
    (waitReady s (.ready rs ws)).readable =
      (List.range (s.highfds+1)).filter fun fd => s.rfds fd && rs fd && fd != s.pipefd.1 := by
  refine (scan_lists _ _ _ _).1.trans (List.filter_congr fun fd member => ?_)
  rw [select_below _ _ (List.mem_range.mp member)]

theorem waitReady_writable (highest : Highest s) (rs ws : Nat → Bool) :
    (waitReady s (.ready rs ws)).writable =
      (List.range (s.highfds+1)).filter fun fd => s.wfds fd && ws fd && fd != s.pipefd.1 := by
  refine (scan_lists _ _ _ _).2.trans (List.filter_congr fun fd member => ?_)
  rw [select_below _ _ (List.mem_range.mp member)]
  by_cases pipe : fd = s.pipefd.1
  · subst pipe
    simp [highest.pipeWrites]
  · have other : (fd == s.pipefd.1) = false := by simpa using pipe
    simp [bne,other]

-- The poll loop serves what wait_ready collects.
theorem waitReady_reported {C : Type} (s : PollMgr.State C) (highest : Highest s.aio) (rs ws : List Nat) :
    waitReady s.aio (.ready rs.contains ws.contains) =
      {waitReady s.aio (.ready rs.contains ws.contains) with
        readable:=PollMgr.reported s s.aio.rfds s.aio.highfds rs,writable:=PollMgr.reported s s.aio.wfds s.aio.highfds ws} := by
  rw [PollMgr.reported,PollMgr.reported,← waitReady_readable s.aio rs.contains ws.contains,
    ← waitReady_writable highest rs.contains ws.contains]

theorem registered_fds_polled (pipefd : Nat × Nat) (calls : List Call) (outside : ∀ call ∈ calls, Outside pipefd call) :
    ∃ s, Machine.exec step (.new pipefd) calls = some s ∧
      IsGreatest {fd | fd = pipefd.1 ∨ ∃ direction, LeftWatched calls fd direction} s.highfds ∧
      IsGreatest {fd | s.rfds fd = true ∨ s.wfds fd = true} s.highfds ∧
      ∀ rs ws,
        (waitReady s (.ready rs ws)).readable.Nodup ∧ (waitReady s (.ready rs ws)).writable.Nodup ∧
        (∀ fd, fd ∈ (waitReady s (.ready rs ws)).readable ↔ fd ≠ pipefd.1 ∧ LeftWatched calls fd .read ∧ rs fd = true) ∧
        ∀ fd, fd ∈ (waitReady s (.ready rs ws)).writable ↔ fd ≠ pipefd.1 ∧ LeftWatched calls fd .write ∧ ws fd = true := by
  obtain ⟨s,ran,highest,shows,pipe⟩ := exec_highest (new_highest pipefd) (initial_shows pipefd).select outside
  have pipe : s.pipefd = pipefd := pipe
  have registered : ∀ fd, fd ≠ pipefd.1 → (s.rfds fd = true ↔ LeftWatched calls fd .read) ∧
      (s.wfds fd = true ↔ LeftWatched calls fd .write) := by
    intro fd other
    obtain ⟨reads,writes⟩ := shows fd (pipe ▸ other)
    rw [reads,writes]
    exact ⟨interest_iff calls fd .read,interest_iff calls fd .write⟩
  have same : {fd | fd = pipefd.1 ∨ ∃ direction, LeftWatched calls fd direction} = {fd | Watched s fd} := by
    ext fd
    change (fd = pipefd.1 ∨ ∃ direction, LeftWatched calls fd direction) ↔ Watched s fd
    by_cases end_ : fd = pipefd.1
    · subst end_
      exact iff_of_true (.inl rfl) (.inl (pipe ▸ highest.pipe))
    · obtain ⟨reads,writes⟩ := registered fd end_
      rw [or_iff_right end_,Watched,reads,writes]
      constructor
      · intro left
        obtain ⟨direction,left⟩ := left
        cases direction with
        | read => exact .inl left
        | write => exact .inr left
      · intro watched
        exact watched.elim (fun left => ⟨.read,left⟩) (fun left => ⟨.write,left⟩)
  have covered : ∀ fd, Watched s fd → fd < s.highfds+1 := fun fd watched => Nat.lt_succ_of_le (highest.greatest.2 watched)
  refine ⟨s,ran,same ▸ highest.greatest,highest.greatest,fun rs ws => ?_⟩
  rw [waitReady_readable,waitReady_writable highest rs ws,pipe]
  refine ⟨List.nodup_range.filter _,List.nodup_range.filter _,fun fd => ?_,fun fd => ?_⟩
  · simp only [List.mem_filter,List.mem_range,Bool.and_eq_true,bne_iff_ne]
    constructor
    · intro reported
      obtain ⟨_,⟨watched,ready⟩,other⟩ := reported
      exact ⟨other,(registered fd other).1.mp watched,ready⟩
    · intro left
      obtain ⟨other,left,ready⟩ := left
      have watched := (registered fd other).1.mpr left
      exact ⟨covered fd (.inl watched),⟨watched,ready⟩,other⟩
  · simp only [List.mem_filter,List.mem_range,Bool.and_eq_true,bne_iff_ne]
    constructor
    · intro reported
      obtain ⟨_,⟨watched,ready⟩,other⟩ := reported
      exact ⟨other,(registered fd other).2.mp watched,ready⟩
    · intro left
      obtain ⟨other,left,ready⟩ := left
      have watched := (registered fd other).2.mpr left
      exact ⟨covered fd (.inr watched),⟨watched,ready⟩,other⟩

-- 9 and 6 are registered and 9 is taken back in two calls; the pipe is 3 and 4.
theorem lowered_fds_polled :
    ∃ s, Machine.exec step (.new (3,4)) [.watch 9 .CB_RDWR,.watch 6 .CB_RDONLY,.unwatch 9 .CB_RDONLY,.unwatch 9 .CB_WRONLY] =
        some s ∧ s.highfds = 6 ∧
      ∀ rs ws, (waitReady s (.ready rs ws)).readable.Nodup ∧ (waitReady s (.ready rs ws)).writable.Nodup := by
  obtain ⟨s,ran,_,_,reports⟩ := registered_fds_polled (3,4)
    [.watch 9 .CB_RDWR,.watch 6 .CB_RDONLY,.unwatch 9 .CB_RDONLY,.unwatch 9 .CB_WRONLY] (by decide)
  refine ⟨s,ran,?_,fun rs ws => ⟨(reports rs ws).1,(reports rs ws).2.1⟩⟩
  have high : (Machine.exec step (.new (3,4))
      [.watch 9 .CB_RDWR,.watch 6 .CB_RDONLY,.unwatch 9 .CB_RDONLY,.unwatch 9 .CB_WRONLY]).map SelectAIO.highfds = some 6 := by
    decide +kernel
  rw [ran] at high
  exact Option.some.inj high

end YfsLab.WaitReady
