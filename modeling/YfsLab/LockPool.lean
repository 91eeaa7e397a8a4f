import YfsLab.LockServer
import YfsLab.Rpcs

namespace YfsLab.LockPool
open LockServer Rpcs

-- The lock server behind its rpcs. A request is sent, then waits in the job
-- queue, then one of the workers of the pool runs the call to its reply.
structure State where
  server : LockServer.State
  sent : List Nat
  queue : List Nat

def initial : State := ⟨LockServer.initial,[],[]⟩

inductive Label where
  | acquire (thread clt : Nat) (lid : UInt64)
  | release (thread clt : Nat) (lid : UInt64)
  | gotPdu (k : Nat)
  | take
  | step (k : Nat)
  deriving DecidableEq, Repr

def outstanding (s : State) : Finset Nat :=
  (Finset.range s.server.calls.length).filter fun k => ∃ call ∈ s.server.calls[k]?, call.pc ≠ .returned

def running (s : State) : Finset Nat := (outstanding s).filter fun k => k ∉ s.sent ∧ k ∉ s.queue

def request (s : State) (label : LockServer.Label) : Option State :=
  (LockServer.step s.server label).map fun server => {s with server:=server,sent:=s.sent ++ [s.server.calls.length]}

def step (s : State) : Label → Option State
  | .acquire thread clt lid => request s (.acquire thread clt lid)
  | .release thread clt lid => request s (.release thread clt lid)
  | .gotPdu k =>
    if k ∈ s.sent ∧ s.queue.length < queueLimit then some {s with sent:=s.sent.erase k,queue:=s.queue ++ [k]} else none
  | .take =>
    match s.queue with
    | [] => none
    | _ :: rest => if (running s).card < poolSize then some {s with queue:=rest} else none
  | .step k =>
    if k ∈ running s then (LockServer.step s.server (.step k)).map fun server => {s with server:=server} else none

-- A thread has one request at a time, and a client releases only what it holds.
def Free (s : State) (thread : Nat) : Prop := ∀ call ∈ s.server.calls, call.thread = thread → call.pc = .returned

def Proper (s : State) : Label → Prop
  | .acquire thread _ _ => Free s thread
  | .release thread clt lid => Free s thread ∧ (clt,lid) ∈ s.server.held
  | _ => True

instance (s : State) (thread : Nat) : Decidable (Free s thread) := inferInstanceAs (Decidable (∀ call ∈ _, _))

instance (s : State) : (label : Label) → Decidable (Proper s label)
  | .acquire thread _ _ => inferInstanceAs (Decidable (Free s thread))
  | .release thread clt lid => inferInstanceAs (Decidable (Free s thread ∧ (clt,lid) ∈ s.server.held))
  | .gotPdu _ | .take | .step _ => inferInstanceAs (Decidable True)

-- Every worker waits for a locked mutex, and the release of one of them waits
-- for a worker.
def Wedged (s : State) : Prop :=
  (running s).card = poolSize ∧
    (∀ k ∈ running s, ∃ call ∈ s.server.calls[k]?, call.pc = .lock ∧ call.lid ∈ s.server.locked) ∧
    ∃ k ∈ s.queue, ∃ release ∈ s.server.calls[k]?, release.pc = .unlock ∧
      ∃ j ∈ running s, ∃ call ∈ s.server.calls[j]?, call.lid = release.lid

instance (s : State) : Decidable (Wedged s) := inferInstanceAs (Decidable (_ ∧ _))

variable {s s' : State}

-- All that a step can do to the lock server: a request of a thread, or a step
-- of a call that has not returned.
inductive Moved (s : State) : Label → LockServer.State → Prop where
  | acquire : Moved s (.acquire thread clt lid) {s.server with calls:=s.server.calls ++ [⟨thread,clt,lid,.create⟩]}
  | release : Moved s (.release thread clt lid)
      {s.server with calls:=s.server.calls ++ [⟨thread,clt,lid,.unlock⟩],held:=s.server.held.erase (clt,lid)}
  | same : Moved s label s.server
  | call (held : s.server.calls[k]? = some call) (taken : advance s.server k call = some server) :
      Moved s (.step k) server

theorem step_moved (taken : LockPool.step s label = some s') : Moved s label s'.server := by
  cases label with
  | acquire thread clt lid =>
    obtain ⟨server,moved,rfl⟩ := Option.map_eq_some_iff.mp (show request s _ = some s' from taken)
    cases Option.some.inj moved
    exact .acquire
  | release thread clt lid =>
    obtain ⟨server,moved,rfl⟩ := Option.map_eq_some_iff.mp (show request s _ = some s' from taken)
    cases Option.some.inj moved
    exact .release
  | gotPdu k =>
    obtain ⟨_,same⟩ := Option.ite_none_right_eq_some.mp taken
    cases Option.some.inj same
    exact .same
  | take =>
    simp only [LockPool.step] at taken
    split at taken
    · cases taken
    · obtain ⟨_,same⟩ := Option.ite_none_right_eq_some.mp taken
      cases Option.some.inj same
      exact .same
  | step k =>
    obtain ⟨_,taken⟩ := Option.ite_none_right_eq_some.mp taken
    obtain ⟨server,moved,rfl⟩ := Option.map_eq_some_iff.mp taken
    obtain ⟨call,held,taken⟩ := Option.bind_eq_some_iff.mp moved
    exact .call held taken

theorem Moved.honest (moved : Moved s label server) (proper : Proper s label) :
    server = s.server ∨ ∃ inner, Honest s.server inner ∧ LockServer.step s.server inner = some server := by
  cases moved with
  | acquire => exact .inr ⟨.acquire _ _ _,trivial,rfl⟩
  | release => exact .inr ⟨.release _ _ _,proper.2,rfl⟩
  | same => exact .inl rfl
  | call held taken => exact .inr ⟨.step _,trivial,Option.bind_eq_some_iff.mpr ⟨_,held,taken⟩⟩

theorem runs_server (path : Machine.Runs LockPool.step Proper initial labels s) :
    ∃ inner, Machine.Runs LockServer.step Honest LockServer.initial inner s.server := by
  induction path with
  | nil => exact ⟨[],.nil⟩
  | snoc _ proper taken ih =>
    obtain ⟨inner,prior⟩ := ih
    rcases (step_moved taken).honest proper with same | ⟨label,honest,moved⟩
    · exact ⟨inner,same ▸ prior⟩
    · exact ⟨_,.snoc prior honest moved⟩

def Label.thread : Label → Option Nat
  | .acquire thread _ _ | .release thread _ _ => some thread
  | _ => none

structure Threaded (threads : Finset Nat) (server : LockServer.State) : Prop where
  known : ∀ call ∈ server.calls, call.thread ∈ threads
  single : ∀ (i j : Nat) (one two : Call), server.calls[i]? = some one → server.calls[j]? = some two →
    one.pc ≠ .returned → two.pc ≠ .returned → one.thread = two.thread → i = j

theorem Threaded.request {threads : Finset Nat} {server : LockServer.State} (threaded : Threaded threads server)
    (new : Call) (member : new.thread ∈ threads)
    (free : ∀ call ∈ server.calls, call.thread = new.thread → call.pc = .returned)
    (added : server'.calls = server.calls ++ [new]) : Threaded threads server' := by
  constructor
  · intro call inside
    rw [added] at inside
    rcases List.mem_append.mp inside with old | last
    · exact threaded.known call old
    · rw [List.mem_singleton.mp last]
      exact member
  · intro i j one two first second runningOne runningTwo same
    rw [added] at first second
    rcases Machine.entry_append first with oldOne | ⟨atOne,rfl⟩
    · rcases Machine.entry_append second with oldTwo | ⟨_,rfl⟩
      · exact threaded.single i j one two oldOne oldTwo runningOne runningTwo same
      · exact absurd (free one (List.mem_of_getElem? oldOne) same) runningOne
    · rcases Machine.entry_append second with oldTwo | ⟨atTwo,_⟩
      · exact absurd (free two (List.mem_of_getElem? oldTwo) same.symm) runningTwo
      · rw [atOne,atTwo]

theorem Threaded.goes {threads : Finset Nat} {server server' : LockServer.State} (threaded : Threaded threads server)
    (held : server.calls[k]? = some call) (waiting : call.pc ≠ .returned)
    (moved : server'.calls = server.calls.set k {call with pc:=pc}) : Threaded threads server' := by
  -- Each call has the thread it had, and had not returned if it has not now.
  have old : ∀ (i : Nat) (one : Call), server'.calls[i]? = some one →
      ∃ before, server.calls[i]? = some before ∧ before.thread = one.thread ∧
        (one.pc ≠ .returned → before.pc ≠ .returned) := by
    intro i one there
    rw [moved] at there
    rcases Machine.entry_cases there with ⟨rfl,rfl⟩ | ⟨_,there⟩
    · exact ⟨call,held,rfl,fun _ => waiting⟩
    · exact ⟨one,there,rfl,id⟩
  constructor
  · intro one inside
    obtain ⟨i,there⟩ := List.mem_iff_getElem?.mp inside
    obtain ⟨before,was,same,_⟩ := old i one there
    exact same ▸ threaded.known before (List.mem_of_getElem? was)
  · intro i j one two first second runningOne runningTwo same
    obtain ⟨beforeOne,wasOne,threadOne,stillOne⟩ := old i one first
    obtain ⟨beforeTwo,wasTwo,threadTwo,stillTwo⟩ := old j two second
    exact threaded.single i j _ _ wasOne wasTwo (stillOne runningOne) (stillTwo runningTwo)
      (threadOne.trans (same.trans threadTwo.symm))

theorem Moved.threaded {threads : Finset Nat} (moved : Moved s label server) (proper : Proper s label)
    (member : ∀ thread ∈ label.thread, thread ∈ threads) (threaded : Threaded threads s.server) :
    Threaded threads server := by
  cases moved with
  | acquire => exact threaded.request ⟨_,_,_,.create⟩ (member _ rfl) proper rfl
  | release => exact threaded.request ⟨_,_,_,.unlock⟩ (member _ rfl) proper.1 rfl
  | same => exact threaded
  | call held taken =>
    obtain ⟨waiting,pc,moved⟩ := advance_calls taken
    exact threaded.goes held waiting moved

theorem runs_threaded {threads : Finset Nat} (path : Machine.Runs LockPool.step Proper initial labels s)
    (only : ∀ label ∈ labels, ∀ thread ∈ label.thread, thread ∈ threads) : Threaded threads s.server := by
  induction path with
  | nil =>
    constructor
    · intro call none
      cases none
    · intro i j one two first
      simp [initial,LockServer.initial] at first
  | @snoc front mid label next _ proper taken ih =>
    have before := ih fun label inside => only label (List.mem_append_left _ inside)
    exact (step_moved taken).threaded proper (only label (by simp)) before

theorem mem_outstanding {k : Nat} : k ∈ outstanding s ↔ ∃ call, s.server.calls[k]? = some call ∧ call.pc ≠ .returned := by
  simp only [outstanding,Finset.mem_filter,Finset.mem_range,Option.mem_def]
  constructor
  · exact fun inside => inside.2
  · rintro ⟨call,held,waits⟩
    exact ⟨(List.getElem?_eq_some_iff.mp held).1,call,held,waits⟩

theorem outstanding_card {threads : Finset Nat} (threaded : Threaded threads s.server) :
    (outstanding s).card ≤ threads.card := by
  apply Finset.card_le_card_of_injOn fun k => ((s.server.calls[k]?).map Call.thread).getD 0
  · intro k inside
    obtain ⟨call,held,_⟩ := mem_outstanding.mp inside
    simp only [held,Option.map_some,Option.getD_some]
    exact threaded.known call (List.mem_of_getElem? held)
  · intro i first j second same
    obtain ⟨one,heldOne,waitsOne⟩ := mem_outstanding.mp first
    obtain ⟨two,heldTwo,waitsTwo⟩ := mem_outstanding.mp second
    simp only [heldOne,heldTwo,Option.map_some,Option.getD_some] at same
    exact threaded.single i j one two heldOne heldTwo waitsOne waitsTwo same

-- A request in the queue is outstanding and not running.
theorem running_fewer {k : Nat} (waits : k ∈ outstanding s) (queued : k ∈ s.queue) :
    (running s).card < (outstanding s).card := by
  have part : running s ⊆ outstanding s := Finset.filter_subset _ _
  apply Finset.card_lt_card
  rw [Finset.ssubset_iff_of_subset part]
  refine ⟨k,waits,fun runs => ?_⟩
  exact (Finset.mem_filter.mp runs).2.2 queued

theorem Wedged.more (wedged : Wedged s) : (running s).card < (outstanding s).card := by
  obtain ⟨_,_,k,queued,release,held,at_,_⟩ := wedged
  exact running_fewer (mem_outstanding.mpr ⟨release,held,by simp [at_]⟩) queued

-- With no more threads than workers a worker is always left for a release.
theorem never_wedged (threads : Finset Nat) (few : threads.card ≤ poolSize)
    (path : Machine.Runs LockPool.step Proper initial labels s)
    (only : ∀ label ∈ labels, ∀ thread ∈ label.thread, thread ∈ threads) : ¬ Wedged s := by
  intro wedged
  have more := wedged.more
  have most := outstanding_card (runs_threaded path only)
  have all := wedged.1
  omega

-- Ten threads wait for a lock that an eleventh holds and wants to release.
def grab (k thread : Nat) : List Label := [.acquire thread thread 1,.gotPdu k,.take,.step k]

def elevenThreads : List Label :=
  grab 0 0 ++ [.step 0,.step 0,.step 0] ++ (List.range 10).flatMap (fun i => grab (i+1) (i+1)) ++
    [.release 0 0 1,.gotPdu 11]

theorem eleven_threads_wedge : ∃ s, Machine.Runs LockPool.step Proper initial elevenThreads s ∧ Wedged s := by
  have ran : (Machine.exec (Machine.guarded LockPool.step Proper) initial elevenThreads).map
      (fun s => decide (Wedged s)) = some true := by decide +kernel
  obtain ⟨s,path,wedged⟩ := Machine.guarded_observed ran
  exact ⟨s,path,of_decide_eq_true wedged⟩

-- With one thread less the release finds a worker.
def tenThreads : List Label :=
  grab 0 0 ++ [.step 0,.step 0,.step 0] ++ (List.range 9).flatMap (fun i => grab (i+1) (i+1)) ++
    [.release 0 0 1,.gotPdu 10,.take,.step 10,.step 1]

theorem ten_threads_release : ∃ s, Machine.Runs LockPool.step Proper initial tenThreads s ∧ ¬ Wedged s := by
  have ran : (Machine.exec (Machine.guarded LockPool.step Proper) initial tenThreads).map (fun s => s.queue) =
      some [] := by decide +kernel
  obtain ⟨s,path,_⟩ := Machine.guarded_observed ran
  exact ⟨s,path,never_wedged (Finset.range 10) (by decide) path (by decide)⟩

end YfsLab.LockPool
