import YfsLab.LockPool

namespace YfsLab.LockPoolProgress
open Machine LockPool
open LockServer (Call Pc Accounted advance grants owners)
open Rpcs (poolSize queueLimit)

variable {s s' : State} {label : Label} {k : Nat} {call : Call} {threads : Finset Nat}

-- What the server does with the requests that it has, when no more come.
def Internal (_ : State) : Label → Prop
  | .gotPdu _ | .take | .step _ => True
  | .acquire _ _ _ | .release _ _ _ => False

theorem internal_proper (internal : Internal s label) : Proper s label := by
  cases label with
  | acquire | release => exact internal.elim
  | gotPdu | take | step => trivial

theorem internal_thread (internal : Internal s label) : ∀ thread ∈ label.thread, thread ∈ threads := by
  cases label with
  | acquire | release => exact internal.elim
  | gotPdu | take | step => intro thread none; cases none

-- A request is on its way, or in the queue, or with a worker.
structure Queued (s : State) : Prop where
  unanswered : ∀ k ∈ s.sent ++ s.queue, k ∈ outstanding s
  distinct : (s.sent ++ s.queue).Nodup

theorem initial_queued : Queued initial := ⟨by simp [initial],by simp [initial]⟩

theorem Queued.request {server : LockServer.State} (queued : Queued s) (new : Call) (waits : new.pc ≠ .returned)
    (added : server.calls = s.server.calls ++ [new]) :
    Queued {s with server:=server,sent:=s.sent ++ [s.server.calls.length]} := by
  have known : ∀ k ∈ s.sent ++ s.queue, k < s.server.calls.length := by
    intro k member
    obtain ⟨_,held,_⟩ := mem_outstanding.mp (queued.unanswered k member)
    exact (List.getElem?_eq_some_iff.mp held).1
  have places : s.sent ++ [s.server.calls.length] ++ s.queue = s.sent ++ s.server.calls.length :: s.queue := by simp
  constructor
  · intro k member
    rw [places] at member
    apply mem_outstanding.mpr
    dsimp only
    rw [added]
    rcases List.mem_cons.mp (List.perm_middle.mem_iff.mp member) with rfl | old
    · exact ⟨new,by simp,waits⟩
    · obtain ⟨call,held,still⟩ := mem_outstanding.mp (queued.unanswered k old)
      exact ⟨call,by rw [List.getElem?_append_left (known k old)]; exact held,still⟩
  · rw [places]
    apply List.nodup_middle.mpr
    apply List.nodup_cons.mpr
    refine ⟨fun member => ?_,queued.distinct⟩
    have less := known _ member
    omega

theorem step_queued (queued : Queued s) (taken : LockPool.step s label = some s') : Queued s' := by
  cases label with
  | acquire thread clt lid =>
    cases Option.some.inj (show some _ = some s' from taken)
    exact queued.request ⟨thread,clt,lid,.create⟩ (by simp) rfl
  | release thread clt lid =>
    cases Option.some.inj (show some _ = some s' from taken)
    exact queued.request ⟨thread,clt,lid,.unlock⟩ (by simp) rfl
  | gotPdu k =>
    obtain ⟨⟨member,_⟩,same⟩ := Option.ite_none_right_eq_some.mp taken
    cases Option.some.inj same
    have moved : (s.sent.erase k ++ (s.queue ++ [k])).Perm (s.sent ++ s.queue) := by
      rw [← List.append_assoc]
      apply (List.perm_append_singleton k _).trans
      exact ((List.perm_cons_erase member).append_right s.queue).symm
    exact ⟨fun j inside => queued.unanswered j (moved.mem_iff.mp inside),moved.nodup_iff.mpr queued.distinct⟩
  | take =>
    simp only [LockPool.step] at taken
    split at taken
    · cases taken
    · rename_i first rest queue
      obtain ⟨_,same⟩ := Option.ite_none_right_eq_some.mp taken
      cases Option.some.inj same
      have fewer : (s.sent ++ rest).Sublist (s.sent ++ s.queue) := by
        rw [queue]
        exact (List.sublist_cons_self first rest).append_left s.sent
      exact ⟨fun j inside => queued.unanswered j (fewer.subset inside),queued.distinct.sublist fewer⟩
  | step k =>
    obtain ⟨runs,taken⟩ := Option.ite_none_right_eq_some.mp taken
    obtain ⟨server,moved,rfl⟩ := Option.map_eq_some_iff.mp taken
    obtain ⟨call,held,advanced⟩ := Option.bind_eq_some_iff.mp moved
    obtain ⟨_,pc,calls⟩ := LockServer.advance_calls advanced
    refine ⟨fun j inside => ?_,queued.distinct⟩
    obtain ⟨other,there,waits⟩ := mem_outstanding.mp (queued.unanswered j inside)
    have elsewhere : j ≠ k := by
      rintro rfl
      obtain ⟨_,unsent,unqueued⟩ := Finset.mem_filter.mp runs
      rcases List.mem_append.mp inside with sent | queue
      · exact unsent sent
      · exact unqueued queue
    refine mem_outstanding.mpr ⟨other,?_,waits⟩
    dsimp only
    rw [calls]
    exact (entry_other elsewhere).trans there

structure Valid (threads : Finset Nat) (s : State) : Prop where
  accounted : Accounted s.server
  threaded : Threaded threads s.server
  queued : Queued s

theorem step_valid (valid : Valid threads s) (internal : Internal s label) (taken : LockPool.step s label = some s') :
    Valid threads s' := by
  have moved := step_moved taken
  refine ⟨?_,moved.threaded (internal_proper internal) (internal_thread internal) valid.threaded,step_queued valid.queued taken⟩
  rcases moved.honest (internal_proper internal) with same | ⟨_,honest,moved⟩
  · rw [same]; exact valid.accounted
  · exact valid.accounted.step honest moved

theorem runs_valid (path : Runs LockPool.step Proper initial labels s)
    (only : ∀ label ∈ labels, ∀ thread ∈ label.thread, thread ∈ threads) : Valid threads s := by
  obtain ⟨_,inner⟩ := runs_server path
  refine ⟨LockServer.runs_accounted inner,runs_threaded path only,?_⟩
  apply path.invariant initial_queued
  intro before label after queued _ taken
  exact step_queued queued taken

def distance : Pc → Nat
  | .create => 4
  | .lock | .unlock => 3
  | .count | .uncount => 2
  | .reply | .answer => 1
  | .returned => 0

def remaining (s : State) : Nat :=
  2*s.sent.length+s.queue.length+(s.server.calls.map fun call => distance call.pc).sum

theorem advance_nearer {server server' : LockServer.State} (taken : advance server k call = some server') :
    ∃ pc, server'.calls = server.calls.set k {call with pc:=pc} ∧ distance pc < distance call.pc := by
  unfold LockServer.advance at taken
  cases at_ : call.pc with
  | returned => simp [at_] at taken
  | create =>
    simp only [at_] at taken
    split at taken <;> cases Option.some.inj taken <;> exact ⟨.lock,rfl,by decide⟩
  | lock =>
    simp only [at_] at taken
    split at taken
    · cases taken
    · cases Option.some.inj taken
      exact ⟨.count,rfl,by decide⟩
  | _ =>
    simp only [at_] at taken
    cases Option.some.inj taken
    exact ⟨_,rfl,by decide⟩

theorem step_lowers (internal : Internal s label) (taken : LockPool.step s label = some s') : remaining s' < remaining s := by
  cases label with
  | acquire | release => exact internal.elim
  | gotPdu k =>
    obtain ⟨⟨member,_⟩,same⟩ := Option.ite_none_right_eq_some.mp taken
    cases Option.some.inj same
    have shorter := List.length_erase_of_mem member
    have some_sent := List.length_pos_of_mem member
    simp only [remaining,List.length_append,List.length_singleton]
    omega
  | take =>
    simp only [LockPool.step] at taken
    split at taken
    · cases taken
    · rename_i first rest queue
      obtain ⟨_,same⟩ := Option.ite_none_right_eq_some.mp taken
      cases Option.some.inj same
      simp only [remaining,queue,List.length_cons]
      omega
  | step k =>
    obtain ⟨_,taken⟩ := Option.ite_none_right_eq_some.mp taken
    obtain ⟨server,moved,rfl⟩ := Option.map_eq_some_iff.mp taken
    obtain ⟨call,held,advanced⟩ := Option.bind_eq_some_iff.mp moved
    obtain ⟨pc,calls,nearer⟩ := advance_nearer advanced
    have summed := Counting.sum_set (fun call : Call => distance call.pc) {call with pc:=pc} held
    simp only [remaining,calls]
    dsimp only at summed
    omega

def Blocked (server : LockServer.State) (call : Call) : Prop := call.pc = .lock ∧ call.lid ∈ server.locked

theorem advance_goes {server : LockServer.State} (waits : call.pc ≠ .returned) (free : ¬ Blocked server call) :
    ∃ server', advance server k call = some server' := by
  unfold LockServer.advance
  cases at_ : call.pc with
  | returned => exact absurd at_ waits
  | create =>
    dsimp only
    split <;> exact ⟨_,rfl⟩
  | lock =>
    dsimp only
    rw [if_neg fun locked => free ⟨at_,locked⟩]
    exact ⟨_,rfl⟩
  | _ => exact ⟨_,rfl⟩

-- Every request has its worker, and those without an answer wait for a lock that
-- a client was granted and has not released.
structure Settled (s : State) : Prop where
  sent : s.sent = []
  queue : s.queue = []
  answered : ∀ call ∈ s.server.calls, call.pc = .returned ∨ call.pc = .lock ∧ ∃ clt, (clt,call.lid) ∈ s.server.held

theorem blocked_granted {server : LockServer.State} (accounted : Accounted server)
    (stuck : ∀ call ∈ server.calls, call.pc = .returned ∨ Blocked server call) (locked : lid ∈ server.locked) :
    ∃ clt, (clt,lid) ∈ server.held := by
  have nobody : owners server.calls lid = 0 := by
    apply List.countP_eq_zero.mpr
    intro call member
    rcases stuck call member with at_ | ⟨at_,_⟩
    · simp [at_,Pc.owns]
    · simp [at_,Pc.owns]
  have owned := accounted.owned lid
  rw [nobody,if_pos locked,Nat.zero_add] at owned
  obtain ⟨⟨clt,granted⟩,member,same⟩ := List.countP_pos_iff.mp (show 0 < grants server.held lid by omega)
  have same : granted = lid := of_decide_eq_true same
  exact ⟨clt,same ▸ member⟩

theorem queue_space (few : threads.card ≤ poolSize) (valid : Valid threads s) : s.queue.length < queueLimit := by
  have distinct := valid.queued.distinct.of_append_right
  have inside : s.queue.toFinset ⊆ outstanding s := by
    intro k member
    exact valid.queued.unanswered k (List.mem_append_right _ (List.mem_toFinset.mp member))
  have most := (Finset.card_le_card inside).trans (outstanding_card valid.threaded)
  rw [List.toFinset_card_of_nodup distinct] at most
  simp only [queueLimit,poolSize] at few ⊢
  omega

theorem worker_left (few : threads.card ≤ poolSize) (valid : Valid threads s) (queue : s.queue = k :: rest) :
    (running s).card < poolSize := by
  have queued : k ∈ s.queue := by rw [queue]; exact List.mem_cons_self
  have waits := valid.queued.unanswered k (List.mem_append_right _ queued)
  have fewer := running_fewer waits queued
  have most := outstanding_card valid.threaded
  omega

theorem valid_goes (few : threads.card ≤ poolSize) (valid : Valid threads s) :
    Settled s ∨ ∃ label s', Internal s label ∧ LockPool.step s label = some s' := by
  cases sent : s.sent with
  | cons k rest =>
    have member : k ∈ s.sent := by rw [sent]; exact List.mem_cons_self
    exact .inr ⟨.gotPdu k,_,trivial,if_pos ⟨member,queue_space few valid⟩⟩
  | nil =>
    cases queue : s.queue with
    | cons k rest =>
      refine .inr ⟨.take,{s with queue:=rest},trivial,?_⟩
      simp only [LockPool.step,queue,if_pos (worker_left few valid queue)]
    | nil =>
      by_cases stuck : ∀ call ∈ s.server.calls, call.pc = .returned ∨ Blocked s.server call
      · left
        refine ⟨sent,queue,fun call member => ?_⟩
        apply (stuck call member).imp_right
        rintro ⟨at_,locked⟩
        exact ⟨at_,blocked_granted valid.accounted stuck locked⟩
      · push Not at stuck
        obtain ⟨call,member,waits,free⟩ := stuck
        obtain ⟨k,held⟩ := List.getElem?_of_mem member
        obtain ⟨server,advanced⟩ := advance_goes (k:=k) waits free
        have runs : k ∈ running s := by
          apply Finset.mem_filter.mpr
          refine ⟨mem_outstanding.mpr ⟨call,held,waits⟩,?_,?_⟩
          · rw [sent]; exact List.not_mem_nil
          · rw [queue]; exact List.not_mem_nil
        refine .inr ⟨.step k,{s with server:=server},trivial,?_⟩
        simp only [LockPool.step,if_pos runs,LockServer.step,held,Option.bind_some,advanced,Option.map_some]

theorem requests_settle (threads : Finset Nat) (few : threads.card ≤ poolSize)
    (path : Runs LockPool.step Proper initial labels s)
    (only : ∀ label ∈ labels, ∀ thread ∈ label.thread, thread ∈ threads) : Inevitable LockPool.step Internal Settled s := by
  apply Inevitable.of_measure remaining (runs_valid path only)
  case progress => exact fun state valid => valid_goes few valid
  case lower => exact fun state label next valid internal taken => ⟨step_valid valid internal taken,step_lowers internal taken⟩

def twoThreads : List Label := grab 0 0 ++ [.acquire 1 1 1]

theorem two_threads_settle : ∃ s, Runs LockPool.step Proper initial twoThreads s ∧ s.sent = [1] ∧
    Inevitable LockPool.step Internal Settled s := by
  have ran : (exec (guarded LockPool.step Proper) initial twoThreads).map (fun s => s.sent) = some [1] := by decide +kernel
  obtain ⟨s,path,sent⟩ := guarded_observed ran
  exact ⟨s,path,sent,requests_settle (Finset.range 10) (by decide) path (by decide)⟩

end YfsLab.LockPoolProgress
