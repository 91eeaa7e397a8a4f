import YfsLab.Lib.Counting
import YfsLab.ReplyConnection

namespace YfsLab.DispatchProgress
open Machine Rpcs ReplyConnection
open ReplyWindow (Windows createWindow checkduplicateAndUpdate addReply)

variable {C : Type} {cfg : Config} {s s' : State C} {label : Label C} {j : Nat} {job job' new : Job C} {clt : UInt32}

-- A result that dispatch accepts from a method.
def Fine (ret : Int32) : Prop := ret ≥ 0 ∨ ret = RpcConst.unmarshalArgsFailure

-- The steps of the pool on the requests that it has: the methods return, and
-- nothing happens to the connections.
def Working (_ : State C) : Label C → Prop
  | .run _ ret _ => Fine ret
  | .take _ | .start _ | .window _ | .record _ | .check _ | .add _ | .choose _ | .send _ | .decref _ => True
  | .accept _ | .collect _ | .dies _ | .gotPdu _ _ => False

def Total (cfg : Config) : Prop := ∀ proc handler args, cfg.registered proc = some handler →
  ∃ ret r, Fine ret ∧ handler.meth args ret r = true ∧ r.ty = handler.res

theorem total_procs (total : Total cfg) {handler : Handler} (known : cfg.procs proc = some handler) (args : List Val) :
    ∃ ret r, Fine ret ∧ handler.meth args ret r = true ∧ r.ty = handler.res := by
  unfold Config.procs at known
  split at known
  · cases Option.some.inj known
    exact ⟨0,.int cfg.nonce.toInt32,.inl (by decide),by simp [rpcbind],rfl⟩
  · exact total proc handler args known

-- A request of a client that dispatch does not know by its nonce is on a live
-- connection until it has been answered.
structure AnonymousLive (s : State C) : Prop where
  queued : ∀ c pdu, (c,pdu) ∈ s.queue → (Unmarshall.ofPdu pdu).unpackReqHeader.1.cltNonce = 0 → s.dead c = false
  running : ∀ job ∈ s.jobs, job.h.cltNonce = 0 → job.pc = .finished ∨ s.dead job.conn = false

instance (s : State C) : Decidable (AnonymousLive s) :=
  decidable_of_iff ((∀ entry ∈ s.queue, (Unmarshall.ofPdu entry.2).unpackReqHeader.1.cltNonce = 0 → s.dead entry.1 = false) ∧
      ∀ job ∈ s.jobs, job.h.cltNonce = 0 → job.pc = .finished ∨ s.dead job.conn = false)
    ⟨fun live => ⟨fun c pdu member => live.1 (c,pdu) member,live.2⟩,
      fun live => ⟨fun entry member => live.queued entry.1 entry.2 member,live.running⟩⟩

def distance : Pc → Nat
  | .start => 9
  | .window => 8
  | .record => 7
  | .check => 6
  | .run => 5
  | .add => 4
  | .choose => 3
  | .send => 2
  | .sendOld | .decref => 1
  | .finished => 0

def remaining (s : State C) : Nat := 10*s.queue.length+(s.jobs.map fun job => distance job.pc).sum

section Order
variable {pc pc' : Pc} (follows : Follows clt pc pc')
include follows

theorem follows_nearer : distance pc' < distance pc := by
  cases follows <;> decide

theorem follows_started (at_ : pc' = .window ∨ pc' = .record ∨ pc' = .check ∨ pc' = .run) :
    pc = .start ∨ pc = .window ∨ pc = .record ∨ pc = .check := by
  cases follows <;> simp at at_ ⊢

theorem follows_listed (at_ : pc' = .record ∨ pc' = .check) : pc = .window ∨ pc = .record := by
  cases follows <;> simp at at_ ⊢

end Order

theorem put_known {windows : Windows} (replies : List ReplyWindow.ReplyT) (known : windows clt ≠ none) (other : UInt32) :
    windows.put other replies clt ≠ none := by
  unfold Windows.put
  split
  · simp
  · exact known

theorem created_known (windows : Windows) (clt : UInt32) : createWindow windows clt clt ≠ none := by
  unfold createWindow
  cases listed : windows clt with
  | none => simp
  | some => simp [listed]

theorem createWindow_keeps {windows : Windows} (known : windows clt ≠ none) (other : UInt32) :
    createWindow windows other clt ≠ none := by
  unfold createWindow
  cases windows other with
  | none => exact put_known [] known other
  | some => exact known

section Steps
variable [DecidableEq C]

inductive Moved (s s' : State C) : Prop where
  | took (c : C) (pdu : List UInt8) (junk : Nat → UInt8) : s.queue = (c,pdu) :: s'.queue →
      s'.jobs = s.jobs ++ [⟨c,c,pdu,junk,[],.start⟩] → Moved s s'
  | went (j : Nat) (job job' : Job C) : s'.queue = s.queue → s.jobs[j]? = some job → s'.jobs = s.jobs.set j job' →
      Moves s job job' → Moved s s'

theorem working_moved (working : Working s label) (alive : s'.crashed = false) (rule : Step cfg s label s') :
    s'.dead = s.dead ∧ Moved s s' := by
  cases rule with
  | accept | collect | dies | refuse | enqueue => exact working.elim
  | recordCrash | runCrash | chooseNull | chooseMissing => cases alive
  | take waiting => exact ⟨rfl,.took _ _ _ waiting rfl⟩
  | check held pc => exact ⟨rfl,.went _ _ _ rfl held rfl (afterCheck_moves _ pc)⟩
  | leave held pc => exact ⟨rfl,.went _ _ _ rfl held rfl ⟨rfl,rfl,pc ▸ .leave,.inl rfl⟩⟩
  | stale held pc => exact ⟨rfl,.went _ _ _ rfl held rfl ⟨rfl,rfl,pc ▸ .stale,.inl rfl⟩⟩
  | unguarded held pc _ _ zero => exact ⟨rfl,.went _ _ _ rfl held rfl ⟨rfl,rfl,pc ▸ .unguarded zero,.inl rfl⟩⟩
  | guarded held pc _ _ nonzero => exact ⟨rfl,.went _ _ _ rfl held rfl ⟨rfl,rfl,pc ▸ .guarded nonzero,.inl rfl⟩⟩
  | window held pc => exact ⟨rfl,.went _ _ _ rfl held rfl ⟨rfl,rfl,pc ▸ .window,.inl rfl⟩⟩
  | recordKept held pc | recordFirst held pc | recordOther held pc =>
    exact ⟨rfl,.went _ _ _ rfl held rfl ⟨rfl,rfl,pc ▸ .record,.inl rfl⟩⟩
  | undecoded held pc | ran held pc => exact ⟨rfl,.went _ _ _ rfl held rfl ⟨rfl,rfl,pc ▸ .ran,.inl rfl⟩⟩
  | add held pc | addNothing held pc => exact ⟨rfl,.went _ _ _ rfl held rfl ⟨rfl,rfl,pc ▸ .added,.inl rfl⟩⟩
  | chooseKept held pc => exact ⟨rfl,.went _ _ _ rfl held rfl ⟨rfl,rfl,pc ▸ .chose,.inl rfl⟩⟩
  | chooseLatest held pc _ known => exact ⟨rfl,.went _ _ _ rfl held rfl ⟨rfl,rfl,pc ▸ .chose,.inr ⟨pc,known⟩⟩⟩
  | send held pc => exact ⟨rfl,.went _ _ _ rfl held rfl ⟨rfl,rfl,pc ▸ .sent,.inl rfl⟩⟩
  | sendOld held pc => exact ⟨rfl,.went _ _ _ rfl held rfl ⟨rfl,rfl,pc ▸ .sentOld,.inl rfl⟩⟩
  | decref held pc => exact ⟨rfl,.went _ _ _ rfl held rfl ⟨rfl,rfl,pc ▸ .decref,.inl rfl⟩⟩

omit [DecidableEq C] in
theorem Moved.lowers (moved : Moved s s') : remaining s' < remaining s := by
  cases moved with
  | took c pdu junk queue jobs =>
    simp only [remaining,queue,jobs,List.length_cons,List.map_append,List.sum_append,List.map_singleton,List.sum_singleton,distance]
    omega
  | went j job job' queue held jobs moves =>
    have summed := Counting.sum_set (fun job : Job C => distance job.pc) job' held
    have nearer := follows_nearer moves.pc
    simp only [remaining,queue,jobs]
    omega

omit [DecidableEq C] in
theorem Moved.anonymous (moved : Moved s s') (owned : Owned s) (dead : s'.dead = s.dead) (live : AnonymousLive s) :
    AnonymousLive s' := by
  cases moved with
  | took c pdu junk queue jobs =>
    constructor
    · intro c' pdu' member
      rw [dead]
      exact live.queued c' pdu' (by rw [queue]; exact List.mem_cons_of_mem _ member)
    · intro job member zero
      rw [dead]
      rw [jobs] at member
      rcases List.mem_append.mp member with old | last
      · exact live.running job old zero
      · cases List.mem_singleton.mp last
        exact .inr (live.queued c pdu (by rw [queue]; exact List.mem_cons_self) zero)
  | went j job job' queue held jobs moves =>
    constructor
    · rw [queue,dead]
      exact live.queued
    · intro other member zero
      rw [dead]
      rw [jobs] at member
      rcases List.mem_or_eq_of_mem_set member with old | rfl
      · exact live.running other old zero
      · rw [moves.h] at zero
        have before := live.running job (List.mem_of_getElem? held) zero
        have unfinished : job.pc ≠ .finished := by
          intro ended
          have follows := moves.pc
          rw [ended] at follows
          cases follows
        rcases moves.conn with same | ⟨_,latest⟩
        · rw [same]
          exact before.imp_left fun ended => absurd ended unfinished
        · exact absurd zero (owned.conns _ _ latest).1

-- NULL in conns_ crashes the server at once.
theorem alive_clean (path : Runs (step cfg) free (initial : State C) labels s) : s.crashed = false → NoNull s := by
  apply path.invariant
  · simp [NoNull,initial]
  · intro before label after clean _ taken alive
    have clean := clean (step_alive taken)
    cases step_sound taken with
    | recordFirst | recordOther =>
      intro clt null
      simp only at null
      split at null
      · cases null
      · exact clean clt null
    | chooseMissing => cases alive
    | _ => exact clean

-- A dispatch that is past the start has found its procedure, and past the
-- window the list of its client.
structure Passed (cfg : Config) (s : State C) : Prop where
  procs : ∀ (j : Nat) job, s.jobs[j]? = some job →
    (job.pc = .window ∨ job.pc = .record ∨ job.pc = .check ∨ job.pc = .run) → cfg.procs job.h.proc ≠ none
  windows : ∀ (j : Nat) job, s.jobs[j]? = some job → (job.pc = .record ∨ job.pc = .check) → s.windows job.h.cltNonce ≠ none

omit [DecidableEq C] in
theorem initial_passed : Passed cfg (initial : State C) := ⟨by simp [initial],by simp [initial]⟩

theorem start_unknown (held : s.jobs[j]? = some job) (unknown : cfg.procs job.h.proc = none)
    (there : (start cfg s j job).jobs[j]? = some new) : new.pc = .finished ∨ new.pc = .sendOld := by
  have self : ∀ {t : State C} {placed : Job C}, t.jobs = s.jobs → (setJob t j placed).jobs[j]? = some new → placed = new := by
    intro t placed same stands
    simp only [setJob,same] at stands
    exact Option.some.inj ((entry_self held).symm.trans stands)
  unfold start at there
  split at there
  · exact .inl (self rfl there ▸ rfl)
  · split at there
    · exact .inr (self rfl there ▸ rfl)
    · rw [if_pos (by simp [unknown])] at there
      exact .inl (self rfl there ▸ rfl)

theorem start_known (taken : step cfg s label = some s') (own : label.job = some j) (held : s.jobs[j]? = some job)
    (pc : job.pc = .start) (there : s'.jobs[j]? = some new) (later : new.pc ≠ .finished ∧ new.pc ≠ .sendOld) :
    cfg.procs job.h.proc ≠ none := by
  obtain ⟨found,held',taken⟩ := step_job own taken
  cases Option.some.inj (held.symm.trans held')
  intro unknown
  cases label with
  | start i =>
    cases Option.some.inj own
    simp only [stepJob,pc,if_true,Option.some.injEq] at taken
    subst taken
    exact (start_unknown held unknown there).elim later.1 later.2
  | _ => simp [stepJob,pc] at taken

theorem window_known (taken : step cfg s label = some s') (own : label.job = some j) (held : s.jobs[j]? = some job)
    (pc : job.pc = .window) : s'.windows job.h.cltNonce ≠ none := by
  obtain ⟨found,held',taken⟩ := step_job own taken
  cases Option.some.inj (held.symm.trans held')
  cases label with
  | window i =>
    simp only [stepJob,pc,if_true,Option.some.injEq] at taken
    subst taken
    exact created_known s.windows job.h.cltNonce
  | _ => simp [stepJob,pc] at taken

theorem step_windows (rule : Step cfg s label s') (known : s.windows clt ≠ none) : s'.windows clt ≠ none := by
  cases rule with
  | window => exact createWindow_keeps known _
  | check held pc answered =>
    simp only [checkduplicateAndUpdate] at answered
    split at answered
    · cases answered
    · cases Option.some.inj answered
      exact put_known _ known _
  | add => exact put_known _ known _
  | _ => exact known

theorem step_passed (passed : Passed cfg s) (taken : step cfg s label = some s') : Passed cfg s' := by
  have rule := step_sound taken
  have old : ∀ (i : Nat) (other : Job C), s.jobs[i]? = some other → (other.pc = .record ∨ other.pc = .check) →
      s'.windows other.h.cltNonce ≠ none := fun i other held pc => step_windows rule (passed.windows i other held pc)
  rcases step_jobs rule with same | ⟨c,pdu,junk,rest,_,same⟩ | ⟨j,job,new,own,found,same,moves⟩
  · exact ⟨by rw [same]; exact passed.procs,by rw [same]; exact old⟩
  · constructor
    · intro i other held pc
      rw [same] at held
      rcases entry_append held with before | ⟨_,rfl⟩
      · exact passed.procs i other before pc
      · simp at pc
    · intro i other held pc
      rw [same] at held
      rcases entry_append held with before | ⟨_,rfl⟩
      · exact old i other before pc
      · simp at pc
  · have there : s'.jobs[j]? = some new := by rw [same]; exact entry_self found
    have follows := moves.pc
    constructor
    · intro i other held pc
      rw [same] at held
      rcases entry_cases held with ⟨rfl,rfl⟩ | ⟨_,before⟩
      · rw [moves.h]
        rcases follows_started follows pc with at_ | at_ | at_ | at_
        · apply start_known taken own found at_ there
          constructor <;> intro ended <;> simp [ended] at pc
        · exact passed.procs i job found (.inl at_)
        · exact passed.procs i job found (.inr (.inl at_))
        · exact passed.procs i job found (.inr (.inr (.inl at_)))
      · exact passed.procs i other before pc
    · intro i other held pc
      rw [same] at held
      rcases entry_cases held with ⟨rfl,rfl⟩ | ⟨_,before⟩
      · rw [moves.h]
        rcases follows_listed follows pc with at_ | at_
        · exact window_known taken own found at_
        · exact old i job found (.inl at_)
      · exact old i other before pc

structure Valid (cfg : Config) (s : State C) : Prop where
  alive : s.crashed = false
  clean : NoNull s
  owned : Owned s
  target : ReplyTarget.Invariant s
  passed : Passed cfg s
  anonymous : AnonymousLive s

omit [DecidableEq C] in
theorem run_alive (fine : Fine ret) (taken : run cfg s j job ret r = some s') : s'.crashed = s.crashed := by
  unfold run at taken
  split at taken
  · cases taken
  · split at taken
    · cases Option.some.inj taken; rfl
    · obtain ⟨_,taken⟩ := Option.ite_none_right_eq_some.mp taken
      dsimp only at taken
      rw [if_pos (show ret ≥ 0 ∨ ret = RpcConst.unmarshalArgsFailure from fine)] at taken
      cases Option.some.inj taken
      rfl

omit [DecidableEq C] in
theorem Valid.found (valid : Valid cfg s) (held : s.jobs[j]? = some job) (pc : job.pc = .choose)
    (gone : s.dead job.conn = true) : s.conns job.h.cltNonce ≠ none := by
  intro missing
  have zero := missing_anonymous valid.owned held pc missing
  rcases valid.anonymous.running job (List.mem_of_getElem? held) zero with ended | lives
  · rw [pc] at ended; cases ended
  · rw [gone] at lives; cases lives

-- No assertion fails: the methods return what dispatch accepts, conns_ has no
-- NULL, and a client that it lacks is one whose connection lives.
theorem working_alive (valid : Valid cfg s) (working : Working s label) (taken : step cfg s label = some s') :
    s'.crashed = false := by
  cases step_sound taken with
  | recordCrash held pc null => exact absurd null (valid.clean _)
  | chooseNull held pc gone null => exact absurd null (valid.clean _)
  | chooseMissing held pc gone missing => exact absurd missing (valid.found held pc gone)
  | runCrash held pc =>
    obtain ⟨job,held',taken⟩ := step_job rfl taken
    cases Option.some.inj (held.symm.trans held')
    simp only [stepJob,pc,if_true] at taken
    exact (run_alive working taken).trans valid.alive
  | _ => exact valid.alive

theorem step_valid (valid : Valid cfg s) (working : Working s label) (taken : step cfg s label = some s') :
    Valid cfg s' ∧ remaining s' < remaining s := by
  have rule := step_sound taken
  have alive := working_alive valid working taken
  obtain ⟨dead,moved⟩ := working_moved working alive rule
  have clean : NoNull s' := by
    rcases step_null rule valid.clean with clean | ⟨j,job,rfl,held,pc,gone,missing⟩
    · exact clean
    · exact absurd missing (valid.found held pc gone)
  exact ⟨⟨alive,clean,step_owned valid.owned valid.target rule,ReplyTarget.step_invariant valid.target taken,
    step_passed valid.passed taken,moved.anonymous valid.owned dead valid.anonymous⟩,moved.lowers⟩

theorem runs_valid (path : Runs (step cfg) free (initial : State C) labels s) (alive : s.crashed = false)
    (anonymous : AnonymousLive s) : Valid cfg s := by
  refine ⟨alive,alive_clean path alive,runs_owned path,ReplyTarget.runs_invariant path,?_,anonymous⟩
  exact path.invariant initial_passed fun _ _ _ passed _ taken => step_passed passed taken

theorem step_own (alive : s.crashed = false) (own : label.job = some j) (held : s.jobs[j]? = some job) :
    step cfg s label = stepJob cfg s j job label := by
  cases label <;> simp_all [step,Label.job]

def Goes (cfg : Config) (s : State C) : Prop := ∃ label s', Working s label ∧ step cfg s label = some s'

theorem goes (label : Label C) (alive : s.crashed = false) (own : label.job = some j) (held : s.jobs[j]? = some job)
    (working : Working s label) (taken : (stepJob cfg s j job label).isSome) : Goes cfg s := by
  obtain ⟨s',taken⟩ := Option.isSome_iff_exists.mp taken
  exact ⟨label,s',working,(step_own alive own held).trans taken⟩

theorem run_goes (total : Total cfg) (valid : Valid cfg s) (held : s.jobs[j]? = some job) (pc : job.pc = .run) :
    Goes cfg s := by
  obtain ⟨handler,known⟩ := Option.ne_none_iff_exists'.mp (valid.passed.procs j job held (by simp [pc]))
  cases decoded : arguments handler job with
  | none =>
    apply goes (.run j 0 (.int 0)) valid.alive rfl held (.inl (by decide))
    simp only [stepJob,run,pc,if_true,known,decoded,Option.isSome_some]
  | some args =>
    obtain ⟨ret,r,fine,allowed,typed⟩ := total_procs total known args
    have accepts : (handler.meth args ret r && r.ty == handler.res) = true := by simp [allowed,typed]
    apply goes (.run j ret r) valid.alive rfl held fine
    simp only [stepJob,run,pc,if_true,known,decoded,accepts,if_pos (show ret ≥ 0 ∨ ret = RpcConst.unmarshalArgsFailure from fine),
      Option.isSome_some]

theorem job_goes (total : Total cfg) (valid : Valid cfg s) (held : s.jobs[j]? = some job) (unfinished : job.pc ≠ .finished) :
    Goes cfg s := by
  have alive := valid.alive
  cases pc : job.pc with
  | start => exact goes (.start j) alive rfl held trivial (by simp [stepJob,pc])
  | window => exact goes (.window j) alive rfl held trivial (by simp [stepJob,pc])
  | record => exact goes (.record j) alive rfl held trivial (by simp [stepJob,pc])
  | check =>
    obtain ⟨replies,listed⟩ := Option.ne_none_iff_exists'.mp (valid.passed.windows j job held (.inr pc))
    exact goes (.check j) alive rfl held trivial (by simp [stepJob,check,checkduplicateAndUpdate,pc,listed])
  | run => exact run_goes total valid held pc
  | add => exact goes (.add j) alive rfl held trivial (by simp [stepJob,pc])
  | choose => exact goes (.choose j) alive rfl held trivial (by simp [stepJob,pc])
  | send | sendOld => exact goes (.send j) alive rfl held trivial (by simp [stepJob,pc])
  | decref => exact goes (.decref j) alive rfl held trivial (by simp [stepJob,pc])
  | finished => exact absurd pc unfinished

-- The queue is empty, every dispatch has returned, and none has failed an
-- assertion.
structure Drained (s : State C) : Prop where
  queue : s.queue = []
  finished : ∀ job ∈ s.jobs, job.pc = .finished
  alive : s.crashed = false

theorem valid_goes (total : Total cfg) (valid : Valid cfg s) : Drained s ∨ Goes cfg s := by
  by_cases all : ∀ job ∈ s.jobs, job.pc = .finished
  · cases queue : s.queue with
    | nil => exact .inl ⟨queue,all,valid.alive⟩
    | cons front rest =>
      obtain ⟨c,pdu⟩ := front
      have idle : active s = 0 := by
        apply List.countP_eq_zero.mpr
        intro job member
        simp [all job member]
      refine .inr ⟨.take fun _ => 0,{s with queue:=rest,jobs:=s.jobs ++ [⟨c,c,pdu,fun _ => 0,[],.start⟩]},trivial,?_⟩
      simp only [step,valid.alive,queue,idle,Bool.false_eq_true,if_false,if_pos (show 0 < poolSize by decide)]
  · push Not at all
    obtain ⟨job,member,unfinished⟩ := all
    obtain ⟨j,held⟩ := List.getElem?_of_mem member
    exact .inr (job_goes total valid held unfinished)

end Steps

-- The bind request of a client with a nonce is executing, a call of handle_fast by
-- a client without one is in the queue.
def request (xid proc clt srv : UInt8) : List UInt8 :=
  [0,0,0,28,0,0,0,xid,0,0,0,proc,0,0,0,clt,0,0,0,srv,0,0,0,0,0,0,0,5]

end YfsLab.DispatchProgress
