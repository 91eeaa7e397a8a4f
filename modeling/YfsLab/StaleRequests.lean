import YfsLab.RefCounts

namespace YfsLab.StaleRequests
open Rpcs
open RefCounts (Stale AllScreened)

variable {C : Type}

-- A request for an older instance gets oldsrv_failure on the connection it came
-- on, and its dispatch does nothing else.
structure TurnedAway (s : State C) (j : Nat) (job : Job C) : Prop where
  conn : job.conn = job.arrived
  answer : job.pc = .start ∨ (job.pc = .sendOld ∧ job.b1 = reply job RpcConst.oldsrvFailure none) ∨
    (job.pc = .finished ∧ .sent j job.arrived ∈ s.trace)
  nothing : ∀ event ∈ s.trace, event.job = j → event = .sent j job.arrived

structure Invariant (cfg : Config) (s : State C) : Prop where
  screened : AllScreened cfg s
  begun : ∀ event ∈ s.trace, event.job < s.jobs.length
  turned : ∀ (j : Nat) (job : Job C), s.jobs[j]? = some job → job.req.ok = true → Stale cfg job.h → TurnedAway s j job

theorem initial_invariant (cfg : Config) : Invariant cfg (initial : State C) :=
  ⟨by simp [AllScreened,initial],by simp [initial],by simp [initial]⟩

variable [DecidableEq C] {cfg : Config} {s s' : State C} {label : Label C} {j : Nat} {job : Job C}

theorem start_stale (good : job.req.ok = true) (stale : Stale cfg job.h) :
    start cfg s j job = setJob s j {job with b1:=reply job RpcConst.oldsrvFailure none,pc:=.sendOld} := by
  unfold start
  rw [if_neg (by simp [good]),if_pos (show job.h.srvNonce ≠ 0 ∧ job.h.srvNonce ≠ cfg.nonce from stale)]

theorem stale_step (screened : AllScreened cfg s) (held : s.jobs[j]? = some job) (good : job.req.ok = true)
    (stale : Stale cfg job.h) (own : label.job = some j) (taken : step cfg s label = some s') :
    (label = .start j ∧ job.pc = .start ∧
      s' = setJob s j {job with b1:=reply job RpcConst.oldsrvFailure none,pc:=.sendOld}) ∨
    (label = .send j ∧ job.pc = .sendOld ∧ s' = log (setJob s j {job with pc:=.finished}) (.sent j job.conn)) := by
  have early : job.pc = .start ∨ job.pc = .sendOld ∨ job.pc = .finished := by
    by_cases first : job.pc = .start
    · exact .inl first
    · by_cases last : job.pc = .finished
      · exact .inr (.inr last)
      · by_cases old : job.pc = .sendOld
        · exact .inr (.inl old)
        · exact absurd stale (screened.current held first last old)
  obtain ⟨same,found,taken⟩ := step_job own taken
  cases Option.some.inj (found.symm.trans held)
  cases label with
  | start i =>
    cases Option.some.inj own
    simp only [stepJob,Option.ite_none_right_eq_some,Option.some.injEq] at taken
    obtain ⟨pc,rfl⟩ := taken
    exact .inl ⟨rfl,pc,start_stale good stale⟩
  | send i =>
    cases Option.some.inj own
    have waiting : job.pc ≠ .send := by rcases early with pc | pc | pc <;> simp [pc]
    simp only [stepJob,if_neg waiting,Option.ite_none_right_eq_some,Option.some.injEq] at taken
    obtain ⟨pc,rfl⟩ := taken
    exact .inr ⟨rfl,pc,rfl⟩
  | window i | record i | check i | run i | add i | choose i | decref i =>
    rcases early with pc | pc | pc <;> simp [stepJob,pc] at taken
  | accept | collect | dies | gotPdu | take => cases own

theorem stale_untouched (screened : AllScreened cfg s) (held : s.jobs[j]? = some job) (good : job.req.ok = true)
    (stale : Stale cfg job.h) (own : label.job = some j) (taken : step cfg s label = some s') :
    s'.windows = s.windows ∧ s'.conns = s.conns ∧ (∀ event ∈ s'.trace, event ∈ s.trace ∨ event = .sent j job.conn) := by
  rcases stale_step screened held good stale own taken with ⟨_,_,rfl⟩ | ⟨_,_,rfl⟩
  · exact ⟨rfl,rfl,fun event member => .inl member⟩
  · refine ⟨rfl,rfl,fun event member => ?_⟩
    rcases List.mem_append.mp member with old | new
    · exact .inl old
    · exact .inr (List.mem_singleton.mp new)

omit [DecidableEq C] in
theorem TurnedAway.emits (turned : TurnedAway s j job) (held : s.jobs[j]? = some job) (pc : job.pc = .sendOld)
    (open_ : s.dead job.arrived = false) :
    Rpcs.emits s (.send j) = some (job.arrived,frame (reply job RpcConst.oldsrvFailure none)) := by
  have answer : job.b1 = reply job RpcConst.oldsrvFailure none := by
    rcases turned.answer with other | ⟨_,answer⟩ | ⟨other,_⟩
    · rw [pc] at other; cases other
    · exact answer
    · rw [pc] at other; cases other
  simp only [Rpcs.emits,held,turned.conn]
  rw [if_pos ⟨.inr pc,open_⟩,answer]

theorem step_events (rule : Step cfg s label s') (event : Event C) (member : event ∈ s'.trace) :
    event ∈ s.trace ∨ label.job = some (event.job) := by
  cases rule with
  | accept | collect | dies | refuse | enqueue | take | leave | stale | unguarded | guarded | window
  | undecoded | add | addNothing | decref | chooseNull | chooseMissing => exact .inl member
  | recordKept | recordFirst | recordOther | recordCrash | check | chooseKept | chooseLatest | send | sendOld | ran
  | runCrash =>
    rcases List.mem_append.mp member with before | new
    · exact .inl before
    · rw [List.mem_singleton.mp new]
      exact .inr rfl

theorem step_begun (valid : Invariant cfg s) (taken : step cfg s label = some s') (event : Event C)
    (member : event ∈ s'.trace) : event.job < s'.jobs.length := by
  have kept : ∀ i : Nat, i < s.jobs.length → i < s'.jobs.length := by
    intro i inside
    obtain ⟨job,now,_⟩ := step_job_kept (step_sound taken) (List.getElem?_eq_getElem inside)
    exact (List.getElem?_eq_some_iff.mp now).1
  rcases step_events (step_sound taken) event member with old | own
  · exact kept _ (valid.begun event old)
  · obtain ⟨job,held,_⟩ := step_job own taken
    exact kept _ (List.getElem?_eq_some_iff.mp held).1

theorem TurnedAway.elsewhere (turned : TurnedAway s j job) (rule : Step cfg s label s') (other : label.job ≠ some j) :
    TurnedAway s' j job := by
  refine ⟨turned.conn,turned.answer.imp_right (Or.imp_right (And.imp_right (step_remembers_trace rule))),?_⟩
  intro event member same
  rcases step_events rule event member with old | own
  · exact turned.nothing event old same
  · exact absurd (same ▸ own) other

theorem step_turned (valid : Invariant cfg s) (taken : step cfg s label = some s') (j : Nat) (job : Job C)
    (found : s'.jobs[j]? = some job) (good : job.req.ok = true) (stale : Stale cfg job.h) : TurnedAway s' j job := by
  have rule := step_sound taken
  by_cases own : label.job = some j
  · obtain ⟨before,held,_⟩ := step_job own taken
    obtain ⟨after,now,pdu,_⟩ := step_job_kept rule held
    cases Option.some.inj (now.symm.trans found)
    have ok : before.req.ok = true := by rw [Job.req,← pdu]; exact good
    have old : Stale cfg before.h := by rw [Job.h,← pdu]; exact stale
    have turned := valid.turned j before held ok old
    rcases stale_step valid.screened held ok old own taken with ⟨_,_,rfl⟩ | ⟨_,_,rfl⟩
    · cases Option.some.inj (found.symm.trans (Machine.entry_self held))
      exact ⟨turned.conn,.inr (.inl ⟨rfl,rfl⟩),turned.nothing⟩
    · cases Option.some.inj (found.symm.trans (Machine.entry_self held))
      have sent : (log (setJob s j {before with pc:=.finished}) (.sent j before.conn)).trace =
          s.trace ++ [.sent j before.arrived] := by rw [← turned.conn]; rfl
      refine ⟨turned.conn,.inr (.inr ⟨rfl,by rw [sent]; simp⟩),fun event member same => ?_⟩
      rw [sent] at member
      rcases List.mem_append.mp member with earlier | new
      · exact turned.nothing event earlier same
      · exact List.mem_singleton.mp new
  · rcases step_jobs rule with same | ⟨c,pdu,junk,rest,_,same⟩ | ⟨k,_,_,mine,_,same,_⟩ <;> rw [same] at found
    · exact (valid.turned j job found good stale).elsewhere rule own
    · rcases Machine.entry_append found with held | ⟨last,rfl⟩
      · exact (valid.turned j job held good stale).elsewhere rule own
      · refine ⟨rfl,.inl rfl,fun event member new => ?_⟩
        rcases step_events rule event member with earlier | mine
        · have begun := valid.begun event earlier
          omega
        · exact absurd (new ▸ mine) own
    · rcases Machine.entry_cases found with ⟨rfl,_⟩ | ⟨_,held⟩
      · exact absurd mine own
      · exact (valid.turned j job held good stale).elsewhere rule own

theorem step_invariant (valid : Invariant cfg s) (taken : step cfg s label = some s') : Invariant cfg s' :=
  ⟨valid.screened.step (step_sound taken),step_begun valid taken,step_turned valid taken⟩

end YfsLab.StaleRequests
