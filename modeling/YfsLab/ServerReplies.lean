import YfsLab.Rpcs

namespace YfsLab.ServerReplies
open ReplyWindow (Stored checkduplicateAndUpdate)
open Rpcs

variable {C : Type}

-- The reply PDU of a request of client clt with this xid: an error code of the
-- rpc library, or return value and result of a run of the handler.
def Genuine (trace : List (Event C)) (clt xid : UInt32) (b : List UInt8) : Prop :=
  ∃ (size junk body : List UInt8) (ret : Int32), size.length = 4 ∧ junk.length = 12 ∧
    b = size ++ (ReplyHeader.mk xid ret).encode ++ (junk ++ body) ∧
    (ret < 0 ∨ ∃ j proc args r, .ran j clt xid proc args ret r ∈ trace ∧ body = r.encode)

theorem Genuine.later {trace later : List (Event C)} (genuine : Genuine trace clt xid b)
    (kept : ∀ event ∈ trace, event ∈ later) : Genuine later clt xid b := by
  obtain ⟨size,junk,body,ret,four,twelve,layout,source⟩ := genuine
  refine ⟨size,junk,body,ret,four,twelve,layout,source.imp_right ?_⟩
  rintro ⟨j,proc,args,r,ran,same⟩
  exact ⟨j,proc,args,r,kept _ ran,same⟩

theorem reply_layout (job : Job C) (ret : Int32) (r : Option Val) :
    ∃ size junk : List UInt8, size.length = 4 ∧ junk.length = 12 ∧
      reply job ret r = size ++ (ReplyHeader.mk job.h.xid ret).encode ++ (junk ++ encodes r.toList) := by
  have fresh : (Marshall.new job.junk).str.length = 24 := by simp [Marshall.new,rpcHeaderSz]
  have room : rpcHeaderSz ≤ ((Marshall.new job.junk).puts r.toList).ind := by
    rw [← Marshall.str_length,Marshall.str_puts,List.length_append,fresh]
    exact Nat.le_add_right _ _
  refine ⟨(Marshall.new job.junk).str.take 4,(Marshall.new job.junk).str.drop 12,?_,?_,?_⟩
  · rw [List.length_take]; omega
  · rw [List.length_drop]; omega
  · rw [reply,Marshall.str_packReplyHeader _ _ room,Marshall.str_puts,
      List.take_append_of_le_length (by omega),List.drop_append_of_le_length (by omega)]

theorem failure_genuine (trace : List (Event C)) (job : Job C) (negative : ret < 0) :
    Genuine trace job.h.cltNonce job.h.xid (reply job ret none) := by
  obtain ⟨size,junk,four,twelve,layout⟩ := reply_layout job ret none
  exact ⟨size,junk,_,ret,four,twelve,layout,.inl negative⟩

theorem run_genuine {trace : List (Event C)} {job : Job C}
    (ran : .ran j job.h.cltNonce job.h.xid proc args ret r ∈ trace) :
    Genuine trace job.h.cltNonce job.h.xid (reply job ret (some r)) := by
  obtain ⟨size,junk,four,twelve,layout⟩ := reply_layout job ret (some r)
  refine ⟨size,junk,_,ret,four,twelve,layout,.inr ⟨j,proc,args,r,ran,by simp [encodes]⟩⟩

def replied : Pc → Prop
  | .add | .choose | .send | .sendOld => True
  | _ => False

-- A run on record was a run of the registered handler on what the job decoded.
def Honest (cfg : Config) (jobs : List (Job C)) : Event C → Prop
  | .ran j clt xid proc args ret r => ∃ job handler, jobs[j]? = some job ∧ job.h.cltNonce = clt ∧
      job.h.xid = xid ∧ job.h.proc = proc ∧ cfg.procs proc = some handler ∧
      arguments handler job = some args ∧ handler.meth args ret r = true ∧ r.ty = handler.res
  | _ => True

structure Truthful (cfg : Config) (s : State C) : Prop where
  replies : ∀ (j : Nat) (job : Job C), s.jobs[j]? = some job → replied job.pc →
    Genuine s.trace job.h.cltNonce job.h.xid job.b1
  windows : Stored (Genuine s.trace) s.windows
  honest : ∀ event ∈ s.trace, Honest cfg s.jobs event

theorem initial_truthful (cfg : Config) : Truthful cfg (initial : State C) :=
  ⟨by simp [initial],by simp [Stored,initial,ReplyWindow.initial],by simp [initial]⟩

section Step
variable [DecidableEq C] {cfg : Config} {s s' : State C} {label : Label C} {j : Nat} {job job' : Job C}

-- What can be said of a reply from the history alone: of the errors, and of
-- what a handler has returned.
structure Proper (property : List (Event C) → Nat → ReqHeader → List UInt8 → Prop) : Prop where
  later : ∀ trace later j h b, (∀ event ∈ trace, event ∈ later) → property trace j h b → property later j h b
  failure : ∀ trace j (job : Job C) (ret : Int32), ret < 0 → property trace j job.h (reply job ret none)
  run : ∀ trace j (job : Job C) args ret r, .ran j job.h.cltNonce job.h.xid job.h.proc args ret r ∈ trace →
    property trace j job.h (reply job ret (some r))

def AllReplied (property : List (Event C) → Nat → ReqHeader → List UInt8 → Prop) (s : State C) : Prop :=
  ∀ (j : Nat) (job : Job C), s.jobs[j]? = some job → replied job.pc → property s.trace j job.h job.b1

variable {property : List (Event C) → Nat → ReqHeader → List UInt8 → Prop}

theorem AllReplied.keep (all : AllReplied property s) (proper : Proper property) (step : Step cfg s label s')
    (held : s.jobs[j]? = some job) (ready : replied job.pc) : property s'.trace j job.h job.b1 :=
  proper.later _ _ _ _ _ (fun _ => step_remembers_trace step) (all j job held ready)

theorem AllReplied.set (all : AllReplied property s) (proper : Proper property) (step : Step cfg s label s')
    (jobs : s'.jobs = s.jobs.set j job') (own : replied job'.pc → property s'.trace j job'.h job'.b1) :
    AllReplied property s' := by
  intro i other found ready
  rw [jobs] at found
  rcases Machine.entry_cases found with ⟨rfl,rfl⟩ | ⟨_,old⟩
  · exact own ready
  · exact all.keep proper step old ready

omit [DecidableEq C] in
theorem afterCheck_replied (proper : Proper property) {answer : ReplyWindow.Answer}
    (done : answer.stat = .DONE → property trace j job.h (answer.out.getD ([],0)).1)
    (ready : replied (afterCheck job answer).pc) :
    property trace j (afterCheck job answer).h (afterCheck job answer).b1 := by
  unfold afterCheck at ready ⊢
  split at ready
  · cases ready
  · cases ready
  · rename_i stat; exact done stat
  · exact proper.failure _ _ _ _ (by decide)

theorem AllReplied.step (all : AllReplied property s) (proper : Proper property) (step : Step cfg s label s')
    (stored : ∀ (j : Nat) (job : Job C) answer windows, s.jobs[j]? = some job → job.pc = .check →
      checkduplicateAndUpdate s.windows job.h.cltNonce job.h.xid job.h.xidRep = some (answer,windows) →
      answer.stat = .DONE → property s.trace j job.h (answer.out.getD ([],0)).1) : AllReplied property s' := by
  have rule := step
  cases step with
  | accept | collect | dies | refuse | enqueue | runCrash | chooseNull | chooseMissing =>
    exact fun i other found ready => all.keep proper rule found ready
  | take waiting =>
    intro i other found ready
    rcases Machine.entry_append found with old | ⟨_,rfl⟩
    · exact all.keep proper rule old ready
    · cases ready
  | leave | unguarded | guarded | window | recordKept | recordFirst | recordOther | recordCrash | send | sendOld
  | decref => exact all.set proper rule rfl (fun ready => by cases ready)
  | stale => exact all.set proper rule rfl (fun _ => proper.failure _ _ _ _ (by decide))
  | undecoded => exact all.set proper rule rfl (fun _ => proper.failure _ _ _ _ (by decide))
  | ran =>
    exact all.set proper rule rfl
      (fun _ => proper.run _ _ _ _ _ _ (List.mem_append_right _ (List.mem_singleton.mpr rfl)))
  | check held pc answered =>
    refine all.set proper rule rfl (fun ready => afterCheck_replied proper (fun done => ?_) ready)
    exact proper.later _ _ _ _ _ (fun _ => List.mem_append_left _) (stored _ _ _ _ held pc answered done)
  | add held pc | addNothing held pc | chooseKept held pc | chooseLatest held pc =>
    have old := all.keep proper rule held (by rw [pc]; trivial)
    exact all.set proper rule rfl (fun _ => old)

omit [DecidableEq C] in
theorem genuine_proper : Proper (fun (trace : List (Event C)) _ h b => Genuine trace h.cltNonce h.xid b) where
  later := fun _ _ _ _ _ kept genuine => genuine.later kept
  failure := fun _ _ job _ negative => failure_genuine _ job negative
  run := fun _ _ _ _ _ _ ran => run_genuine ran

theorem step_replies (truthful : Truthful cfg s) (step : Step cfg s label s') :
    ∀ (i : Nat) (other : Job C), s'.jobs[i]? = some other → replied other.pc →
      Genuine s'.trace other.h.cltNonce other.h.xid other.b1 := by
  have all : AllReplied (fun trace _ h b => Genuine trace h.cltNonce h.xid b) s := truthful.replies
  exact all.step genuine_proper step
    (fun _ _ _ _ _ _ answered done => ReplyWindow.done_stored truthful.windows answered done)

theorem step_windows (truthful : Truthful cfg s) (step : Step cfg s label s') :
    Stored (Genuine s'.trace) s'.windows := by
  have old : Stored (Genuine s'.trace) s.windows := fun clt replies found it member present =>
    (truthful.windows clt replies found it member present).later (fun _ => step_remembers_trace step)
  have rule := step
  cases step with
  | window => exact ReplyWindow.create_stored old
  | check held pc answered => exact ReplyWindow.check_stored old answered
  | @add j job held pc =>
    apply ReplyWindow.add_stored old
    rw [List.take_length]
    exact truthful.replies _ _ held (by rw [pc]; trivial)
  | accept | collect | dies | refuse | enqueue | runCrash | chooseNull | chooseMissing | take | leave | unguarded
  | guarded | recordKept | recordFirst | recordOther | recordCrash | send | sendOld | decref | stale | undecoded
  | ran | addNothing | chooseKept | chooseLatest => exact old

omit [DecidableEq C] in
theorem arguments_congr (handler : Handler) (same : job'.pdu = job.pdu) :
    arguments handler job' = arguments handler job := by
  unfold arguments Job.req
  rw [same]

theorem honest_later (step : Step cfg s label s') {event : Event C} (honest : Honest cfg s.jobs event) :
    Honest cfg s'.jobs event := by
  cases event with
  | recorded | checked | chose | sent => trivial
  | ran j clt xid proc args ret r =>
    obtain ⟨job,handler,held,rfl,rfl,rfl,known,decoded,allowed,typed⟩ := honest
    obtain ⟨job',now,same,_⟩ := step_job_kept step held
    have header : job'.h = job.h := by simp only [Job.h,same]
    exact ⟨job',handler,now,by rw [header],by rw [header],by rw [header],known,
      (arguments_congr handler same).trans decoded,allowed,typed⟩

theorem step_honest (truthful : Truthful cfg s) (step : Step cfg s label s') :
    ∀ event ∈ s'.trace, Honest cfg s'.jobs event := by
  have old : ∀ event ∈ s.trace, Honest cfg s'.jobs event :=
    fun event member => honest_later step (truthful.honest event member)
  cases step with
  | accept | collect | dies | refuse | enqueue | take | leave | stale | unguarded | guarded | window
  | undecoded | add | addNothing | decref | chooseNull | chooseMissing => exact old
  | recordKept | recordFirst | recordOther | recordCrash | check | chooseKept | chooseLatest | send | sendOld =>
    intro event member
    rcases List.mem_append.mp member with before | new
    · exact old event before
    · rw [List.mem_singleton.mp new]; trivial
  | ran held pc known decoded allowed typed =>
    intro event member
    rcases List.mem_append.mp member with before | new
    · exact old event before
    · rw [List.mem_singleton.mp new]
      exact ⟨_,_,Machine.entry_self held,rfl,rfl,rfl,known,decoded,allowed,typed⟩
  | runCrash held pc known decoded allowed typed =>
    intro event member
    rcases List.mem_append.mp member with before | new
    · exact old event before
    · rw [List.mem_singleton.mp new]
      exact ⟨_,_,held,rfl,rfl,rfl,known,decoded,allowed,typed⟩

theorem step_truthful (truthful : Truthful cfg s) (step : Step cfg s label s') : Truthful cfg s' :=
  ⟨step_replies truthful step,step_windows truthful step,step_honest truthful step⟩

end Step

def own (trace : List (Event C)) (j : Nat) : List (Event C) := trace.filter (fun event => event.job = j)

theorem own_later {trace later : List (Event C)} (kept : ∀ event ∈ trace, event ∈ later) :
    ∀ event ∈ own trace j, event ∈ own later j := by
  intro event member
  obtain ⟨old,same⟩ := List.mem_filter.mp member
  exact List.mem_filter.mpr ⟨kept event old,same⟩

-- A client without a nonce is answered by the dispatch of its request.
def Unshared (s : State C) : Prop :=
  ∀ (j : Nat) (job : Job C), s.jobs[j]? = some job → job.h.cltNonce = 0 → replied job.pc →
    Genuine (own s.trace j) job.h.cltNonce job.h.xid job.b1

theorem initial_unshared : Unshared (initial : State C) := by simp [Unshared,initial]

theorem own_proper : Proper (fun (trace : List (Event C)) j h b => h.cltNonce = 0 → Genuine (own trace j) h.cltNonce h.xid b) where
  later := fun _ _ _ _ _ kept genuine zero => (genuine zero).later (own_later kept)
  failure := fun _ _ job _ negative _ => failure_genuine _ job negative
  run := fun _ _ _ _ _ _ ran _ => run_genuine (List.mem_filter.mpr ⟨ran,decide_eq_true rfl⟩)

theorem step_unshared [DecidableEq C] {cfg : Config} {s s' : State C} {label : Label C} (unshared : Unshared s)
    (nonzero : ∀ (i : Nat) job, s.jobs[i]? = some job → job.pc = .check → job.h.cltNonce ≠ 0)
    (step : Step cfg s label s') : Unshared s' := by
  have all : AllReplied (fun trace j h b => h.cltNonce = 0 → Genuine (own trace j) h.cltNonce h.xid b) s :=
    fun j job held ready zero => unshared j job held zero ready
  have after := all.step own_proper step (fun j job _ _ held pc _ _ zero => absurd zero (nonzero j job held pc))
  exact fun j job held zero ready => after j job held ready zero

end YfsLab.ServerReplies
