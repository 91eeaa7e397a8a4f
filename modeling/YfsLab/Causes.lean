import YfsLab.ReplyTarget
import YfsLab.RefCounts
import YfsLab.ServerReplies

namespace YfsLab.Causes
open Rpcs
open RefCounts (Stale)
open ReplyWindow (Stored)
open ServerReplies (replied arguments_congr)

-- Why a dispatch answers its request with this return value, and what it packs
-- behind the header.
inductive Cause {C : Type} (cfg : Config) (trace : List (Event C)) (j : Nat) (job : Job C) (ret : Int32)
    (body : List UInt8) : Prop where
  | ran : .ran j job.h.cltNonce job.h.xid job.h.proc args ret r ∈ trace →
      (0 ≤ ret ∨ ret = RpcConst.unmarshalArgsFailure) → body = r.encode → Cause cfg trace j job ret body
  | undecoded : ret = RpcConst.unmarshalArgsFailure → cfg.procs job.h.proc = some handler →
      arguments handler job = none → Cause cfg trace j job ret body
  | stale : ret = RpcConst.oldsrvFailure → Stale cfg job.h → Cause cfg trace j job ret body
  | forgotten : ret = RpcConst.atmostonceFailure → job.h.xid ≤ job.h.xidRep → Cause cfg trace j job ret body

-- The bytes are the answer that one of the dispatches `by_` has found for the
-- request (clt, xid).
def Accounted {C : Type} (cfg : Config) (s : State C) (clt xid : UInt32) (by_ : Nat → Prop) (b : List UInt8) : Prop :=
  ∃ (j : Nat) (job : Job C) (size junk body : List UInt8) (ret : Int32), s.jobs[j]? = some job ∧
    job.h.cltNonce = clt ∧ job.h.xid = xid ∧ by_ j ∧ size.length = 4 ∧ junk.length = 12 ∧
    b = size ++ (ReplyHeader.mk xid ret).encode ++ (junk ++ body) ∧ Cause cfg s.trace j job ret body

def Sources (job : Job C) (j : Nat) : Nat → Prop := fun k => job.h.cltNonce = 0 → k = j

structure Invariant {C : Type} (cfg : Config) (s : State C) : Prop where
  replies : ∀ (j : Nat) (job : Job C), s.jobs[j]? = some job → replied job.pc →
    Accounted cfg s job.h.cltNonce job.h.xid (Sources job j) job.b1
  windows : Stored (fun clt xid b => Accounted cfg s clt xid (fun _ => True) b) s.windows

theorem initial_invariant {C : Type} (cfg : Config) : Invariant cfg (initial : State C) :=
  ⟨by simp [initial],by simp [Stored,initial,ReplyWindow.initial]⟩

section Steps
variable {C : Type} [DecidableEq C] {cfg : Config} {s s' : State C} {label : Label C} {j : Nat} {job job' : Job C}
  {clt xid : UInt32} {b : List UInt8} {by_ by_' : Nat → Prop}

omit [DecidableEq C] in
theorem Accounted.imp (accounted : Accounted cfg s clt xid by_ b) (weaker : ∀ k, by_ k → by_' k) :
    Accounted cfg s clt xid by_' b := by
  obtain ⟨j,job,size,junk,body,ret,held,nonce,same,own,rest⟩ := accounted
  exact ⟨j,job,size,junk,body,ret,held,nonce,same,weaker j own,rest⟩

omit [DecidableEq C] in
theorem Cause.later {trace later : List (Event C)} (cause : Cause cfg trace j job ret body)
    (kept : ∀ event ∈ trace, event ∈ later) (same : job'.pdu = job.pdu) : Cause cfg later j job' ret body := by
  have header : job'.h = job.h := by simp only [Job.h,same]
  cases cause with
  | ran ran value encoded => exact .ran (by rw [header]; exact kept _ ran) value encoded
  | undecoded value known bad => exact .undecoded value (by rw [header]; exact known) ((arguments_congr _ same).trans bad)
  | stale value old => exact .stale value (by rw [header]; exact old)
  | forgotten value acknowledged => exact .forgotten value (by rw [header]; exact acknowledged)

theorem Accounted.later (accounted : Accounted cfg s clt xid by_ b) (rule : Step cfg s label s') :
    Accounted cfg s' clt xid by_ b := by
  obtain ⟨j,job,size,junk,body,ret,held,rfl,rfl,own,four,twelve,layout,cause⟩ := accounted
  obtain ⟨job',now,same,_⟩ := step_job_kept rule held
  have header : job'.h = job.h := by simp only [Job.h,same]
  exact ⟨j,job',size,junk,body,ret,now,by rw [header],by rw [header],own,four,twelve,layout,
    cause.later (fun _ => step_remembers_trace rule) same⟩

omit [DecidableEq C] in
theorem reply_accounted (held : s.jobs[j]? = some job') (same : job'.pdu = job.pdu) {ret : Int32} {r : Option Val}
    (cause : Cause cfg s.trace j job' ret (encodes r.toList)) :
    Accounted cfg s job'.h.cltNonce job'.h.xid (Sources job' j) (reply job ret r) := by
  obtain ⟨size,junk,four,twelve,layout⟩ := ServerReplies.reply_layout job ret r
  have header : job'.h = job.h := by simp only [Job.h,same]
  rw [← header] at layout
  exact ⟨j,job',size,junk,_,ret,held,rfl,rfl,fun _ => rfl,four,twelve,layout,cause⟩

theorem Invariant.keep (valid : Invariant cfg s) (rule : Step cfg s label s') (held : s.jobs[j]? = some job)
    (ready : replied job.pc) : Accounted cfg s' job.h.cltNonce job.h.xid (Sources job j) job.b1 :=
  (valid.replies j job held ready).later rule

theorem replies_set (valid : Invariant cfg s) (rule : Step cfg s label s') (jobs : s'.jobs = s.jobs.set j job')
    (own : replied job'.pc → Accounted cfg s' job'.h.cltNonce job'.h.xid (Sources job' j) job'.b1) :
    ∀ (k : Nat) (other : Job C), s'.jobs[k]? = some other → replied other.pc →
      Accounted cfg s' other.h.cltNonce other.h.xid (Sources other k) other.b1 := by
  intro k other found ready
  rw [jobs] at found
  rcases Machine.entry_cases found with ⟨rfl,rfl⟩ | ⟨_,old⟩
  · exact own ready
  · exact valid.keep rule old ready

theorem check_accounted (valid : Invariant cfg s) (rule : Step cfg s label s') (nonzero : job.h.cltNonce ≠ 0)
    (answered : ReplyWindow.checkduplicateAndUpdate s.windows job.h.cltNonce job.h.xid job.h.xidRep = some (answer,after))
    (held : s'.jobs[j]? = some (afterCheck job answer)) (ready : replied (afterCheck job answer).pc) :
    Accounted cfg s' (afterCheck job answer).h.cltNonce (afterCheck job answer).h.xid (Sources (afterCheck job answer) j)
      (afterCheck job answer).b1 := by
  cases stat : answer.stat with
  | NEW | INPROGRESS =>
    simp only [afterCheck,stat] at ready
    cases ready
  | DONE =>
    simp only [afterCheck,stat]
    have stored := ReplyWindow.done_stored valid.windows answered stat
    exact (stored.later rule).imp fun _ _ zero => absurd zero nonzero
  | FORGOTTEN =>
    simp only [afterCheck,stat] at held ⊢
    have cause : Cause cfg s'.trace j {job with b1:=reply job RpcConst.atmostonceFailure none,pc:=.send}
        RpcConst.atmostonceFailure (encodes (none : Option Val).toList) :=
      .forgotten rfl (ReplyWindow.forgotten_acknowledged answered stat)
    exact reply_accounted held rfl cause

-- "assert(rh.ret >= 0 || rh.ret == rpc_const::unmarshal_args_failure)".
theorem ran_value (taken : step cfg s (.run j ret r) = some s') (held : s.jobs[j]? = some job)
    (known : cfg.procs job.h.proc = some handler) (decoded : arguments handler job = some args)
    (alive : s'.crashed = false) : 0 ≤ ret ∨ ret = RpcConst.unmarshalArgsFailure := by
  obtain ⟨other,found,taken⟩ := step_job (j:=j) rfl taken
  cases Option.some.inj (found.symm.trans held)
  simp only [stepJob,Option.ite_none_right_eq_some] at taken
  obtain ⟨_,taken⟩ := taken
  unfold run at taken
  simp only [known,decoded] at taken
  split at taken
  · split at taken
    · rename_i value; exact value
    · cases Option.some.inj taken
      cases alive
  · cases taken

theorem step_replies (valid : Invariant cfg s)
    (nonzero : ∀ (j : Nat) job, s.jobs[j]? = some job → job.pc = .check → job.h.cltNonce ≠ 0)
    (taken : step cfg s label = some s') :
    ∀ (k : Nat) (other : Job C), s'.jobs[k]? = some other → replied other.pc →
      Accounted cfg s' other.h.cltNonce other.h.xid (Sources other k) other.b1 := by
  have rule := step_sound taken
  have step := rule
  cases step with
  | accept | collect | dies | refuse | enqueue | runCrash | chooseNull | chooseMissing =>
    exact fun k other found ready => valid.keep rule found ready
  | take waiting =>
    intro k other found ready
    rcases Machine.entry_append found with old | ⟨_,rfl⟩
    · exact valid.keep rule old ready
    · cases ready
  | leave | unguarded | guarded | window | recordKept | recordFirst | recordOther | recordCrash | send | sendOld
  | decref => exact replies_set valid rule rfl (fun ready => by cases ready)
  | stale held _ _ named other =>
    exact replies_set valid rule rfl fun _ =>
      reply_accounted (Machine.entry_self held) rfl (.stale rfl ⟨named,other⟩)
  | undecoded held _ known bad =>
    exact replies_set valid rule rfl fun _ =>
      reply_accounted (Machine.entry_self held) rfl (.undecoded rfl known bad)
  | ran held _ known decoded =>
    have alive := step_alive taken
    have value := ran_value taken held known decoded alive
    refine replies_set valid rule rfl fun _ => reply_accounted (Machine.entry_self held) rfl ?_
    exact .ran (List.mem_append_right _ (List.mem_singleton.mpr rfl)) value (by simp [encodes])
  | check held pc answered =>
    exact replies_set valid rule rfl fun ready =>
      check_accounted valid rule (nonzero _ _ held pc) answered (Machine.entry_self held) ready
  | add held pc | addNothing held pc | chooseKept held pc | chooseLatest held pc =>
    have old := valid.keep rule held (by rw [pc]; trivial)
    exact replies_set valid rule rfl fun _ => old

theorem step_windows (valid : Invariant cfg s) (rule : Step cfg s label s') :
    Stored (fun clt xid b => Accounted cfg s' clt xid (fun _ => True) b) s'.windows := by
  have old : Stored (fun clt xid b => Accounted cfg s' clt xid (fun _ => True) b) s.windows :=
    fun clt replies found it member present => (valid.windows clt replies found it member present).later rule
  have step := rule
  cases step with
  | window => exact ReplyWindow.create_stored old
  | check held pc answered => exact ReplyWindow.check_stored old answered
  | @add j job held pc =>
    apply ReplyWindow.add_stored old
    rw [List.take_length]
    exact (valid.keep rule held (by rw [pc]; trivial)).imp fun _ _ => trivial
  | accept | collect | dies | refuse | enqueue | runCrash | chooseNull | chooseMissing | take | leave | unguarded
  | guarded | recordKept | recordFirst | recordOther | recordCrash | send | sendOld | decref | stale | undecoded
  | ran | addNothing | chooseKept | chooseLatest => exact old

theorem step_invariant (valid : Invariant cfg s)
    (nonzero : ∀ (j : Nat) job, s.jobs[j]? = some job → job.pc = .check → job.h.cltNonce ≠ 0)
    (taken : step cfg s label = some s') : Invariant cfg s' :=
  ⟨step_replies valid nonzero taken,step_windows valid (step_sound taken)⟩

end Steps
end YfsLab.Causes
