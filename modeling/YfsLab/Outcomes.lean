import YfsLab.Arguments
import YfsLab.Causes
import YfsLab.Instances

namespace YfsLab.Outcomes
open Instances
open RpcSystem (Conn)
open Rpcc (Caller)
open CallTable (opened receive Kept)
open Causes (Cause)

variable {ι σ : Type} [DecidableEq ι] [DecidableEq σ] {cfg : σ → Rpcs.Config} {nonces : ι → UInt32} {i : ι}
  {retrans : ι → Bool} {s s' : State ι σ} {label : Label ι σ} {labels : List (Label ι σ)} {S : σ} {j k : Nat}
  {ca : Caller} {job : Rpcs.Job (Conn ι)}

theorem runs_causes {ok : State ι σ → Label ι σ → Prop}
    (path : Machine.Runs (step cfg) ok (initial nonces retrans) labels s) (S : σ) :
    Causes.Invariant (cfg S) (s.servers S) := by
  induction path with
  | nil => exact Causes.initial_invariant (cfg S)
  | @snoc _ before label after prior _ taken valid =>
    rcases step_server (step_sound taken) S with same | ⟨inner,moved,_⟩
    · exact same ▸ valid
    · refine Causes.step_invariant valid (fun j job held pc => ?_) moved
      exact ((runs_sound prior).target S).nonzero j job held (.inr (.inr pc))

def Explains (cfg : Rpcs.Config) (server : Rpcs.State (Conn ι)) (i : ι) (xid : UInt32) (pdu : List UInt8) : Prop :=
  ∃ (j : Nat) (job : Rpcs.Job (Conn ι)) (b size junk body : List UInt8) (ret : Int32), pdu = frame b ∧
    server.jobs[j]? = some job ∧ job.arrived.1 = i ∧ job.h.xid = xid ∧ size.length = 4 ∧ junk.length = 12 ∧
    b = size ++ (ReplyHeader.mk xid ret).encode ++ (junk ++ body) ∧ Cause cfg server.trace j job ret body

theorem Explains.later (rule : Step cfg s s') (explains : Explains (cfg S) (s.servers S) i xid pdu) :
    Explains (cfg S) (s'.servers S) i xid pdu := by
  rcases step_server rule S with same | ⟨inner,moved,_⟩
  · exact same ▸ explains
  · have step := Rpcs.step_sound moved
    obtain ⟨j,job,b,size,junk,body,ret,framed,held,arrived,asked,four,twelve,layout,cause⟩ := explains
    obtain ⟨job',now,pdu,same⟩ := Rpcs.step_job_kept step held
    have header : job'.h = job.h := by simp only [Rpcs.Job.h,pdu]
    exact ⟨j,job',b,size,junk,body,ret,framed,now,by rw [same]; exact arrived,by rw [header]; exact asked,four,twelve,
      layout,cause.later (fun _ => Rpcs.step_remembers_trace step) pdu⟩

omit [DecidableEq ι] [DecidableEq σ] in
theorem replied_explains (sound : Sound cfg nonces s) (causes : Causes.Invariant (cfg S) (s.servers S))
    (private_ : Own nonces i) (found : (s.servers S).jobs[j]? = some job) (ready : ServerReplies.replied job.pc)
    (arrived : job.arrived.1 = i) : Explains (cfg S) (s.servers S) i job.h.xid (frame job.b1) := by
  obtain ⟨_,_,_,_,_,nonce,_⟩ := sound.request found
  obtain ⟨j',job',size,junk,body,ret,held,same,asked,own,four,twelve,layout,cause⟩ := causes.replies j job found ready
  refine ⟨j',job',_,size,junk,body,ret,rfl,held,?_,asked,four,twelve,layout,cause⟩
  by_cases zero : job.h.cltNonce = 0
  · cases own zero
    cases Option.some.inj (found.symm.trans held)
    exact arrived
  · refine (sound.owner private_ held (by rw [same]; exact zero)).mp ?_
    rw [same,nonce,arrived]

def Flying (cfg : σ → Rpcs.Config) (i : ι) (s : State ι σ) : Prop :=
  ∀ S c pdu, (S,c,pdu) ∈ s.replies → c.1 = i → ∃ xid, Explains (cfg S) (s.servers S) i xid pdu

theorem step_flying (sound : Sound cfg nonces s) (routed : Routed nonces i s)
    (causes : ∀ S, Causes.Invariant (cfg S) (s.servers S)) (private_ : Own nonces i) (flying : Flying cfg i s)
    (rule : Step cfg s s') : Flying cfg i s' := by
  intro S c pdu member mine
  have old : (S,c,pdu) ∈ s.replies → ∃ xid, Explains (cfg S) (s'.servers S) i xid pdu := fun before =>
    (flying S c pdu before mine).imp fun _ explains => explains.later rule
  have step := rule
  cases step with
  | client | arrive => exact old member
  | deliver => exact old (List.eraseIdx_subset member)
  | network _ subset => exact old (subset member)
  | @server inner T server _ moved =>
    rcases List.mem_append.mp member with before | new
    · exact old before
    · obtain ⟨⟨c',pdu'⟩,emitted,same⟩ := Option.map_eq_some_iff.mp (Option.mem_toList.mp new)
      cases same
      obtain ⟨j,job,held,ready,rfl,rfl⟩ := RpcSystem.emits_replied emitted
      have arrived := (routed.dispatched S j job held).mp mine
      exact ⟨_,(replied_explains sound (causes S) private_ held ready arrived).later rule⟩

theorem runs_flying {ok : State ι σ → Label ι σ → Prop} (private_ : Own nonces i)
    (path : Machine.Runs (step cfg) ok (initial nonces retrans) labels s) : Flying cfg i s := by
  refine path.invariant_reached (fun S c pdu member => absurd member List.not_mem_nil)
    fun _ _ _ _ prior flying _ taken => ?_
  exact step_flying (runs_sound prior) (runs_routed private_ prior) (runs_causes prior) private_ flying (step_sound taken)

omit [DecidableEq ι] [DecidableEq σ] in
theorem Explains.opened (explains : Explains (cfg S) (s.servers S) i xid pdu) : (opened pdu).1.xid = xid := by
  obtain ⟨j,job,b,size,junk,body,ret,rfl,_,_,_,four,_,layout,_⟩ := explains
  rw [(RpcSystem.opened_frame four layout).1]

def Holds (cfg : Rpcs.Config) (server : Rpcs.State (Conn ι)) (i : ι) (ca : Caller) : Prop :=
  ∃ pdu, Explains cfg server i ca.xid pdu ∧ pdu.length ≤ maxPdu ∧ ca.un = (opened pdu).2.takeIn ∧
    ca.intret = (opened pdu).1.ret

def Answered (cfg : σ → Rpcs.Config) (i : ι) (s : State ι σ) : Prop :=
  ∀ (k : Nat) (ca : Caller), (s.clients i).callers[k]? = some ca → ca.done = true →
    ∃ S, (i,k,S) ∈ s.answered ∧ Holds (cfg S) (s.servers S) i ca

theorem step_answered_call (sound : Sound cfg nonces s) (flying : Flying cfg i s) (answered : Answered cfg i s)
    (rule : Step cfg s s') : Answered cfg i s' := by
  intro k ca' found done
  have old : ∀ ca, (s.clients i).callers[k]? = some ca → ca.done = true → ca'.xid = ca.xid → ca'.un = ca.un →
      ca'.intret = ca.intret → ∃ S, (i,k,S) ∈ s'.answered ∧ Holds (cfg S) (s'.servers S) i ca' := by
    intro ca before finished xid un intret
    obtain ⟨S,member,pdu,explains,fits,reply,ret⟩ := answered k ca before finished
    exact ⟨S,step_answered rule member,pdu,xid ▸ explains.later rule,fits,un.trans reply,intret.trans ret⟩
  rcases step_client rule i with same | ⟨inner,notGot,moved⟩ | ⟨S,c,pdu,arriving,fits,same,recorded⟩
  · exact old ca' (same ▸ found) done rfl rfl rfl
  · rcases CallTable.step_origin moved found with ⟨ca,before,kept⟩ | ⟨_,_,_,_,_,_,rfl⟩
    · obtain ⟨other,now,how⟩ := CallTable.step_consumes (sound.linked i) moved before
      cases Option.some.inj (found.symm.trans now)
      rcases how with ⟨un,intret,finished⟩ | ⟨pdu,rfl,_⟩
      · exact old ca before (finished ▸ done) kept.xid un intret
      · cases notGot
    · cases done
  · rw [same] at found
    rcases gotPdu_consumer (s.clients i) pdu with kept | ⟨n,ca,taker,pending,held,given⟩
    · exact old ca' (kept ▸ found) done rfl rfl rfl
    · rw [given] at found
      rcases Machine.entry_cases found with ⟨rfl,rfl⟩ | ⟨_,before⟩
      · obtain ⟨xid,explains⟩ := flying S (i,c) pdu arriving rfl
        obtain ⟨cb,again,asked,_⟩ := (sound.linked i).pending _ _ pending
        cases Option.some.inj (held.symm.trans again)
        rw [explains.opened] at asked
        exact ⟨S,recorded k taker,pdu,asked ▸ explains.later rule,fits,rfl,rfl⟩
      · exact old ca' before done rfl rfl rfl

theorem runs_answered {ok : State ι σ → Label ι σ → Prop} (private_ : Own nonces i)
    (path : Machine.Runs (step cfg) ok (initial nonces retrans) labels s) : Answered cfg i s := by
  refine path.invariant_reached (fun k ca found => by simp [initial,Rpcc.initial] at found)
    fun _ _ _ _ prior answered _ taken => ?_
  exact step_answered_call (runs_sound prior) (runs_flying private_ prior) answered (step_sound taken)

theorem runs_client {ok : State ι σ → Label ι σ → Prop} (private_ : Own nonces i)
    (path : Machine.Runs (step cfg) ok (initial nonces retrans) labels s) (few : Rpcc.Few (s.clients i)) :
    Rpcc.Invariant (s.clients i) ∧ ∀ ca ∈ (s.clients i).callers, ca.header.xidRep < ca.header.xid := by
  induction path with
  | nil => exact ⟨Rpcc.initial_invariant _ _,by simp [initial,Rpcc.initial]⟩
  | @snoc earlier mid label next prior _ taken ih =>
    have moves : next.clients i = mid.clients i ∨ ∃ inner, Rpcc.step (mid.clients i) inner = some (next.clients i) ∧
        Rpcc.Answering (mid.clients i) inner := by
      rcases step_client (step_sound taken) i with same | ⟨inner,notGot,moved⟩ | ⟨S,c,pdu,arriving,fits,same,_⟩
      · exact .inl same
      · refine .inr ⟨inner,moved,?_⟩
        cases inner with
        | gotPdu pdu => cases notGot
        | _ => trivial
      · refine .inr ⟨.gotPdu pdu,by rw [same]; rfl,fun _ => ?_⟩
        obtain ⟨xid,explains⟩ := runs_flying private_ prior S (i,c) pdu arriving rfl
        have asked := explains.opened
        obtain ⟨j,job,_,_,_,_,_,_,held,arrived,same,_⟩ := explains
        have sound := runs_sound prior
        obtain ⟨n,ca,place,_,request,_⟩ := sound.request held
        rw [arrived] at place
        refine ⟨ca,List.mem_of_getElem? place,?_⟩
        rw [← ((sound.linked i).numbered n ca place).2,← request,same]
        exact asked.symm
    rcases moves with same | ⟨inner,moved,answering⟩
    · rw [same] at few ⊢
      exact ih few
    · have before : Rpcc.Few (mid.clients i) := Nat.lt_of_le_of_lt (Rpcc.step_length moved) few
      obtain ⟨valid,ordered⟩ := ih before
      refine ⟨Rpcc.step_invariant valid few answering moved,fun ca member => ?_⟩
      obtain ⟨k,inside,rfl⟩ := List.getElem_of_mem member
      rcases CallTable.step_origin moved (List.getElem?_eq_getElem inside) with ⟨cb,old,kept⟩ | ⟨_,_,_,_,_,_,made⟩
      · rw [kept.header]
        exact ordered cb (List.mem_of_getElem? old)
      · rw [made]
        exact Rpcc.front_below valid before

-- The handler of the procedure was run on the request of this call, with what
-- the handler's types make of it.
def Ran (cfg : Rpcs.Config) (server : Rpcs.State (Conn ι)) (i : ι) (ca : Caller) (ret : Int32) (v : Val) : Prop :=
  ∃ (j : Nat) (job : Rpcs.Job (Conn ι)) (handler : Rpcs.Handler) (args : List Val), server.jobs[j]? = some job ∧
    job.arrived.1 = i ∧ job.pdu = frame ca.req ∧
    .ran j ca.header.cltNonce ca.xid ca.header.proc args ret v ∈ server.trace ∧
    cfg.procs ca.header.proc = some handler ∧ handler.meth args ret v = true ∧ v.ty = handler.res ∧
    Rpcs.arguments handler job = some args ∧ (ca.args.map Val.ty = handler.args → args = ca.args)

def NotRun (server : Rpcs.State (Conn ι)) (i : ι) (ca : Caller) : Prop :=
  ∀ (j : Nat) (job : Rpcs.Job (Conn ι)) clt proc args ret v, server.jobs[j]? = some job → job.arrived.1 = i →
    .ran j clt ca.xid proc args ret v ∉ server.trace

-- What a call can return when it was answered. Where the server's type of the
-- result is not the client's, it is what the client reads from the same bytes.
inductive Outcome (cfg : Rpcs.Config) (server : Rpcs.State (Conn ι)) (i : ι) (ca : Caller) : Int32 → Option Val → Prop where
  | result : Ran cfg server i ca ret v → 0 ≤ ret → v.ty = ca.ty → Outcome cfg server i ca ret (some v)
  | misread : Ran cfg server i ca ret v → 0 ≤ ret → v.ty ≠ ca.ty → other.ty = ca.ty → other.encode = v.encode →
      Outcome cfg server i ca ret (some other)
  | unreadable : Ran cfg server i ca ret v → 0 ≤ ret → v.ty ≠ ca.ty →
      (∀ other : Val, other.ty = ca.ty → other.encode ≠ v.encode) →
      Outcome cfg server i ca RpcConst.unmarshalReplyFailure none
  | failed : Ran cfg server i ca RpcConst.unmarshalArgsFailure v →
      Outcome cfg server i ca RpcConst.unmarshalArgsFailure none
  | undecoded : cfg.procs ca.header.proc = some handler → ca.args.map Val.ty ≠ handler.args → NotRun server i ca →
      Outcome cfg server i ca RpcConst.unmarshalArgsFailure none
  | stale : ca.header.srvNonce ≠ 0 → ca.header.srvNonce ≠ cfg.nonce → NotRun server i ca →
      Outcome cfg server i ca RpcConst.oldsrvFailure none

end YfsLab.Outcomes
