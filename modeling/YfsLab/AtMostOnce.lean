import Mathlib.Data.Fintype.Defs
import YfsLab.Lib.History
import YfsLab.RpcSystem

namespace YfsLab.AtMostOnce
open ReplyWindow (RpcstateT Remembers checkduplicateAndUpdate)
open Rpcs History

section Server
variable {C : Type}

def AnsweredNew (trace : List (Event C)) (clt xid : UInt32) : Prop :=
  ∃ j xidRep, .checked j clt xid xidRep .NEW ∈ trace

def Executed (trace : List (Event C)) (clt xid : UInt32) : Prop :=
  ∃ j proc args ret r, .ran j clt xid proc args ret r ∈ trace

def Acknowledged (trace : List (Event C)) (clt xid : UInt32) : Prop :=
  ∃ j xid' xidRep stat, .checked j clt xid' xidRep stat ∈ trace ∧ xid ≤ xidRep

def Once (clt : UInt32) (past : List (Event C)) : Event C → Prop
  | .checked _ clt' xid _ stat => clt' = clt →
      (stat = .NEW → ¬ AnsweredNew past clt xid) ∧ (Acknowledged past clt xid → stat = .FORGOTTEN)
  | .ran _ clt' xid _ _ _ _ => clt' = clt → ¬ Executed past clt xid
  | _ => True

-- NEW is answered and the handler runs at most once for each xid of the
-- client, and a copy of an acknowledged request is answered FORGOTTEN.
def ExecutesOnce (clt : UInt32) (trace : List (Event C)) : Prop := Always (Once clt) trace

def PromptCheck (clt : UInt32) (s : State C) : Label C → Prop
  | .check j => ∀ job, s.jobs[j]? = some job → job.h.cltNonce = clt → ¬ Acknowledged s.trace clt job.h.xid
  | _ => True

def late (pc : Pc) : Prop := pc = .add ∨ pc = .choose ∨ pc = .send ∨ pc = .decref ∨ pc = .finished

structure Invariant (clt : UInt32) (s : State C) : Prop where
  remembered : ∀ xid, AnsweredNew s.trace clt xid →
    (∃ reply, Remembers s.windows clt xid reply) ∨ Acknowledged s.trace clt xid
  running : ∀ (j : Nat) job, s.jobs[j]? = some job → job.pc = .run → job.h.cltNonce = clt →
    ∃ xidRep, .checked j clt job.h.xid xidRep .NEW ∈ s.trace
  executed : ∀ j xid proc args ret r, .ran j clt xid proc args ret r ∈ s.trace →
    (∃ xidRep, .checked j clt xid xidRep .NEW ∈ s.trace) ∧
      ∃ job, s.jobs[j]? = some job ∧ (late job.pc ∨ s.crashed = true)

theorem initial_invariant (clt : UInt32) : Invariant clt (initial : State C) :=
  ⟨by simp [initial,AnsweredNew],by simp [initial],by simp [initial]⟩

theorem Acknowledged.later {trace later : List (Event C)} (kept : ∀ event ∈ trace, event ∈ later)
    (acknowledged : Acknowledged trace clt xid) : Acknowledged later clt xid := by
  obtain ⟨j,xid',xidRep,stat,member,above⟩ := acknowledged
  exact ⟨j,xid',xidRep,stat,kept _ member,above⟩

variable [DecidableEq C] {cfg : Config} {s s' : State C} {label : Label C} {clt : UInt32} {j : Nat} {job : Job C}

omit [DecidableEq C] in
theorem new_snoc {trace : List (Event C)} {event : Event C} (new : AnsweredNew (trace ++ [event]) clt xid) :
    AnsweredNew trace clt xid ∨ ∃ j xidRep, event = .checked j clt xid xidRep .NEW := by
  obtain ⟨j,xidRep,member⟩ := new
  rcases List.mem_append.mp member with old | last
  · exact .inl ⟨j,xidRep,old⟩
  · exact .inr ⟨j,xidRep,(List.mem_singleton.mp last).symm⟩

theorem step_remembered (valid : Invariant clt s) (step : Step cfg s label s') (xid : UInt32)
    (new : AnsweredNew s'.trace clt xid) :
    (∃ reply, Remembers s'.windows clt xid reply) ∨ Acknowledged s'.trace clt xid := by
  have kept : ∀ event ∈ s.trace, event ∈ s'.trace := fun _ => step_remembers_trace step
  have old : ∀ operation, ReplyWindow.step s.windows operation = some s'.windows →
      ¬ ReplyWindow.Acknowledges clt xid operation → AnsweredNew s.trace clt xid →
      (∃ reply, Remembers s'.windows clt xid reply) ∨ Acknowledged s'.trace clt xid := by
    intro operation taken unacknowledged before
    rcases valid.remembered xid before with ⟨reply,remembers⟩ | acknowledged
    · exact .inl ⟨_,ReplyWindow.step_remembers remembers unacknowledged taken⟩
    · exact .inr (acknowledged.later kept)
  have untouched : s'.windows = s.windows → AnsweredNew s.trace clt xid →
      (∃ reply, Remembers s'.windows clt xid reply) ∨ Acknowledged s'.trace clt xid := by
    intro same before
    rw [same]
    exact (valid.remembered xid before).imp_right (.later kept)
  cases step with
  | accept | collect | dies | refuse | enqueue | take | leave | stale | unguarded | guarded | undecoded
  | addNothing | decref | chooseNull | chooseMissing => exact untouched rfl new
  | recordKept | recordFirst | recordOther | recordCrash | ran | runCrash | chooseKept | chooseLatest | send
  | sendOld =>
    rcases new_snoc new with before | ⟨_,_,other⟩
    · exact untouched rfl before
    · cases other
  | window => exact old (.create _) rfl id new
  | add => exact old (.add _ _ _ _) rfl id new
  | @check j job answer windows held pc answered =>
    rcases new_snoc new with before | ⟨_,_,own⟩
    · by_cases acknowledges : job.h.cltNonce = clt ∧ xid ≤ job.h.xidRep
      · refine .inr ⟨j,job.h.xid,job.h.xidRep,answer.stat,?_,acknowledges.2⟩
        rw [← acknowledges.1]
        exact List.mem_append_right _ (List.mem_singleton.mpr rfl)
      · refine old (.check job.h.cltNonce job.h.xid job.h.xidRep) ?_ acknowledges before
        simp only [ReplyWindow.step,answered,Option.map_some]
        rfl
    · obtain ⟨stat,out⟩ := answer
      cases own
      exact .inl ⟨none,ReplyWindow.new_remembers answered⟩

theorem step_running (nonzero : clt ≠ 0) (valid : Invariant clt s) (step : Step cfg s label s') (i : Nat)
    (job : Job C) (found : s'.jobs[i]? = some job) (pc : job.pc = .run) (own : job.h.cltNonce = clt) :
    ∃ xidRep, .checked i clt job.h.xid xidRep .NEW ∈ s'.trace := by
  have old : s.jobs[i]? = some job → ∃ xidRep, .checked i clt job.h.xid xidRep .NEW ∈ s'.trace :=
    fun before => (valid.running i job before pc own).imp fun _ => step_remembers_trace step
  have rule := step
  rcases step_jobs step with same | ⟨c,pdu,junk,rest,_,same⟩ | ⟨j,before,after,label_,held,same,moves⟩ <;>
    rw [same] at found
  · exact old found
  · rcases Machine.entry_append found with earlier | ⟨_,rfl⟩
    · exact old earlier
    · cases pc
  · rcases Machine.entry_cases found with ⟨rfl,rfl⟩ | ⟨_,earlier⟩
    · have follows := moves.pc
      rw [pc] at follows
      rw [moves.h] at own ⊢
      generalize start : before.pc = earlier at follows
      cases follows with
      | unguarded zero => exact absurd (own.symm.trans zero) nonzero
      | fresh =>
        obtain ⟨answer,table,logged⟩ := check_logs step label_ held start
        rw [own] at logged
        refine ⟨before.h.xidRep,?_⟩
        have new : job = afterCheck before answer := by
          rw [same] at table
          have entry := (Machine.entry_self held).symm.trans (table ▸ Machine.entry_self held)
          exact (Option.some.inj entry).symm
        rw [new] at pc
        unfold afterCheck at pc
        split at pc
        · rename_i stat; rw [stat] at logged; exact logged
        · cases pc
        · cases pc
        · cases pc
    · exact old earlier

theorem step_late (step : Step cfg s label s') (alive : s.crashed = false) (i : Nat)
    (before : ∃ job, s.jobs[i]? = some job ∧ (late job.pc ∨ s.crashed = true)) :
    ∃ job, s'.jobs[i]? = some job ∧ (late job.pc ∨ s'.crashed = true) := by
  obtain ⟨job,held,passed | crashed⟩ := before
  · rcases step_jobs step with same | ⟨c,pdu,junk,rest,_,same⟩ | ⟨j,old,new,_,found,same,moves⟩ <;> rw [same]
    · exact ⟨job,held,.inl passed⟩
    · exact ⟨job,Machine.entry_kept held,.inl passed⟩
    · by_cases at_ : i = j
      · subst at_
        cases Option.some.inj (held.symm.trans found)
        refine ⟨new,Machine.entry_self found,.inl ?_⟩
        have follows := moves.pc
        generalize new.pc = later at follows ⊢
        rcases passed with pc | pc | pc | pc | pc <;> rw [pc] at follows <;> cases follows <;> simp [late]
      · exact ⟨job,(Machine.entry_other at_).trans held,.inl passed⟩
  · rw [alive] at crashed; cases crashed

theorem step_executed (valid : Invariant clt s) (alive : s.crashed = false) (step : Step cfg s label s') (i : Nat)
    (xid proc : UInt32) (args : List Val) (ret : Int32) (r : Val)
    (member : .ran i clt xid proc args ret r ∈ s'.trace) :
    (∃ xidRep, .checked i clt xid xidRep .NEW ∈ s'.trace) ∧
      ∃ job, s'.jobs[i]? = some job ∧ (late job.pc ∨ s'.crashed = true) := by
  have old : .ran i clt xid proc args ret r ∈ s.trace → (∃ xidRep, .checked i clt xid xidRep .NEW ∈ s'.trace) ∧
      ∃ job, s'.jobs[i]? = some job ∧ (late job.pc ∨ s'.crashed = true) := by
    intro before
    obtain ⟨new,place⟩ := valid.executed i xid proc args ret r before
    exact ⟨new.imp fun _ => step_remembers_trace step,step_late step alive i place⟩
  have rule := step
  cases step with
  | accept | collect | dies | refuse | enqueue | take | leave | stale | unguarded | guarded | window
  | undecoded | add | addNothing | decref | chooseNull | chooseMissing => exact old member
  | recordKept | recordFirst | recordOther | recordCrash | check | chooseKept | chooseLatest | send | sendOld =>
    rcases List.mem_append.mp member with before | last
    · exact old before
    · cases List.mem_singleton.mp last
  | ran held pc =>
    rcases List.mem_append.mp member with before | last
    · exact old before
    · cases List.mem_singleton.mp last
      have new := valid.running _ _ held pc rfl
      exact ⟨new.imp fun _ => step_remembers_trace rule,_,Machine.entry_self held,.inl (.inl rfl)⟩
  | runCrash held pc =>
    rcases List.mem_append.mp member with before | last
    · exact old before
    · cases List.mem_singleton.mp last
      have new := valid.running _ _ held pc rfl
      exact ⟨new.imp fun _ => step_remembers_trace rule,_,held,.inr rfl⟩

theorem step_invariant (nonzero : clt ≠ 0) (valid : Invariant clt s) (taken : step cfg s label = some s') :
    Invariant clt s' :=
  have rule := step_sound taken
  ⟨step_remembered valid rule,step_running nonzero valid rule,step_executed valid (step_alive taken) rule⟩

theorem step_executesOnce_before (rule : Step cfg s label s') (after : ExecutesOnce clt s'.trace) :
    ExecutesOnce clt s.trace := by
  rcases step_trace rule with same | ⟨event,same⟩
  · exact same ▸ after
  · rw [same] at after
    exact (always_snoc.mp after).1

def Ordered (clt : UInt32) (s : State C) : Prop :=
  ∀ (j : Nat) job, s.jobs[j]? = some job → job.h.cltNonce = clt → job.h.xidRep < job.h.xid

omit [DecidableEq C] in
theorem ran_once (valid : Invariant clt s) (alive : s.crashed = false) (once : ExecutesOnce clt s.trace)
    (held : s.jobs[j]? = some job) (pc : job.pc = .run) (own : job.h.cltNonce = clt) :
    ¬ Executed s.trace clt job.h.xid := by
  rintro ⟨i,proc,args,ret,r,ran⟩
  obtain ⟨⟨earlierRep,earlier⟩,other,place,passed⟩ := valid.executed i _ _ _ _ _ ran
  obtain ⟨xidRep,new⟩ := valid.running j job held pc own
  by_cases same : i = j
  · subst same
    cases Option.some.inj (held.symm.trans place)
    rcases passed with passed | crashed
    · rw [pc] at passed
      simp [late] at passed
    · rw [alive] at crashed; cases crashed
  · rcases once.pair earlier new (by simp [same]) with ⟨past,inside,unique⟩ | ⟨past,inside,unique⟩
    · exact (unique rfl).1 rfl ⟨i,earlierRep,inside⟩
    · exact (unique rfl).1 rfl ⟨j,xidRep,inside⟩

theorem step_executesOnce (valid : Invariant clt s) (ordered : Ordered clt s) (taken : step cfg s label = some s')
    (before : ExecutesOnce clt s.trace) : ExecutesOnce clt s'.trace ↔ PromptCheck clt s label := by
  have alive := step_alive taken
  cases step_sound taken with
  | accept | collect | dies | refuse | enqueue | take | leave | stale | unguarded | guarded | window
  | undecoded | add | addNothing | decref | chooseNull | chooseMissing => exact iff_of_true before trivial
  | recordKept | recordFirst | recordOther | recordCrash | chooseKept | chooseLatest | send | sendOld =>
    exact iff_of_true (always_snoc.mpr ⟨before,trivial⟩) trivial
  | ran held pc | runCrash held pc =>
    refine iff_of_true (always_snoc.mpr ⟨before,fun own => ?_⟩) trivial
    have unseen := ran_once valid alive before held pc own
    exact unseen
  | @check j job answer windows held pc answered =>
    constructor
    · intro after other found own acknowledged
      cases Option.some.inj (held.symm.trans found)
      have forgotten := ((always_snoc.mp after).2 own).2 acknowledged
      have acknowledges := ReplyWindow.forgotten_acknowledged answered forgotten
      exact UInt32.not_le.mpr (ordered j job held own) acknowledges
    · intro prompt
      refine always_snoc.mpr ⟨before,fun own => ⟨?_,fun acknowledged => ?_⟩⟩
      · intro stat new
        rcases valid.remembered _ new with ⟨reply,remembers⟩ | acknowledged
        · have above : ¬ job.h.xid ≤ job.h.xidRep := UInt32.not_le.mpr (ordered j job held own)
          have answer_ := ReplyWindow.remembers_answer remembers above
          rw [← own,answered,Option.map_some,Option.some.injEq] at answer_
          simp only at answer_
          rw [answer_] at stat
          cases reply <;> cases stat
        · exact prompt job held own acknowledged
      · exact absurd acknowledged (prompt job held own)

end Server

section Clients
open RpcSystem
open Rpcc (Caller)

variable {ι : Type} [DecidableEq ι] {cfg : Config} {nonces : ι → UInt32} {i : ι}
variable {s s' : RpcSystem.State ι} {label : RpcSystem.Label ι}

-- No dispatch thread checks a copy of a request of the client after a request
-- of the client was checked whose xid_rep covers it.
def Prompt (clt : UInt32) (s : RpcSystem.State ι) : RpcSystem.Label ι → Prop
  | .server inner => PromptCheck clt s.server inner
  | _ => True

theorem runs_client (unique : ∀ k, nonces k = nonces i → k = i)
    (path : Machine.Runs (RpcSystem.step cfg) Machine.free (RpcSystem.initial nonces retrans) labels s)
    (few : Rpcc.Few (s.clients i)) :
    Rpcc.Invariant (s.clients i) ∧ ∀ ca ∈ (s.clients i).callers, ca.header.xidRep < ca.header.xid := by
  induction path with
  | nil => exact ⟨Rpcc.initial_invariant _ _,by simp [RpcSystem.initial,Rpcc.initial]⟩
  | @snoc earlier mid label next prior _ taken ih =>
    rcases step_client (RpcSystem.step_sound taken) i with same | ⟨inner,moved,why⟩
    · rw [same] at few ⊢
      exact ih few
    · have before : Rpcc.Few (mid.clients i) := Nat.lt_of_le_of_lt (Rpcc.step_length moved) few
      obtain ⟨valid,ordered⟩ := ih before
      have answering : Rpcc.Answering (mid.clients i) inner := by
        rcases why with ⟨rfl,notGot⟩ | ⟨n,c,pdu,rfl,flying,_,rfl⟩
        · cases inner with
          | gotPdu pdu => cases notGot
          | _ => trivial
        · intro _
          obtain ⟨k,ca,b,found,⟨size,junk,body,ret,four,_,layout,_⟩,rfl⟩ :=
            (runs_routed unique prior).replies (i,c) pdu (List.mem_of_getElem? flying) rfl
          have header := congrArg (fun reply => reply.1.xid) (opened_frame four layout).1
          exact ⟨ca,List.mem_of_getElem? found,header.symm⟩
      refine ⟨Rpcc.step_invariant valid few answering moved,?_⟩
      intro ca member
      obtain ⟨k,inside,rfl⟩ := List.getElem_of_mem member
      rcases CallTable.step_origin moved (List.getElem?_eq_getElem inside) with ⟨cb,old,kept⟩ |
        ⟨proc,args,ty,junk,_,_,made⟩
      · rw [kept.header]
        exact ordered cb (List.mem_of_getElem? old)
      · rw [made]
        exact Rpcc.front_below valid before

theorem runs_ordered (unique : ∀ k, nonces k = nonces i → k = i)
    (path : Machine.Runs (RpcSystem.step cfg) Machine.free (RpcSystem.initial nonces retrans) labels s)
    (few : Rpcc.Few (s.clients i)) : Ordered (nonces i) s.server := by
  intro j job held own
  have sound := runs_sound path
  obtain ⟨k,ca,found,header,_⟩ := job_reads sound.requested sound.linked held
  rw [(sound.owner unique held).mp own] at found
  rw [header]
  exact (runs_client unique path few).2 ca (List.mem_of_getElem? found)

theorem runs_invariant {ok : RpcSystem.State ι → RpcSystem.Label ι → Prop} (nonzero : clt ≠ 0)
    (path : Machine.Runs (RpcSystem.step cfg) ok (RpcSystem.initial nonces retrans) labels s) :
    Invariant clt s.server := by
  induction path with
  | nil => exact initial_invariant clt
  | snoc prior _ taken ih =>
    rcases step_server (RpcSystem.step_sound taken) with ⟨same,_⟩ | ⟨inner,moved,_⟩
    · exact same ▸ ih
    · exact step_invariant nonzero ih moved

theorem runs_few {ok : RpcSystem.State ι → RpcSystem.Label ι → Prop}
    (path : Machine.Runs (RpcSystem.step cfg) ok s labels s') (few : Rpcc.Few (s'.clients i)) :
    Rpcc.Few (s.clients i) := by
  induction path with
  | nil => exact few
  | snoc prior _ taken ih =>
    rcases step_client (RpcSystem.step_sound taken) i with same | ⟨inner,moved,_⟩
    · exact ih (same ▸ few)
    · exact ih (Nat.lt_of_le_of_lt (Rpcc.step_length moved) few)

theorem executes_once_iff_prompt (nonzero : nonces i ≠ 0) (unique : ∀ k, nonces k = nonces i → k = i)
    (path : Machine.Runs (RpcSystem.step cfg) Machine.free (RpcSystem.initial nonces retrans) labels s)
    (few : Rpcc.Few (s.clients i)) :
    ExecutesOnce (nonces i) s.server.trace ↔
      Machine.Runs (RpcSystem.step cfg) (Prompt (nonces i)) (RpcSystem.initial nonces retrans) labels s := by
  apply path.holds_iff (fun s => ExecutesOnce (nonces i) s.server.trace) always_nil .nil
  intro earlier before label after later prior _ taken rest
  have rule := RpcSystem.step_sound taken
  rcases step_server rule with ⟨same,notServer⟩ | ⟨inner,moved,why⟩
  · rw [same]
    refine ⟨fun once => ⟨once,?_⟩,And.left⟩
    cases label with
    | server inner => exact absurd rfl (notServer inner)
    | _ => trivial
  · have fewBefore : Rpcc.Few (before.clients i) :=
      runs_few ((Machine.Runs.single trivial taken).append rest) few
    have exactly := fun once => step_executesOnce (runs_invariant nonzero prior)
      (runs_ordered unique prior fewBefore) moved once
    have prompt : Prompt (nonces i) before label ↔ PromptCheck (nonces i) before.server inner := by
      rcases why with ⟨rfl,_⟩ | ⟨n,c,pdu,rfl,_,_,rfl⟩
      · exact Iff.rfl
      · exact Iff.rfl
    rw [prompt]
    constructor
    · intro once
      have held := step_executesOnce_before (Rpcs.step_sound moved) once
      exact ⟨held,(exactly held).mp once⟩
    · rintro ⟨held,allowed⟩
      exact (exactly held).mpr allowed

-- Prompt for all clients at once.
def PromptAll (nonces : ι → UInt32) (s : RpcSystem.State ι) (label : RpcSystem.Label ι) : Prop :=
  ∀ i, Prompt (nonces i) s label

theorem few_before (taken : RpcSystem.step cfg s label = some s') (few : ∀ i, Rpcc.Few (s'.clients i)) (i : ι) :
    Rpcc.Few (s.clients i) := by
  rcases step_client (RpcSystem.step_sound taken) i with same | ⟨_,moved,_⟩
  · exact same ▸ few i
  · exact Nat.lt_of_le_of_lt (Rpcc.step_length moved) (few i)

theorem runs_once (nonzero : ∀ i, nonces i ≠ 0) (unique : ∀ i k, nonces k = nonces i → k = i)
    {ok : RpcSystem.State ι → RpcSystem.Label ι → Prop} (prompt : ∀ s label, ok s label → PromptAll nonces s label)
    (path : Machine.Runs (RpcSystem.step cfg) ok (RpcSystem.initial nonces retrans) labels s)
    (few : ∀ i, Rpcc.Few (s.clients i)) (i : ι) : ExecutesOnce (nonces i) s.server.trace := by
  induction path with
  | nil => exact always_nil
  | snoc prior allowed taken ih =>
    have before := few_before taken few
    have once := ih before
    rcases step_server (RpcSystem.step_sound taken) with ⟨same,_⟩ | ⟨label,moved,why⟩
    · rw [same]
      exact once
    · have valid := runs_invariant (nonzero i) prior
      have ordered := runs_ordered (unique i) prior.unrestricted (before i)
      refine (step_executesOnce valid ordered moved once).mpr ?_
      rcases why with ⟨rfl,_⟩ | ⟨_,_,_,_,_,_,rfl⟩
      · exact prompt _ _ allowed i
      · trivial

end Clients

section Checks
variable {C : Type}

def acknowledges (clt xid : UInt32) : Event C → Bool
  | .checked _ clt' _ xidRep _ => clt' == clt && decide (xid ≤ xidRep)
  | _ => false

theorem acknowledges_iff {trace : List (Event C)} {clt xid : UInt32} :
    trace.any (acknowledges clt xid) = true ↔ Acknowledged trace clt xid := by
  rw [List.any_eq_true]
  constructor
  · rintro ⟨event,member,above⟩
    cases event with
    | checked j clt' xid' xidRep stat =>
      obtain ⟨same,covered⟩ := Bool.and_eq_true_iff.mp above
      cases eq_of_beq same
      exact ⟨j,xid',xidRep,stat,member,of_decide_eq_true covered⟩
    | recorded | ran | chose | sent => cases above
  · rintro ⟨j,xid',xidRep,stat,member,above⟩
    exact ⟨_,member,by simp [acknowledges,above]⟩

instance (trace : List (Event C)) (clt xid : UInt32) : Decidable (Acknowledged trace clt xid) :=
  decidable_of_iff _ acknowledges_iff

instance (clt : UInt32) (s : State C) : (label : Label C) → Decidable (PromptCheck clt s label)
  | .check j =>
    inferInstanceAs (Decidable (∀ job ∈ s.jobs[j]?, job.h.cltNonce = clt → ¬ Acknowledged s.trace clt job.h.xid))
  | .accept _ | .collect _ | .dies _ | .gotPdu _ _ | .take _ | .start _ | .window _ | .record _ | .run _ _ _ | .add _
  | .choose _ | .send _ | .decref _ => inferInstanceAs (Decidable True)

instance {ι : Type} (clt : UInt32) (s : RpcSystem.State ι) : (label : RpcSystem.Label ι) → Decidable (Prompt clt s label)
  | .server inner => inferInstanceAs (Decidable (PromptCheck clt s.server inner))
  | .client _ _ | .arrive _ | .deliver _ | .loseRequest _ | .loseReply _ | .copyRequest _ | .copyReply _ =>
    inferInstanceAs (Decidable True)

instance {ι : Type} [Fintype ι] (nonces : ι → UInt32) (s : RpcSystem.State ι) (label : RpcSystem.Label ι) :
    Decidable (PromptAll nonces s label) :=
  inferInstanceAs (Decidable (∀ i, Prompt (nonces i) s label))

end Checks

-- The first copy of a bind waits in dispatch thread 0, just before the check,
-- while the second is executed and answered.
def firstCopy : List (RpcSystem.Label Unit) :=
  [.client () (.call 1 [.int 0] .int (fun _ => 0)),.client () (.getRefconn 0 true),.client () (.send 0),
   .client () (.await 0),.server (.accept ((),0)),.arrive 0,.server (.take (fun _ => 0)),.server (.start 0),
   .server (.window 0),.server (.record 0)]

def secondCopy : List (RpcSystem.Label Unit) :=
  [.client () (.connDies 0),.client () (.timeout 0),.client () (.again 0),.client () (.getRefconn 0 true),
   .client () (.send 0),.client () (.await 0),.server (.accept ((),1)),.arrive 0,.server (.take (fun _ => 0)),
   .server (.start 1),.server (.window 1),.server (.record 1),.server (.check 1),.server (.run 1 0 (.int 9)),
   .server (.add 1),.server (.choose 1),.server (.send 1),.deliver 0,.client () (.wake 0),.client () (.finish 0),
   .client () (.ret 0),.client () (.bound 0)]

-- The next request acknowledges the bind, and thread 0 goes on.
def nextCall : List (RpcSystem.Label Unit) :=
  [.client () (.call 2 [.int 5] .int (fun _ => 0)),.client () (.getRefconn 1 false),.client () (.send 1),.arrive 0,
   .server (.take (fun _ => 0)),.server (.start 2),.server (.window 2),.server (.record 2),.server (.check 2),
   .server (.check 0),.server (.run 0 0 (.int 9))]

def services : Config := ⟨9,fun proc => if proc = 2 then some ⟨[.int],.int,fun _ _ _ => true⟩ else none⟩

theorem late_copy_executed_again :
    ¬ ∀ labels s, Machine.Runs (RpcSystem.step services) Machine.free
        (RpcSystem.initial (fun _ : Unit => 7) (fun _ => true)) labels s →
      Rpcc.Few (s.clients ()) → ExecutesOnce 7 s.server.trace := by
  intro always
  have history : (Machine.exec (RpcSystem.step services) (RpcSystem.initial (fun _ : Unit => 7) (fun _ => true))
      (firstCopy ++ secondCopy ++ nextCall)).map (fun s => (s.server.trace,(s.clients ()).callers.length)) =
      some ([.recorded 0 7 ((),0),.recorded 1 7 ((),1),.checked 1 7 1 0 .NEW,.ran 1 7 1 1 [.int 0] 0 (.int 9),
        .chose 1 7 1 ((),1),.sent 1 ((),1),.recorded 2 7 ((),1),.checked 2 7 2 1 .NEW] ++
        .checked 0 7 1 0 .NEW :: [.ran 0 7 1 1 [.int 0] 0 (.int 9)],2) := by decide +kernel
  obtain ⟨s,path,view⟩ := Machine.exec_free_observed history
  obtain ⟨trace,count⟩ := Prod.mk.inj view
  have once := always _ s path (by rw [Rpcc.Few,count]; decide) _ _ _ trace rfl
  exact once.1 rfl ⟨1,0,by simp⟩

theorem first_copy_executes_once :
    ∃ labels s, Machine.Runs (RpcSystem.step services) Machine.free
        (RpcSystem.initial (fun _ : Unit => 7) (fun _ => true)) labels s ∧
      .checked 0 7 1 0 .NEW ∈ s.server.trace ∧ ExecutesOnce 7 s.server.trace := by
  have before : (Machine.exec (RpcSystem.step services) (RpcSystem.initial (fun _ : Unit => 7) (fun _ => true))
      firstCopy).map (fun s => s.server.trace) = some [.recorded 0 7 ((),0)] := by decide +kernel
  have after : (Machine.exec (RpcSystem.step services) (RpcSystem.initial (fun _ : Unit => 7) (fun _ => true))
      (firstCopy ++ [.server (.check 0)])).map (fun s => (s.server.trace,(s.clients ()).callers.length)) =
      some ([.recorded 0 7 ((),0),.checked 0 7 1 0 .NEW],1) := by decide +kernel
  have early : ∀ label ∈ firstCopy, ∀ state, Prompt 7 state label := by simp [firstCopy,Prompt,PromptCheck]
  obtain ⟨mid,prompt,view⟩ := Machine.exec_observed before early
  obtain ⟨s,path,views⟩ := Machine.exec_free_observed after
  obtain ⟨trace,count⟩ := Prod.mk.inj views
  have few : Rpcc.Few (s.clients ()) := by rw [Rpcc.Few,count]; decide
  refine ⟨_,s,path,by simp [trace],?_⟩
  apply (executes_once_iff_prompt (by decide) (fun _ _ => rfl) path few).mpr
  apply prompt.extend path
  intro job _ _ acknowledged
  simp [Acknowledged,view] at acknowledged

end YfsLab.AtMostOnce
