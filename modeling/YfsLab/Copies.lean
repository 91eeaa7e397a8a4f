import YfsLab.AtMostOnce
import YfsLab.Lib.Counting

namespace YfsLab.Copies
open RpcSystem
open Rpcc (Caller)
open CallTable (Kept)
open AtMostOnce (late step_late)

-- A network that never doubles a request. It may lose and reorder them.
def NoCopies {ι : Type} (_ : State ι) : Label ι → Prop
  | .copyRequest _ => False
  | _ => True

-- The requests the server has been given: in the job queue, or with a dispatch.
section Server
variable {C : Type} [DecidableEq C] {cfg : Rpcs.Config} {server server' : Rpcs.State C} {label : Rpcs.Label C}
variable {property : C × List UInt8 → Bool}

def inServer (property : C × List UInt8 → Bool) (server : Rpcs.State C) : Nat :=
  server.queue.countP property + server.jobs.countP fun job => property (job.arrived,job.pdu)

def given (property : C × List UInt8 → Bool) : Rpcs.Label C → Nat
  | .gotPdu c pdu => if property (c,pdu) then 1 else 0
  | _ => 0

omit [DecidableEq C] in
theorem afterCheck_request (job : Rpcs.Job C) (answer : ReplyWindow.Answer) :
    (Rpcs.afterCheck job answer).arrived = job.arrived ∧ (Rpcs.afterCheck job answer).pdu = job.pdu := by
  unfold Rpcs.afterCheck
  split
  · exact ⟨rfl,rfl⟩
  · exact ⟨rfl,rfl⟩
  · exact ⟨rfl,rfl⟩
  · exact ⟨rfl,rfl⟩

theorem step_requests (rule : Rpcs.Step cfg server label server') :
    (∃ c pdu, label = .gotPdu c pdu ∧ server'.queue = server.queue ++ [(c,pdu)] ∧ server'.jobs = server.jobs) ∨
    (∃ c pdu rest junk, server.queue = (c,pdu) :: rest ∧ server'.queue = rest ∧
      server'.jobs = server.jobs ++ [⟨c,c,pdu,junk,[],.start⟩]) ∨
    (server'.queue = server.queue ∧ (server'.jobs = server.jobs ∨ ∃ (j : Nat) (old new : Rpcs.Job C),
      server.jobs[j]? = some old ∧ server'.jobs = server.jobs.set j new ∧ new.arrived = old.arrived ∧
        new.pdu = old.pdu)) := by
  cases rule with
  | enqueue => exact .inl ⟨_,_,rfl,rfl,rfl⟩
  | take waiting => exact .inr (.inl ⟨_,_,_,_,waiting,rfl,rfl⟩)
  | accept | collect | dies | refuse | runCrash | chooseNull | chooseMissing => exact .inr (.inr ⟨rfl,.inl rfl⟩)
  | check held =>
    exact .inr (.inr ⟨rfl,.inr ⟨_,_,_,held,rfl,(afterCheck_request _ _).1,(afterCheck_request _ _).2⟩⟩)
  | leave held | stale held | unguarded held | guarded held | window held | recordKept held | recordFirst held
  | recordOther held | recordCrash held | undecoded held | ran held | add held | addNothing held | chooseKept held
  | chooseLatest held | send held | sendOld held | decref held =>
    exact .inr (.inr ⟨rfl,.inr ⟨_,_,_,held,rfl,rfl,rfl⟩⟩)

theorem step_inServer (property : C × List UInt8 → Bool) (rule : Rpcs.Step cfg server label server') :
    inServer property server' ≤ inServer property server + given property label := by
  unfold inServer
  rcases step_requests rule with ⟨c,pdu,rfl,queue,jobs⟩ | ⟨c,pdu,rest,junk,waiting,queue,jobs⟩ | ⟨queue,jobs⟩
  · rw [queue,jobs,List.countP_append,List.countP_singleton]
    simp only [given]
    omega
  · rw [queue,jobs,waiting,List.countP_append,List.countP_singleton,List.countP_cons]
    dsimp only
    omega
  · rw [queue]
    rcases jobs with same | ⟨j,old,new,held,same,arrived,pdu⟩
    · rw [same]
      exact Nat.le_add_right _ _
    · have counted := Counting.count_set (fun job : Rpcs.Job C => property (job.arrived,job.pdu)) new held
      rw [arrived,pdu] at counted
      rw [same]
      omega

-- A dispatch passes its handler once, with or without a window for its client.
def ranBy (j : Nat) : Rpcs.Event C → Bool
  | .ran j' _ _ _ _ _ _ => j' == j
  | _ => false

structure PassedOnce (server : Rpcs.State C) (j : Nat) : Prop where
  once : server.trace.countP (ranBy j) ≤ 1
  passed : 0 < server.trace.countP (ranBy j) →
    ∃ job, server.jobs[j]? = some job ∧ (late job.pc ∨ server.crashed = true)

theorem step_ran (rule : Rpcs.Step cfg server label server') (j : Nat) :
    server'.trace.countP (ranBy j) = server.trace.countP (ranBy j) ∨
    (server'.trace.countP (ranBy j) = server.trace.countP (ranBy j) + 1 ∧
      (∃ job, server.jobs[j]? = some job ∧ job.pc = .run) ∧
      ∃ job, server'.jobs[j]? = some job ∧ (late job.pc ∨ server'.crashed = true)) := by
  cases rule with
  | accept | collect | dies | refuse | enqueue | take | leave | stale | unguarded | guarded | window | undecoded | add
  | addNothing | decref | chooseNull | chooseMissing => exact .inl rfl
  | recordKept | recordFirst | recordOther | recordCrash | check | chooseKept | chooseLatest | send | sendOld =>
    exact .inl (by simp [Rpcs.log,Rpcs.setJob,ranBy])
  | @ran j' job handler args ret r held pc =>
    by_cases same : j' = j
    · subst same
      exact .inr ⟨by simp [Rpcs.log,Rpcs.setJob,ranBy],⟨job,held,pc⟩,_,Machine.entry_self held,.inl (.inl rfl)⟩
    · exact .inl (by simp [Rpcs.log,Rpcs.setJob,ranBy,same])
  | @runCrash j' job handler args ret r held pc =>
    by_cases same : j' = j
    · subst same
      exact .inr ⟨by simp [Rpcs.log,ranBy],⟨job,held,pc⟩,job,held,.inr rfl⟩
    · exact .inl (by simp [Rpcs.log,ranBy,same])

theorem step_passedOnce {j : Nat} (passing : PassedOnce server j) (taken : Rpcs.step cfg server label = some server') :
    PassedOnce server' j := by
  have rule := Rpcs.step_sound taken
  have alive := Rpcs.step_alive taken
  rcases step_ran rule j with same | ⟨more,⟨job,held,pc⟩,after⟩
  · exact ⟨same ▸ passing.once,fun some_ => step_late rule alive j (passing.passed (same ▸ some_))⟩
  · have none_ : server.trace.countP (ranBy j) = 0 := by
      apply Nat.eq_zero_of_not_pos
      intro before
      obtain ⟨job',held',there⟩ := passing.passed before
      cases Option.some.inj (held.symm.trans held')
      rw [pc,alive] at there
      simp [late] at there
    exact ⟨by omega,fun _ => after⟩

end Server

-- The calls of one client: the connections of `via` have the request of the
-- call behind them, because they are dead or because the call sent it already
-- and will not send it there again.
section Client
variable {via : Nat → Bool} {client client' : Rpcc.State} {label : Rpcc.Label} {k c : Nat} {ca ca' : Caller}
variable {pdu : List UInt8}

def quiet : Rpcc.Pc → Bool
  | .top transmit => !transmit
  | .sending => false
  | _ => true

structure Spent (via : Nat → Bool) (client : Rpcc.State) (ca : Caller) : Prop where
  quiet : quiet ca.pc = true
  again : client.retrans = false ∨ ∃ c, ca.ch = some c ∧ ∀ c', via c' = true → c' = c

def Behind (via : Nat → Bool) (client : Rpcc.State) (ca : Caller) : Prop :=
  (∀ c, via c = true → client.dead c = true) ∨ Spent via client ca

theorem emits_sending (emitted : Rpcc.emits client label = some (c,pdu)) :
    ∃ (k : Nat) (ca : Caller), label = .send k ∧ client.callers[k]? = some ca ∧ ca.pc = .sending ∧ ca.ch = some c ∧
      client.dead c = false ∧ pdu = frame ca.req := by
  cases label with
  | send k =>
    simp only [Rpcc.emits] at emitted
    split at emitted
    · cases emitted
    · rename_i ca held
      split at emitted
      · rename_i sending
        split at emitted
        · cases emitted
        · rename_i c' here
          split at emitted
          · cases emitted
          · rename_i alive
            cases Option.some.inj emitted
            exact ⟨k,ca,rfl,held,sending,here,by simpa using alive,rfl⟩
      · cases emitted
  | _ => cases emitted

theorem step_setting (taken : Rpcc.step client label = some client') :
    client'.retrans = client.retrans ∧ ∀ c, client.dead c = true → client'.dead c = true := by
  cases own : label.caller with
  | some k =>
    obtain ⟨ca,held,moved⟩ := Rpcc.step_caller own taken
    cases Rpcc.stepCaller_sound moved with
    | getRefconn | moves | finish | bound => exact ⟨rfl,fun _ => id⟩
  | none =>
    cases label with
    | call proc args ty junk =>
      cases Option.some.inj taken
      unfold Rpcc.call
      split
      · exact ⟨rfl,fun _ => id⟩
      · exact ⟨rfl,fun _ => id⟩
    | gotPdu pdu =>
      cases Option.some.inj taken
      by_cases good : (Unmarshall.ofPdu pdu).unpackReplyHeader.2.ok = true
      · rcases Rpcc.gotPdu_cases (s:=client) good with ⟨same,_⟩ | ⟨k,ca,_,_,_,same⟩ <;> rw [same]
        · exact ⟨rfl,fun _ => id⟩
        · exact ⟨rfl,fun _ => id⟩
      · simp [Rpcc.gotPdu,good]
    | connDies c =>
      cases Option.some.inj taken
      exact ⟨rfl,fun other dead => by simp [dead]⟩
    | getRefconn | send | deadline | await | wake | timeout | again | finish | ret | bound => cases own

theorem quiet_stays (moved : Rpcc.stepCaller client k ca label = some client') (silent : quiet ca.pc = true) :
    ∃ new, client'.callers = client.callers.set k new ∧ new.ch = ca.ch ∧
      (quiet new.pc = true ∨ (client.retrans = true ∧ Rpcc.chDead client ca = true)) := by
  cases label with
  | call | gotPdu | connDies => cases moved
  | getRefconn n connects =>
    simp only [Rpcc.stepCaller,Option.ite_none_right_eq_some] at moved
    rw [moved.1] at silent
    cases silent
  | send | deadline | await | finish | ret =>
    simp only [Rpcc.stepCaller,Option.ite_none_right_eq_some,Option.some.injEq] at moved
    obtain ⟨_,rfl⟩ := moved
    exact ⟨_,rfl,rfl,.inl rfl⟩
  | wake | timeout =>
    simp only [Rpcc.stepCaller,Option.ite_none_right_eq_some,Option.some.injEq] at moved
    obtain ⟨_,rfl⟩ := moved
    exact ⟨_,rfl,rfl,.inl rfl⟩
  | again =>
    simp only [Rpcc.stepCaller,Option.ite_none_right_eq_some,Option.some.injEq] at moved
    obtain ⟨_,rfl⟩ := moved
    refine ⟨_,rfl,rfl,?_⟩
    cases back : client.retrans && Rpcc.chDead client ca with
    | true => exact .inr (Bool.and_eq_true_iff.mp back)
    | false => exact .inl rfl
  | bound =>
    simp only [Rpcc.stepCaller,Option.ite_none_right_eq_some] at moved
    obtain ⟨_,moved⟩ := moved
    split at moved
    · cases moved
    · cases Option.some.inj moved
      exact ⟨_,rfl,rfl,.inl rfl⟩

theorem Spent.step (spent : Spent via client ca) (taken : Rpcc.step client label = some client')
    (held : client.callers[k]? = some ca) :
    ∃ ca', client'.callers[k]? = some ca' ∧ Kept ca ca' ∧ Behind via client' ca' := by
  obtain ⟨ca',now,kept⟩ := CallTable.step_kept taken held
  obtain ⟨retrans,dead⟩ := step_setting taken
  refine ⟨ca',now,kept,?_⟩
  rcases CallTable.step_thread taken held with ⟨same,found,_,pc,ch⟩ | ⟨_,moved⟩
  · cases Option.some.inj (now.symm.trans found)
    exact .inr ⟨by rw [pc]; exact spent.quiet,by rw [retrans,ch]; exact spent.again⟩
  · obtain ⟨new,table,ch,back⟩ := quiet_stays moved spent.quiet
    rw [table,Machine.entry_self held] at now
    cases Option.some.inj now
    rcases back with silent | ⟨may,gone⟩
    · exact .inr ⟨silent,by rw [retrans,ch]; exact spent.again⟩
    · apply Or.inl
      intro c' chosen
      rcases spent.again with never | ⟨c,here,only⟩
      · rw [may] at never; cases never
      · rw [Rpcc.chDead,here] at gone
        exact dead c' (only c' chosen ▸ gone)

theorem Behind.step (behind : Behind via client ca) (taken : Rpcc.step client label = some client')
    (held : client.callers[k]? = some ca) :
    ∃ ca', client'.callers[k]? = some ca' ∧ Kept ca ca' ∧ Behind via client' ca' := by
  rcases behind with dead | spent
  · obtain ⟨ca',now,kept⟩ := CallTable.step_kept taken held
    exact ⟨ca',now,kept,.inl fun c chosen => (step_setting taken).2 c (dead c chosen)⟩
  · exact spent.step taken held

-- A call that has the request behind it puts it on none of the connections, and
-- one that puts it on one of them has it behind it from then on.
theorem Behind.silent (behind : Behind via client ca) (chosen : via c = true) (sending : ca.pc = .sending)
    (alive : client.dead c = false) : False := by
  rcases behind with dead | spent
  · rw [dead c chosen] at alive
    cases alive
  · have silent := spent.quiet
    rw [sending] at silent
    cases silent

theorem send_behind (taken : Rpcc.step client (.send k) = some client') (held : client.callers[k]? = some ca)
    (here : ca.ch = some c) (single : client.retrans = false ∨ ∀ c', via c' = true → c' = c) :
    ∃ ca', client'.callers[k]? = some ca' ∧ Kept ca ca' ∧ Behind via client' ca' := by
  obtain ⟨retrans,_⟩ := step_setting taken
  obtain ⟨cb,found,moved⟩ := Rpcc.step_caller rfl taken
  cases Option.some.inj (held.symm.trans found)
  simp only [Rpcc.stepCaller,Option.ite_none_right_eq_some,Option.some.injEq] at moved
  obtain ⟨_,rfl⟩ := moved
  exact ⟨{ca with pc:=.sent},Machine.entry_self held,⟨rfl,rfl,rfl,rfl,rfl⟩,
    .inr ⟨rfl,single.imp_right fun only => ⟨c,here,only⟩⟩⟩

end Client

section System
variable {ι : Type} [DecidableEq ι] {cfg : Rpcs.Config} {nonces : ι → UInt32} {retrans : ι → Bool} {i : ι}
variable {via : Nat → Bool} {x : UInt32} {s s' : State ι} {label : Label ι}

def wanted (i : ι) (via : Nat → Bool) (x : UInt32) (request : Conn ι × List UInt8) : Bool :=
  request.1.1 = i && via request.1.2 && (Unmarshall.ofPdu request.2).unpackReqHeader.1.xid == x

def copies (i : ι) (via : Nat → Bool) (x : UInt32) (s : State ι) : Nat :=
  s.requests.countP (wanted i via x) + inServer (wanted i via x) s.server

omit [DecidableEq ι] in
theorem frame_xid {clt : UInt32} {client : Rpcc.State} {k : Nat} {ca : Caller} (linked : CallTable.Linked clt client)
    (held : client.callers[k]? = some ca) : (Unmarshall.ofPdu (frame ca.req)).unpackReqHeader.1.xid = ca.xid := by
  obtain ⟨size,four,layout⟩ := (linked.packed k ca held).layout
  have framed : frame ca.req = Words.be32 (UInt32.ofNat ca.req.length) ++ ca.header.encode ++ encodes ca.args := by
    rw [frame,layout,List.append_assoc,List.drop_left' four,List.append_assoc]
  rw [framed,Unmarshall.unpackReqHeader_pdu _ _ rfl ca.header]
  exact (linked.numbered k ca held).2

theorem step_copies (i : ι) (via : Nat → Bool) (x : UInt32) (allowed : NoCopies s label) (taken : step cfg s label = some s') :
    copies i via x s' ≤ copies i via x s ∨
    (copies i via x s' ≤ copies i via x s + 1 ∧ ∃ inner c pdu, label = .client i inner ∧
      Rpcc.emits (s.clients i) inner = some (c,pdu) ∧ via c = true ∧
        (Unmarshall.ofPdu pdu).unpackReqHeader.1.xid = x) := by
  cases label with
  | client k inner =>
    simp only [step] at taken
    split at taken
    · cases taken
    · obtain ⟨client,_,rfl⟩ := Option.map_eq_some_iff.mp taken
      simp only [copies,setClient,List.countP_append]
      cases emitted : Rpcc.emits (s.clients k) inner with
      | none => exact .inl (by simp)
      | some sent =>
        obtain ⟨c,pdu⟩ := sent
        simp only [Option.map_some,Option.toList_some,List.countP_singleton]
        cases chosen : wanted i via x ((k,c),pdu) with
        | false => exact .inl (by simp)
        | true =>
          simp only [wanted,Bool.and_eq_true_iff,decide_eq_true_eq,beq_iff_eq] at chosen
          obtain ⟨⟨rfl,used⟩,same⟩ := chosen
          exact .inr ⟨by simp only [if_true]; omega,inner,c,pdu,rfl,emitted,used,same⟩
  | server inner =>
    simp only [step] at taken
    split at taken
    · cases taken
    · rename_i own
      obtain ⟨server,moved,rfl⟩ := Option.map_eq_some_iff.mp taken
      have fewer := step_inServer (wanted i via x) (Rpcs.step_sound moved)
      have nothing : given (wanted i via x) inner = 0 := by
        cases inner with
        | gotPdu => exact absurd rfl own
        | _ => rfl
      exact .inl (by simp only [copies]; omega)
  | arrive n =>
    simp only [step] at taken
    split at taken
    · cases taken
    · rename_i c pdu found
      split at taken
      · obtain ⟨server,moved,rfl⟩ := Option.map_eq_some_iff.mp taken
        have fewer := step_inServer (wanted i via x) (Rpcs.step_sound moved)
        have counted := Counting.count_eraseIdx (wanted i via x) found
        simp only [given] at fewer
        exact .inl (by simp only [copies]; omega)
      · cases taken
  | deliver n =>
    simp only [step] at taken
    split at taken
    · cases taken
    · split at taken
      · cases Option.some.inj taken
        exact .inl (Nat.le_refl _)
      · cases taken
  | loseRequest n =>
    cases Option.some.inj taken
    exact .inl (Nat.add_le_add_right (List.eraseIdx_sublist _ _).countP_le _)
  | loseReply n | copyReply n =>
    cases Option.some.inj taken
    exact .inl (Nat.le_refl _)
  | copyRequest n => exact absurd allowed id

structure Single (i : ι) (via : Nat → Bool) (x : UInt32) (s : State ι) : Prop where
  most : copies i via x s ≤ 1
  behind : 0 < copies i via x s → ∃ (k : Nat) (ca : Caller), (s.clients i).callers[k]? = some ca ∧ ca.xid = x ∧
    Behind via (s.clients i) ca

theorem step_behind (rule : Step cfg s label s') {k : Nat} {ca : Caller} (held : (s.clients i).callers[k]? = some ca)
    (behind : Behind via (s.clients i) ca) :
    ∃ ca', (s'.clients i).callers[k]? = some ca' ∧ Kept ca ca' ∧ Behind via (s'.clients i) ca' := by
  rcases step_client rule i with same | ⟨inner,moved,_⟩
  · rw [same]
    exact ⟨ca,held,.refl ca,behind⟩
  · exact behind.step moved held

theorem step_retrans (rule : Step cfg s label s') : (s'.clients i).retrans = (s.clients i).retrans := by
  rcases step_client rule i with same | ⟨inner,moved,_⟩
  · rw [same]
  · exact (step_setting moved).1

theorem step_single (sound : Sound cfg nonces s) (few : Rpcc.Few (s.clients i)) (one : Single i via x s)
    (single : (s.clients i).retrans = false ∨ ∀ c c', via c = true → via c' = true → c' = c)
    (allowed : NoCopies s label) (taken : step cfg s label = some s') : Single i via x s' := by
  have rule := step_sound taken
  rcases step_copies i via x allowed taken with fewer | ⟨more,inner,c,pdu,rfl,emitted,chosen,same⟩
  · refine ⟨Nat.le_trans fewer one.most,fun some_ => ?_⟩
    obtain ⟨k,ca,held,xid,behind⟩ := one.behind (Nat.lt_of_lt_of_le some_ fewer)
    obtain ⟨ca',now,kept,after⟩ := step_behind rule held behind
    exact ⟨k,ca',now,kept.xid.trans xid,after⟩
  · obtain ⟨k,ca,rfl,held,sending,here,alive,rfl⟩ := emits_sending emitted
    have linked := sound.linked i
    rw [frame_xid linked held] at same
    have first : copies i via x s = 0 := by
      apply Nat.eq_zero_of_not_pos
      intro before
      obtain ⟨k',cb,found,xid,behind⟩ := one.behind before
      have at_ := linked.distinct (Nat.lt_of_lt_of_le few (Nat.sub_le _ _)) held found (same.trans xid.symm)
      subst at_
      cases Option.some.inj (held.symm.trans found)
      exact behind.silent chosen sending alive
    refine ⟨by omega,fun _ => ?_⟩
    cases rule with
    | @client _ _ client _ moved =>
      obtain ⟨ca',now,kept,after⟩ := send_behind moved held here (single.imp_right fun only c' => only c c' chosen)
      refine ⟨k,ca',?_⟩
      simp only [setClient,if_true]
      exact ⟨now,kept.xid.trans same,after⟩
    | network notClient => exact absurd rfl (notClient i _)

theorem runs_single (path : Machine.Runs (step cfg) NoCopies (initial nonces retrans) labels s)
    (few : Rpcc.Few (s.clients i)) (single : retrans i = false ∨ ∀ c c', via c = true → via c' = true → c' = c) :
    Single i via x s ∧ (s.clients i).retrans = retrans i := by
  induction path with
  | nil => exact ⟨⟨Nat.zero_le _,fun some_ => absurd some_ (Nat.lt_irrefl 0)⟩,rfl⟩
  | snoc prior allowed taken ih =>
    obtain ⟨one,same⟩ := ih (AtMostOnce.runs_few (.single allowed taken) few)
    have before := AtMostOnce.runs_few (.single allowed taken) few
    refine ⟨step_single (runs_sound prior) before one (same ▸ single) allowed taken,?_⟩
    rw [step_retrans (step_sound taken),same]

theorem runs_passedOnce {ok : State ι → Label ι → Prop}
    (path : Machine.Runs (step cfg) ok (initial nonces retrans) labels s) (j : Nat) : PassedOnce s.server j := by
  induction path with
  | nil => exact ⟨Nat.zero_le _,fun some_ => absurd some_ (Nat.lt_irrefl 0)⟩
  | snoc _ _ taken ih =>
    rcases step_server (step_sound taken) with ⟨same,_⟩ | ⟨inner,moved,_⟩
    · exact same ▸ ih
    · exact step_passedOnce ih moved

def handled (i : ι) (via : Nat → Bool) (x : UInt32) (s : State ι) : Rpcs.Event (Conn ι) → Bool
  | .ran j _ _ _ _ _ _ => s.server.jobs[j]?.any fun job => wanted i via x (job.arrived,job.pdu)
  | _ => false

theorem Single.place (one : Single i via x s) {j k : Nat} {job other : Rpcs.Job (Conn ι)}
    (held : s.server.jobs[j]? = some job) (chosen : wanted i via x (job.arrived,job.pdu) = true)
    (found : s.server.jobs[k]? = some other) (chosen' : wanted i via x (other.arrived,other.pdu) = true) : j = k := by
  have most : s.server.jobs.countP (fun job => wanted i via x (job.arrived,job.pdu)) ≤ 1 := by
    have total := one.most
    unfold copies inServer at total
    omega
  exact Counting.one_place most held chosen found chosen'

theorem Single.handler (one : Single i via x s) (passing : ∀ j, PassedOnce s.server j) :
    s.server.trace.countP (handled i via x s) ≤ 1 := by
  have dispatch : ∀ event, handled i via x s event = true → ∃ (j : Nat) (job : Rpcs.Job (Conn ι)),
      s.server.jobs[j]? = some job ∧ wanted i via x (job.arrived,job.pdu) = true ∧ ranBy j event = true := by
    intro event chosen
    cases event with
    | ran j =>
      obtain ⟨job,held,wants⟩ := (Option.any_eq_true _ _).mp chosen
      exact ⟨j,job,held,wants,beq_self_eq_true j⟩
    | _ => cases chosen
  by_cases any_ : ∃ event ∈ s.server.trace, handled i via x s event = true
  · obtain ⟨event,_,chosen⟩ := any_
    obtain ⟨j,job,held,wants,_⟩ := dispatch event chosen
    refine Nat.le_trans (List.countP_mono_left fun other _ chosen' => ?_) (passing j).once
    obtain ⟨k,job',found,wants',by_⟩ := dispatch other chosen'
    rw [one.place held wants found wants']
    exact by_
  · have none_ : s.server.trace.countP (handled i via x s) = 0 :=
      List.countP_eq_zero.mpr fun event member chosen => any_ ⟨event,member,chosen⟩
    omega

-- No two dispatches have the same request of the client from these connections,
-- and its handler is called at most once.
structure DispatchedOnce (i : ι) (via : Nat → Bool) (s : State ι) : Prop where
  dispatches : ∀ (j k : Nat) (job other : Rpcs.Job (Conn ι)), s.server.jobs[j]? = some job →
    s.server.jobs[k]? = some other → job.arrived.1 = i → via job.arrived.2 = true → other.arrived.1 = i →
      via other.arrived.2 = true → job.h.xid = other.h.xid → j = k
  handler : ∀ x, s.server.trace.countP (handled i via x s) ≤ 1

theorem runs_dispatchedOnce (path : Machine.Runs (step cfg) NoCopies (initial nonces retrans) labels s)
    (few : Rpcc.Few (s.clients i)) (single : retrans i = false ∨ ∀ c c', via c = true → via c' = true → c' = c) :
    DispatchedOnce i via s := by
  have one := fun x => (runs_single (x:=x) path few single).1
  constructor
  · intro j k job other held found own chosen own' chosen' same
    apply (one job.h.xid).place held _ found _
    · simp [wanted,own,chosen,Rpcs.Job.h]
    · rw [same]
      simp [wanted,own',chosen',Rpcs.Job.h]
  · exact fun x => (one x).handler (runs_passedOnce path)

-- A request is sent once on each connection, and by a client that does not
-- retransmit, once. With nonce 0 the server keeps no window for that client,
-- and needs none.
theorem requests_sent_once (path : Machine.Runs (step cfg) NoCopies (initial nonces retrans) labels s)
    (few : Rpcc.Few (s.clients i)) :
    (∀ c, DispatchedOnce i (· == c) s) ∧ (retrans i = false → DispatchedOnce i (fun _ => true) s) := by
  constructor
  · intro c
    apply runs_dispatchedOnce path few (.inr _)
    intro c₁ c₂ first second
    rw [eq_of_beq first,eq_of_beq second]
  · exact fun never => runs_dispatchedOnce path few (.inl never)

end System

-- A call whose wait ends twice before the server takes its request: it is not
-- sent again, and its handler is called with no window for the client.
def patientCall : List (Label Unit) :=
  [.client () (.call 1 [.int 0] .int (fun _ => 0)),.client () (.getRefconn 0 true),.client () (.send 0),
   .client () (.await 0),.client () (.timeout 0),.client () (.again 0),.client () (.send 0),.client () (.connDies 0),
   .client () (.await 0),.client () (.timeout 0),.client () (.again 0),.client () (.send 0),.server (.accept ((),0)),
   .arrive 0,.server (.take (fun _ => 0)),.server (.start 0),.server (.run 0 0 (.int 9))]

theorem requests_sent_once_patient :
    ∃ labels s, Machine.Runs (step AtMostOnce.services) NoCopies (initial (fun _ : Unit => 0) (fun _ => false)) labels s ∧
      .ran 0 0 1 1 [.int 0] 0 (.int 9) ∈ s.server.trace ∧ DispatchedOnce () (fun _ => true) s := by
  have history : (Machine.exec (step AtMostOnce.services) (initial (fun _ : Unit => 0) (fun _ => false))
      patientCall).map (fun s => (s.server.trace,(s.clients ()).callers.length)) =
      some ([.ran 0 0 1 1 [.int 0] 0 (.int 9)],1) := by decide +kernel
  have single : ∀ label ∈ patientCall, ∀ state, NoCopies state label := by simp [patientCall,NoCopies]
  obtain ⟨s,path,view⟩ := Machine.exec_observed history single
  obtain ⟨trace,count⟩ := Prod.mk.inj view
  have few : Rpcc.Few (s.clients ()) := by rw [Rpcc.Few,count]; decide
  exact ⟨_,s,path,by simp [trace],(requests_sent_once path few).2 rfl⟩

end YfsLab.Copies
