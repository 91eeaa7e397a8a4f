import YfsLab.AtMostOnce
import YfsLab.LockServer
import YfsLab.RightResult

namespace YfsLab.LockClients
open RpcSystem (Conn)
open Rpcc (Caller)
open CallTable (Kept)
open AtMostOnce (PromptAll)

-- The methods of lock_client, with their numbers in lock_protocol.
inductive Method where
  | acquire | release | stat
  deriving DecidableEq, Repr

def Method.proc : Method → UInt32
  | .acquire => 0x7001
  | .release => 0x7002
  | .stat => 0x7004

def method (proc : UInt32) : Option Method :=
  if proc = Method.acquire.proc then some .acquire
  else if proc = Method.release.proc then some .release
  else if proc = Method.stat.proc then some .stat
  else none

-- The registrations of lock_smain. All three methods return OK; acquire and
-- release pack an r that nobody has set.
def lockHandler : Rpcs.Handler := ⟨[.int,.ulonglong],.int,fun _ ret _ => ret == 0⟩

def lockSmain (nonce : UInt32) : Rpcs.Config := ⟨nonce,fun proc => (method proc).map fun _ => lockHandler⟩

def invoked {C : Type} (job : Rpcs.Job C) : Option (Method × Nat × UInt64) :=
  match method job.h.proc,Rpcs.arguments lockHandler job with
  | some m,some [.int clt,.ulonglong lid] => some (m,clt.toUInt32.toNat,lid)
  | _,_ => none

-- A dispatch thread inside acquire or release, for whom and for which lock.
structure Turn where
  thread : Nat
  clt : Nat
  lid : UInt64
  deriving DecidableEq, Repr

-- The lock clients with the RPC system under them, and the lock server that its
-- dispatch threads run in. `granted` and `released` are history: the acquires
-- that were through and the releases that were begun.
structure State (ι : Type) where
  rpc : RpcSystem.State ι
  locks : LockServer.State
  granted : List Turn
  released : List Turn

def initial {ι : Type} (nonces : ι → UInt32) (retrans : ι → Bool) : State ι :=
  ⟨RpcSystem.initial nonces retrans,LockServer.initial,[],[]⟩

inductive Label (ι : Type) where
  | bind (i : ι) (junk : Nat → UInt8)
  | call (i : ι) (m : Method) (lid : UInt64) (junk : Nat → UInt8)
  | enter (j : Nat)
  | go (k : Nat)
  | rpc (label : RpcSystem.Label ι)

section Steps
variable {ι : Type} [DecidableEq ι]

-- cl->call(lock_protocol::m, cl->id(), lid, r).
def lockCall (clt : UInt32) (m : Method) (lid : UInt64) (junk : Nat → UInt8) : Rpcc.Label :=
  .call m.proc [.uint clt,.ulonglong lid] .int junk

def enter (s : State ι) (j : Nat) : Option (State ι) :=
  match s.rpc.server.jobs[j]? with
  | none => none
  | some job =>
    if job.pc = .run ∧ ∀ call ∈ s.locks.calls, call.thread ≠ j then
      match invoked job with
      | some (.acquire,clt,lid) =>
        (LockServer.step s.locks (.acquire j clt lid)).map fun locks => {s with locks:=locks}
      | some (.release,clt,lid) =>
        (LockServer.step s.locks (.release j clt lid)).map fun locks =>
          {s with locks:=locks,released:=s.released ++ [⟨j,clt,lid⟩]}
      | _ => none
    else none

def go (s : State ι) (k : Nat) : Option (State ι) :=
  match s.locks.calls[k]? with
  | none => none
  | some call =>
    (LockServer.step s.locks (.step k)).map fun locks =>
      {s with
        locks:=locks
        granted:=if call.pc = .reply then s.granted ++ [⟨call.thread,call.clt,call.lid⟩] else s.granted}

def answers (s : State ι) (j : Nat) (r : Val) : Bool :=
  match (s.rpc.server.jobs[j]?).bind invoked with
  | none => true
  | some (.stat,_,_) => r == .int (Int32.ofInt (LockServer.stat s.locks))
  | some _ => s.locks.calls.any fun call => call.thread == j && call.pc == .returned

def rpcStep (nonce : UInt32) (s : State ι) (label : RpcSystem.Label ι) : Option (State ι) :=
  (RpcSystem.step (lockSmain nonce) s.rpc label).map fun rpc => {s with rpc:=rpc}

-- All calls of a client are those of lock_client. After an assertion has
-- failed in the server none of its threads goes on.
def step (nonce : UInt32) (s : State ι) : Label ι → Option (State ι)
  | .bind i junk => rpcStep nonce s (.client i (.call RpcConst.bind [.int 0] .int junk))
  | .call i m lid junk => rpcStep nonce s (.client i (lockCall (s.rpc.clients i).cltNonce m lid junk))
  | .enter j => if s.rpc.server.crashed then none else enter s j
  | .go k => if s.rpc.server.crashed then none else go s k
  | .rpc (.client _ (.call _ _ _ _)) => none
  | .rpc (.server (.run j ret r)) => if answers s j r then rpcStep nonce s (.server (.run j ret r)) else none
  | .rpc label => rpcStep nonce s label

def asks (clt : UInt32) (m : Method) (lid : UInt64) (ca : Caller) : Bool :=
  ca.header.proc == m.proc && ca.args == [.uint clt,.ulonglong lid]

def returnedOk : Rpcc.Pc → Bool
  | .returned ret _ => ret == 0
  | _ => false

def acquired (s : State ι) (i : ι) (lid : UInt64) : Nat :=
  (s.rpc.clients i).callers.countP fun ca => asks (s.rpc.clients i).cltNonce .acquire lid ca && returnedOk ca.pc

def releases (s : State ι) (i : ι) (lid : UInt64) : Nat :=
  (s.rpc.clients i).callers.countP fun ca => asks (s.rpc.clients i).cltNonce .release lid ca

def Owns (s : State ι) (i : ι) (lid : UInt64) : Prop := releases s i lid < acquired s i lid

def Careful (s : State ι) : Label ι → Prop
  | .call i .release lid _ => Owns s i lid
  | _ => True

def Prompt (nonces : ι → UInt32) (s : State ι) : Label ι → Prop
  | .rpc label => PromptAll nonces s.rpc label
  | _ => True

def Proper (nonces : ι → UInt32) (s : State ι) (label : Label ι) : Prop := Careful s label ∧ Prompt nonces s label

instance (s : State ι) (i : ι) (lid : UInt64) : Decidable (Owns s i lid) :=
  inferInstanceAs (Decidable (releases s i lid < acquired s i lid))

instance (s : State ι) : (label : Label ι) → Decidable (Careful s label)
  | .call i .release lid _ => inferInstanceAs (Decidable (Owns s i lid))
  | .call _ .acquire _ _ | .call _ .stat _ _ | .bind _ _ | .enter _ | .go _ | .rpc _ => inferInstanceAs (Decidable True)

instance [Fintype ι] (nonces : ι → UInt32) (s : State ι) : (label : Label ι) → Decidable (Prompt nonces s label)
  | .rpc label => inferInstanceAs (Decidable (∀ i, AtMostOnce.Prompt (nonces i) s.rpc label))
  | .call _ _ _ _ | .bind _ _ | .enter _ | .go _ => inferInstanceAs (Decidable True)

instance [Fintype ι] (nonces : ι → UInt32) (s : State ι) (label : Label ι) : Decidable (Proper nonces s label) :=
  inferInstanceAs (Decidable (Careful s label ∧ Prompt nonces s label))

-- What a step does to the RPC system: a bind or a call of lock_client, a result
-- that the method has returned, or a step that is none of the clients' calls.
inductive Through (s : State ι) : Label ι → RpcSystem.Label ι → Prop where
  | bind : Through s (.bind i junk) (.client i (.call RpcConst.bind [.int 0] .int junk))
  | call : Through s (.call i m lid junk) (.client i (lockCall (s.rpc.clients i).cltNonce m lid junk))
  | run : answers s j r = true → Through s (.rpc (.server (.run j ret r))) (.server (.run j ret r))
  | rpc : (∀ i proc args ty junk, label ≠ .client i (.call proc args ty junk)) →
      (∀ j ret r, label ≠ .server (.run j ret r)) → Through s (.rpc label) label

inductive Step (nonce : UInt32) (s : State ι) : Label ι → State ι → Prop where
  | rpc {inner : RpcSystem.Label ι} : Through s label inner → RpcSystem.step (lockSmain nonce) s.rpc inner = some rpc →
      Step nonce s label {s with rpc:=rpc}
  | acquire : s.rpc.server.jobs[j]? = some job → job.pc = .run → (∀ call ∈ s.locks.calls, call.thread ≠ j) →
      invoked job = some (.acquire,clt,lid) → LockServer.step s.locks (.acquire j clt lid) = some locks →
      Step nonce s (.enter j) {s with locks:=locks}
  | release : s.rpc.server.jobs[j]? = some job → job.pc = .run → (∀ call ∈ s.locks.calls, call.thread ≠ j) →
      invoked job = some (.release,clt,lid) → LockServer.step s.locks (.release j clt lid) = some locks →
      Step nonce s (.enter j) {s with locks:=locks,released:=s.released ++ [⟨j,clt,lid⟩]}
  | go : s.locks.calls[k]? = some call → LockServer.advance s.locks k call = some locks →
      Step nonce s (.go k)
        {s with
          locks:=locks
          granted:=if call.pc = .reply then s.granted ++ [⟨call.thread,call.clt,call.lid⟩] else s.granted}

variable {nonce : UInt32} {nonces : ι → UInt32} {retrans : ι → Bool} {s s' : State ι} {label : Label ι}
  {labels : List (Label ι)} {i : ι} {lid : UInt64}

theorem rpcStep_sound {inner : RpcSystem.Label ι} (through : Through s label inner)
    (taken : rpcStep nonce s inner = some s') : Step nonce s label s' := by
  obtain ⟨rpc,moved,rfl⟩ := Option.map_eq_some_iff.mp taken
  exact .rpc through moved

theorem enter_sound (taken : enter s j = some s') : Step nonce s (.enter j) s' := by
  unfold enter at taken
  cases there : s.rpc.server.jobs[j]? with
  | none => simp [there] at taken
  | some job =>
    simp only [there] at taken
    obtain ⟨⟨pc,fresh⟩,taken⟩ := Option.ite_none_right_eq_some.mp taken
    split at taken
    · rename_i clt lid asked
      obtain ⟨locks,moved,rfl⟩ := Option.map_eq_some_iff.mp taken
      exact .acquire there pc fresh asked moved
    · rename_i clt lid asked
      obtain ⟨locks,moved,rfl⟩ := Option.map_eq_some_iff.mp taken
      exact .release there pc fresh asked moved
    · cases taken

theorem go_sound (taken : go s k = some s') : Step nonce s (.go k) s' := by
  unfold go at taken
  cases there : s.locks.calls[k]? with
  | none => simp [there] at taken
  | some call =>
    simp only [there] at taken
    obtain ⟨locks,moved,rfl⟩ := Option.map_eq_some_iff.mp taken
    obtain ⟨same,again,moved⟩ := Option.bind_eq_some_iff.mp moved
    cases Option.some.inj (there.symm.trans again)
    exact .go there moved

theorem step_sound (taken : step nonce s label = some s') : Step nonce s label s' := by
  cases label with
  | bind i junk => exact rpcStep_sound .bind taken
  | call i m lid junk => exact rpcStep_sound .call taken
  | enter j =>
    simp only [step] at taken
    split at taken
    · cases taken
    · exact enter_sound taken
  | go k =>
    simp only [step] at taken
    split at taken
    · cases taken
    · exact go_sound taken
  | rpc label =>
    have other : (∀ i proc args ty junk, label ≠ .client i (.call proc args ty junk)) →
        (∀ j ret r, label ≠ .server (.run j ret r)) → rpcStep nonce s label = some s' → Step nonce s (.rpc label) s' :=
      fun notCall notRun moved => rpcStep_sound (.rpc notCall notRun) moved
    cases label with
    | client i inner =>
      cases inner with
      | call => cases taken
      | _ => exact other (by simp) (by simp) taken
    | server inner =>
      cases inner with
      | run j ret r =>
        obtain ⟨answered,taken⟩ := Option.ite_none_right_eq_some.mp taken
        exact rpcStep_sound (.run answered) taken
      | _ => exact other (by simp) (by simp) taken
    | _ => exact other (by simp) (by simp) taken

omit [DecidableEq ι] in
theorem Through.prompt {inner : RpcSystem.Label ι} (through : Through s label inner) (proper : Proper nonces s label) :
    PromptAll nonces s.rpc inner := by
  cases through with
  | bind | call => exact fun _ => trivial
  | run | rpc => exact proper.2

theorem runs_rpc (path : Machine.Runs (step nonce) (Proper nonces) (initial nonces retrans) labels s) :
    ∃ inner, Machine.Runs (RpcSystem.step (lockSmain nonce)) (PromptAll nonces) (RpcSystem.initial nonces retrans)
      inner s.rpc := by
  induction path with
  | nil => exact ⟨[],.nil⟩
  | snoc _ proper taken ih =>
    obtain ⟨inner,prior⟩ := ih
    cases step_sound taken with
    | rpc through moved => exact ⟨_,.snoc prior (through.prompt proper) moved⟩
    | acquire | release | go => exact ⟨inner,prior⟩

section Rpc
variable {cfg : Rpcs.Config} {rpc rpc' : RpcSystem.State ι} {inner : List (RpcSystem.Label ι)}

def Replied (nonces : ι → UInt32) (rpc : RpcSystem.State ι) : Prop :=
  ∀ (i : ι) (k : Nat) (ca : Caller), (rpc.clients i).callers[k]? = some ca → ca.done = true →
    RightResult.Holds rpc.server.trace (nonces i) ca

theorem step_replied {between : RpcSystem.Label ι} (sound : RpcSystem.Sound cfg nonces rpc)
    (routed : ∀ i, RpcSystem.Routed nonces i rpc) (replied : Replied nonces rpc)
    (rule : RpcSystem.Step cfg rpc between rpc') : Replied nonces rpc' := by
  intro i k ca' found done
  have kept : ∀ event ∈ rpc.server.trace, event ∈ rpc'.server.trace := fun _ => RpcSystem.step_trace rule
  rcases RpcSystem.step_client rule i with same | ⟨label,moved,why⟩
  · exact (replied i k ca' (same ▸ found) done).later kept rfl rfl rfl
  · rcases CallTable.step_origin moved found with ⟨ca,old,static⟩ | ⟨_,_,_,_,_,_,rfl⟩
    · obtain ⟨other,now,how⟩ := CallTable.step_consumes (sound.linked i) moved old
      cases Option.some.inj (found.symm.trans now)
      rcases how with ⟨un,intret,same⟩ | ⟨pdu,rfl,_,xid,_,rfl⟩
      · exact (replied i k ca old (same ▸ done)).later kept static.xid un intret
      · rcases why with ⟨_,notGot⟩ | ⟨n,c,bytes,_,flying,fits,own⟩
        · cases notGot
        · cases own
          obtain ⟨j,cb,b,_,genuine,rfl⟩ := (routed i).replies (i,c) pdu (List.mem_of_getElem? flying) rfl
          have asked : cb.xid = ca.xid := by
            obtain ⟨size,junk,body,ret,four,_,layout,_⟩ := genuine
            rw [← xid,(RpcSystem.opened_frame four layout).1]
          exact ⟨b,(asked ▸ genuine).later kept,fits,rfl,rfl⟩
    · cases done

theorem runs_replied {ok : RpcSystem.State ι → RpcSystem.Label ι → Prop} (unique : ∀ i k, nonces k = nonces i → k = i)
    (path : Machine.Runs (RpcSystem.step cfg) ok (RpcSystem.initial nonces retrans) inner rpc) :
    Replied nonces rpc := by
  induction path with
  | nil =>
    intro i k ca found
    simp [RpcSystem.initial,Rpcc.initial] at found
  | snoc prior _ taken ih =>
    apply step_replied (RpcSystem.runs_sound prior) _ ih (RpcSystem.step_sound taken)
    intro i
    exact RpcSystem.runs_routed (unique i) prior

omit [DecidableEq ι] in
theorem returned_ran (sound : RpcSystem.Sound cfg nonces rpc) (replied : Replied nonces rpc) {k : Nat} {ca : Caller}
    (found : (rpc.clients i).callers[k]? = some ca) (pc : ca.pc = .returned ret r) (good : 0 ≤ ret) :
    ∃ j proc args ret' v, .ran j (nonces i) ca.xid proc args ret' v ∈ rpc.server.trace := by
  have value : ret = (Rpcc.result ca).1 := congrArg Prod.fst ((sound.linked i).returned k ca ret r found pc)
  have done : ca.done = true := by
    cases finished : ca.done with
    | true => rfl
    | false =>
      have late : (Rpcc.result ca).1 = RpcConst.timeoutFailure := by
        simp [Rpcc.result,finished,RpcConst.timeoutFailure]
      rw [value,late] at good
      exact absurd good (by decide)
  obtain ⟨b,⟨size,junk,body,ret',four,_,layout,source⟩,_,_,intret⟩ := replied i k ca found done
  rcases source with negative | ⟨j,proc,args,v,ran,_⟩
  · have failed : (Rpcc.result ca).1 = ret' := by
      rw [(RpcSystem.opened_frame four layout).1] at intret
      simp [Rpcc.result,done,intret,negative]
    rw [value,failed] at good
    exact absurd negative (Int32.not_lt.mpr good)
  · exact ⟨j,proc,args,ret',v,ran⟩

end Rpc

def Shaped (nonces : ι → UInt32) (rpc : RpcSystem.State ι) : Prop :=
  ∀ (i : ι) (k : Nat) (ca : Caller), (rpc.clients i).callers[k]? = some ca →
    method ca.header.proc = none ∨ ∃ lid, ca.args = [.uint (nonces i),.ulonglong lid]

theorem step_shaped (linked : ∀ i, CallTable.Linked (nonces i) (s.rpc.clients i)) (shaped : Shaped nonces s.rpc)
    (rule : Step nonce s label s') : Shaped nonces s'.rpc := by
  cases rule with
  | acquire | release | go => exact shaped
  | @rpc _ inner rpc through moved =>
    intro i k ca found
    rcases RpcSystem.step_client (RpcSystem.step_sound moved) i with same | ⟨label,called,why⟩
    · exact shaped i k ca (same ▸ found)
    · rcases CallTable.step_origin called found with ⟨cb,old,kept⟩ | ⟨proc,args,ty,junk,rfl,_,rfl⟩
      · rw [kept.header,kept.args]
        exact shaped i k cb old
      · rcases why with ⟨rfl,_⟩ | ⟨_,_,_,_,_,_,other⟩
        · cases through with
          | bind => exact .inl rfl
          | @call _ _ lid => exact .inr ⟨lid,by rw [← (linked i).sender]; rfl⟩
          | rpc notCall => exact absurd rfl (notCall i proc args ty junk)
        · cases other

theorem runs_shaped (path : Machine.Runs (step nonce) (Proper nonces) (initial nonces retrans) labels s) :
    Shaped nonces s.rpc := by
  induction path with
  | nil =>
    intro i k ca found
    simp [initial,RpcSystem.initial,Rpcc.initial] at found
  | snoc prior _ taken ih =>
    obtain ⟨_,inner⟩ := runs_rpc prior
    exact step_shaped (RpcSystem.runs_sound inner).linked ih (step_sound taken)

section Requests
variable {C : Type} {job : Rpcs.Job C} {clt : UInt32} {m : Method}

-- The int that the server reads has the bytes of the unsigned int that was sent.
theorem lock_arguments (left_ : job.req.rest = encodes [.uint clt,.ulonglong lid]) (ok : job.req.ok = true)
    (inside : job.req.ind ≤ job.req.buf.length) (small : job.req.buf.length < 2^32) :
    Rpcs.arguments lockHandler job = some [.int clt.toInt32,.ulonglong lid] := by
  have bytes : encodes [.uint clt,.ulonglong lid] = encodes [.int clt.toInt32,.ulonglong lid] := by
    simp [encodes,Val.encode]
  rw [bytes] at left_
  obtain ⟨read,_⟩ := Unmarshall.gets_encodes _ (left_.trans (List.append_nil _).symm) ok inside small
  have finished := Unmarshall.okdone_advance ok inside
  rw [left_] at finished
  change (job.req.gets lockHandler.args) = _ at read
  simp only [Rpcs.arguments,read,finished]
  rfl

theorem method_proc (m : Method) : method m.proc = some m := by cases m <;> rfl

theorem proc_method (known : method proc = some m) : proc = m.proc := by
  unfold method at known
  split at known
  · cases known; assumption
  · split at known
    · cases known; assumption
    · obtain ⟨same,known⟩ := Option.ite_none_right_eq_some.mp known
      cases known
      exact same

theorem asks_iff {ca : Caller} :
    asks clt m lid ca = true ↔ ca.header.proc = m.proc ∧ ca.args = [.uint clt,.ulonglong lid] := by
  simp [asks]

theorem invoked_some (known : method job.h.proc = some m)
    (decoded : Rpcs.arguments lockHandler job = some [.int clt.toInt32,.ulonglong lid]) :
    invoked job = some (m,clt.toNat,lid) := by
  simp [invoked,known,decoded]

theorem invoked_none (unknown : method job.h.proc = none) : invoked job = none := by simp [invoked,unknown]

end Requests

omit [DecidableEq ι] in
theorem job_asks {cfg : Rpcs.Config} {rpc : RpcSystem.State ι} {j : Nat} {job : Rpcs.Job (Conn ι)}
    (sound : RpcSystem.Sound cfg nonces rpc) (shaped : Shaped nonces rpc) (found : rpc.server.jobs[j]? = some job) :
    ∃ (k : Nat) (ca : Caller), (rpc.clients job.arrived.1).callers[k]? = some ca ∧ job.h = ca.header ∧
      ∀ m clt lid, invoked job = some (m,clt,lid) ↔
        clt = (nonces job.arrived.1).toNat ∧ asks (nonces job.arrived.1) m lid ca = true := by
  obtain ⟨k,ca,held,header,_,left_,ok,inside,small⟩ := RpcSystem.job_reads sound.requested sound.linked found
  refine ⟨k,ca,held,header,fun m clt lid => ?_⟩
  rw [asks_iff,← header]
  cases known : method job.h.proc with
  | none =>
    rw [invoked_none known]
    constructor
    · intro asked
      cases asked
    · rintro ⟨_,same,_⟩
      rw [same,method_proc] at known
      cases known
  | some m' =>
    have proc := proc_method known
    rcases shaped _ k ca held with none_ | ⟨lid',args⟩
    · rw [← header,known] at none_
      cases none_
    · rw [args] at left_
      rw [invoked_some known (lock_arguments left_ ok inside small),args]
      constructor
      · intro asked
        cases asked
        exact ⟨rfl,proc,rfl⟩
      · rintro ⟨rfl,same,args⟩
        cases args
        rw [same,method_proc] at known
        cases known
        rfl

omit [DecidableEq ι] in
theorem call_asks {cfg : Rpcs.Config} {rpc : RpcSystem.State ι} {j k : Nat} {job : Rpcs.Job (Conn ι)} {ca : Caller}
    (sound : RpcSystem.Sound cfg nonces rpc) (shaped : Shaped nonces rpc) (unique : ∀ k, nonces k = nonces i → k = i)
    (few : (rpc.clients i).callers.length < 2^32)
    (held : (rpc.clients i).callers[k]? = some ca) (found : rpc.server.jobs[j]? = some job)
    (nonce : job.h.cltNonce = nonces i) (xid : job.h.xid = ca.xid) (m : Method) (lid : UInt64) :
    invoked job = some (m,(nonces i).toNat,lid) ↔ asks (nonces i) m lid ca = true := by
  have mine := (sound.owner unique found).mp nonce
  obtain ⟨n,cb,place,header,exactly⟩ := job_asks sound shaped found
  rw [mine] at place exactly
  have same : n = k := (sound.linked i).distinct few place held
    (by rw [← ((sound.linked i).numbered n cb place).2,← header]; exact xid)
  subst same
  cases Option.some.inj (place.symm.trans held)
  rw [exactly]
  exact and_iff_right rfl

def acquiring : LockServer.Pc → Bool
  | .create | .lock | .count | .reply => true
  | _ => false

def releasing : LockServer.Pc → Bool
  | .unlock | .uncount | .answer | .returned => true
  | _ => false

def follows : LockServer.Pc → LockServer.Pc
  | .create => .lock
  | .lock => .count
  | .count => .reply
  | .unlock => .uncount
  | .uncount => .answer
  | .reply | .answer | .returned => .returned

theorem advance_follows {locks locks' : LockServer.State} {call : LockServer.Call}
    (taken : LockServer.advance locks k call = some locks') :
    call.pc ≠ .returned ∧ locks'.calls = locks.calls.set k {call with pc:=follows call.pc} ∧
      locks'.held = if call.pc = .reply then locks.held ++ [(call.clt,call.lid)] else locks.held := by
  unfold LockServer.advance at taken
  cases at_ : call.pc with
  | create =>
    simp only [at_] at taken
    split at taken
    · cases Option.some.inj taken
      exact ⟨by decide,rfl,rfl⟩
    · cases Option.some.inj taken
      exact ⟨by decide,rfl,rfl⟩
  | lock =>
    simp only [at_] at taken
    split at taken
    · cases taken
    · cases Option.some.inj taken
      exact ⟨by decide,rfl,rfl⟩
  | returned => simp [at_] at taken
  | count | reply | unlock | uncount | answer =>
    simp only [at_] at taken
    cases Option.some.inj taken
    exact ⟨by decide,rfl,rfl⟩

-- A call of acquire that has returned was granted; a call of release was begun
-- by the only dispatch that has answered NEW for its request.
def Serves (s : State ι) (call : LockServer.Call) (job : Rpcs.Job (Conn ι)) : Prop :=
  (invoked job = some (.acquire,call.clt,call.lid) ∧
    (acquiring call.pc = true ∨ ⟨call.thread,call.clt,call.lid⟩ ∈ s.granted)) ∨
  (invoked job = some (.release,call.clt,call.lid) ∧ releasing call.pc = true)

structure Entered (s : State ι) : Prop where
  inside : ∀ call ∈ s.locks.calls, ∃ job, s.rpc.server.jobs[call.thread]? = some job ∧ Serves s call job
  begun : ∀ turn ∈ s.released, (∃ call ∈ s.locks.calls, call.thread = turn.thread) ∧
    ∃ job xidRep, s.rpc.server.jobs[turn.thread]? = some job ∧
      invoked job = some (.release,turn.clt,turn.lid) ∧
      .checked turn.thread job.h.cltNonce job.h.xid xidRep .NEW ∈ s.rpc.server.trace
  once : (s.released.map Turn.thread).Nodup
  ran : ∀ j clt' xid proc args ret r, .ran j clt' xid proc args ret r ∈ s.rpc.server.trace →
    ∀ job clt lid, s.rpc.server.jobs[j]? = some job → invoked job = some (.acquire,clt,lid) →
      ⟨j,clt,lid⟩ ∈ s.granted

omit [DecidableEq ι] in
theorem initial_entered (nonces : ι → UInt32) (retrans : ι → Bool) : Entered (initial nonces retrans) := by
  constructor
  · intro call none_
    cases none_
  · intro turn none_
    cases none_
  · exact List.nodup_nil
  · intro j clt' xid proc args ret r none_
    cases none_

theorem invoked_congr {C : Type} {job job' : Rpcs.Job C} (same : job'.pdu = job.pdu) : invoked job' = invoked job := by
  have header : job'.h = job.h := by simp only [Rpcs.Job.h,same]
  simp only [invoked,header,ServerReplies.arguments_congr lockHandler same]

omit [DecidableEq ι] in
theorem Serves.later {call : LockServer.Call} {job job' : Rpcs.Job (Conn ι)} (serves : Serves s call job)
    (same : job'.pdu = job.pdu) (granted : s.granted ⊆ s'.granted) : Serves s' call job' := by
  unfold Serves
  rw [invoked_congr same]
  exact serves.imp (fun acquire => ⟨acquire.1,acquire.2.imp_right fun member => granted member⟩) id

section Server
variable {C : Type} [DecidableEq C] {cfg : Rpcs.Config} {server server' : Rpcs.State C}

theorem step_ran {inner : Rpcs.Label C} (rule : Rpcs.Step cfg server inner server')
    (member : .ran j clt xid proc args ret r ∈ server'.trace) :
    .ran j clt xid proc args ret r ∈ server.trace ∨ (inner = .run j ret r ∧ ∃ job, server.jobs[j]? = some job) := by
  cases rule with
  | accept | collect | dies | refuse | enqueue | take | leave | stale | unguarded | guarded | window
  | undecoded | add | addNothing | decref | chooseNull | chooseMissing => exact .inl member
  | recordKept | recordFirst | recordOther | recordCrash | check | chooseKept | chooseLatest | send | sendOld =>
    rcases List.mem_append.mp member with before | last
    · exact .inl before
    · cases List.mem_singleton.mp last
  | ran held | runCrash held =>
    rcases List.mem_append.mp member with before | last
    · exact .inl before
    · cases List.mem_singleton.mp last
      exact .inr ⟨rfl,_,held⟩

end Server

theorem rpc_job {cfg : Rpcs.Config} {rpc rpc' : RpcSystem.State ι} {inner : RpcSystem.Label ι} {j : Nat}
    {job : Rpcs.Job (Conn ι)} (taken : RpcSystem.step cfg rpc inner = some rpc')
    (held : rpc.server.jobs[j]? = some job) : ∃ job', rpc'.server.jobs[j]? = some job' ∧ job'.pdu = job.pdu := by
  rcases RpcSystem.step_server (RpcSystem.step_sound taken) with ⟨same,_⟩ | ⟨label,moved,_⟩
  · exact ⟨job,same ▸ held,rfl⟩
  · obtain ⟨job',now,pdu,_⟩ := Rpcs.step_job_kept (Rpcs.step_sound moved) held
    exact ⟨job',now,pdu⟩

theorem rpc_ran {inner : RpcSystem.Label ι} {rpc : RpcSystem.State ι} (through : Through s label inner)
    (taken : RpcSystem.step (lockSmain nonce) s.rpc inner = some rpc)
    (member : .ran j clt xid proc args ret r ∈ rpc.server.trace) :
    .ran j clt xid proc args ret r ∈ s.rpc.server.trace ∨
      (answers s j r = true ∧ ∃ job, s.rpc.server.jobs[j]? = some job) := by
  rcases RpcSystem.step_server (RpcSystem.step_sound taken) with ⟨same,_⟩ | ⟨label,moved,why⟩
  · exact .inl (same ▸ member)
  · refine (step_ran (Rpcs.step_sound moved) member).imp_right ?_
    rintro ⟨rfl,there⟩
    rcases why with ⟨rfl,_⟩ | ⟨_,_,_,_,_,_,other⟩
    · cases through with
      | run answered => exact ⟨answered,there⟩
      | rpc _ notRun => exact absurd rfl (notRun j ret r)
    · cases other

omit [DecidableEq ι] in
theorem answers_returned {job : Rpcs.Job (Conn ι)} (answered : answers s j r = true)
    (held : s.rpc.server.jobs[j]? = some job) (asked : invoked job = some (.acquire,clt,lid)) :
    ∃ call ∈ s.locks.calls, call.thread = j ∧ call.pc = .returned := by
  unfold answers at answered
  rw [held,Option.bind_some,asked] at answered
  obtain ⟨call,member,here⟩ := List.any_eq_true.mp answered
  have both : call.thread = j ∧ call.pc = .returned := by simpa using here
  exact ⟨call,member,both⟩

theorem rpc_entered (entered : Entered s) (sound : RpcSystem.Sound (lockSmain nonce) nonces s.rpc)
    {inner : RpcSystem.Label ι} {rpc : RpcSystem.State ι} (through : Through s label inner)
    (taken : RpcSystem.step (lockSmain nonce) s.rpc inner = some rpc) : Entered {s with rpc:=rpc} := by
  have remembered : ∀ event ∈ s.rpc.server.trace, event ∈ rpc.server.trace :=
    fun _ => RpcSystem.step_trace (RpcSystem.step_sound taken)
  constructor
  · intro call member
    obtain ⟨job,held,serves⟩ := entered.inside call member
    obtain ⟨job',now,same⟩ := rpc_job taken held
    exact ⟨job',now,serves.later same fun _ => id⟩
  · intro turn member
    obtain ⟨began,job,xidRep,held,asked,new⟩ := entered.begun turn member
    obtain ⟨job',now,same⟩ := rpc_job taken held
    have header : job'.h = job.h := by simp only [Rpcs.Job.h,same]
    exact ⟨began,job',xidRep,now,(invoked_congr same).trans asked,header ▸ remembered _ new⟩
  · exact entered.once
  · intro j clt' xid proc args ret r member job' clt lid now asked
    have was : ∀ job, s.rpc.server.jobs[j]? = some job → invoked job = some (.acquire,clt,lid) := by
      intro job held
      obtain ⟨other,again,same⟩ := rpc_job taken held
      cases Option.some.inj (now.symm.trans again)
      exact (invoked_congr same).symm.trans asked
    rcases rpc_ran through taken member with before | ⟨answered,job,held⟩
    · obtain ⟨job,_,held,_⟩ := sound.truthful.honest _ before
      exact entered.ran j clt' xid proc args ret r before job clt lid held (was job held)
    · obtain ⟨call,inside,rfl,returned⟩ := answers_returned answered held (was job held)
      obtain ⟨other,again,serves⟩ := entered.inside call inside
      cases Option.some.inj (held.symm.trans again)
      rcases serves with ⟨acquire,place⟩ | ⟨release,_⟩
      · cases (was job held).symm.trans acquire
        rw [returned] at place
        exact place.resolve_left (by decide)
      · cases (was job held).symm.trans release

omit [DecidableEq ι] in
theorem acquire_entered (entered : Entered s) {job : Rpcs.Job (Conn ι)} {j clt : Nat}
    (held : s.rpc.server.jobs[j]? = some job) (asked : invoked job = some (.acquire,clt,lid)) :
    Entered {s with locks:={s.locks with calls:=s.locks.calls ++ [⟨j,clt,lid,.create⟩]}} := by
  refine ⟨fun call member => ?_,fun turn member => ?_,entered.once,entered.ran⟩
  · rcases List.mem_append.mp member with before | last
    · obtain ⟨job,held,serves⟩ := entered.inside call before
      exact ⟨job,held,serves.later rfl fun _ => id⟩
    · cases List.mem_singleton.mp last
      exact ⟨job,held,.inl ⟨asked,.inl rfl⟩⟩
  · obtain ⟨⟨call,inside,same⟩,new⟩ := entered.begun turn member
    exact ⟨⟨call,List.mem_append_left _ inside,same⟩,new⟩

omit [DecidableEq ι] in
theorem release_entered (entered : Entered s) {job : Rpcs.Job (Conn ι)} {j clt : Nat}
    (held : s.rpc.server.jobs[j]? = some job) (asked : invoked job = some (.release,clt,lid))
    (fresh : ∀ call ∈ s.locks.calls, call.thread ≠ j)
    (new : .checked j job.h.cltNonce job.h.xid xidRep .NEW ∈ s.rpc.server.trace) (held' : List (Nat × UInt64)) :
    Entered {s with
      locks:={s.locks with calls:=s.locks.calls ++ [⟨j,clt,lid,.unlock⟩],held:=held'}
      released:=s.released ++ [⟨j,clt,lid⟩]} := by
  have last : (⟨j,clt,lid,.unlock⟩ : LockServer.Call) ∈ s.locks.calls ++ [⟨j,clt,lid,.unlock⟩] := by simp
  refine ⟨fun call member => ?_,fun turn member => ?_,?_,entered.ran⟩
  · rcases List.mem_append.mp member with before | last
    · obtain ⟨job,held,serves⟩ := entered.inside call before
      exact ⟨job,held,serves.later rfl fun _ => id⟩
    · cases List.mem_singleton.mp last
      exact ⟨job,held,.inr ⟨asked,rfl⟩⟩
  · rcases List.mem_append.mp member with before | added
    · obtain ⟨⟨call,inside,same⟩,earlier⟩ := entered.begun turn before
      exact ⟨⟨call,List.mem_append_left _ inside,same⟩,earlier⟩
    · cases List.mem_singleton.mp added
      exact ⟨⟨_,last,rfl⟩,job,xidRep,held,asked,new⟩
  · -- A dispatch that was in a release has its call among those of the server.
    rw [List.map_append,List.nodup_append]
    refine ⟨entered.once,by simp,?_⟩
    intro thread before thread' added
    obtain ⟨turn,member,rfl⟩ := List.mem_map.mp before
    obtain ⟨⟨call,inside,same⟩,_⟩ := entered.begun turn member
    have here : thread' = j := by simpa using added
    rw [← same,here]
    exact fresh call inside

omit [DecidableEq ι] in
theorem go_entered (entered : Entered s) {k : Nat} {call : LockServer.Call} {locks : LockServer.State}
    (there : s.locks.calls[k]? = some call) (taken : LockServer.advance s.locks k call = some locks) :
    Entered {s with
      locks:=locks
      granted:=if call.pc = .reply then s.granted ++ [⟨call.thread,call.clt,call.lid⟩] else s.granted} := by
  obtain ⟨running,calls,_⟩ := advance_follows taken
  have grows : s.granted ⊆ if call.pc = .reply then s.granted ++ [⟨call.thread,call.clt,call.lid⟩] else s.granted := by
    split
    · exact List.subset_append_left _ _
    · exact fun _ => id
  refine ⟨fun other member => ?_,fun turn member => ?_,entered.once,?_⟩
  · rw [calls] at member
    obtain ⟨n,found⟩ := List.mem_iff_getElem?.mp member
    rcases Machine.entry_cases found with ⟨_,rfl⟩ | ⟨_,before⟩
    · obtain ⟨job,held,serves⟩ := entered.inside call (List.mem_of_getElem? there)
      refine ⟨job,held,?_⟩
      rcases serves with ⟨asked,place⟩ | ⟨asked,place⟩
      · refine .inl ⟨asked,?_⟩
        rcases place with place | member
        · cases at_ : call.pc with
          | reply => exact .inr (by simp)
          | create | lock | count => exact .inl rfl
          | unlock | uncount | answer | returned =>
            rw [at_] at place
            cases place
        · exact .inr (grows member)
      · refine .inr ⟨asked,?_⟩
        cases at_ : call.pc with
        | unlock | uncount | answer | returned => rfl
        | create | lock | count | reply =>
          rw [at_] at place
          cases place
    · obtain ⟨job,held,serves⟩ := entered.inside other (List.mem_of_getElem? before)
      exact ⟨job,held,serves.later rfl grows⟩
  · obtain ⟨⟨other,inside,same⟩,new⟩ := entered.begun turn member
    obtain ⟨n,found⟩ := List.mem_iff_getElem?.mp inside
    refine ⟨?_,new⟩
    rw [calls]
    by_cases at_ : n = k
    · subst at_
      cases Option.some.inj (there.symm.trans found)
      exact ⟨_,List.mem_of_getElem? (Machine.entry_self there),same⟩
    · exact ⟨other,List.mem_of_getElem? ((Machine.entry_other at_).trans found),same⟩
  · intro j clt' xid proc args ret r member job clt lid held asked
    exact grows (entered.ran j clt' xid proc args ret r member job clt lid held asked)

def Checked (s : State ι) : Prop :=
  ∀ (j : Nat) (job : Rpcs.Job (Conn ι)), s.rpc.server.jobs[j]? = some job → job.pc = .run →
    ∃ xidRep, .checked j job.h.cltNonce job.h.xid xidRep .NEW ∈ s.rpc.server.trace

theorem step_entered (entered : Entered s) (sound : RpcSystem.Sound (lockSmain nonce) nonces s.rpc)
    (checked : Checked s) (rule : Step nonce s label s') : Entered s' := by
  cases rule with
  | rpc through taken => exact rpc_entered entered sound through taken
  | acquire held pc fresh asked taken =>
    cases Option.some.inj taken
    exact acquire_entered entered held asked
  | release held pc fresh asked taken =>
    cases Option.some.inj taken
    obtain ⟨xidRep,new⟩ := checked _ _ held pc
    exact release_entered entered held asked fresh new _
  | go there taken => exact go_entered entered there taken

theorem runs_checked (nonzero : ∀ i, nonces i ≠ 0)
    (path : Machine.Runs (step nonce) (Proper nonces) (initial nonces retrans) labels s) : Checked s := by
  intro j job held pc
  obtain ⟨_,inner⟩ := runs_rpc path
  have sound := RpcSystem.runs_sound inner
  obtain ⟨_,_,_,_,own,_⟩ := RpcSystem.job_reads sound.requested sound.linked held
  obtain ⟨xidRep,new⟩ := (AtMostOnce.runs_invariant (nonzero job.arrived.1) inner).running j job held pc own
  exact ⟨xidRep,own ▸ new⟩

theorem runs_entered (nonzero : ∀ i, nonces i ≠ 0)
    (path : Machine.Runs (step nonce) (Proper nonces) (initial nonces retrans) labels s) : Entered s := by
  induction path with
  | nil => exact initial_entered nonces retrans
  | snoc prior _ taken ih =>
    obtain ⟨_,inner⟩ := runs_rpc prior
    exact step_entered ih (RpcSystem.runs_sound inner) (runs_checked nonzero prior) (step_sound taken)

-- The locks that clients hold by the server's record are those granted to them
-- that nobody has begun to release for them.
def Turn.of (clt : Nat) (lid : UInt64) (turn : Turn) : Bool := turn.clt == clt && turn.lid == lid

def Ledger (s : State ι) : Prop :=
  ∀ clt lid, s.locks.held.count (clt,lid) + s.released.countP (Turn.of clt lid) = s.granted.countP (Turn.of clt lid)

theorem of_iff {turn : Turn} {clt : Nat} : turn.of clt lid = true ↔ (turn.clt,turn.lid) = (clt,lid) := by
  simp [Turn.of]

theorem counted_turn (clt clt' : Nat) (lid lid' : UInt64) (thread : Nat) (turns : List Turn) :
    (turns ++ [(⟨thread,clt',lid'⟩ : Turn)]).countP (Turn.of clt lid) =
      turns.countP (Turn.of clt lid) + if (clt',lid') = (clt,lid) then 1 else 0 := by
  rw [List.countP_append,List.countP_singleton]
  simp only [of_iff]

theorem step_ledger (ledger : Ledger s) (rule : Step nonce s label s')
    (mine : ∀ turn, s'.released = s.released ++ [turn] → (turn.clt,turn.lid) ∈ s.locks.held) : Ledger s' := by
  intro clt lid
  have before := ledger clt lid
  cases rule with
  | rpc => exact before
  | acquire _ _ _ _ taken =>
    cases Option.some.inj taken
    exact before
  | release _ _ _ _ taken =>
    cases Option.some.inj taken
    have less := Counting.count_erase (· == (clt,lid)) (mine _ rfl)
    simp only [beq_iff_eq] at less
    rw [counted_turn]
    simp only [List.count] at before less ⊢
    omega
  | @go k call locks there taken =>
    obtain ⟨_,_,held⟩ := advance_follows taken
    dsimp only
    rw [held]
    split
    · rw [counted_turn,Counting.count_concat]
      omega
    · exact before

theorem new_once {C : Type} {trace : List (Rpcs.Event C)} {clt xid : UInt32} {i j : Nat} (once : AtMostOnce.ExecutesOnce clt trace)
    (first : .checked i clt xid xidRep .NEW ∈ trace) (second : .checked j clt xid xidRep' .NEW ∈ trace) : i = j := by
  by_contra different
  rcases once.pair first second (by simp [different]) with ⟨past,inside,unique⟩ | ⟨past,inside,unique⟩
  · exact (unique rfl).1 rfl ⟨i,xidRep,inside⟩
  · exact (unique rfl).1 rfl ⟨j,xidRep',inside⟩

structure Grounds (cfg : Rpcs.Config) (nonces : ι → UInt32) (s : State ι) : Prop where
  sound : RpcSystem.Sound cfg nonces s.rpc
  shaped : Shaped nonces s.rpc
  replied : Replied nonces s.rpc
  once : ∀ i, AtMostOnce.ExecutesOnce (nonces i) s.rpc.server.trace
  entered : Entered s
  small : ∀ i, (s.rpc.clients i).callers.length < 2^32
  xids : ∀ i, ((s.rpc.clients i).callers.map Caller.xid).Nodup

def Turn.xid (s : State ι) (turn : Turn) : Option UInt32 := (s.rpc.server.jobs[turn.thread]?).map fun job => job.h.xid

section Counts
variable {cfg : Rpcs.Config}

omit [DecidableEq ι] in
theorem acquired_granted (grounds : Grounds cfg nonces s) (unique : ∀ i k, nonces k = nonces i → k = i) (i : ι)
    (lid : UInt64) : acquired s i lid ≤ s.granted.countP (Turn.of (nonces i).toNat lid) := by
  apply Counting.count_le_keys (fun ca : Caller => some ca.xid) (Turn.xid s)
  · have all : ((s.rpc.clients i).callers.map fun ca => some ca.xid).Nodup := by
      have wrapped := (grounds.xids i).map (Option.some_injective UInt32)
      rwa [List.map_map] at wrapped
    exact all.sublist (List.filter_sublist.map _)
  · intro ca member chosen
    obtain ⟨asked,ok⟩ := Bool.and_eq_true_iff.mp chosen
    rw [(grounds.sound.linked i).sender] at asked
    obtain ⟨k,held⟩ := List.mem_iff_getElem?.mp member
    obtain ⟨r,pc⟩ : ∃ r, ca.pc = .returned 0 r := by
      cases pc : ca.pc with
      | returned ret r =>
        rw [pc] at ok
        exact ⟨r,by rw [eq_of_beq ok]⟩
      | _ => simp [pc,returnedOk] at ok
    obtain ⟨j,proc,args,ret,v,ran⟩ := returned_ran grounds.sound grounds.replied held pc (by decide)
    obtain ⟨job,_,found,nonce,xid,_⟩ := grounds.sound.truthful.honest _ ran
    have invokes := (call_asks grounds.sound grounds.shaped (unique i) (grounds.small i) held found nonce xid
      .acquire lid).mpr asked
    have granted := grounds.entered.ran j _ _ _ _ _ _ ran job _ _ found invokes
    exact ⟨_,granted,by simp [Turn.of],by simp [Turn.xid,found,xid]⟩

omit [DecidableEq ι] in
theorem released_asked (grounds : Grounds cfg nonces s) (unique : ∀ i k, nonces k = nonces i → k = i) (i : ι)
    (lid : UInt64) : s.released.countP (Turn.of (nonces i).toNat lid) ≤ releases s i lid := by
  have found : ∀ turn ∈ s.released, turn.of (nonces i).toNat lid = true →
      ∃ (job : Rpcs.Job (Conn ι)) (xidRep : UInt32) (k : Nat) (ca : Caller), turn.xid s = some job.h.xid ∧
        .checked turn.thread (nonces i) job.h.xid xidRep .NEW ∈ s.rpc.server.trace ∧
        (s.rpc.clients i).callers[k]? = some ca ∧ ca.xid = job.h.xid ∧ asks (nonces i) .release lid ca = true := by
    intro turn member here
    obtain ⟨_,job,xidRep,held,asked,new⟩ := grounds.entered.begun turn member
    obtain ⟨k,ca,place,header,exactly⟩ := job_asks grounds.sound grounds.shaped held
    obtain ⟨own,asking⟩ := (exactly _ _ _).mp asked
    obtain ⟨clt,lock⟩ := Prod.mk.inj (of_iff.mp here)
    have mine := unique i _ (UInt32.toNat_inj.mp (own.symm.trans clt))
    rw [mine,lock] at asking
    rw [mine] at place
    have linked := grounds.sound.linked i
    have nonce : job.h.cltNonce = nonces i := by
      rw [header]
      exact (linked.packed k ca place).sender
    refine ⟨job,xidRep,k,ca,by simp [Turn.xid,held],nonce ▸ new,place,?_,asking⟩
    rw [header]
    exact (linked.numbered k ca place).2.symm
  apply Counting.count_le_keys (Turn.xid s) (fun ca : Caller => some ca.xid)
  · refine List.Nodup.map_on ?_ ((List.Nodup.of_map _ grounds.entered.once).filter _)
    intro first memberFirst second memberSecond same
    obtain ⟨insideFirst,ofFirst⟩ := List.mem_filter.mp memberFirst
    obtain ⟨insideSecond,ofSecond⟩ := List.mem_filter.mp memberSecond
    obtain ⟨job,xidRep,_,_,xid,new,_⟩ := found first insideFirst ofFirst
    obtain ⟨job',xidRep',_,_,xid',new',_⟩ := found second insideSecond ofSecond
    rw [xid,xid'] at same
    rw [← Option.some.inj same] at new'
    exact List.inj_on_of_nodup_map grounds.entered.once insideFirst insideSecond (new_once (grounds.once i) new new')
  · intro turn member here
    obtain ⟨job,_,k,ca,xid,_,place,same,asking⟩ := found turn member here
    refine ⟨ca,List.mem_of_getElem? place,?_,by rw [xid,same]⟩
    rw [(grounds.sound.linked i).sender]
    exact asking

end Counts

theorem runs_grounds (nonzero : ∀ i, nonces i ≠ 0) (unique : ∀ i k, nonces k = nonces i → k = i)
    (path : Machine.Runs (step nonce) (Proper nonces) (initial nonces retrans) labels s)
    (few : ∀ i, Rpcc.Few (s.rpc.clients i)) : Grounds (lockSmain nonce) nonces s := by
  obtain ⟨_,inner⟩ := runs_rpc path
  constructor
  · exact RpcSystem.runs_sound inner
  · exact runs_shaped path
  · exact runs_replied unique inner
  · exact AtMostOnce.runs_once nonzero unique (fun _ _ => id) inner few
  · exact runs_entered nonzero path
  · intro i
    have bound := few i
    unfold Rpcc.Few at bound
    omega
  · intro i
    exact Rpcc.xids_nodup (AtMostOnce.runs_client (unique i) inner.unrestricted (few i)).1 (few i)

section Caller
variable {client client' : Rpcc.State} {inner : Rpcc.Label} {k : Nat} {ca : Caller}

theorem returned_ends (notBind : ca.header.proc ≠ RpcConst.bind) (pc : ca.pc = .returned ret r) :
    Rpcc.stepCaller client k ca inner = none := by
  cases inner <;> simp [Rpcc.stepCaller,pc,notBind]

theorem returned_stays (taken : Rpcc.step client inner = some client') (held : client.callers[k]? = some ca)
    (notBind : ca.header.proc ≠ RpcConst.bind) (pc : ca.pc = .returned ret r) :
    ∃ ca', client'.callers[k]? = some ca' ∧ Kept ca ca' ∧ ca'.pc = ca.pc := by
  rcases CallTable.step_thread taken held with ⟨ca',now,kept,same,_⟩ | ⟨_,moved⟩
  · exact ⟨ca',now,kept,same⟩
  · cases moved.symm.trans (returned_ends notBind pc)

theorem stays_acquired (taken : Rpcc.step client inner = some client') (clt : UInt32) (lid : UInt64) :
    client.callers.countP (fun ca => asks clt .acquire lid ca && returnedOk ca.pc) ≤
      client'.callers.countP (fun ca => asks clt .acquire lid ca && returnedOk ca.pc) := by
  apply Counting.count_le_places
  intro k ca held chosen
  obtain ⟨asked,ok⟩ := Bool.and_eq_true_iff.mp chosen
  obtain ⟨proc,args⟩ := asks_iff.mp asked
  have notBind : ca.header.proc ≠ RpcConst.bind := by rw [proc]; decide
  cases pc : ca.pc with
  | returned ret r =>
    obtain ⟨ca',now,kept,same⟩ := returned_stays taken held notBind pc
    refine ⟨ca',now,?_⟩
    rw [Bool.and_eq_true_iff,asks_iff,kept.header,kept.args,same]
    exact ⟨⟨proc,args⟩,ok⟩
  | _ => simp [pc,returnedOk] at ok

theorem old_releases (taken : Rpcc.step client inner = some client')
    (notCall : ∀ proc args ty junk, inner ≠ .call proc args ty junk) (clt : UInt32) (lid : UInt64) :
    client'.callers.countP (asks clt .release lid) ≤ client.callers.countP (asks clt .release lid) := by
  apply Counting.count_le_places
  intro k ca' now asked
  rcases CallTable.step_origin taken now with ⟨ca,held,kept⟩ | ⟨proc,args,ty,junk,called,_⟩
  · refine ⟨ca,held,?_⟩
    rwa [asks_iff,kept.header,kept.args,← asks_iff] at asked
  · exact absurd called (notCall proc args ty junk)

theorem new_releases (client : Rpcc.State) (clt : UInt32) (lid : UInt64) (proc : UInt32) (args : List Val) (ty : Ty) (junk : Nat → UInt8) :
    (Rpcc.call client proc args ty junk).callers.countP (asks clt .release lid) ≤
      client.callers.countP (asks clt .release lid) +
        if proc = Method.release.proc ∧ args = [.uint clt,.ulonglong lid] then 1 else 0 := by
  unfold Rpcc.call
  split
  · exact Nat.le_add_right _ _
  · rw [List.countP_append,List.countP_singleton]
    simp only [asks_iff,Rpcc.newCaller,Rpcc.requestHeader]
    exact Nat.le_refl _

end Caller

def Disciplined (s : State ι) : Prop := ∀ i lid, releases s i lid ≤ acquired s i lid

theorem step_disciplined (disciplined : Disciplined s) (proper : Proper nonces s label)
    (rule : Step nonce s label s') : Disciplined s' := by
  cases rule with
  | acquire | release | go => exact disciplined
  | @rpc _ between rpc through moved =>
    intro i lid
    have before := disciplined i lid
    rcases RpcSystem.step_client (RpcSystem.step_sound moved) i with same | ⟨inner,taken,why⟩
    · unfold releases acquired
      rw [same]
      exact before
    · have nonce := CallTable.step_nonce taken
      have grown := stays_acquired taken (s.rpc.clients i).cltNonce lid
      unfold releases acquired at before ⊢
      simp only [nonce]
      refine Nat.le_trans ?_ grown
      by_cases called : ∃ proc args ty junk, inner = .call proc args ty junk
      · obtain ⟨proc,args,ty,junk,rfl⟩ := called
        have most := new_releases (s.rpc.clients i) (s.rpc.clients i).cltNonce lid proc args ty junk
        rw [← Option.some.inj taken]
        refine Nat.le_trans most ?_
        split
        · rename_i release
          -- The client owned the lock before it began to release it.
          rcases why with ⟨rfl,_⟩ | ⟨_,_,_,_,_,_,other⟩
          · cases through with
            | bind => exact absurd release.1 (by decide)
            | @call _ m _ _ =>
              cases (method_proc m).symm.trans (release.1 ▸ method_proc .release)
              cases release.2
              exact proper.1
            | rpc notCall => exact absurd rfl (notCall i proc args ty junk)
          · cases other
        · exact before
      · have kept := old_releases taken (fun proc args ty junk same => called ⟨proc,args,ty,junk,same⟩)
          (s.rpc.clients i).cltNonce lid
        exact Nat.le_trans kept before

theorem runs_disciplined (path : Machine.Runs (step nonce) (Proper nonces) (initial nonces retrans) labels s) :
    Disciplined s := by
  apply path.invariant
  · intro i lid
    exact Nat.le_refl 0
  · intro before label after disciplined proper taken
    exact step_disciplined disciplined proper (step_sound taken)

omit [DecidableEq ι] in
theorem released_held {cfg : Rpcs.Config} (before : Grounds cfg nonces s) (after : Grounds cfg nonces s')
    (unique : ∀ i k, nonces k = nonces i → k = i) (disciplined : Disciplined s) (ledger : Ledger s)
    (same : s'.rpc = s.rpc) {turn : Turn} (began : s'.released = s.released ++ [turn]) :
    (turn.clt,turn.lid) ∈ s.locks.held := by
  obtain ⟨_,job,_,held,asked,_⟩ := after.entered.begun turn (by simp [began])
  obtain ⟨_,_,_,_,exactly⟩ := job_asks after.sound after.shaped held
  obtain ⟨own,_⟩ := (exactly _ _ _).mp asked
  have most := released_asked after unique job.arrived.1 turn.lid
  have counted := counted_turn turn.clt turn.clt turn.lid turn.lid turn.thread s.released
  have asked_ : releases s' job.arrived.1 turn.lid = releases s job.arrived.1 turn.lid := by
    unfold releases
    rw [same]
  have fewer := disciplined job.arrived.1 turn.lid
  have granted := acquired_granted before unique job.arrived.1 turn.lid
  have balance := ledger turn.clt turn.lid
  rw [began,← own,counted,if_pos rfl] at most
  rw [← own] at granted
  apply List.count_pos_iff.mp
  omega

theorem step_accounted (accounted : LockServer.Accounted s.locks) (rule : Step nonce s label s')
    (mine : ∀ turn, s'.released = s.released ++ [turn] → (turn.clt,turn.lid) ∈ s.locks.held) :
    LockServer.Accounted s'.locks := by
  cases rule with
  | rpc => exact accounted
  | @acquire j _ clt lid _ _ _ _ _ taken =>
    have honest : LockServer.Honest s.locks (.acquire j clt lid) := trivial
    exact accounted.step honest taken
  | @release j _ clt lid _ _ _ _ _ taken =>
    have honest : LockServer.Honest s.locks (.release j clt lid) := mine _ rfl
    exact accounted.step honest taken
  | go there taken => exact accounted.advance there taken

theorem step_few (rule : Step nonce s label s') (few : ∀ i, Rpcc.Few (s'.rpc.clients i)) (i : ι) :
    Rpcc.Few (s.rpc.clients i) := by
  cases rule with
  | rpc _ moved => exact AtMostOnce.few_before moved few i
  | acquire | release | go => exact few i

theorem runs_locks (nonzero : ∀ i, nonces i ≠ 0) (unique : ∀ i k, nonces k = nonces i → k = i)
    (path : Machine.Runs (step nonce) (Proper nonces) (initial nonces retrans) labels s)
    (few : ∀ i, Rpcc.Few (s.rpc.clients i)) : LockServer.Accounted s.locks ∧ Ledger s := by
  induction path with
  | nil => exact ⟨LockServer.initial_accounted,fun _ _ => rfl⟩
  | @snoc _ before label after prior proper taken ih =>
    have rule := step_sound taken
    have early := step_few rule few
    obtain ⟨accounted,ledger⟩ := ih early
    have grounds := runs_grounds nonzero unique prior early
    have grounds' := runs_grounds nonzero unique (.snoc prior proper taken) few
    have mine : ∀ turn, after.released = before.released ++ [turn] → (turn.clt,turn.lid) ∈ before.locks.held := by
      intro turn began
      apply released_held grounds grounds' unique (runs_disciplined prior) ledger _ began
      cases rule with
      | rpc | acquire | go => simp at began
      | release => rfl
    exact ⟨step_accounted accounted rule mine,step_ledger ledger rule mine⟩

theorem grants_two (held : List (Nat × UInt64)) (lid : UInt64) {one two : Nat} (different : one ≠ two) :
    held.count (one,lid) + held.count (two,lid) ≤ LockServer.grants held lid := by
  induction held with
  | nil => exact Nat.le_refl 0
  | cons grant rest ih =>
    unfold LockServer.grants at ih ⊢
    simp only [List.count_cons,List.countP_cons,beq_iff_eq,decide_eq_true_eq]
    by_cases first : grant = (one,lid)
    · subst first
      simp only [Prod.mk.injEq,different,false_and,if_true,if_false]
      omega
    · by_cases second : grant = (two,lid)
      · subst second
        simp only [Prod.mk.injEq,Ne.symm different,false_and,if_true,if_false]
        omega
      · simp only [first,second,if_false]
        omega

theorem lock_clients_exclude (nonzero : ∀ i, nonces i ≠ 0) (unique : ∀ i k, nonces k = nonces i → k = i)
    (path : Machine.Runs (step nonce) (Proper nonces) (initial nonces retrans) labels s)
    (few : ∀ i, Rpcc.Few (s.rpc.clients i)) :
    (∀ i lid, releases s i lid ≤ acquired s i lid ∧ acquired s i lid ≤ releases s i lid + 1) ∧
    (∀ i k lid, Owns s i lid → Owns s k lid → i = k) ∧
    (∀ i lid, Owns s i lid → lid ∈ s.locks.locked) := by
  have grounds := runs_grounds nonzero unique path few
  obtain ⟨accounted,ledger⟩ := runs_locks nonzero unique path few
  have held : ∀ i lid, acquired s i lid ≤ releases s i lid + s.locks.held.count ((nonces i).toNat,lid) := by
    intro i lid
    have granted := acquired_granted grounds unique i lid
    have asked := released_asked grounds unique i lid
    have balance := ledger (nonces i).toNat lid
    omega
  have single : ∀ lid, LockServer.grants s.locks.held lid ≤ if lid ∈ s.locks.locked then 1 else 0 := by
    intro lid
    have owned := accounted.owned lid
    omega
  have bounded : ∀ i lid, s.locks.held.count ((nonces i).toNat,lid) ≤ LockServer.grants s.locks.held lid := by
    intro i lid
    have two := grants_two s.locks.held lid (Nat.ne_of_lt (Nat.lt_succ_self (nonces i).toNat))
    omega
  refine ⟨fun i lid => ⟨runs_disciplined path i lid,?_⟩,fun i k lid first second => ?_,fun i lid owns => ?_⟩
  · have most := held i lid
    have least := bounded i lid
    have one := single lid
    split at one <;> omega
  · by_contra different
    have apart : (nonces i).toNat ≠ (nonces k).toNat := fun same => different (unique k i (UInt32.toNat_inj.mp same))
    have both := grants_two s.locks.held lid apart
    have one := single lid
    have mine := held i lid
    have yours := held k lid
    unfold Owns at first second
    split at one <;> omega
  · have mine := held i lid
    have least := bounded i lid
    have one := single lid
    unfold Owns at owns
    by_contra free
    rw [if_neg free] at one
    omega

end Steps

-- Two clients and one lock. A call on the first connection of its client goes
-- through dispatch thread j, which may be the n-th inside the lock server.
def sent (i : Bool) (k j : Nat) (connects : Bool) : List (Label Bool) :=
  [.rpc (.client i (.getRefconn k connects)),.rpc (.client i (.send k)),.rpc (.client i (.await k))] ++
    (if connects then [.rpc (.server (.accept (i,0)))] else []) ++
    [.rpc (.arrive 0),.rpc (.server (.take fun _ => 0)),.rpc (.server (.start j)),.rpc (.server (.window j)),
     .rpc (.server (.record j)),.rpc (.server (.check j))]

def answered (i : Bool) (k j : Nat) (r : Int32) : List (Label Bool) :=
  [.rpc (.server (.run j 0 (.int r))),.rpc (.server (.add j)),.rpc (.server (.choose j)),.rpc (.server (.send j)),
   .rpc (.server (.decref j)),.rpc (.deliver 0),.rpc (.client i (.wake k)),.rpc (.client i (.finish k)),
   .rpc (.client i (.ret k))]

def binds (i : Bool) (j : Nat) : List (Label Bool) :=
  .bind i (fun _ => 0) :: sent i 0 j true ++ answered i 0 j 9 ++ [.rpc (.client i (.bound 0))]

def acquires (i : Bool) (k j n : Nat) : List (Label Bool) :=
  .call i .acquire 5 (fun _ => 0) :: sent i k j false ++ [.enter j,.go n,.go n,.go n,.go n] ++ answered i k j 0

def givesBack (i : Bool) (k j n : Nat) : List (Label Bool) :=
  .call i .release 5 (fun _ => 0) :: sent i k j false ++ [.enter j,.go n,.go n,.go n] ++ answered i k j 0

def twoNonces : Bool → UInt32
  | true => 7
  | false => 8

def handedOver : List (Label Bool) :=
  binds true 0 ++ acquires true 1 1 0 ++ givesBack true 2 2 1 ++ binds false 3 ++ acquires false 1 4 2

theorem lock_handed_over :
    ∃ s, Machine.Runs (step 9) (Proper twoNonces) (initial twoNonces fun _ => true) handedOver s ∧
      Owns s false 5 ∧ ¬ Owns s true 5 := by
  have ran : (Machine.exec (Machine.guarded (step 9) (Proper twoNonces)) (initial twoNonces fun _ => true)
      handedOver).map (fun s => (decide (Owns s false 5),(s.rpc.clients true).callers.length,
        (s.rpc.clients false).callers.length)) = some (true,3,2) := by decide +kernel
  obtain ⟨s,path,view⟩ := Machine.guarded_observed ran
  obtain ⟨owns,calls⟩ := Prod.mk.inj view
  obtain ⟨first,second⟩ := Prod.mk.inj calls
  have few : ∀ i, Rpcc.Few (s.rpc.clients i) := by
    intro i
    cases i with
    | true => rw [Rpcc.Few,first]; decide
    | false => rw [Rpcc.Few,second]; decide
  obtain ⟨_,apart,_⟩ := lock_clients_exclude (by decide) (by decide) path few
  refine ⟨s,path,of_decide_eq_true owns,fun other => ?_⟩
  cases apart true false 5 other (of_decide_eq_true owns)

-- The first copy of a release waits in dispatch thread 2, just before the check,
-- while the second, sent over a new connection, is executed and answered. The
-- client acquires the lock again; then thread 2 goes on and unlocks it.
def releasedTwice : List (Label Bool) :=
  binds true 0 ++ acquires true 1 1 0 ++
    .call true .release 5 (fun _ => 0) :: (sent true 2 2 false).dropLast ++
    [.rpc (.client true (.connDies 0)),.rpc (.client true (.timeout 2)),.rpc (.client true (.again 2)),
     .rpc (.client true (.getRefconn 2 true)),.rpc (.client true (.send 2)),.rpc (.client true (.await 2)),
     .rpc (.server (.accept (true,1))),.rpc (.arrive 0),.rpc (.server (.take fun _ => 0)),.rpc (.server (.start 3)),
     .rpc (.server (.window 3)),.rpc (.server (.record 3)),.rpc (.server (.check 3)),.enter 3,.go 1,.go 1,.go 1] ++
    answered true 2 3 0 ++ acquires true 3 4 2 ++
    [.rpc (.server (.check 2)),.enter 2,.go 3,.go 3,.go 3] ++ binds false 5 ++ acquires false 1 6 4

-- Without promptness two clients own one lock.
theorem late_release_breaks_exclusion :
    ∃ s, Machine.Runs (step 9) Careful (initial twoNonces fun _ => true) releasedTwice s ∧
      Owns s true 5 ∧ Owns s false 5 := by
  have ran : (Machine.exec (Machine.guarded (step 9) Careful) (initial twoNonces fun _ => true)
      releasedTwice).map (fun s => (decide (Owns s true 5),decide (Owns s false 5))) = some (true,true) := by
    decide +kernel
  obtain ⟨s,path,view⟩ := Machine.guarded_observed ran
  obtain ⟨first,second⟩ := Prod.mk.inj view
  exact ⟨s,path,of_decide_eq_true first,of_decide_eq_true second⟩

end YfsLab.LockClients
